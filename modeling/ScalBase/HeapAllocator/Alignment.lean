/-
  HeapAllocator/Alignment.lean --- the addresses that the allocator hands out.

  Sizes are rounded to multiples of `GENERAL_PURPOSE_MIN`, and blocks are cut off the end of
  the buffer downwards and off the ends of larger blocks.  So every header is a multiple of
  512 below the end of the buffer, in any order of calls, and a pointer is 24 bytes above a
  header: in a buffer that ends at a multiple of `SCAL_DEFAULT_ALIGNMENT`, no pointer
  handed out is one (`generalPurpose_alignment`).
-/
import ScalBase.HeapAllocator.Classes

set_option autoImplicit false

namespace ScalBase.HeapAllocator

open ScalBase.Foundation

variable {used : ListName → Prop} {s t : State} {F F' : Nodes} {fuel size buffer bytes : Nat}
  {memory : Memory} {list : AllocList} {ns : List Nat}

/-- `SCAL_DEFAULT_ALIGNMENT`, what `SMalloc` aligns to. -/
def scalDefaultAlignment : Nat := 16

/-- A multiple of `GENERAL_PURPOSE_MIN` away from the end of the buffer. -/
def OnGrid (s : State) (x : Nat) : Prop :=
  x ≡ s.allocator.mem + s.allocator.size [MOD generalPurposeMin]

/-- The headers of the live blocks and of the free nodes are on the grid. -/
structure Gridded (s : State) (F : Nodes) : Prop where
  live : ∀ ptr ∈ s.live, OnGrid s (header ptr)
  free : ∀ l, ∀ x ∈ F l, OnGrid s x

theorem OnGrid.of_sameBuffer {x : Nat} (h : OnGrid s x)
    (hbuffer : SameBuffer s.allocator t.allocator) : OnGrid t x := by
  rw [OnGrid, hbuffer.1, hbuffer.2]
  exact h

/-! ## Sizes -/

theorem dvd_roundedSize
    (hbucket : requestSize size ≤ generalPurposeMax → (bucketOf (roundedSize size)).isSome) :
    generalPurposeMin ∣ roundedSize size := by
  have hdvd : generalPurposeMin ∣ requestSize size := @dvd_alignSize 9 (by decide) _
  by_cases hlarge : requestSize size > generalPurposeMax
  · rwa [roundedSize, if_pos hlarge]
  · have hmax := Nat.not_lt.mp hlarge
    have hround : roundedSize size = alignPowTwoCeil (requestSize size) := if_neg hlarge
    have hsome := hbucket hmax
    rw [hround] at hsome ⊢
    -- A request of no bytes at all has no bucket.
    have hne : requestSize size ≠ 0 := by
      intro hzero
      rw [hzero] at hsome
      exact absurd hsome (by decide)
    have hle : 2 ^ 9 ≤ requestSize size := Nat.le_of_dvd (Nat.pos_of_ne_zero hne) hdvd
    have hword : requestSize size ≤ 2 ^ 63 := hmax.trans (by decide)
    obtain ⟨k, hk, hceil, -⟩ := alignPowTwoCeil_spec (show 1 < requestSize size by omega) hword
    rw [hk]
    exact Nat.pow_dvd_pow 2 ((Nat.pow_le_pow_iff_right (by decide)).mp (hle.trans hceil))

/-! ## Where a block comes from -/

/-- A node of the lists, or a block of `bytes` bytes that was no node. -/
def Source (F : Nodes) (bytes : Nat) (memory : Memory) (node : Nat) : Prop :=
  (∃ l, node ∈ F l) ∨ (memory node).size = bytes

theorem splitMemNode_size (memory : Memory) (node bytes : Nat) :
    ((splitMemNode memory node bytes).2 (splitMemNode memory node bytes).1).size = bytes := by
  unfold splitMemNode
  simp only [setSize_self]

/-- `FindMemNode` finds a node of the list, or cuts one of `bytes` bytes. -/
theorem findMemNode_source (h : FreeList memory list ns) (hword : ∀ x ∈ ns, x < 2 ^ 64)
    (hfuel : ns.length < fuel) :
    ∃ r, findMemNode fuel memory list bytes = some r ∧
      r.1 < 2 ^ 64 ∧ (r.1 = 0 ∨ r.1 ∈ ns ∨ (r.2.1 r.1).size = bytes) := by
  refine Loop.run_list (fun xs ys node => ns = xs ++ ys ∧ node = ys.headD 0) _ ?_ ?_
    ⟨rfl, h.head_eq⟩ hfuel
  · intro xs node hI
    exact ⟨_, if_pos hI.2, Nat.two_pow_pos 64, Or.inl rfl⟩
  · intro xs x ys node hI
    obtain ⟨hns, hnode⟩ := hI
    rw [List.headD_cons] at hnode
    subst hns hnode
    have hmem : node ∈ xs ++ node :: ys := List.mem_append_cons_self
    rw [findTurn, if_neg (h.ne_zero hmem)]
    split_ifs with hsmall hwhole
    · exact Or.inr ⟨_, rfl, List.append_cons .., h.next_eq⟩
    · exact Or.inl ⟨_, rfl, hword node hmem, Or.inr (Or.inl hmem)⟩
    · have hcut := splitMemNode_size memory node bytes
      exact Or.inl ⟨_, rfl, Nat.mod_lt _ (Nat.two_pow_pos 64), Or.inr (Or.inr hcut)⟩

theorem Layout.free_word (h : Layout used [] s F) {l : ListName} {x : Nat} (hx : x ∈ F l) :
    x < 2 ^ 64 := by
  have hbounds := h.tiles.bounds
    (Multiset.mem_add.mpr (Or.inr (Multiset.mem_add.mpr (Or.inr (mem_freeBlocks hx)))))
  exact ((Nat.le_add_right ..).trans hbounds.2).trans_lt h.top_lt

/-- A node found in the lists is one of them, or has been cut off to the size. -/
theorem takeFree_source (h : Layout used [] s F) (hfuel : 2 ^ 64 ≤ fuel)
    {r : Nat × Memory × GeneralPurposeAllocator}
    (hr : takeFree fuel s.memory s.allocator size = some r) :
    r.1 < 2 ^ 64 ∧ (r.1 = 0 ∨ Source F (roundedSize size) r.2.1 r.1) := by
  unfold takeFree at hr
  split_ifs at hr with hlarge
  · obtain ⟨u, hu, hword, hsource⟩ := @findMemNode_source fuel (roundedSize size) s.memory
      s.allocator.large (F none) (h.lists none) (fun x hx => h.free_word hx)
      (Nat.lt_of_lt_of_le (h.length_lt none) hfuel)
    rw [hu, Option.map_some, Option.some.injEq] at hr
    subst hr
    exact ⟨hword, hsource.imp id (Or.imp (fun hmem => ⟨none, hmem⟩) id)⟩
  · obtain ⟨i, -, rfl⟩ := Option.map_eq_some_iff.mp hr
    have hlist : FreeList s.memory (s.allocator.buckets i) (F (some i)) := h.lists (some i)
    split_ifs with hhead
    · have hmem : (s.allocator.buckets i).head ∈ F (some i) := by
        cases hF : F (some i) with
        | nil => exact absurd (hlist.head_eq.trans (by rw [hF, List.headD_nil])) hhead
        | cons x ns =>
          rw [hlist.head_eq, hF, List.headD_cons]
          exact List.mem_cons_self ..
      exact ⟨h.free_word hmem, Or.inr (Or.inl ⟨some i, hmem⟩)⟩
    · exact ⟨Nat.two_pow_pos 64, Or.inl rfl⟩

/-- A pointer handed out is that of a free node or of a block of the rounded size. -/
theorem generalPurposeAlloc_source (h : Layout used [] s F) (hfuel : 2 ^ 64 ≤ fuel)
    {r : Nat × Memory × GeneralPurposeAllocator}
    (hr : generalPurposeAlloc fuel s.memory s.allocator size = some r) :
    r.1 = 0 ∨ ∃ node < 2 ^ 64, r.1 = u64 (node + sizeofMemNode) ∧
      Source F (roundedSize size) r.2.1 node := by
  obtain ⟨u, hu, rfl⟩ := Option.map_eq_some_iff.mp hr
  obtain ⟨hword, hsource⟩ := takeFree_source h hfuel hu
  have hsizes : ∀ (memory : Memory) (x : Nat),
      (setNext (setPrev memory x 0) x 0 x).size = (memory x).size := by simp
  split_ifs with hfound hfull
  · refine Or.inr ⟨u.1, hword, rfl, (hsource.resolve_left hfound).imp id fun hsize => ?_⟩
    exact (hsizes u.2.1 u.1).trans hsize
  · exact Or.inl rfl
  · refine Or.inr ⟨_, Nat.mod_lt _ (Nat.two_pow_pos 64), rfl, Or.inr ?_⟩
    exact (hsizes _ _).trans (by rw [sub64, setSize_self])

/-! ## Calls -/

/-- A live block whose size is a multiple of 512 is on the grid with the other blocks. -/
theorem Layout.onGrid_of_dvd (h : Layout used [] s F) {ptr : Nat} (hptr : ptr ∈ s.live)
    (hsize : generalPurposeMin ∣ (s.memory (header ptr)).size)
    (hlive : ∀ p ∈ s.live, header p ≠ header ptr → OnGrid s (header p))
    (hfree : ∀ l, ∀ x ∈ F l, OnGrid s x) : OnGrid s (header ptr) := by
  refine h.tiles.start_modEq
    (Multiset.mem_add.mpr (Or.inr (Multiset.mem_add.mpr (Or.inl (mem_liveBlocks hptr))))) hsize
    fun c hc hne => ?_
  rw [blocks_nil, zero_add] at hc
  rcases Multiset.mem_add.mp hc with hc | hc
  · obtain ⟨p, hp, rfl⟩ := of_mem_liveBlocks hc
    exact hlive p hp hne
  · obtain ⟨l, x, hx, rfl⟩ := of_mem_freeBlocks hc
    exact hfree l x hx

/-- What is handed out is on the grid. -/
theorem Gridded.alloc (hgrid : Gridded s F) (h : Layout used [] s F) (hr : Servable fuel s size)
    (hfuel : 2 ^ 64 ≤ fuel) {r : Nat × Memory × GeneralPurposeAllocator}
    (halloc : generalPurposeAlloc fuel s.memory s.allocator size = some r) (hne : r.1 ≠ 0)
    (hlayout : Layout used [] ⟨r.2.1, r.2.2, r.1 :: s.live⟩ F')
    (hsubset : ∀ l, ∀ z ∈ F' l, z ∈ F l) : Gridded ⟨r.2.1, r.2.2, r.1 :: s.live⟩ F' := by
  have hbuffer : SameBuffer s.allocator r.2.2 := generalPurposeAlloc_buffer halloc
  have hfree : ∀ l, ∀ x ∈ F' l, OnGrid ⟨r.2.1, r.2.2, r.1 :: s.live⟩ x :=
    fun l x hx => (hgrid.free l x (hsubset l x hx)).of_sameBuffer hbuffer
  have hlive : ∀ ptr ∈ s.live, OnGrid ⟨r.2.1, r.2.2, r.1 :: s.live⟩ (header ptr) :=
    fun ptr hptr => (hgrid.live ptr hptr).of_sameBuffer hbuffer
  have hnew : OnGrid ⟨r.2.1, r.2.2, r.1 :: s.live⟩ (header r.1) := by
    have hself : header r.1 + sizeofMemNode = r.1 := hlayout.live_header (List.mem_cons_self ..)
    obtain ⟨node, hword, hptr, hsource⟩ :=
      (generalPurposeAlloc_source h hfuel halloc).resolve_left hne
    -- The sum with the header's size does not wrap, else the pointer would be below 24.
    have hnode : node = header r.1 := by
      unfold u64 sizeofMemNode at *
      omega
    rcases hsource with ⟨l, hmem⟩ | hsize
    · rw [← hnode]
      exact (hgrid.free l node hmem).of_sameBuffer hbuffer
    · refine hlayout.onGrid_of_dvd (List.mem_cons_self ..) ?_ (fun p hp hp' => ?_) hfree
      · rw [← hnode, hsize]
        exact dvd_roundedSize hr.bucket
      · rcases List.mem_cons.mp hp with rfl | hp
        · exact absurd rfl hp'
        · exact hlive p hp
  refine ⟨fun ptr hptr => ?_, hfree⟩
  rcases List.mem_cons.mp hptr with rfl | hptr
  · exact hnew
  · exact hlive ptr hptr

/-- Every call keeps the blocks on the grid. -/
theorem Gridded.step (hgrid : Gridded s F) (h : Layout (fun _ => True) [] s F) {call : Call}
    (hok : Admitted s call) (hclean : Unstale s call) (hfuel : 2 ^ 64 ≤ fuel) :
    ∃ t, HeapAllocator.step fuel s call = some t ∧
      ∃ F', Layout (fun _ => True) [] t F' ∧ Gridded t F' := by
  cases call with
  | alloc size =>
    have hr : Request s size := hok
    obtain ⟨r, halloc, hres⟩ := generalPurposeAlloc_spec h hr.servable trivial hfuel
    refine ⟨_, congrArg (Option.map _) halloc, ?_⟩
    rcases hres with rfl | ⟨hne, -, F', hlayout, hsubset, -⟩
    · exact ⟨F, h, hgrid⟩
    · simp only [if_neg hne]
      exact ⟨F', hlayout, hgrid.alloc h hr.servable hfuel halloc hne hlayout hsubset⟩
  | free ptr =>
    have hptr : ptr ∈ s.live := hok
    obtain ⟨r, hfree, F', hlayout, hnodes, -⟩ := generalPurposeFree_spec h hptr hclean hfuel
    have hbuffer : SameBuffer s.allocator r.2 := generalPurposeFree_buffer hfree
    refine ⟨_, congrArg (Option.map _) hfree, F', hlayout, fun p hp => ?_, fun l x hx => ?_⟩
    · exact (hgrid.live p (List.mem_of_mem_erase hp)).of_sameBuffer hbuffer
    · rcases (hnodes l x hx).1 with rfl | hmem
      · exact (hgrid.live ptr hptr).of_sameBuffer hbuffer
      · exact (hgrid.free l x hmem).of_sameBuffer hbuffer
  | write address value =>
    obtain ⟨ptr, hptr, hlow, hhigh⟩ := h.write_inside hok
    exact ⟨_, rfl, F, h.write hptr hlow hhigh value, hgrid.live, hgrid.free⟩

/-! ## Runs -/

/-- A buffer with a live block in it is the one that the allocator was created with. -/
theorem Layout.created (h : Layout used [] t F) {ptr : Nat} (hptr : ptr ∈ t.live)
    (hbuffer : SameBuffer (generalPurposeCreate buffer bytes) t.allocator) :
    t.allocator.mem + t.allocator.size = buffer + bytes := by
  have hbounds := h.tiles.bounds
    (Multiset.mem_add.mpr (Or.inr (Multiset.mem_add.mpr (Or.inl (mem_liveBlocks hptr)))))
  have hsize := h.live_size hptr
  rw [hbuffer.1, hbuffer.2] at hbounds ⊢
  unfold generalPurposeCreate at hbounds ⊢
  split_ifs at hbounds ⊢ with hbad
  · simp only [blockAt] at hbounds
    unfold sizeofMemNode at hsize
    omega
  · rfl

/-- In every run without the exit that forgets a `Prev`, a pointer is a multiple of 512 and
the size of a header away from the end of the buffer, so it is not aligned as `SMalloc`
aligns where that end is. -/
theorem generalPurpose_alignment (hbuffer : buffer + bytes < 2 ^ 64) (hfuel : 2 ^ 64 ≤ fuel)
    {calls : List Call}
    (hok : AtEach (step fuel) Admitted (State.create memory buffer bytes) calls)
    (hclean : AtEach (step fuel) Unstale (State.create memory buffer bytes) calls) :
    ∃ s, exec (step fuel) (State.create memory buffer bytes) calls = some s ∧
      ∀ ptr ∈ s.live, ptr ≡ buffer + bytes + sizeofMemNode [MOD generalPurposeMin] ∧
        (scalDefaultAlignment ∣ buffer + bytes → ¬ scalDefaultAlignment ∣ ptr) := by
  let I : State → Prop := fun s => (∃ F, Layout (fun _ => True) [] s F ∧ Gridded s F) ∧
    SameBuffer (generalPurposeCreate buffer bytes) s.allocator
  have hstart : I (State.create memory buffer bytes) :=
    ⟨⟨_, layout_create hbuffer, fun _ hptr => absurd hptr List.not_mem_nil,
      fun _ _ hx => absurd hx List.not_mem_nil⟩, rfl, rfl⟩
  have hkeep : ∀ s call, I s → Admitted s call → Unstale s call →
      ∃ t, step fuel s call = some t ∧ I t := by
    intro s call hs hadmitted hunstale
    obtain ⟨⟨F, h, hgrid⟩, hsame⟩ := hs
    obtain ⟨t, ht, hkept⟩ := hgrid.step h hadmitted hunstale hfuel
    have hsame' := step_buffer ht
    exact ⟨t, ht, hkept, hsame'.1.trans hsame.1, hsame'.2.trans hsame.2⟩
  obtain ⟨s, hs, ⟨F, h, hgrid⟩, hsame⟩ := AtEach.invariant I hkeep hstart hok hclean
  refine ⟨s, hs, fun ptr hptr => ?_⟩
  have hmod : ptr ≡ buffer + bytes + sizeofMemNode [MOD generalPurposeMin] := by
    have hheader := (hgrid.live ptr hptr).add_right sizeofMemNode
    rwa [h.live_header hptr, h.created hptr hsame] at hheader
  refine ⟨hmod, fun hend hptr' => ?_⟩
  have hsmall : ptr ≡ buffer + bytes + sizeofMemNode [MOD scalDefaultAlignment] :=
    hmod.of_dvd (by decide)
  have hdvd : scalDefaultAlignment ∣ sizeofMemNode :=
    (Nat.dvd_add_right hend).mp ((hsmall.dvd_iff (dvd_refl _)).mp hptr')
  exact absurd hdvd (by decide)

/-- A large block cut off a larger one, and a bucketed block that serves twice. -/
theorem generalPurpose_alignment_split :
    ∃ s, exec (step (2 ^ 64)) (State.create zeroed (2 ^ 32) (2 ^ 29))
        [.alloc 134217728, .alloc 100, .free 4697619992, .alloc 33554432, .free 4697619480,
          .alloc 50] = some s ∧
      ∀ ptr ∈ s.live, ptr ≡ 2 ^ 32 + 2 ^ 29 + sizeofMemNode [MOD generalPurposeMin] ∧
        (scalDefaultAlignment ∣ 2 ^ 32 + 2 ^ 29 → ¬ scalDefaultAlignment ∣ ptr) :=
  generalPurpose_alignment (by decide) (Nat.le_refl _) (by decide +kernel) (by decide +kernel)

end ScalBase.HeapAllocator
