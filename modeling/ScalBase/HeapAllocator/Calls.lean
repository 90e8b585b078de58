/-
  HeapAllocator/Calls.lean --- `GeneralPurposeAlloc` and `GeneralPurposeFree`.

  Each call keeps the layout.  `Admitted` is what a caller owes: the subtraction
  from `Offset` and the sum with `MEM_SPLIT_THRESHOLD` do not wrap, the bucket
  index is below 16, only live pointers are freed, and what is stored lies in the
  memory that was handed out, so that no header is written.
  `Unstale` leaves out the exit of `InsertMemNode` that forgets a `Prev`.
-/
import ScalBase.HeapAllocator.Layout

set_option autoImplicit false

namespace ScalBase.HeapAllocator

open ScalBase.Foundation

variable {used : ListName → Prop} {s : State} {F : Nodes} {fuel : Nat}

/-! ## Requests -/

/-- The list that serves a request. -/
def requestList (size : Nat) : ListName :=
  if requestSize size > generalPurposeMax then none else bucketOf (roundedSize size)

theorem bucketOf_two_pow : ∀ k : Fin 26, ∀ i : Fin 16, bucketOf (2 ^ k.val) = some i →
    k.val = 8 + i.val := by
  decide

theorem roundedSize_fits {size : Nat}
    (hbucket : requestSize size ≤ generalPurposeMax → (bucketOf (roundedSize size)).isSome) :
    Fits (requestList size) (roundedSize size) := by
  unfold requestList
  split_ifs with hlarge
  · rw [roundedSize, if_pos hlarge]
    exact hlarge
  · obtain ⟨i, hi⟩ := Option.isSome_iff_exists.mp (hbucket (Nat.not_lt.mp hlarge))
    rw [hi]
    have hmax : requestSize size ≤ 2 ^ 25 := Nat.not_lt.mp hlarge
    have hround : roundedSize size = alignPowTwoCeil (requestSize size) := if_neg hlarge
    rw [hround] at hi ⊢
    by_cases hone : requestSize size ≤ 1
    · rw [alignPowTwoCeil, if_pos hone] at hi
      have hnone : bucketOf 1 = none := by decide
      rw [hnone] at hi
      cases hi
    · obtain ⟨k, hk, -, hlt⟩ := alignPowTwoCeil_spec (Nat.not_le.mp hone) (by omega)
      have hk26 : k < 26 := (Nat.pow_lt_pow_iff_right (by decide : 1 < 2)).mp (by omega)
      rw [hk] at hi ⊢
      have hki := bucketOf_two_pow ⟨k, hk26⟩ i hi
      exact congrArg (2 ^ ·) hki

/-! ## GeneralPurposeAlloc -/

/-- No arithmetic of the call wraps and the bucket index is below 16. -/
structure Request (s : State) (size : Nat) : Prop where
  offset : roundedSize size ≤ s.allocator.offset
  split : requestSize size > generalPurposeMax → requestSize size + memSplitThreshold < 2 ^ 64
  bucket : requestSize size ≤ generalPurposeMax → (bucketOf (roundedSize size)).isSome

instance (s : State) (size : Nat) : Decidable (Request s size) :=
  decidable_of_iff
    (roundedSize size ≤ s.allocator.offset ∧
      (requestSize size > generalPurposeMax → requestSize size + memSplitThreshold < 2 ^ 64) ∧
      (requestSize size ≤ generalPurposeMax → (bucketOf (roundedSize size)).isSome))
    ⟨fun h => ⟨h.1, h.2.1, h.2.2⟩, fun h => ⟨h.offset, h.split, h.bucket⟩⟩

/-- A free node is found for a request. -/
def Found (fuel : Nat) (s : State) (size : Nat) : Prop :=
  ∃ r ∈ takeFree fuel s.memory s.allocator size, r.1 ≠ 0

instance (fuel : Nat) (s : State) (size : Nat) : Decidable (Found fuel s size) :=
  inferInstanceAs (Decidable (∃ r ∈ takeFree fuel s.memory s.allocator size, r.1 ≠ 0))

/-- What a request is served or refused with: where no free node is found, the subtraction
from `Offset` does not wrap to `Mem` or above; the sum with the threshold does not wrap
where a node may be large enough; and the bucket index is below 16. -/
structure Servable (fuel : Nat) (s : State) (size : Nat) : Prop where
  fits : roundedSize size ≤ s.allocator.offset ∨
    sub64 s.allocator.offset (roundedSize size) < s.allocator.mem ∨ Found fuel s size
  split : requestSize size > generalPurposeMax →
    requestSize size + memSplitThreshold < 2 ^ 64 ∨ s.allocator.size < requestSize size
  bucket : requestSize size ≤ generalPurposeMax → (bucketOf (roundedSize size)).isSome

instance (fuel : Nat) (s : State) (size : Nat) : Decidable (Servable fuel s size) :=
  decidable_of_iff
    ((roundedSize size ≤ s.allocator.offset ∨
        sub64 s.allocator.offset (roundedSize size) < s.allocator.mem ∨ Found fuel s size) ∧
      (requestSize size > generalPurposeMax →
        requestSize size + memSplitThreshold < 2 ^ 64 ∨ s.allocator.size < requestSize size) ∧
      (requestSize size ≤ generalPurposeMax → (bucketOf (roundedSize size)).isSome))
    ⟨fun h => ⟨h.1, h.2.1, h.2.2⟩, fun h => ⟨h.fits, h.split, h.bucket⟩⟩

theorem Request.servable {size : Nat} (h : Request s size) : Servable fuel s size :=
  ⟨Or.inl h.offset, fun hlarge => Or.inl (h.split hlarge), h.bucket⟩

/-- A call has taken `node` out of the free nodes `F` of list `l`, of which `ns` are left,
and has changed no other headers than theirs. -/
def TakenOut (F : Nodes) (l : ListName) (memory memory' : Memory) (node : Nat) (ns : List Nat) :
    Prop :=
  (∀ z ∈ ns, z ∈ F l) ∧ ∀ z, z ≠ node → z ∉ ns → memory' z = memory z

/-- `FindMemNode` finds nothing in `Large`, or takes a node out of it. -/
theorem Layout.findLarge (h : Layout used [] s F) {bytes : Nat} (hfit : Fits none bytes)
    (hsplit : bytes + memSplitThreshold < 2 ^ 64 ∨ s.allocator.size < bytes) (hused : used none)
    (hfuel : 2 ^ 64 ≤ fuel) :
    ∃ r, findMemNode fuel s.memory s.allocator.large bytes = some r ∧
      (r = (0, s.memory, s.allocator.large) ∨
        r.1 ≠ 0 ∧ bytes ≤ (r.2.1 r.1).size ∧
          ∃ ns, Layout used [r.1] ⟨r.2.1, s.allocator.setList none r.2.2, s.live⟩
            (Function.update F none ns) ∧ TakenOut F none s.memory r.2.1 r.1 ns) := by
  have ht := h.tiles_of_list none
  rw [blocks_nil, zero_add] at ht
  have hsum : ∀ x ∈ F none, bytes ≤ (s.memory x).size → bytes + memSplitThreshold < 2 ^ 64 := by
    intro x hx hle
    refine hsplit.resolve_right fun hlarge => ?_
    have hbounds := ht.bounds (Multiset.mem_add.mpr (Or.inl (blockAt_mem_blocks hx)))
    have hmem := h.mem_le
    simp only [blockAt] at hbounds
    omega
  obtain ⟨r, hfind, hres⟩ := (h.lists none).find ht h.top_lt
    (Nat.lt_of_lt_of_le (by decide) hfit.le) hsum (Nat.lt_of_lt_of_le (h.length_lt none) hfuel)
  refine ⟨r, hfind, hres.imp id ?_⟩
  rintro ⟨hne, hsize, ns, htaken, hkept⟩
  refine ⟨hne, hsize, ns, h.take htaken (fun y hy => ?_) hused, htaken.subset, fun z hz hzns => ?_⟩
  · rcases htaken.size y hy with heq | hgt
    · rw [heq]
      exact h.list_fits none y (htaken.subset y hy)
    · exact Nat.lt_trans (by decide) hgt
  · refine htaken.frame z fun hmem => ?_
    rcases List.mem_cons.mp hmem with heq | hmem
    · exact hz heq
    · exact (hkept z hmem).elim hz hzns

/-- The head of a bucket is taken out. -/
theorem Layout.popBucket (h : Layout used [] s F) {i : Fin 16} (hused : used (some i)) {x : Nat}
    (hx : (s.allocator.buckets i).head = x) (hx0 : x ≠ 0) :
    Fits (some i) ((removeMemNode s.memory (s.allocator.buckets i) x).1 x).size ∧
      ∃ ns, Layout used [x]
        ⟨(removeMemNode s.memory (s.allocator.buckets i) x).1,
          s.allocator.setList (some i) (removeMemNode s.memory (s.allocator.buckets i) x).2, s.live⟩
        (Function.update F (some i) ns) ∧
      TakenOut F (some i) s.memory (removeMemNode s.memory (s.allocator.buckets i) x).1 x ns := by
  have hlist : FreeList s.memory (s.allocator.buckets i) (F (some i)) := h.lists (some i)
  cases hns : F (some i) with
  | nil =>
    rw [hns] at hlist
    exact absurd (hx.symm.trans hlist.head_eq) hx0
  | cons y ns =>
    rw [hns] at hlist
    obtain rfl : x = y := hx.symm.trans hlist.head_eq
    have hlist' : FreeList s.memory (s.allocator.buckets i) ([] ++ x :: ns) := hlist
    have ht := h.tiles_of_list (some i)
    rw [blocks_nil, zero_add, hns] at ht
    have htaken := hlist'.taken ht
    have hsize := hlist'.remove.2.1
    rw [List.nil_append, List.nil_append, ← hns] at htaken
    generalize removeMemNode s.memory (s.allocator.buckets i) x = r at htaken hsize
    have hfits : ∀ y ∈ F (some i), Fits (some i) (r.1 y).size := by
      intro y hy
      rw [hsize]
      exact h.list_fits (some i) y hy
    refine ⟨hfits x (by rw [hns]; exact List.mem_cons_self ..), ns,
      h.take htaken (fun y hy => hfits y (htaken.subset y hy)) hused, htaken.subset,
      fun z hz hzns => ?_⟩
    refine htaken.frame z ?_
    rw [hns]
    simp [hz, hzns]

/-- A node found in the free lists is taken out of its list. -/
theorem takeFree_spec (h : Layout used [] s F) {size : Nat} (hr : Servable fuel s size)
    (hused : used (requestList size)) (hfuel : 2 ^ 64 ≤ fuel) :
    ∃ t, takeFree fuel s.memory s.allocator size = some t ∧
      (t = (0, s.memory, s.allocator) ∨
        t.1 ≠ 0 ∧ roundedSize size ≤ (t.2.1 t.1).size ∧ Fits (requestList size) (t.2.1 t.1).size ∧
          ∃ ns, Layout used [t.1] ⟨t.2.1, t.2.2, s.live⟩
            (Function.update F (requestList size) ns) ∧
            TakenOut F (requestList size) s.memory t.2.1 t.1 ns) := by
  have hfit := roundedSize_fits hr.bucket
  unfold takeFree requestList at *
  by_cases hlarge : requestSize size > generalPurposeMax
  · simp only [if_pos hlarge] at *
    have hround : roundedSize size = requestSize size := if_pos hlarge
    have hsplit := hr.split hlarge
    rw [← hround] at hsplit
    obtain ⟨r, hfind, hres⟩ := h.findLarge hfit hsplit hused hfuel
    rw [hfind]
    refine ⟨_, rfl, ?_⟩
    rcases hres with rfl | ⟨hne, hsize, htaken⟩
    · exact Or.inl rfl
    · exact Or.inr ⟨hne, hsize, Nat.lt_of_lt_of_le hfit hsize, htaken⟩
  · simp only [if_neg hlarge] at *
    obtain ⟨i, hi⟩ := Option.isSome_iff_exists.mp (hr.bucket (Nat.not_lt.mp hlarge))
    simp only [hi, Option.map_some] at *
    refine ⟨_, rfl, ?_⟩
    by_cases hempty : (s.allocator.buckets i).head = 0
    · rw [if_neg (not_not.mpr hempty)]
      exact Or.inl rfl
    · rw [if_pos hempty]
      have hpop := h.popBucket hused (Eq.refl _) hempty
      generalize removeMemNode s.memory (s.allocator.buckets i) (s.allocator.buckets i).head = r
        at hpop
      obtain ⟨hsize, htaken⟩ := hpop
      exact Or.inr ⟨hempty, hfit.le_of_bucket hsize, hsize, htaken⟩

/-- A block has been handed out: it is as large as the request, the free nodes are some of
those there were, and no other headers than theirs and its own have changed. -/
structure HandedOut (used : ListName → Prop) (s : State) (F : Nodes) (size : Nat)
    (t : Nat × Memory × GeneralPurposeAllocator) : Prop where
  ne_zero : t.1 ≠ 0
  size_le : roundedSize size ≤ (t.2.1 (header t.1)).size
  layout : ∃ F', Layout used [] ⟨t.2.1, t.2.2, t.1 :: s.live⟩ F' ∧
    (∀ l, ∀ z ∈ F' l, z ∈ F l) ∧
    ∀ z, z ≠ header t.1 → (∀ l, z ∉ F' l) → t.2.1 z = s.memory z

/-- A block in the hands of the call is handed out. -/
theorem Layout.handOut {memory : Memory} {a : GeneralPurposeAllocator} {l : ListName}
    {node size : Nat} {F' : Nodes} (h : Layout used [node] ⟨memory, a, s.live⟩ F')
    (hsubset : ∀ l, ∀ z ∈ F' l, z ∈ F l) (hnode : node ≠ 0)
    (hused : used l) (hfit : Fits l (memory node).size)
    (hsize : roundedSize size ≤ (memory node).size)
    (hframe : ∀ z, z ≠ node → (∀ l, z ∉ F' l) → memory z = s.memory z) :
    HandedOut used s F size (HeapAllocator.handOut memory a node) := by
  have hend := h.tiles.bounds
    (Multiset.mem_add.mpr (Or.inl (blockAt_mem_blocks (List.mem_singleton_self node))))
  have htop := h.top_lt
  have hle := hfit.le
  simp only [blockAt] at hend htop
  have hptr : u64 (node + sizeofMemNode) = node + sizeofMemNode :=
    u64_eq (by unfold sizeofMemNode; omega)
  have hheader : header (node + sizeofMemNode) = node := Nat.add_sub_cancel ..
  have hlend := h.lend hnode ⟨l, hused, hfit⟩
  rw [HeapAllocator.handOut, hptr]
  refine ⟨by simp only; omega, ?_, F', hlend, hsubset, fun z hz hzF => ?_⟩
  · rw [hheader]
    simpa using hsize
  · rw [hheader] at hz
    rw [← hframe z hz hzF]
    simp only
    rw [setNext_of_ne hz, setPrev_of_ne hz]

/-- `GeneralPurposeAlloc` hands out a block of the request's list, or returns null and
changes nothing. -/
theorem generalPurposeAlloc_spec (h : Layout used [] s F) {size : Nat} (hr : Servable fuel s size)
    (hused : used (requestList size)) (hfuel : 2 ^ 64 ≤ fuel) :
    ∃ t, generalPurposeAlloc fuel s.memory s.allocator size = some t ∧
      (t = (0, s.memory, s.allocator) ∨ HandedOut used s F size t) := by
  obtain ⟨r, htake, hres⟩ := takeFree_spec h hr hused hfuel
  have hfit := roundedSize_fits hr.bucket
  unfold generalPurposeAlloc
  rw [htake]
  refine ⟨_, rfl, ?_⟩
  rcases hres with rfl | ⟨hne, hsize, hfits, ns, hlayout, hsubset, hframe⟩
  · simp only [ne_eq, not_true_eq_false, if_false]
    split_ifs with hfull
    · exact Or.inl rfl
    · right
      have hround : roundedSize size ≤ s.allocator.offset := by
        refine hr.fits.resolve_right (not_or.mpr ⟨hfull, ?_⟩)
        rintro ⟨r, hr', hne⟩
        rw [Option.mem_def, htake] at hr'
        cases hr'
        exact hne rfl
      have htop := h.top_lt
      have hoffset := h.tiles.le
      have hpos := hfit.le
      have hsub : sub64 s.allocator.offset (roundedSize size) =
          s.allocator.offset - roundedSize size := sub64_eq hround (by omega)
      rw [hsub] at hfull ⊢
      have hmem : s.allocator.mem ≤ s.allocator.offset - roundedSize size := Nat.not_lt.mp hfull
      have hbuffer := h.buffer
      have hbump := h.bump (Nat.sub_add_cancel hround) hmem (Nat.lt_of_lt_of_le (by decide) hpos)
      exact hbump.handOut (fun _ _ => id) (by omega) hused (by rw [setSize_self]; exact hfit)
        (by rw [setSize_self]) fun z hz _ => setSize_of_ne hz
  · simp only [if_pos hne]
    refine Or.inr (hlayout.handOut (fun l z hz => ?_) hne hused hfits hsize
      fun z hz hzF => hframe z hz ?_)
    · by_cases hl : l = requestList size
      · subst hl
        rw [Function.update_self] at hz
        exact hsubset z hz
      · rwa [Function.update_of_ne hl] at hz
    · have hzl := hzF (requestList size)
      rwa [Function.update_self] at hzl

/-! ## GeneralPurposeFree -/

/-- The lists as `InsertMemNode` sees them. -/
def State.listState (s : State) (l : ListName) : ListState :=
  ⟨s.memory, s.allocator.offset, s.allocator.list l⟩

/-- A large block that goes into `Large` does not end at the node it is compared with
first while that node has a successor. -/
def ForgetsNoPrev (s : State) (ptr : Nat) : Prop :=
  header ptr ≠ s.allocator.offset → (s.memory (header ptr)).size > generalPurposeMax →
    header ptr + (s.memory (header ptr)).size = (s.listState none).first →
      (s.memory (s.listState none).first).next = 0

instance (s : State) (ptr : Nat) : Decidable (ForgetsNoPrev s ptr) :=
  inferInstanceAs (Decidable (_ → _ → _ → _))

/-- A block has been taken back: the free nodes are the block and some of those there were,
of the same size in the buckets, and no other headers than theirs have changed. -/
def TakenBack (used : ListName → Prop) (s : State) (x : Nat) (F : Nodes)
    (t : Memory × GeneralPurposeAllocator) : Prop :=
  ∃ F', Layout used [] ⟨t.1, t.2, s.live⟩ F' ∧
    (∀ l, ∀ y ∈ F' l, (y = x ∨ y ∈ F l) ∧ (l ≠ none → (t.1 y).size = (s.memory y).size)) ∧
    ∀ z, z ≠ x → (∀ l, z ∉ F l) → t.1 z = s.memory z

/-- A block that a call is moving goes into its list. -/
theorem insertInto_spec {x : Nat} {l : ListName} (h : Layout used [x] s F) (hused : used l)
    (hfresh : Fresh s.memory x) (hfit : Fits l (s.memory x).size)
    (hclean : l.isSome = false → x + (s.memory x).size = (s.listState l).first →
      (s.memory (s.listState l).first).next = 0)
    (hfuel : 2 ^ 64 ≤ fuel) :
    ∃ t, insertInto fuel s.memory s.allocator l x = some t ∧ TakenBack used s x F t := by
  have htiles := h.tiles_of_list l
  rw [blocks_cons, blocks_nil, Multiset.cons_add, zero_add, Multiset.add_cons] at htiles
  have hinserting : Inserting (s.allocator.mem + s.allocator.size)
      (s.liveBlocks + otherBlocks s.memory F l) x (s.listState l) (F l) :=
    ⟨h.lists l, hfresh, htiles, h.top_lt⟩
  obtain ⟨u, hu, ns, hab⟩ :=
    insertMemNode_spec hinserting hclean (Nat.lt_of_lt_of_le (h.length_lt l) hfuel)
  unfold insertInto
  rw [show insertMemNode fuel ⟨s.memory, s.allocator.offset, s.allocator.list l⟩ x l.isSome = some u
    from hu]
  refine ⟨_, rfl, _, h.insert rfl hused hfit hab, fun l' y hy => ?_, fun z hz hzF => ?_⟩
  · rcases eq_or_ne l' l with rfl | hl
    · rw [Function.update_self] at hy
      exact ⟨List.mem_cons.mp (hab.subset y hy),
        fun hl' => hab.size_eq (Option.isSome_iff_ne_none.mpr hl') y⟩
    · rw [Function.update_of_ne hl] at hy
      refine ⟨Or.inr hy, fun _ => congrArg MemNode.size (hab.frame y ?_)⟩
      rw [List.mem_cons, not_or]
      exact ⟨(h.node_ne hy).1 x (List.mem_singleton_self x),
        fun hmem => (h.node_ne hmem).2 l' hl y hy rfl⟩
  · exact hab.frame z (by simp [hz, hzF l])

/-- `GeneralPurposeFree` of a pointer to a block in the buffer, not below `Offset`. -/
theorem generalPurposeFree_inside {memory : Memory} {a : GeneralPurposeAllocator} {ptr : Nat}
    (hptr : header ptr + sizeofMemNode = ptr) (hword : ptr < 2 ^ 64) (hmem : a.mem ≤ a.offset)
    (hlow : a.offset ≤ header ptr) (hhigh : header ptr ≤ a.mem + a.size) :
    generalPurposeFree fuel memory a ptr =
      if header ptr = a.offset then
        some (memory, { a with offset := u64 (a.offset + (memory (header ptr)).size) })
      else if (memory (header ptr)).size ≤ generalPurposeMax then
        (bucketOf (memory (header ptr)).size).bind fun i =>
          insertInto fuel memory a (some i) (header ptr)
      else insertInto fuel memory a none (header ptr) := by
  have hblock : sub64 ptr sizeofMemNode = header ptr := sub64_eq (by omega) hword
  have hsub : sub64 (header ptr) a.mem = header ptr - a.mem := sub64_eq (by omega) (by omega)
  have hne : ptr ≠ 0 := by
    unfold sizeofMemNode at hptr
    omega
  unfold generalPurposeFree
  simp only [hblock, hsub]
  rw [if_neg hne, if_neg (by omega)]

/-- `GeneralPurposeFree` of a live pointer takes the block back. -/
theorem generalPurposeFree_spec (h : Layout used [] s F) {ptr : Nat} (hptr : ptr ∈ s.live)
    (hclean : ForgetsNoPrev s ptr) (hfuel : 2 ^ 64 ≤ fuel) :
    ∃ t, generalPurposeFree fuel s.memory s.allocator ptr = some t ∧
      TakenBack used { s with live := s.live.erase ptr } (header ptr) F t := by
  have hfresh := h.fresh ptr hptr
  obtain ⟨l, hused, hfit⟩ := h.live_fits ptr hptr
  have hbounds := h.tiles.bounds
    (Multiset.mem_add.mpr (Or.inr (Multiset.mem_add.mpr (Or.inl (mem_liveBlocks hptr)))))
  simp only [blockAt] at hbounds
  have htop := h.top_lt
  have hle := hfit.le
  have hhead := h.live_header hptr
  have hword : ptr < 2 ^ 64 := by
    unfold sizeofMemNode at hhead
    omega
  have hreclaim := h.reclaim hptr
  rw [generalPurposeFree_inside hhead hword h.mem_le hbounds.1 (by omega)]
  split_ifs with hoffset hsmall
  · rw [u64_eq (by omega)]
    exact ⟨_, rfl, F, hreclaim.retract hoffset, fun _ _ hy => ⟨Or.inr hy, fun _ => rfl⟩,
      fun _ _ _ => rfl⟩
  · -- The block is that of a bucket.
    cases l with
    | none => exact absurd hsmall (Nat.not_le.mpr hfit)
    | some i =>
      have hsize : (s.memory (header ptr)).size = 2 ^ (8 + i.val) := hfit
      rw [hsize, (bucketOf_fits i).1]
      exact insertInto_spec hreclaim hused hfresh hfit (fun hlarge => by cases hlarge) hfuel
  · cases l with
    | none =>
      exact insertInto_spec hreclaim hused hfresh hfit (fun _ => hclean hoffset hfit) hfuel
    | some i =>
      have hsize : (s.memory (header ptr)).size = 2 ^ (8 + i.val) := hfit
      exact absurd (hsize ▸ (bucketOf_fits i).2.2) hsmall

/-! ## Calls -/

/-- What the caller owes.  A store lies in a live block, behind its header. -/
def Admitted (s : State) : Call → Prop
  | .alloc size => Request s size
  | .free ptr => ptr ∈ s.live
  | .write address _ =>
      ∃ ptr ∈ s.live, ptr ≤ address ∧
        address + sizeofMemNode ≤ header ptr + (s.memory (header ptr)).size

instance (s : State) : ∀ call, Decidable (Admitted s call)
  | .alloc size => inferInstanceAs (Decidable (Request s size))
  | .free ptr => inferInstanceAs (Decidable (ptr ∈ s.live))
  | .write _ _ => inferInstanceAs (Decidable (∃ ptr ∈ s.live, _ ∧ _))

/-- The call does not take the exit of `InsertMemNode` that forgets a `Prev`. -/
def Unstale (s : State) : Call → Prop
  | .free ptr => ForgetsNoPrev s ptr
  | _ => True

instance (s : State) : ∀ call, Decidable (Unstale s call)
  | .alloc _ => isTrue trivial
  | .free ptr => inferInstanceAs (Decidable (ForgetsNoPrev s ptr))
  | .write _ _ => isTrue trivial

/-- A store that is admitted starts inside a live block, past the start of its header. -/
theorem Layout.write_inside (h : Layout used [] s F) {address : Nat} {value : MemNode}
    (hok : Admitted s (.write address value)) :
    ∃ ptr ∈ s.live, header ptr < address ∧
      address < header ptr + (s.memory (header ptr)).size := by
  obtain ⟨ptr, hptr, hlow, hhigh⟩ := hok
  have hheader := h.live_header hptr
  unfold sizeofMemNode at hheader hhigh
  exact ⟨ptr, hptr, by omega, by omega⟩

/-- Every call keeps the layout. -/
theorem Layout.step (h : Layout used [] s F) {call : Call} (hok : Admitted s call)
    (hused : ∀ size, call = .alloc size → used (requestList size)) (hclean : Unstale s call)
    (hfuel : 2 ^ 64 ≤ fuel) :
    ∃ t, HeapAllocator.step fuel s call = some t ∧ ∃ F', Layout used [] t F' := by
  cases call with
  | alloc size =>
    have hr : Request s size := hok
    obtain ⟨t, ht, hres⟩ := generalPurposeAlloc_spec h hr.servable (hused size rfl) hfuel
    refine ⟨_, congrArg (Option.map _) ht, ?_⟩
    rcases hres with rfl | ⟨hne, -, F', hlayout, -⟩
    · exact ⟨F, h⟩
    · simp only [if_neg hne]
      exact ⟨F', hlayout⟩
  | free ptr =>
    obtain ⟨t, ht, F', hlayout, -⟩ := generalPurposeFree_spec h hok hclean hfuel
    exact ⟨_, congrArg (Option.map _) ht, F', hlayout⟩
  | write address value =>
    obtain ⟨ptr, hptr, hlow, hhigh⟩ := h.write_inside hok
    exact ⟨_, rfl, F, h.write hptr hlow hhigh value⟩

end ScalBase.HeapAllocator
