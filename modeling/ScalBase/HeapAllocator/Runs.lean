/-
  HeapAllocator/Runs.lean --- whole runs of the allocator.

  Live blocks are pairwise disjoint and inside the buffer in every run that is
  `Unstale` (`generalPurpose_disjoint`); the exit of `InsertMemNode` that forgets a
  `Prev` hands a block out twice (`forgotten_prev_hands_out_twice`).

  Runs of bucketed requests never come near that exit: live blocks and bucket nodes
  tile the memory above `Offset` in all of them (`generalPurpose_conserves`).
-/
import ScalBase.HeapAllocator.Calls
import ScalBase.Foundation.Run

set_option autoImplicit false

namespace ScalBase.HeapAllocator

open ScalBase.Foundation

variable {used : ListName → Prop} {s t : State} {F : Nodes} {fuel buffer bytes : Nat}
  {memory : Memory}

/-! ## A new allocator -/

theorem layout_zero (memory : Memory) {offset mem size : Nat} (hoffset : offset = mem + size)
    (htop : mem + size < 2 ^ 64) (hbuffer : mem = 0 → size = 0) :
    Layout used []
      ⟨memory, ⟨mem, offset, size, AllocList.zero, fun _ => AllocList.zero⟩, []⟩ fun _ => [] := by
  have hlist : FreeList memory AllocList.zero [] :=
    ⟨rfl, Linked.nil _, List.Pairwise.nil⟩
  refine ⟨fun l => ?_, ?_, nofun, nofun, fun _ => nofun, fun _ _ => rfl, by simp only; omega, htop,
    hbuffer⟩
  · cases l with
    | none => exact hlist
    | some i => exact hlist
  · have hfree : freeBlocks memory (fun _ => []) = 0 := Finset.sum_const_zero
    simp only [blocks_nil, State.liveBlocks, List.map_nil, hfree, add_zero, hoffset]
    exact Tiles.nil _

theorem layout_create (hbuffer : buffer + bytes < 2 ^ 64) :
    Layout used [] (State.create memory buffer bytes) fun _ => [] := by
  unfold State.create generalPurposeCreate
  split_ifs with hbad
  · exact layout_zero memory rfl (by decide) fun _ => rfl
  · rw [u64_eq hbuffer]
    exact layout_zero memory rfl hbuffer fun h0 => absurd h0 (by omega)

/-! ## Disjoint blocks -/

/-- The block of a pointer. -/
def State.block (s : State) (ptr : Nat) : Block := blockAt s.memory (header ptr)

/-- The blocks of the live pointers have no address in common and lie in the buffer. -/
structure State.Disjoint (s : State) : Prop where
  apart : s.live.Pairwise fun p q => (s.block p).Apart (s.block q)
  inside : ∀ ptr ∈ s.live, s.allocator.mem ≤ (s.block ptr).start ∧
    (s.block ptr).start + (s.block ptr).size ≤ s.allocator.mem + s.allocator.size

theorem Layout.disjoint (h : Layout used [] s F) : s.Disjoint := by
  have ht := h.tiles
  have hlive : s.liveBlocks = ((s.live.map s.block : List Block) : Multiset Block) := by
    rw [State.liveBlocks, blocks, Multiset.map_coe, List.map_map]
    rfl
  rw [blocks_nil, zero_add] at ht
  constructor
  · rw [hlive] at ht
    exact List.pairwise_map.mp ht.pairwise
  · intro ptr hptr
    have hbounds := ht.bounds (Multiset.mem_add.mpr (Or.inl (mem_liveBlocks hptr)))
    exact ⟨Nat.le_trans h.mem_le hbounds.1, hbounds.2⟩

/-- In every run without the exit that forgets a `Prev`, the live blocks are disjoint and
inside the buffer. -/
theorem generalPurpose_disjoint (hbuffer : buffer + bytes < 2 ^ 64) (hfuel : 2 ^ 64 ≤ fuel)
    {calls : List Call}
    (hok : AtEach (step fuel) Admitted (State.create memory buffer bytes) calls)
    (hclean : AtEach (step fuel) Unstale (State.create memory buffer bytes) calls) :
    ∃ s, exec (step fuel) (State.create memory buffer bytes) calls = some s ∧ s.Disjoint := by
  obtain ⟨s, hs, F, hlayout⟩ := AtEach.invariant (fun s => ∃ F, Layout (fun _ => True) [] s F)
    (fun s a ⟨F, h⟩ ha hc => h.step ha (fun _ _ => trivial) hc hfuel)
    ⟨_, layout_create hbuffer⟩ hok hclean
  exact ⟨s, hs, hlayout.disjoint⟩

/-- Memory before any store. -/
def zeroed : Memory := fun _ => ⟨0, 0, 0⟩

/-- A large block cut off a larger one, and a bucketed block freed and handed out again. -/
theorem generalPurpose_disjoint_split :
    ∃ s, exec (step (2 ^ 64)) (State.create zeroed (2 ^ 32) (2 ^ 29))
        [.alloc 134217728, .alloc 100, .free 4697619992, .alloc 33554432, .free 4697619480,
          .alloc 50] = some s ∧ s.Disjoint :=
  generalPurpose_disjoint (by decide) (Nat.le_refl _) (by decide +kernel) (by decide +kernel)

/-- Five blocks are handed out downwards, the sixth below them; the first, the third and
the fourth are freed, so that the fourth and the third become the head in front of the
first; then the size of the first is asked for twice. -/
def forgottenPrev : List Call :=
  [.alloc 100664808, .alloc 33554920, .alloc 33554920, .alloc 33554920, .alloc 8,
    .free 4731173400, .free 4664063512, .free 4630508568, .alloc 100664808, .alloc 100664808]

/-- The first block is handed out twice. -/
theorem forgotten_prev_hands_out_twice :
    AtEach (step (2 ^ 64)) Admitted (State.create zeroed (2 ^ 32) (2 ^ 29)) forgottenPrev ∧
      ∃ s, exec (step (2 ^ 64)) (State.create zeroed (2 ^ 32) (2 ^ 29)) forgottenPrev = some s ∧
        s.live = [4731173400, 4731173400, 4630508056, 4697618456] ∧ ¬ s.Disjoint := by
  have hrun : (exec (step (2 ^ 64)) (State.create zeroed (2 ^ 32) (2 ^ 29)) forgottenPrev).map
      (fun s => (s.live, s.block 4731173400)) =
        some ([4731173400, 4731173400, 4630508056, 4697618456], ⟨4731173376, 100664832⟩) := by
    decide +kernel
  obtain ⟨s, hs, heq⟩ := Option.map_eq_some_iff.mp hrun
  obtain ⟨hlive, hblock⟩ := Prod.mk.inj heq
  refine ⟨by decide +kernel, s, hs, hlive, fun hdisjoint => ?_⟩
  have hapart := hdisjoint.apart
  rw [hlive] at hapart
  have htwice := (List.pairwise_cons.mp hapart).1 4731173400 (List.mem_cons_self ..)
  rw [hblock] at htwice
  simp only [Block.Apart] at htwice
  omega

/-! ## The buffer stays -/

/-- The allocators have the same buffer. -/
def SameBuffer (a b : GeneralPurposeAllocator) : Prop := b.mem = a.mem ∧ b.size = a.size

theorem sameBuffer_setList (a : GeneralPurposeAllocator) (l : ListName) (list : AllocList) :
    SameBuffer a (a.setList l list) := ⟨mem_setList, size_setList⟩

theorem takeFree_buffer {a : GeneralPurposeAllocator} {size : Nat}
    {r : Nat × Memory × GeneralPurposeAllocator} (h : takeFree fuel memory a size = some r) :
    SameBuffer a r.2.2 := by
  unfold takeFree at h
  split_ifs at h
  · obtain ⟨u, -, rfl⟩ := Option.map_eq_some_iff.mp h
    exact sameBuffer_setList a none u.2.2
  · obtain ⟨i, -, rfl⟩ := Option.map_eq_some_iff.mp h
    split_ifs
    · exact sameBuffer_setList a (some i) _
    · exact ⟨rfl, rfl⟩

theorem generalPurposeAlloc_buffer {a : GeneralPurposeAllocator} {size : Nat}
    {r : Nat × Memory × GeneralPurposeAllocator}
    (h : generalPurposeAlloc fuel memory a size = some r) : SameBuffer a r.2.2 := by
  obtain ⟨u, hu, rfl⟩ := Option.map_eq_some_iff.mp h
  have hbuffer := takeFree_buffer hu
  split_ifs
  · exact hbuffer
  · exact hbuffer
  · exact hbuffer

theorem generalPurposeFree_buffer {a : GeneralPurposeAllocator} {ptr : Nat}
    {r : Memory × GeneralPurposeAllocator} (h : generalPurposeFree fuel memory a ptr = some r) :
    SameBuffer a r.2 := by
  have hinsert : ∀ {l : ListName} {node : Nat}, insertInto fuel memory a l node = some r →
      SameBuffer a r.2 := by
    intro l node hr
    obtain ⟨u, -, rfl⟩ := Option.map_eq_some_iff.mp hr
    exact sameBuffer_setList { a with offset := u.offset } l u.list
  unfold generalPurposeFree at h
  simp only at h
  split_ifs at h
  · cases h
    exact ⟨rfl, rfl⟩
  · cases h
    exact ⟨rfl, rfl⟩
  · cases h
    exact ⟨rfl, rfl⟩
  · obtain ⟨i, -, hr⟩ := Option.bind_eq_some_iff.mp h
    exact hinsert hr
  · exact hinsert h

theorem step_buffer {call : Call} (h : step fuel s call = some t) :
    SameBuffer s.allocator t.allocator := by
  cases call with
  | alloc size =>
    obtain ⟨r, hr, rfl⟩ := Option.map_eq_some_iff.mp h
    exact generalPurposeAlloc_buffer hr
  | free ptr =>
    obtain ⟨r, hr, rfl⟩ := Option.map_eq_some_iff.mp h
    exact generalPurposeFree_buffer hr
  | write address value =>
    cases h
    exact ⟨rfl, rfl⟩

/-! ## Free memory -/

/-- The sizes of the nodes of a list. -/
def sizes (memory : Memory) (ns : List Nat) : Nat := (ns.map fun x => (memory x).size).sum

/-- The loop over one list adds the sizes of its nodes. -/
theorem FreeList.sum {list : AllocList} {ns : List Nat} (h : FreeList memory list ns)
    (hfuel : ns.length < fuel) {total : Nat} (htotal : total + sizes memory ns < 2 ^ 64) :
    Loop.run (sumTurn memory) fuel (list.head, total) = some (total + sizes memory ns) := by
  let I : List Nat → List Nat → Nat × Nat → Prop :=
    fun xs ys p => ns = xs ++ ys ∧ p = (ys.headD 0, total + sizes memory xs)
  have hstart : I [] ns (list.head, total) := ⟨rfl, by rw [h.head_eq]; rfl⟩
  have hnil : ∀ xs p, I xs [] p →
      ∃ r, sumTurn memory p = .done r ∧ r = total + sizes memory ns := by
    rintro xs p ⟨hns, rfl⟩
    exact ⟨_, rfl, by rw [hns, List.append_nil]⟩
  have hcons : ∀ xs x ys p, I xs (x :: ys) p →
      (∃ r, sumTurn memory p = .done r ∧ r = total + sizes memory ns) ∨
        ∃ p', sumTurn memory p = .again p' ∧ I (xs ++ [x]) ys p' := by
    rintro xs x ys p ⟨hns, rfl⟩
    have hx : x ≠ 0 := h.ne_zero (by simp [hns])
    have hnext : (memory x).next = ys.headD 0 := (hns ▸ h).next_eq
    have hsum : sizes memory (xs ++ [x]) = sizes memory xs + (memory x).size := by simp [sizes]
    have hle : sizes memory (xs ++ [x]) ≤ sizes memory ns := by
      rw [hns, sizes, sizes, List.map_append, List.map_append, List.sum_append, List.sum_append]
      simp
    refine Or.inr ⟨_, if_neg hx, by simp [hns], ?_⟩
    rw [hsum] at hle ⊢
    rw [List.headD_cons, hnext, u64_eq (by omega), Nat.add_assoc]
  obtain ⟨r, hr, rfl⟩ := Loop.run_list I _ hnil hcons hstart hfuel
  exact hr

/-- A loop over indices that adds a number for each of them. -/
theorem foldlM_add {f : Nat → Fin 16 → Option Nat} {g : Fin 16 → Nat}
    (hf : ∀ total i, total + g i < 2 ^ 64 → f total i = some (total + g i)) :
    ∀ (is : List (Fin 16)) {total : Nat}, total + (is.map g).sum < 2 ^ 64 →
      is.foldlM f total = some (total + (is.map g).sum) := by
  intro is
  induction is with
  | nil => intro total _; rfl
  | cons i is ih =>
    intro total htotal
    rw [List.map_cons, List.sum_cons] at htotal ⊢
    rw [List.foldlM_cons, hf total i (by omega), ← Nat.add_assoc]
    exact ih (by omega)

/-- `GeneralPurposeGetFreeMemory` is the memory below `Offset` and that of the lists. -/
theorem generalPurposeGetFreeMemory_eq {a : GeneralPurposeAllocator}
    (hlists : ∀ l, FreeList memory (a.list l) (F l)) (hfuel : ∀ l, (F l).length < fuel)
    (hsum : sub64 a.offset a.mem + ∑ l, sizes memory (F l) < 2 ^ 64) :
    generalPurposeGetFreeMemory fuel memory a =
      some (sub64 a.offset a.mem + ∑ l, sizes memory (F l)) := by
  rw [Fintype.sum_option, Fin.sum_univ_def] at *
  have hlarge := (hlists none).sum (hfuel none)
    (show sub64 a.offset a.mem + sizes memory (F none) < 2 ^ 64 by omega)
  have hlarge' : Loop.run (sumTurn memory) fuel (a.large.head, sub64 a.offset a.mem) =
      some (sub64 a.offset a.mem + sizes memory (F none)) := hlarge
  rw [generalPurposeGetFreeMemory, hlarge', Option.bind_some, ← Nat.add_assoc]
  exact foldlM_add (fun total i hi => (hlists (some i)).sum (hfuel (some i)) hi) _ (by omega)

theorem sum_blocks (memory : Memory) (ns : List Nat) :
    ((blocks memory ns).map Block.size).sum = sizes memory ns := by
  rw [blocks, Multiset.map_map, Multiset.map_coe, Multiset.sum_coe]
  rfl

theorem sum_freeBlocks (memory : Memory) (F : Nodes) :
    ((freeBlocks memory F).map Block.size).sum = ∑ l, sizes memory (F l) := by
  have hhom := map_sum ((Multiset.sumAddMonoidHom : Multiset Nat →+ Nat).comp
    (Multiset.mapAddMonoidHom Block.size)) (fun l => blocks memory (F l)) Finset.univ
  exact hhom.trans (Finset.sum_congr rfl fun l _ => sum_blocks memory (F l))

/-! ## Bucketed requests -/

/-- Requests are rounded to at most `2 ^ 23` bytes. -/
def Bucketed (s : State) : Call → Prop
  | .alloc size => roundedSize size ≤ 2 ^ 23 ∧ (bucketOf (roundedSize size)).isSome
  | call => Admitted s call

instance (s : State) : ∀ call, Decidable (Bucketed s call)
  | .alloc _ => inferInstanceAs (Decidable (_ ∧ _))
  | .free ptr => inferInstanceAs (Decidable (Admitted s (.free ptr)))
  | .write address value => inferInstanceAs (Decidable (Admitted s (.write address value)))

/-- Live blocks and bucket nodes tile the memory above `Offset`, an allocation that fails
changes nothing, and no byte is counted twice or lost. -/
structure State.Conserved (fuel : Nat) (s : State) : Prop where
  tiled : ∃ F : Fin 16 → List Nat,
    (∀ i, FreeList s.memory (s.allocator.buckets i) (F i)) ∧
      Tiles s.allocator.offset (s.allocator.mem + s.allocator.size)
        (s.liveBlocks + ∑ i, blocks s.memory (F i)) ∧
      ∀ i, ∀ x ∈ F i, (s.memory x).size = 2 ^ (8 + i.val) ∧ bucketOf (s.memory x).size = some i
  null_alloc : ∀ size memory' a', Bucketed s (.alloc size) →
    generalPurposeAlloc fuel s.memory s.allocator size = some (0, memory', a') →
      memory' = s.memory ∧ a' = s.allocator
  free_memory : ∃ total, generalPurposeGetFreeMemory fuel s.memory s.allocator = some total ∧
    total + (s.liveBlocks.map Block.size).sum = s.allocator.size

/-- The lists of bucketed requests. -/
def IsBucket (l : ListName) : Prop := l ≠ none

/-- A bucketed request is admitted when the buffer lies above its size. -/
theorem Bucketed.request (h : Layout used [] s F) (hmem : 2 ^ 23 ≤ s.allocator.mem) {size : Nat}
    (hb : Bucketed s (.alloc size)) : Request s size ∧ IsBucket (requestList size) := by
  obtain ⟨hsize, hbucket⟩ := hb
  have hsmall : ¬ requestSize size > generalPurposeMax := by
    intro hlarge
    have hround : roundedSize size = requestSize size := if_pos hlarge
    have hmax : 2 ^ 23 < generalPurposeMax := by decide
    omega
  have hle := h.mem_le
  refine ⟨⟨by omega, fun hlarge => absurd hlarge hsmall, fun _ => hbucket⟩, ?_⟩
  rw [IsBucket, requestList, if_neg hsmall]
  exact Option.isSome_iff_ne_none.mp hbucket

/-- With bucketed blocks only, the layout is conserved. -/
theorem Layout.conserved (h : Layout IsBucket [] s F) (hmem : 2 ^ 23 ≤ s.allocator.mem)
    (hfuel : 2 ^ 64 ≤ fuel) : s.Conserved fuel := by
  have hnone : F none = [] := h.unused none (fun hb => hb rfl)
  have ht := h.tiles
  rw [blocks_nil, zero_add] at ht
  have htop := h.top_lt
  have hle := ht.le
  have hmem_le := h.mem_le
  have hsum := ht.sum_sizes
  rw [Multiset.map_add, Multiset.sum_add, sum_freeBlocks] at hsum
  have hsub : sub64 s.allocator.offset s.allocator.mem = s.allocator.offset - s.allocator.mem :=
    sub64_eq hmem_le (by omega)
  refine ⟨⟨fun i => F (some i), fun i => h.lists (some i), ?_, fun i x hx => ?_⟩,
    fun size memory' a' hb halloc => ?_, ?_⟩
  · rwa [freeBlocks, Fintype.sum_option, hnone, blocks_nil, zero_add] at ht
  · have hfit : (s.memory x).size = 2 ^ (8 + i.val) := h.list_fits (some i) x hx
    exact ⟨hfit, by rw [hfit, (bucketOf_fits i).1]⟩
  · obtain ⟨hr, hused⟩ := Bucketed.request h hmem hb
    obtain ⟨r, hr', hres⟩ := generalPurposeAlloc_spec h hr.servable hused hfuel
    rw [halloc, Option.some.injEq] at hr'
    subst hr'
    rcases hres with heq | ⟨hne, -, -⟩
    · cases heq
      exact ⟨rfl, rfl⟩
    · exact absurd rfl hne
  · refine ⟨_, generalPurposeGetFreeMemory_eq h.lists
      (fun l => Nat.lt_of_lt_of_le (h.length_lt l) hfuel) (by rw [hsub]; omega), ?_⟩
    rw [hsub]
    omega

/-- A bucketed block is not freed into `Large`. -/
theorem Layout.forgetsNoPrev (h : Layout IsBucket [] s F) {ptr : Nat} (hptr : ptr ∈ s.live) :
    ForgetsNoPrev s ptr := by
  intro _ hlarge
  obtain ⟨l, hl, hfit⟩ := h.live_fits ptr hptr
  cases l with
  | none => exact absurd rfl hl
  | some i =>
    have hsize : (s.memory (header ptr)).size = 2 ^ (8 + i.val) := hfit
    have hle := (bucketOf_fits i).2.2
    omega

/-- Every bucketed call keeps the layout. -/
theorem Layout.step_bucketed (h : Layout IsBucket [] s F) (hmem : 2 ^ 23 ≤ s.allocator.mem)
    {call : Call} (hb : Bucketed s call) (hfuel : 2 ^ 64 ≤ fuel) :
    ∃ t, HeapAllocator.step fuel s call = some t ∧ ∃ F', Layout IsBucket [] t F' := by
  cases call with
  | alloc size =>
    obtain ⟨hr, hused⟩ := Bucketed.request h hmem hb
    exact h.step (show Admitted s (.alloc size) from hr)
      (fun size' heq => by cases heq; exact hused) trivial hfuel
  | free ptr =>
    have hptr : ptr ∈ s.live := hb
    exact h.step (show Admitted s (.free ptr) from hptr) nofun (h.forgetsNoPrev hptr) hfuel
  | write address value =>
    exact h.step (show Admitted s (.write address value) from hb) nofun trivial hfuel

/-- In every run of bucketed requests memory is conserved. -/
theorem generalPurpose_conserves (hbuffer : 2 ^ 23 ≤ buffer) (hbytes : sizeofMemNode < bytes)
    (htop : buffer + bytes < 2 ^ 64) (hfuel : 2 ^ 64 ≤ fuel) {calls : List Call}
    (hok : AtEach (step fuel) Bucketed (State.create memory buffer bytes) calls) :
    ∃ s, exec (step fuel) (State.create memory buffer bytes) calls = some s ∧
      s.allocator.mem = buffer ∧ s.allocator.size = bytes ∧ s.Conserved fuel := by
  let I : State → Prop := fun s => (∃ F, Layout IsBucket [] s F) ∧
    s.allocator.mem = buffer ∧ s.allocator.size = bytes
  have hstart : I (State.create memory buffer bytes) := by
    refine ⟨⟨_, layout_create htop⟩, ?_⟩
    rw [State.create, generalPurposeCreate, if_neg (by unfold sizeofMemNode at *; omega)]
    exact ⟨rfl, rfl⟩
  have hkeep : ∀ s call, I s → Bucketed s call → ∃ t, step fuel s call = some t ∧ I t := by
    rintro s call ⟨⟨F, h⟩, hmem, hsize⟩ hb
    obtain ⟨t, ht, hlayout⟩ := h.step_bucketed (hmem ▸ hbuffer) hb hfuel
    obtain ⟨hmem', hsize'⟩ := step_buffer ht
    exact ⟨t, ht, hlayout, hmem'.trans hmem, hsize'.trans hsize⟩
  obtain ⟨s, hs, ⟨F, h⟩, hmem, hsize⟩ := hok.exec_invariant I hkeep hstart
  exact ⟨s, hs, hmem, hsize, h.conserved (hmem ▸ hbuffer) hfuel⟩

/-- Three blocks of two buckets; the upper ones go to their lists, the lowest to the
buffer, and one bucket serves again. -/
theorem generalPurpose_conserves_three :
    ∃ s, exec (step (2 ^ 64)) (State.create zeroed (2 ^ 24) (2 ^ 20))
        [.alloc 100, .alloc 1000, .alloc 200, .write 17825304 ⟨7, 7, 7⟩, .free 17825304,
          .free 17824280, .free 17823768, .alloc 300] = some s ∧
      s.allocator.mem = 2 ^ 24 ∧ s.allocator.size = 2 ^ 20 ∧ s.Conserved (2 ^ 64) :=
  generalPurpose_conserves (by decide) (by decide) (by decide) (Nat.le_refl _) (by decide +kernel)

end ScalBase.HeapAllocator
