/-
  HeapAllocator/DoubleFree.lean --- a block that is freed twice.

  After the first free a bucketed block lies in its bucket or below `Offset`, until
  its memory is handed out again (`Spare`, `Freed`).  The checks of the second free
  cover a block below `Offset` and one found on the way through its bucket
  (`Freed.free`).  They do not cover a block in a bucket that `Offset` has come up to:
  it goes back to the buffer and stays in its bucket, and requests of its size hand it
  out twice (`Drains.drain`).
-/
import ScalBase.HeapAllocator.Runs

set_option autoImplicit false

namespace ScalBase.HeapAllocator

open ScalBase.Foundation

/-! ## A node that is in the list already -/

section Insert

variable {hi node x fuel : Nat} {rest : Multiset Block} {s : ListState} {ns xs ys : List Nat}

/-- A bucket with one of its nodes. -/
structure Resident (hi : Nat) (rest : Multiset Block) (node : Nat) (s : ListState)
    (ns : List Nat) : Prop where
  list : FreeList s.memory s.list ns
  tiles : Tiles s.offset hi (blocks s.memory ns + rest)
  hi_lt : hi < 2 ^ 64
  mem : node ∈ ns

namespace Resident

theorem bounds (h : Resident hi rest node s ns) (hx : x ∈ ns) :
    s.offset ≤ x ∧ x + (s.memory x).size ≤ hi :=
  h.tiles.bounds (Multiset.mem_add.mpr (Or.inl (blockAt_mem_blocks hx)))

/-- Nodes below `node` end below it. -/
theorem end_le (h : Resident hi rest node s ns) (hx : x ∈ ns) (hlt : x < node) :
    x + (s.memory x).size ≤ node := by
  have hapart := h.tiles.apart (Multiset.mem_add.mpr (Or.inl (blockAt_mem_blocks hx)))
    (Multiset.mem_add.mpr (Or.inl (blockAt_mem_blocks h.mem)))
    fun heq => hlt.ne (congrArg Block.start heq)
  simp only [Block.Apart, blockAt] at hapart
  omega

/-- The comparison leaves at the node, and goes on from the nodes below it. -/
theorem compare (h : Resident hi rest node s (xs ++ x :: ys)) (hmem : node ∈ x :: ys) :
    insertCompare node true s x = .done s ∨
      node ∈ ys ∧ insertCompare node true s x = .again (s, ys.headD 0) := by
  rcases List.mem_cons.mp hmem with rfl | hys
  · left
    unfold insertCompare
    exact if_pos rfl
  · right
    have hlt : x < node :=
      (List.pairwise_cons.mp (List.pairwise_append.mp h.list.sorted).2.1).1 node hys
    have hend := h.end_le (show x ∈ xs ++ x :: ys by simp) hlt
    have hnode := (h.bounds h.mem).2
    have hhi := h.hi_lt
    have hiterEnd : u64 (x + (s.memory x).size) = x + (s.memory x).size := u64_eq (by omega)
    have hnext : ys.headD 0 ≠ 0 := by
      intro hzero
      rw [headD_eq_zero fun h0 => h.list.linked.ne_zero (by simp [h0])] at hzero
      rw [hzero] at hys
      exact List.not_mem_nil hys
    refine ⟨hys, ?_⟩
    simp only [insertCompare, hiterEnd, if_neg hlt.ne, if_pos hlt, if_neg (Nat.not_lt.mpr hend),
      Bool.true_eq_false, and_false, if_false, h.list.next_eq]
    exact if_neg hnext

/-- The loop through the nodes up to `node` changes nothing. -/
theorem run : ∀ {ys xs : List Nat} {fuel : Nat}, Resident hi rest node s (xs ++ ys) → node ∈ ys →
    (∀ z ∈ ys, z ≠ s.offset) → ys.length < fuel →
      Loop.run (insertTurn node true) fuel (s, ys.headD 0) = some s := by
  intro ys
  induction ys with
  | nil => exact fun _ hmem => absurd hmem List.not_mem_nil
  | cons x ys ih =>
    intro xs fuel h hmem hoffset hfuel
    obtain ⟨fuel, rfl⟩ := Nat.exists_eq_succ_of_ne_zero (Nat.ne_of_gt (Nat.zero_lt_of_lt hfuel))
    have hx : x ≠ 0 := h.list.ne_zero (by simp)
    have hturn : insertTurn node true (s, x) = insertCompare node true s x :=
      insertTurn_eq hx (hoffset x (List.mem_cons_self ..))
    rw [List.headD_cons]
    rcases h.compare hmem with hdone | ⟨hys, hagain⟩
    · exact Loop.run_succ_done fuel (hturn.trans hdone)
    · rw [Loop.run_succ_again fuel (hturn.trans hagain)]
      have h' : Resident hi rest node s ((xs ++ [x]) ++ ys) := by simpa using h
      exact ih h' hys (fun z hz => hoffset z (List.mem_cons_of_mem x hz))
        (Nat.lt_of_succ_lt_succ hfuel)

/-- Nodes after the first lie above `Offset`. -/
theorem ne_offset (h : Resident hi rest node s (x :: ys)) : ∀ z ∈ ys, z ≠ s.offset := by
  intro z hz
  have hx := (h.bounds (List.mem_cons_self ..)).1
  have hlt := (List.pairwise_cons.mp h.list.sorted).1 z hz
  omega

theorem pop (h : Resident hi rest node s (s.offset :: ns)) (hne : node ≠ s.offset) :
    Resident hi rest node s.pop ns := by
  obtain ⟨hlist, htiles, -⟩ := ListState.pop_spec h.list h.tiles h.hi_lt
  exact ⟨hlist, htiles, h.hi_lt, (List.mem_cons.mp h.mem).resolve_left hne⟩

/-- `InsertMemNode` of a node of the bucket leaves the bucket as it is, or its head has
gone back to the buffer. -/
theorem insert (h : Resident hi rest node s ns) (hne : node ≠ s.offset) (hfuel : ns.length < fuel) :
    ∃ t, insertMemNode fuel s node true = some t ∧
      ∃ ns', Absorbed hi rest node true s ns t ns' := by
  have hhead := h.list.head_eq
  unfold insertMemNode
  cases ns with
  | nil => exact absurd h.mem List.not_mem_nil
  | cons x ns =>
    rw [List.headD_cons] at hhead
    have hx : x ≠ 0 := h.list.ne_zero (List.mem_cons_self ..)
    rw [hhead, if_neg hx]
    by_cases hoffset : x = s.offset
    · subst hoffset
      have hpop := h.pop hne
      obtain ⟨hlist, htiles, hle, hsize, hframe⟩ := ListState.pop_spec h.list h.tiles h.hi_lt
      have hrun : Loop.run (insertTurn node true) fuel (s, s.offset) = some s.pop := by
        obtain ⟨fuel, rfl⟩ := Nat.exists_eq_succ_of_ne_zero (Nat.ne_of_gt (Nat.zero_lt_of_lt hfuel))
        cases ns with
        | nil => exact absurd hpop.mem List.not_mem_nil
        | cons y ys =>
          have hy : s.pop.list.head = y := hlist.head_eq
          have hturn : insertTurn node true (s, s.offset) = insertCompare node true s.pop y := by
            rw [insertTurn_pop hx, hy, if_neg (hlist.ne_zero (List.mem_cons_self ..))]
          have hpop' : Resident hi rest node s.pop ([] ++ y :: ys) := hpop
          rcases hpop'.compare hpop.mem with hdone | ⟨hys, hagain⟩
          · exact Loop.run_succ_done fuel (hturn.trans hdone)
          · rw [Loop.run_succ_again fuel (hturn.trans hagain)]
            have hpop'' : Resident hi rest node s.pop ([y] ++ ys) := hpop
            refine hpop''.run hys hpop.ne_offset ?_
            simp only [List.length_cons] at hfuel
            omega
      refine ⟨s.pop, hrun, ns, hlist, htiles, hle, fun z hz => hframe z ?_, fun z hz => ?_,
        fun z => (hsize z).ge, fun _ => hsize⟩
      · exact fun hmem => hz (List.mem_cons_of_mem _ (List.mem_cons_of_mem _ hmem))
      · exact List.mem_cons_of_mem _ (List.mem_cons_of_mem _ hz)
    · have hall : ∀ z ∈ x :: ns, z ≠ s.offset := by
        intro z hz
        rcases List.mem_cons.mp hz with rfl | hz
        · exact hoffset
        · exact h.ne_offset z hz
      refine ⟨s, @Resident.run hi node rest s (x :: ns) [] fuel h h.mem hall hfuel, x :: ns, h.list,
        h.tiles, Nat.le_refl _, fun _ _ => rfl, fun z => List.mem_cons_of_mem node,
        fun _ => Nat.le_refl _, fun _ _ => rfl⟩

end Resident

end Insert

/-! ## Where a freed block is -/

variable {used : ListName → Prop} {s t : State} {F F' : Nodes} {fuel ptr x : Nat} {i : Fin 16}

/-- The lists have blocks of different sizes. -/
theorem Fits.bucket_eq {l : ListName} (h : Fits l (2 ^ (8 + i.val))) : l = some i := by
  have hi := bucketOf_fits i
  cases l with
  | none => exact absurd hi.2.2 (Nat.not_le.mpr h)
  | some j =>
    have hsize : 2 ^ (8 + i.val) = 2 ^ (8 + j.val) := h
    rw [hsize, (bucketOf_fits j).1] at hi
    exact hi.1

/-- A block of bucket `i` lies below `Offset` or in its bucket. -/
def Spare (s : State) (F : Nodes) (x : Nat) (i : Fin 16) : Prop :=
  x + 2 ^ (8 + i.val) ≤ s.allocator.offset ∨ x ∈ F (some i)

/-- The free nodes after a call were free nodes or live blocks before it, of the same
size, and the blocks that stay live are as they were. -/
structure Inherits (s t : State) (F F' : Nodes) : Prop where
  buffer : SameBuffer s.allocator t.allocator
  free : ∀ l, ∀ w ∈ F' l, blockAt t.memory w = blockAt s.memory w ∧
    blockAt s.memory w ∈ s.liveBlocks + freeBlocks s.memory F
  live : ∀ p ∈ t.live, p ∈ s.live → t.block p = s.block p

/-- A block that lay below `Offset`, was free or was live before a call, and that no live
block overlaps after it, is below `Offset` then or in its bucket. -/
theorem Inherits.spare (hin : Inherits s t F F') (h : Layout used [] s F)
    (h' : Layout used [] t F')
    (hbefore : x + 2 ^ (8 + i.val) ≤ s.allocator.offset ∨
      (⟨x, 2 ^ (8 + i.val)⟩ : Block) ∈ s.liveBlocks + freeBlocks s.memory F)
    (hclear : ∀ p ∈ t.live, (⟨x, 2 ^ (8 + i.val)⟩ : Block).Apart (t.block p)) : Spare t F' x i := by
  by_cases hbelow : x + 2 ^ (8 + i.val) ≤ t.allocator.offset
  · exact Or.inl hbelow
  right
  have ht := h.tiles
  have ht' := h'.tiles
  rw [blocks_nil, zero_add] at ht ht'
  rw [hin.buffer.1, hin.buffer.2] at ht'
  have hpos : 0 < 2 ^ (8 + i.val) := Nat.two_pow_pos _
  have hle := ht.le
  have htop : x + 2 ^ (8 + i.val) ≤ s.allocator.mem + s.allocator.size := by
    rcases hbefore with hbelow | hblock
    · exact hbelow.trans hle
    · exact (ht.bounds hblock).2
  -- An address of the block that is not below `Offset` lies in a block after the call.
  obtain ⟨a, hax, hoffset⟩ : ∃ a, (⟨x, 2 ^ (8 + i.val)⟩ : Block).Covers a ∧
      t.allocator.offset ≤ a :=
    ⟨max x t.allocator.offset, by simp only [Block.Covers]; omega, Nat.le_max_right _ _⟩
  have ha : a < s.allocator.mem + s.allocator.size := Nat.lt_of_lt_of_le hax.2 htop
  obtain ⟨b, hb, hcovers⟩ := ht'.exists_covers hoffset ha
  rcases Multiset.mem_add.mp hb with hlive | hfree
  · -- A live block would overlap.
    obtain ⟨p, hp, rfl⟩ := of_mem_liveBlocks hlive
    have hapart := hclear p hp
    simp only [Block.Apart, State.block, blockAt] at hapart
    simp only [Block.Covers, blockAt] at hcovers hax
    omega
  · obtain ⟨l, w, hw, rfl⟩ := of_mem_freeBlocks hfree
    obtain ⟨hsame, hold⟩ := hin.free l w hw
    have hfit := h'.list_fits l w hw
    have hsize : (t.memory w).size = (s.memory w).size := congrArg Block.size hsame
    rw [hsame] at hcovers
    -- The free node was a block before the call, so it is this one.
    rcases hbefore with hbelow | hblock
    · have hlow := (ht.bounds hold).1
      unfold Block.Covers at hcovers hax
      simp only at hax
      omega
    · have heq := ht.eq_of_covers hold hblock hcovers hax
      obtain rfl : w = x := congrArg Block.start heq
      have hsize' : (s.memory w).size = 2 ^ (8 + i.val) := congrArg Block.size heq
      rw [hsize, hsize'] at hfit
      exact hfit.bucket_eq ▸ hw

/-! ## Runs of bucketed calls -/

/-- A bucketed call; a request is served or refused without a wrap of `Offset`. -/
def Served (fuel : Nat) (s : State) : Call → Prop
  | .alloc size => Bucketed s (.alloc size) ∧ Servable fuel s size
  | call => Admitted s call

instance (fuel : Nat) (s : State) : ∀ call, Decidable (Served fuel s call)
  | .alloc _ => inferInstanceAs (Decidable (_ ∧ _))
  | .free ptr => inferInstanceAs (Decidable (Admitted s (.free ptr)))
  | .write address value => inferInstanceAs (Decidable (Admitted s (.write address value)))

/-- The lists that bucketed requests use: the sizes are multiples of 512. -/
def IsClass (l : ListName) : Prop := ∃ i : Fin 16, i ≠ 0 ∧ l = some i

theorem isClass_requestList {size : Nat} (hround : roundedSize size ≤ 2 ^ 23)
    (hbucket : (bucketOf (roundedSize size)).isSome) : IsClass (requestList size) := by
  have hfit := roundedSize_fits fun _ => hbucket
  have hsmall : ¬ requestSize size > generalPurposeMax := by
    intro hlarge
    have heq : roundedSize size = requestSize size := if_pos hlarge
    have hmax : 2 ^ 23 < generalPurposeMax := by decide
    omega
  have heq : roundedSize size = alignPowTwoCeil (requestSize size) := if_neg hsmall
  obtain ⟨i, hi⟩ := Option.isSome_iff_exists.mp hbucket
  rw [requestList, if_neg hsmall, hi] at hfit ⊢
  refine ⟨i, ?_, rfl⟩
  rintro rfl
  -- A size of 256 would be the rounding of zero.
  have hsize : alignPowTwoCeil (requestSize size) = 256 := heq ▸ hfit
  have hdvd : 2 ^ 9 ∣ requestSize size := dvd_alignSize (by decide) _
  by_cases hone : requestSize size ≤ 1
  · rw [alignPowTwoCeil, if_pos hone] at hsize
    cases hsize
  · have hmax : requestSize size ≤ 2 ^ 25 := Nat.not_lt.mp hsmall
    obtain ⟨k, hk, hle, -⟩ := alignPowTwoCeil_spec (Nat.not_le.mp hone) (by omega)
    omega

theorem Layout.bucket_of_mem (h : Layout IsClass [] s F) {l : ListName} (hx : x ∈ F l) :
    ∃ i : Fin 16, i ≠ 0 ∧ l = some i := by
  by_contra hl
  rw [h.unused l hl] at hx
  exact List.not_mem_nil hx

theorem blockAt_congr {memory memory' : Memory} (h : memory' x = memory x) :
    blockAt memory' x = blockAt memory x := by rw [blockAt, blockAt, h]

/-- The free nodes of a list keep their size where they stay in it. -/
theorem Layout.size_eq (h : Layout IsClass [] s F) (h' : Layout IsClass [] t F') {l : ListName}
    (hx : x ∈ F l) (hx' : x ∈ F' l) : (t.memory x).size = (s.memory x).size := by
  obtain ⟨i, -, rfl⟩ := h.bucket_of_mem hx
  have hfit : (s.memory x).size = 2 ^ (8 + i.val) := h.list_fits _ x hx
  have hfit' : (t.memory x).size = 2 ^ (8 + i.val) := h'.list_fits _ x hx'
  exact hfit'.trans hfit.symm

/-- Blocks with one header are not apart. -/
theorem Layout.header_ne (h : Layout used [] s F) {p q : Nat} (hp : p ∈ s.live)
    (hapart : (s.block p).Apart (s.block q)) (hq : q ∈ s.live) : header p ≠ header q := by
  have hp' := h.live_size hp
  have hq' := h.live_size hq
  simp only [Block.Apart, State.block, blockAt, sizeofMemNode] at *
  omega

theorem Layout.alloc_inherits (h : Layout IsClass [] s F) {size : Nat}
    (hok : Served fuel s (.alloc size)) (hfuel : 2 ^ 64 ≤ fuel) :
    ∃ t, HeapAllocator.step fuel s (.alloc size) = some t ∧
      ∃ F', Layout IsClass [] t F' ∧ Inherits s t F F' := by
  obtain ⟨⟨hround, hbucket⟩, hservable⟩ := hok
  have hused := isClass_requestList hround hbucket
  obtain ⟨r, hr, hres⟩ := generalPurposeAlloc_spec h hservable hused hfuel
  have hstep : HeapAllocator.step fuel s (.alloc size) =
      some ⟨r.2.1, r.2.2, if r.1 = 0 then s.live else r.1 :: s.live⟩ := by
    rw [HeapAllocator.step, hr, Option.map_some]
  have hbuffer := step_buffer hstep
  refine ⟨_, hstep, ?_⟩
  rcases hres with rfl | ⟨hne, -, F', hlayout, hsubset, hframe⟩
  · exact ⟨F, h, hbuffer, fun l w hw => ⟨rfl, Multiset.mem_add.mpr (Or.inr (mem_freeBlocks hw))⟩,
      fun _ _ _ => rfl⟩
  · rw [if_neg hne] at hbuffer ⊢
    refine ⟨F', hlayout, hbuffer, fun l w hw => ⟨?_, ?_⟩, fun p hp hlive => ?_⟩
    · exact congrArg (Block.mk w) (h.size_eq hlayout (hsubset l w hw) hw)
    · exact Multiset.mem_add.mpr (Or.inr (mem_freeBlocks (hsubset l w hw)))
    · -- Other live headers are not the one handed out and not free.
      have hapart := (List.pairwise_cons.mp hlayout.disjoint.apart).1 p hlive
      have hne' := hlayout.header_ne (List.mem_cons_self ..) hapart hp
      refine blockAt_congr (hframe (header p) hne'.symm fun l hl => ?_)
      exact (h.live_ne hlive).2 l _ (hsubset l _ hl) rfl

theorem Layout.free_inherits (h : Layout IsClass [] s F) (hptr : ptr ∈ s.live)
    (hfuel : 2 ^ 64 ≤ fuel) :
    ∃ t, HeapAllocator.step fuel s (.free ptr) = some t ∧ t.live = s.live.erase ptr ∧
      ∃ F', Layout IsClass [] t F' ∧ Inherits s t F F' := by
  have hclean : ForgetsNoPrev s ptr := by
    intro _ hlarge
    obtain ⟨l, ⟨i, -, rfl⟩, hfit⟩ := h.live_fits ptr hptr
    have hsize : (s.memory (header ptr)).size = 2 ^ (8 + i.val) := hfit
    have hle := (bucketOf_fits i).2.2
    omega
  obtain ⟨r, hr, F', hlayout, hsubset, hframe⟩ := generalPurposeFree_spec h hptr hclean hfuel
  have hstep : HeapAllocator.step fuel s (.free ptr) = some ⟨r.1, r.2, s.live.erase ptr⟩ := by
    rw [HeapAllocator.step, hr, Option.map_some]
  have hreclaim := h.reclaim hptr
  refine ⟨_, hstep, rfl, F', hlayout, step_buffer hstep, fun l w hw => ?_, fun p hp hlive => ?_⟩
  · obtain ⟨i, -, rfl⟩ := hlayout.bucket_of_mem hw
    obtain ⟨hmem, hsize⟩ := hsubset _ w hw
    refine ⟨congrArg (Block.mk w) (hsize (Option.some_ne_none i)), Multiset.mem_add.mpr ?_⟩
    rcases hmem with rfl | hmem
    · exact Or.inl (mem_liveBlocks hptr)
    · exact Or.inr (mem_freeBlocks hmem)
  · have hne := (hreclaim.live_ne hp).1 (header ptr) (List.mem_singleton_self _)
    refine blockAt_congr (hframe (header p) hne fun l hl => ?_)
    exact (h.live_ne hlive).2 l _ hl rfl

theorem Layout.write_inherits (h : Layout IsClass [] s F) {address : Nat} {value : MemNode}
    (hok : Admitted s (.write address value)) :
    ∃ F', Layout IsClass [] { s with memory := Function.update s.memory address value } F' ∧
      Inherits s { s with memory := Function.update s.memory address value } F F' := by
  obtain ⟨ptr, hptr, hlow, hhigh⟩ := h.write_inside hok
  have hout := h.start_ne_inside hptr hlow hhigh
  refine ⟨F, h.write hptr hlow hhigh value, ⟨rfl, rfl⟩, fun l w hw => ?_, fun p _ hlive => ?_⟩
  · have hmem : blockAt s.memory w ∈ s.liveBlocks + freeBlocks s.memory F :=
      Multiset.mem_add.mpr (Or.inr (mem_freeBlocks hw))
    exact ⟨blockAt_congr (Function.update_of_ne (hout _ hmem) ..), hmem⟩
  · have hmem : s.block p ∈ s.liveBlocks + freeBlocks s.memory F :=
      Multiset.mem_add.mpr (Or.inl (mem_liveBlocks hlive))
    exact blockAt_congr (Function.update_of_ne (hout _ hmem) ..)

/-- A served call returns, keeps the layout and inherits the blocks. -/
theorem Layout.step_served (h : Layout IsClass [] s F) {call : Call} (hok : Served fuel s call)
    (hfuel : 2 ^ 64 ≤ fuel) :
    ∃ t, HeapAllocator.step fuel s call = some t ∧
      ∃ F', Layout IsClass [] t F' ∧ Inherits s t F F' := by
  cases call with
  | alloc size => exact h.alloc_inherits hok hfuel
  | free ptr =>
    obtain ⟨t, ht, -, hres⟩ := h.free_inherits hok hfuel
    exact ⟨t, ht, hres⟩
  | write address value => exact ⟨_, rfl, h.write_inherits hok⟩

theorem exists_layout (h : ∃ F, Layout IsClass [] s F) {call : Call} (hok : Served fuel s call)
    (hfuel : 2 ^ 64 ≤ fuel) :
    ∃ t, step fuel s call = some t ∧ ∃ F, Layout IsClass [] t F := by
  obtain ⟨F, hF⟩ := h
  obtain ⟨t, ht, F', hF', -⟩ := hF.step_served hok hfuel
  exact ⟨t, ht, F', hF'⟩

/-! ## From one free to the next -/

/-- No live block overlaps the block. -/
def State.Clear (s : State) (b : Block) : Prop := ∀ p ∈ s.live, b.Apart (s.block p)

instance (b c : Block) : Decidable (b.Apart c) := inferInstanceAs (Decidable (_ ∨ _))

instance (s : State) (b : Block) : Decidable (s.Clear b) :=
  inferInstanceAs (Decidable (∀ p ∈ s.live, b.Apart (s.block p)))

/-- A served call that hands out nothing of the block. -/
def ServedBeside (fuel : Nat) (b : Block) (s : State) (call : Call) : Prop :=
  Served fuel s call ∧ ∀ t ∈ step fuel s call, t.Clear b

instance (fuel : Nat) (b : Block) (s : State) (call : Call) :
    Decidable (ServedBeside fuel b s call) :=
  inferInstanceAs (Decidable (_ ∧ _))

/-- A block that has been freed and not handed out since. -/
def Freed (s : State) (x : Nat) (i : Fin 16) : Prop :=
  ∃ F, Layout IsClass [] s F ∧ Spare s F x i ∧ s.Clear ⟨x, 2 ^ (8 + i.val)⟩

/-- The first free. -/
theorem Layout.free_freed (h : Layout IsClass [] s F) (hptr : ptr ∈ s.live)
    (hsize : (s.memory (header ptr)).size = 2 ^ (8 + i.val)) (hfuel : 2 ^ 64 ≤ fuel) :
    ∃ t, HeapAllocator.step fuel s (.free ptr) = some t ∧ Freed t (header ptr) i := by
  obtain ⟨t, ht, hlive, F', hlayout, hin⟩ := h.free_inherits hptr hfuel
  have hblock : blockAt s.memory (header ptr) = ⟨header ptr, 2 ^ (8 + i.val)⟩ := by
    rw [blockAt, hsize]
  have hclear : t.Clear ⟨header ptr, 2 ^ (8 + i.val)⟩ := by
    intro p hp
    have hp' : p ∈ s.live.erase ptr := hlive ▸ hp
    rw [hin.live p hp (List.mem_of_mem_erase hp'), ← hblock]
    exact (h.reclaim hptr).tiles.apart_add (blockAt_mem_blocks (List.mem_singleton_self _))
      (Multiset.mem_add.mpr (Or.inl (mem_liveBlocks hp')))
  refine ⟨t, ht, F', hlayout, hin.spare h hlayout (Or.inr ?_) hclear, hclear⟩
  rw [← hblock]
  exact Multiset.mem_add.mpr (Or.inl (mem_liveBlocks hptr))

/-- Calls that do not hand the block out leave it freed. -/
theorem Freed.step (h : Freed s x i) {call : Call}
    (hok : ServedBeside fuel ⟨x, 2 ^ (8 + i.val)⟩ s call) (hfuel : 2 ^ 64 ≤ fuel)
    (ht : HeapAllocator.step fuel s call = some t) : Freed t x i := by
  obtain ⟨F, hlayout, hspare, -⟩ := h
  obtain ⟨hserved, hclear⟩ := hok
  obtain ⟨u, hu, F', hlayout', hin⟩ := hlayout.step_served hserved hfuel
  obtain rfl : t = u := Option.some.inj (ht.symm.trans hu)
  have hbefore : x + 2 ^ (8 + i.val) ≤ s.allocator.offset ∨
      (⟨x, 2 ^ (8 + i.val)⟩ : Block) ∈ s.liveBlocks + freeBlocks s.memory F := by
    refine hspare.imp id fun hx => ?_
    have hsize : (s.memory x).size = 2 ^ (8 + i.val) := hlayout.list_fits (some i) x hx
    rw [← hsize]
    exact Multiset.mem_add.mpr (Or.inr (mem_freeBlocks hx))
  exact ⟨F', hlayout', hin.spare hlayout hlayout' hbefore (hclear t ht), hclear t ht⟩

/-! ## The second free -/

theorem Freed.notMem (h : Freed s (header ptr) i) : ptr ∉ s.live := by
  obtain ⟨F, hlayout, -, hclear⟩ := h
  intro hptr
  have hapart := hclear ptr hptr
  have hsize := hlayout.live_size hptr
  have hpos := (bucketOf_fits i).2.1
  simp only [Block.Apart, State.block, blockAt, sizeofMemNode] at hapart hsize
  omega

/-- The second free of a block that is not at `Offset` keeps the layout. -/
theorem Freed.free (h : Freed s (header ptr) i) (hptr : header ptr + sizeofMemNode = ptr)
    (hword : ptr < 2 ^ 64) (hne : header ptr ≠ s.allocator.offset) (hfuel : 2 ^ 64 ≤ fuel) :
    ∃ t, HeapAllocator.step fuel s (.free ptr) = some t ∧ ∃ F, Layout IsClass [] t F := by
  have herase : s.live.erase ptr = s.live := List.erase_of_not_mem h.notMem
  obtain ⟨F, hlayout, hspare, -⟩ := h
  simp only [HeapAllocator.step, herase]
  rcases hspare with hbelow | hx
  · -- Below `Offset` nothing happens.
    have hpos := (bucketOf_fits i).2.1
    have hblock : sub64 ptr sizeofMemNode = header ptr := sub64_eq (by omega) hword
    have hfree : generalPurposeFree fuel s.memory s.allocator ptr =
        some (s.memory, s.allocator) := by
      unfold generalPurposeFree
      simp only [hblock]
      rw [if_pos (Or.inl (by omega))]
      exact ite_self _
    exact ⟨_, congrArg (Option.map _) hfree, F, hlayout⟩
  · have hsize : (s.memory (header ptr)).size = 2 ^ (8 + i.val) := hlayout.list_fits (some i) _ hx
    have htiles := hlayout.tiles_of_list (some i)
    have hbounds := htiles.bounds (Multiset.mem_add.mpr (Or.inl (blockAt_mem_blocks hx)))
    simp only [blockAt] at hbounds
    have hresident : Resident (s.allocator.mem + s.allocator.size)
        (s.liveBlocks + otherBlocks s.memory F (some i)) (header ptr) (s.listState (some i))
        (F (some i)) := by
      rw [blocks_nil, zero_add] at htiles
      exact ⟨hlayout.lists (some i), htiles, hlayout.top_lt, hx⟩
    obtain ⟨u, hu, ns, hab⟩ :=
      hresident.insert hne (Nat.lt_of_lt_of_le (hlayout.length_lt (some i)) hfuel)
    have hinsert : insertMemNode fuel ⟨s.memory, s.allocator.offset, s.allocator.list (some i)⟩
        (header ptr) (Option.isSome (some i)) = some u := hu
    rw [generalPurposeFree_inside hptr hword hlayout.mem_le hbounds.1 (by omega), if_neg hne, hsize,
      if_pos (bucketOf_fits i).2.2, (bucketOf_fits i).1, Option.bind_some, insertInto, hinsert]
    have hused : IsClass (some i) := hlayout.bucket_of_mem hx
    refine ⟨_, rfl, _, hlayout.absorb rfl hused (fun y hy => ?_) (fun p hp => ?_)
      (fun l hl y hy heq => (hlayout.node_ne hx).2 l hl y hy heq.symm) hab⟩
    · rcases List.mem_cons.mp hy with rfl | hy
      · exact hsize
      · exact hlayout.list_fits (some i) y hy
    · exact (hlayout.live_ne hp).2 (some i) (header ptr) hx

/-! ## A block of a bucket that is at `Offset` -/

/-- The request that asks for the whole blocks of a bucket. -/
def classRequest (i : Fin 16) : Nat := 2 ^ (8 + i.val) - sizeofMemNode

theorem classRequest_spec : ∀ i : Fin 16, i ≠ 0 →
    requestSize (classRequest i) ≤ generalPurposeMax ∧
      roundedSize (classRequest i) = 2 ^ (8 + i.val) ∧ 2 ^ (8 + i.val) ≤ 2 ^ 23 := by
  decide

section Alloc

variable {a a' : GeneralPurposeAllocator} {memory memory' : Memory} {size z : Nat}

theorem alloc_found (htake : takeFree fuel memory a size = some (z, memory', a')) (hz : z ≠ 0)
    (hword : z + sizeofMemNode < 2 ^ 64) :
    generalPurposeAlloc fuel memory a size =
      some (z + sizeofMemNode, setNext (setPrev memory' z 0) z 0, a') := by
  rw [generalPurposeAlloc, htake, Option.map_some, if_pos hz, handOut, u64_eq hword]

theorem alloc_bump (htake : takeFree fuel memory a size = some (0, memory, a))
    (hoffset : a.offset = z + roundedSize size) (hmem : a.mem ≤ z) (hlt : a.offset < 2 ^ 64)
    (hword : z + sizeofMemNode < 2 ^ 64) :
    generalPurposeAlloc fuel memory a size =
      some (z + sizeofMemNode, setNext (setPrev (setSize memory z (roundedSize size)) z 0) z 0,
        { a with offset := z }) := by
  have hsub : sub64 a.offset (roundedSize size) = z := by
    rw [sub64_eq (by omega) hlt]
    omega
  rw [generalPurposeAlloc, htake, Option.map_some, if_neg (not_not.mpr rfl), hsub,
    if_neg (Nat.not_lt.mpr hmem), handOut, u64_eq hword]

theorem step_alloc {r : Nat × Memory × GeneralPurposeAllocator}
    (h : generalPurposeAlloc fuel s.memory s.allocator size = some r) (hne : r.1 ≠ 0) :
    step fuel s (.alloc size) = some ⟨r.2.1, r.2.2, r.1 :: s.live⟩ := by
  rw [step, h, Option.map_some, if_neg hne]

end Alloc

/-- The nodes of bucket `i` are `ns`, and below `Offset` there is room for one more of its
blocks, at `y`. -/
structure Drains (i : Fin 16) (y : Nat) (s : State) (ns : List Nat) : Prop where
  list : FreeList s.memory (s.allocator.buckets i) ns
  offset : s.allocator.offset = y + 2 ^ (8 + i.val)
  mem_le : s.allocator.mem ≤ y
  ne_zero : y ≠ 0
  offset_lt : s.allocator.offset < 2 ^ 64
  node_lt : ∀ z ∈ ns, z + sizeofMemNode < 2 ^ 64

namespace Drains

variable {y z : Nat} {ns : List Nat}

theorem takeFree_eq (hi : i ≠ 0) {a : GeneralPurposeAllocator} {memory : Memory} :
    takeFree fuel memory a (classRequest i) = some
      (if (a.buckets i).head ≠ 0 then
        ((a.buckets i).head, (removeMemNode memory (a.buckets i) (a.buckets i).head).1,
          a.setList (some i) (removeMemNode memory (a.buckets i) (a.buckets i).head).2)
      else (0, memory, a)) := by
  obtain ⟨hsmall, hround, -⟩ := classRequest_spec i hi
  rw [takeFree, if_neg (Nat.not_lt.mpr hsmall), hround, (bucketOf_fits i).1, Option.map_some]

theorem served (h : Drains i y s ns) (hi : i ≠ 0) : Served fuel s (.alloc (classRequest i)) := by
  obtain ⟨hsmall, hround, hle⟩ := classRequest_spec i hi
  have hbucket : (bucketOf (roundedSize (classRequest i))).isSome := by
    rw [hround, (bucketOf_fits i).1]
    rfl
  refine ⟨⟨hround.le.trans hle, hbucket⟩, Or.inl ?_,
    fun hlarge => absurd hlarge (Nat.not_lt.mpr hsmall), fun _ => hbucket⟩
  rw [hround, h.offset]
  exact Nat.le_add_left ..

/-- The head of the bucket is handed out. -/
theorem pop (h : Drains i y s (z :: ns)) (hi : i ≠ 0) :
    ∃ t, step fuel s (.alloc (classRequest i)) = some t ∧ Drains i y t ns ∧
      t.live = (z + sizeofMemNode) :: s.live := by
  have hhead : (s.allocator.buckets i).head = z := h.list.head_eq
  have hz : z ≠ 0 := h.list.ne_zero (List.mem_cons_self ..)
  have hlist : FreeList s.memory (s.allocator.buckets i) ([] ++ z :: ns) := h.list
  have hremove := hlist.remove.1
  have hnotMem : z ∉ ns := hlist.notMem
  rw [List.nil_append] at hremove
  have htake := @takeFree_eq fuel i hi s.allocator s.memory
  rw [hhead, if_pos hz] at htake
  generalize removeMemNode s.memory (s.allocator.buckets i) z = r at htake hremove
  have halloc := alloc_found htake hz (h.node_lt z (List.mem_cons_self ..))
  refine ⟨_, step_alloc halloc (Nat.succ_ne_zero _),
    ⟨?_, h.offset, h.mem_le, h.ne_zero, h.offset_lt,
    fun w hw => h.node_lt w (List.mem_cons_of_mem z hw)⟩, rfl⟩
  have hself : (s.allocator.setList (some i) r.2).buckets i = r.2 := Function.update_self ..
  rw [hself]
  refine hremove.congr fun w hw => ?_
  have hne : w ≠ z := fun heq => hnotMem (heq ▸ hw)
  simp only
  rw [setNext_of_ne hne, setPrev_of_ne hne]

/-- With the bucket empty the block below `Offset` is handed out. -/
theorem bump (h : Drains i y s []) (hi : i ≠ 0) :
    ∃ t, step fuel s (.alloc (classRequest i)) = some t ∧
      t.live = (y + sizeofMemNode) :: s.live ∧ 0 < (t.block (y + sizeofMemNode)).size := by
  have hhead : (s.allocator.buckets i).head = 0 := h.list.head_eq
  obtain ⟨-, hround, -⟩ := classRequest_spec i hi
  have hpos := (bucketOf_fits i).2.1
  have hoffset := h.offset
  have hlt := h.offset_lt
  have hword : y + sizeofMemNode < 2 ^ 64 := by
    unfold sizeofMemNode
    omega
  have htake := @takeFree_eq fuel i hi s.allocator s.memory
  rw [if_neg (not_not.mpr hhead)] at htake
  rw [← hround] at hoffset hpos
  have halloc := alloc_bump htake hoffset h.mem_le hlt hword
  have hheader : header (y + sizeofMemNode) = y := Nat.add_sub_cancel ..
  refine ⟨_, step_alloc halloc (Nat.succ_ne_zero _), rfl, ?_⟩
  rw [State.block, hheader, blockAt]
  simp only [setNext_self, setPrev_self, setSize_self]
  omega

/-- Asking for the size of a bucket as often as it has nodes, and once more, hands out all
of them and the block below `Offset`. -/
theorem drain : ∀ {ns : List Nat} {s : State}, Drains i y s ns → i ≠ 0 →
    AtEach (step fuel) (Served fuel) s (List.replicate (ns.length + 1) (.alloc (classRequest i))) ∧
      ∃ t, exec (step fuel) s (List.replicate (ns.length + 1) (.alloc (classRequest i))) = some t ∧
        0 < (t.block (y + sizeofMemNode)).size ∧
          ∃ live, t.live = (y + sizeofMemNode) :: live ∧
            (∀ p ∈ s.live, p ∈ live) ∧ ∀ z ∈ ns, z + sizeofMemNode ∈ live := by
  intro ns
  induction ns with
  | nil =>
    intro s h hi
    obtain ⟨t, ht, hlive, hpos⟩ := @bump s fuel i y h hi
    rw [List.length_nil, List.replicate_one, atEach_cons_iff ht, exec_cons _ ht]
    exact ⟨⟨h.served hi, .nil⟩, t, rfl, hpos, s.live, hlive, fun _ => id, nofun⟩
  | cons z ns ih =>
    intro s h hi
    obtain ⟨t, ht, hdrains, hlive⟩ := @pop s fuel i y z ns h hi
    obtain ⟨hserved, u, hu, hpos, live, hlive', hkept, hnodes⟩ := ih hdrains hi
    rw [List.length_cons, List.replicate_succ, atEach_cons_iff ht, exec_cons _ ht]
    rw [hlive] at hkept
    refine ⟨⟨h.served hi, hserved⟩, u, hu, hpos, live, hlive',
      fun p hp => hkept p (List.mem_cons_of_mem _ hp), fun w hw => ?_⟩
    rcases List.mem_cons.mp hw with rfl | hw
    · exact hkept _ (List.mem_cons_self ..)
    · exact hnodes w hw

end Drains

/-- The second free of a block at `Offset` takes it back to the buffer and leaves it in its
bucket. -/
theorem Freed.drains (h : Freed s (header ptr) i) (hptr : header ptr + sizeofMemNode = ptr)
    (hword : ptr < 2 ^ 64) (hoffset : header ptr = s.allocator.offset) :
    ∃ t, HeapAllocator.step fuel s (.free ptr) = some t ∧
      ∃ ns, Drains i (header ptr) t ns ∧ header ptr ∈ ns ∧ i ≠ 0 := by
  have hpos := (bucketOf_fits i).2.1
  obtain ⟨F, hlayout, hspare, -⟩ := h
  have hx : header ptr ∈ F (some i) := hspare.resolve_left (by omega)
  obtain ⟨j, hj, hij⟩ := hlayout.bucket_of_mem hx
  obtain rfl : i = j := Option.some.inj hij
  have hbounds : ∀ z ∈ F (some i), z + 2 ^ (8 + i.val) < 2 ^ 64 := by
    intro z hz
    have hsize : (s.memory z).size = 2 ^ (8 + i.val) := hlayout.list_fits (some i) z hz
    have hend := ((hlayout.tiles_of_list (some i)).bounds
      (Multiset.mem_add.mpr (Or.inl (blockAt_mem_blocks hz)))).2
    rw [blockAt, hsize] at hend
    exact Nat.lt_of_le_of_lt hend hlayout.top_lt
  have hsize : (s.memory (header ptr)).size = 2 ^ (8 + i.val) := hlayout.list_fits (some i) _ hx
  have hle := hlayout.tiles.le
  have hlt := hbounds _ hx
  simp only [HeapAllocator.step]
  rw [generalPurposeFree_inside hptr hword hlayout.mem_le hoffset.ge (by omega), if_pos hoffset,
    hsize, ← hoffset, u64_eq hlt]
  refine ⟨_, rfl, F (some i), ⟨hlayout.lists (some i), rfl, hoffset ▸ hlayout.mem_le,
    (hlayout.lists (some i)).ne_zero hx, hlt, fun z hz => ?_⟩, hx, hj⟩
  have hz' := hbounds z hz
  unfold sizeofMemNode
  omega

/-! ## Blocks that are freed twice -/

/-- Freeing the pointer leads to no overlap: the call returns, and after it live blocks are
disjoint in every continuation of served calls. -/
def HarmlessFree (fuel : Nat) (s : State) (ptr : Nat) : Prop :=
  ∃ t, step fuel s (.free ptr) = some t ∧
    ∀ calls, AtEach (step fuel) (Served fuel) t calls →
      ∃ u, exec (step fuel) t calls = some u ∧ u.Disjoint

/-- The second free is harmless exactly when the block is not at `Offset`. -/
theorem Freed.harmless_iff (h : Freed s (header ptr) i) (hptr : header ptr + sizeofMemNode = ptr)
    (hword : ptr < 2 ^ 64) (hfuel : 2 ^ 64 ≤ fuel) :
    HarmlessFree fuel s ptr ↔ header ptr ≠ s.allocator.offset := by
  constructor
  · rintro ⟨t, ht, hall⟩ hoffset
    obtain ⟨t', ht', ns, hdrains, hmem, hi⟩ := @Freed.drains s fuel ptr i h hptr hword hoffset
    obtain rfl : t = t' := Option.some.inj (ht.symm.trans ht')
    obtain ⟨hserved, u, hu, hpos, live, hlive, -, hnodes⟩ := @Drains.drain fuel i _ ns t hdrains hi
    obtain ⟨u', hu', hdisjoint⟩ := hall _ hserved
    obtain rfl : u = u' := Option.some.inj (hu.symm.trans hu')
    -- The pointer is the last one handed out and one of those before it.
    have hapart := hdisjoint.apart
    rw [hlive] at hapart
    have htwice := (List.pairwise_cons.mp hapart).1 _ (hnodes _ hmem)
    simp only [Block.Apart] at htwice
    omega
  · intro hne
    obtain ⟨t, ht, hlayout⟩ := h.free hptr hword hne hfuel
    refine ⟨t, ht, fun calls hcalls => ?_⟩
    obtain ⟨u, hu, F, hF⟩ := hcalls.exec_invariant (fun s => ∃ F, Layout IsClass [] s F)
      (fun _ _ hs hok => exists_layout hs hok hfuel) hlayout
    exact ⟨u, hu, hF.disjoint⟩

/-- In every run, where a pointer is freed and its block not handed out since, freeing it
again is harmless exactly when its block is not at `Offset`. -/
theorem generalPurposeFree_twice_iff {memory : Memory} {buffer bytes : Nat}
    (hbuffer : buffer + bytes < 2 ^ 64) (hfuel : 2 ^ 64 ≤ fuel) {before after : List Call}
    {s t u : State}
    (hbefore : Run (step fuel) (Served fuel) (State.create memory buffer bytes) before s)
    (hptr : ptr ∈ s.live) (hfree : step fuel s (.free ptr) = some t)
    (hafter : Run (step fuel) (ServedBeside fuel (s.block ptr)) t after u) :
    HarmlessFree fuel u ptr ↔ header ptr ≠ u.allocator.offset := by
  obtain ⟨F, hlayout⟩ : ∃ F, Layout IsClass [] s F := by
    refine hbefore.invariant (fun s => ∃ F, Layout IsClass [] s F) (fun s call t hs hok ht => ?_)
      ⟨_, layout_create hbuffer⟩
    obtain ⟨t', ht', hlayout⟩ := exists_layout hs hok hfuel
    obtain rfl : t = t' := Option.some.inj (ht.symm.trans ht')
    exact hlayout
  obtain ⟨l, ⟨i, -, rfl⟩, hfit⟩ := hlayout.live_fits ptr hptr
  have hsize : (s.memory (header ptr)).size = 2 ^ (8 + i.val) := hfit
  have hblock : s.block ptr = ⟨header ptr, 2 ^ (8 + i.val)⟩ := by rw [State.block, blockAt, hsize]
  have hfreed : Freed u (header ptr) i := by
    obtain ⟨t', ht', hfreed⟩ := hlayout.free_freed hptr hsize hfuel
    obtain rfl : t = t' := Option.some.inj (hfree.symm.trans ht')
    rw [hblock] at hafter
    exact hafter.invariant (fun s => Freed s (header ptr) i)
      (fun s call t hs hok ht => hs.step hok hfuel ht) hfreed
  have hheader := hlayout.live_header hptr
  have hword : ptr < 2 ^ 64 := by
    have hend := hlayout.live_end hptr
    have hroom := hlayout.live_size hptr
    omega
  exact hfreed.harmless_iff hheader hword hfuel

theorem twoBlocks_served : AtEach (step (2 ^ 64)) (Served (2 ^ 64))
    (State.create zeroed (2 ^ 24) (2 ^ 20)) [.alloc 100, .alloc 100] := by
  decide +kernel

/-- Two blocks, the upper one freed; before it is freed again a request takes a third. -/
theorem generalPurposeFree_twice_bucket :
    ∃ s ∈ exec (step (2 ^ 64)) (State.create zeroed (2 ^ 24) (2 ^ 20)) [.alloc 100, .alloc 100],
      ∃ t ∈ step (2 ^ 64) s (.free 17825304), ∃ u ∈ exec (step (2 ^ 64)) t [.alloc 1000],
        HarmlessFree (2 ^ 64) u 17825304 := by
  have hrun : ∃ s ∈ exec (step (2 ^ 64)) (State.create zeroed (2 ^ 24) (2 ^ 20))
      [.alloc 100, .alloc 100], 17825304 ∈ s.live ∧ ∃ t ∈ step (2 ^ 64) s (.free 17825304),
        AtEach (step (2 ^ 64)) (ServedBeside (2 ^ 64) (s.block 17825304)) t [.alloc 1000] ∧
          ∃ u ∈ exec (step (2 ^ 64)) t [.alloc 1000], header 17825304 ≠ u.allocator.offset := by
    decide +kernel
  obtain ⟨s, hs, hptr, t, ht, hafter, u, hu, hne⟩ := hrun
  exact ⟨s, hs, t, ht, u, hu, (generalPurposeFree_twice_iff (by decide) (Nat.le_refl _)
    (twoBlocks_served.run hs) hptr ht (hafter.run hu)).mpr hne⟩

/-- Two blocks are freed, the upper one first, so that it lies in its bucket at `Offset`;
after its second free two requests of its size are served with it. -/
theorem freed_at_offset_handed_out_twice :
    ∃ s t u, Run (step (2 ^ 64)) (Served (2 ^ 64)) (State.create zeroed (2 ^ 24) (2 ^ 20))
        [.alloc 100, .alloc 100] s ∧
      17825304 ∈ s.live ∧ step (2 ^ 64) s (.free 17825304) = some t ∧
      Run (step (2 ^ 64)) (ServedBeside (2 ^ 64) (s.block 17825304)) t [.free 17824792] u ∧
      ¬ HarmlessFree (2 ^ 64) u 17825304 := by
  have hrun : ∃ s ∈ exec (step (2 ^ 64)) (State.create zeroed (2 ^ 24) (2 ^ 20))
      [.alloc 100, .alloc 100], 17825304 ∈ s.live ∧ ∃ t ∈ step (2 ^ 64) s (.free 17825304),
        AtEach (step (2 ^ 64)) (ServedBeside (2 ^ 64) (s.block 17825304)) t [.free 17824792] ∧
          ∃ u ∈ exec (step (2 ^ 64)) t [.free 17824792], ∃ v ∈ step (2 ^ 64) u (.free 17825304),
            AtEach (step (2 ^ 64)) (Served (2 ^ 64)) v [.alloc 100, .alloc 100] ∧
              ∃ w ∈ exec (step (2 ^ 64)) v [.alloc 100, .alloc 100],
                w.live = [17825304, 17825304] ∧ 0 < (w.block 17825304).size := by
    decide +kernel
  obtain ⟨s, hs, hptr, t, ht, hafter, u, hu, v, hv, hcalls, w, hw, hlive, hpos⟩ := hrun
  refine ⟨s, t, u, twoBlocks_served.run hs, hptr, ht, hafter.run hu, ?_⟩
  rintro ⟨v', hv', hall⟩
  obtain rfl : v = v' := Option.some.inj (hv.symm.trans hv')
  obtain ⟨w', hw', hdisjoint⟩ := hall _ hcalls
  obtain rfl : w = w' := Option.some.inj (hw.symm.trans hw')
  have hapart := hdisjoint.apart
  rw [hlive] at hapart
  have htwice := (List.pairwise_cons.mp hapart).1 17825304 (List.mem_cons_self ..)
  simp only [Block.Apart] at htwice
  omega

end ScalBase.HeapAllocator
