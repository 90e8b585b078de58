/-
  HeapAllocator/Layout.lean --- the invariant of the allocator.

  The blocks handed out and the nodes of the free lists tile the memory from
  `Offset` to the end of the buffer (`Layout`).  Each part of a call keeps this:
  taking a node from a list (`Layout.take`) or from below `Offset`
  (`Layout.bump`), and giving a block back to the buffer (`Layout.retract`) or to
  a list (`Layout.insert`).
-/
import ScalBase.HeapAllocator.Insertion

set_option autoImplicit false

namespace ScalBase.HeapAllocator

open ScalBase.Foundation

/-! ## Sizes and lists -/

/-- A size of the blocks of a list: a power of two in a bucket. -/
def Fits : ListName → Nat → Prop
  | none, size => generalPurposeMax < size
  | some i, size => size = 2 ^ (8 + i.val)

theorem bucketOf_fits : ∀ i : Fin 16, bucketOf (2 ^ (8 + i.val)) = some i ∧
    256 ≤ 2 ^ (8 + i.val) ∧ 2 ^ (8 + i.val) ≤ generalPurposeMax := by
  decide

theorem Fits.le {l : ListName} {size : Nat} (h : Fits l size) : 256 ≤ size := by
  cases l with
  | none => exact Nat.le_trans (by decide) (Nat.le_of_lt h)
  | some i => exact h ▸ (bucketOf_fits i).2.1

/-- A node of a large list may grow. -/
theorem Fits.mono {l : ListName} {size size' : Nat} (h : Fits l size) (hle : size ≤ size')
    (heq : l.isSome = true → size' = size) : Fits l size' := by
  cases l with
  | none => exact Nat.lt_of_lt_of_le h hle
  | some i => exact (heq rfl).trans h

/-- The sizes of a bucket are all the same. -/
theorem Fits.le_of_bucket {i : Fin 16} {size size' : Nat} (h : Fits (some i) size)
    (h' : Fits (some i) size') : size ≤ size' :=
  (h.trans (Eq.symm h')).le

section

variable {a : GeneralPurposeAllocator} {l l' : ListName} {list : AllocList}

@[simp] theorem list_setList : (a.setList l list).list l = list := by
  cases l with
  | none => rfl
  | some i => exact Function.update_self ..

theorem list_setList_of_ne (h : l' ≠ l) : (a.setList l list).list l' = a.list l' := by
  cases l with
  | none =>
    cases l' with
    | none => exact absurd rfl h
    | some j => rfl
  | some i =>
    cases l' with
    | none => rfl
    | some j => exact Function.update_of_ne (fun heq => h (congrArg some heq)) ..

@[simp] theorem offset_setList : (a.setList l list).offset = a.offset := by cases l <;> rfl

@[simp] theorem mem_setList : (a.setList l list).mem = a.mem := by cases l <;> rfl

@[simp] theorem size_setList : (a.setList l list).size = a.size := by cases l <;> rfl

end

/-! ## The blocks of all lists -/

/-- The nodes of every free list. -/
abbrev Nodes := ListName → List Nat

variable {memory memory' : Memory} {F : Nodes} {l : ListName}

def freeBlocks (memory : Memory) (F : Nodes) : Multiset Block := ∑ l, blocks memory (F l)

/-- The blocks of the lists other than `l`. -/
def otherBlocks (memory : Memory) (F : Nodes) (l : ListName) : Multiset Block :=
  ∑ l' ∈ Finset.univ.erase l, blocks memory (F l')

theorem freeBlocks_eq (memory : Memory) (F : Nodes) (l : ListName) :
    freeBlocks memory F = blocks memory (F l) + otherBlocks memory F l :=
  (Finset.add_sum_erase _ _ (Finset.mem_univ l)).symm

theorem mem_freeBlocks {l : ListName} {x : Nat} (hx : x ∈ F l) :
    blockAt memory x ∈ freeBlocks memory F := by
  rw [freeBlocks_eq memory F l]
  exact Multiset.mem_add.mpr (Or.inl (blockAt_mem_blocks hx))

theorem of_mem_blocks {ns : List Nat} {b : Block} (hb : b ∈ blocks memory ns) :
    ∃ x ∈ ns, blockAt memory x = b := by
  obtain ⟨x, hx, heq⟩ := Multiset.mem_map.mp hb
  exact ⟨x, Multiset.mem_coe.mp hx, heq⟩

theorem of_mem_freeBlocks {b : Block} (hb : b ∈ freeBlocks memory F) :
    ∃ l, ∃ x ∈ F l, blockAt memory x = b := by
  obtain ⟨l, -, hl⟩ := Multiset.mem_sum.mp hb
  exact ⟨l, of_mem_blocks hl⟩

theorem mem_otherBlocks {l l' : ListName} (hne : l' ≠ l) {x : Nat} (hx : x ∈ F l') :
    blockAt memory x ∈ otherBlocks memory F l := by
  rw [otherBlocks, ← Finset.add_sum_erase _ _ (Finset.mem_erase.mpr ⟨hne, Finset.mem_univ l'⟩)]
  exact Multiset.mem_add.mpr (Or.inl (blockAt_mem_blocks hx))

/-- The other lists keep their blocks when list `l` changes and their headers do not. -/
theorem otherBlocks_update {ns : List Nat}
    (hsame : ∀ l', l' ≠ l → ∀ x ∈ F l', memory' x = memory x) :
    otherBlocks memory' (Function.update F l ns) l = otherBlocks memory F l := by
  refine Finset.sum_congr rfl fun l' hl' => ?_
  have hne := (Finset.mem_erase.mp hl').1
  rw [Function.update_of_ne hne]
  exact blocks_congr fun x hx => congrArg MemNode.size (hsame l' hne x hx)

/-! ## The invariant -/

/-- The blocks that have been handed out. -/
def State.liveBlocks (s : State) : Multiset Block := blocks s.memory (s.live.map header)

/-- The blocks handed out, the nodes of the free lists and the blocks that a call is
moving tile the memory above `Offset`.  Only the lists in `used` have had blocks. -/
structure Layout (used : ListName → Prop) (moving : List Nat) (s : State) (F : Nodes) : Prop where
  lists : ∀ l, FreeList s.memory (s.allocator.list l) (F l)
  tiles : Tiles s.allocator.offset (s.allocator.mem + s.allocator.size)
    (blocks s.memory moving + (s.liveBlocks + freeBlocks s.memory F))
  fresh : ∀ ptr ∈ s.live, Fresh s.memory (header ptr)
  live_fits : ∀ ptr ∈ s.live, ∃ l, used l ∧ Fits l (s.memory (header ptr)).size
  list_fits : ∀ l, ∀ x ∈ F l, Fits l (s.memory x).size
  unused : ∀ l, ¬ used l → F l = []
  mem_le : s.allocator.mem ≤ s.allocator.offset
  top_lt : s.allocator.mem + s.allocator.size < 2 ^ 64
  buffer : s.allocator.mem = 0 → s.allocator.size = 0

theorem mem_liveBlocks {s : State} {ptr : Nat} (hptr : ptr ∈ s.live) :
    blockAt s.memory (header ptr) ∈ s.liveBlocks :=
  blockAt_mem_blocks (List.mem_map_of_mem hptr)

theorem of_mem_liveBlocks {s : State} {b : Block} (hb : b ∈ s.liveBlocks) :
    ∃ ptr ∈ s.live, blockAt s.memory (header ptr) = b := by
  obtain ⟨x, hx, heq⟩ := of_mem_blocks hb
  obtain ⟨ptr, hptr, rfl⟩ := List.mem_map.mp hx
  exact ⟨ptr, hptr, heq⟩

namespace Layout

variable {used : ListName → Prop} {moving moving' : List Nat} {s t : State} {ptr x y : Nat}

/-- What is left of the tiling when list `l` is set apart. -/
theorem tiles_of_list (h : Layout used moving s F) (l : ListName) :
    Tiles s.allocator.offset (s.allocator.mem + s.allocator.size)
      (blocks s.memory (F l) +
        (blocks s.memory moving + (s.liveBlocks + otherBlocks s.memory F l))) := by
  have ht := h.tiles
  rwa [freeBlocks_eq s.memory F l, add_left_comm s.liveBlocks,
    add_left_comm (blocks s.memory moving)] at ht

/-- A list is shorter than any bound on addresses. -/
theorem length_lt (h : Layout used moving s F) (l : ListName) : (F l).length < 2 ^ 64 := by
  have hcard := (h.tiles_of_list l).card_le
  have htop := h.top_lt
  have hlength : Multiset.card (blocks s.memory (F l)) = (F l).length := by
    rw [blocks, Multiset.card_map, Multiset.coe_card]
  rw [Multiset.card_add] at hcard
  omega

theorem live_size (h : Layout used moving s F) (hptr : ptr ∈ s.live) :
    sizeofMemNode ≤ (s.memory (header ptr)).size := by
  obtain ⟨l, -, hfit⟩ := h.live_fits ptr hptr
  exact Nat.le_trans (by decide) hfit.le

theorem live_header (h : Layout used moving s F) (hptr : ptr ∈ s.live) :
    header ptr + sizeofMemNode = ptr := by
  have hne := (h.fresh ptr hptr).ne_zero
  unfold header sizeofMemNode at *
  omega

/-- The end of a live block is a word. -/
theorem live_end (h : Layout used moving s F) (hptr : ptr ∈ s.live) :
    header ptr + (s.memory (header ptr)).size < 2 ^ 64 := by
  have hbounds := h.tiles.bounds
    (Multiset.mem_add.mpr (Or.inr (Multiset.mem_add.mpr (Or.inl (mem_liveBlocks hptr)))))
  exact Nat.lt_of_le_of_lt hbounds.2 h.top_lt

/-- The header of a live block is not that of another block. -/
theorem live_ne (h : Layout used moving s F) (hptr : ptr ∈ s.live) :
    (∀ x ∈ moving, header ptr ≠ x) ∧ ∀ l, ∀ x ∈ F l, header ptr ≠ x := by
  have ht := h.tiles
  constructor
  · intro x hx heq
    exact ht.start_ne (blockAt_mem_blocks hx)
      (Multiset.mem_add.mpr (Or.inl (mem_liveBlocks hptr))) heq.symm
  · intro l x hx
    rw [← add_assoc] at ht
    exact ht.start_ne (Multiset.mem_add.mpr (Or.inr (mem_liveBlocks hptr))) (mem_freeBlocks hx)

/-- A node of a list is not being moved and in no other list. -/
theorem node_ne (h : Layout used moving s F) (hx : x ∈ F l) :
    (∀ y ∈ moving, x ≠ y) ∧ ∀ l', l' ≠ l → ∀ y ∈ F l', x ≠ y := by
  have ht := h.tiles_of_list l
  constructor
  · intro y hy
    exact ht.start_ne (blockAt_mem_blocks hx)
      (Multiset.mem_add.mpr (Or.inl (blockAt_mem_blocks hy)))
  · intro l' hl y hy
    exact ht.start_ne (blockAt_mem_blocks hx)
      (Multiset.mem_add.mpr (Or.inr (Multiset.mem_add.mpr (Or.inr (mem_otherBlocks hl hy)))))

/-- One list changes, and what is being moved: the headers of the live blocks and of the
other lists are as they were. -/
theorem replace (h : Layout used moving s F) {ns : List Nat} (hlive : t.live = s.live)
    (hmem : t.allocator.mem = s.allocator.mem) (hsize : t.allocator.size = s.allocator.size)
    (hothers : ∀ l', l' ≠ l → t.allocator.list l' = s.allocator.list l')
    (hlist : FreeList t.memory (t.allocator.list l) ns)
    (hfits : ∀ x ∈ ns, Fits l (t.memory x).size) (hunused : ¬ used l → ns = [])
    (hheader : ∀ ptr ∈ s.live, t.memory (header ptr) = s.memory (header ptr))
    (hnode : ∀ l', l' ≠ l → ∀ x ∈ F l', t.memory x = s.memory x)
    (hmem_le : s.allocator.mem ≤ t.allocator.offset)
    (htiles : Tiles t.allocator.offset (s.allocator.mem + s.allocator.size)
      (blocks t.memory ns +
        (blocks t.memory moving' + (s.liveBlocks + otherBlocks s.memory F l)))) :
    Layout used moving' t (Function.update F l ns) := by
  have hblocks : t.liveBlocks = s.liveBlocks := by
    unfold State.liveBlocks
    rw [hlive]
    refine blocks_congr fun x hx => ?_
    obtain ⟨ptr, hptr, rfl⟩ := List.mem_map.mp hx
    rw [hheader ptr hptr]
  -- Each fact about all lists is one about `l` and one about the others.
  have hlists : ∀ l', FreeList t.memory (t.allocator.list l') (Function.update F l ns l') := by
    rw [Function.forall_update_iff F fun l' ms => FreeList t.memory (t.allocator.list l') ms]
    refine ⟨hlist, fun l' hl => ?_⟩
    rw [hothers l' hl]
    exact (h.lists l').congr (hnode l' hl)
  have hlistFits : ∀ l', ∀ x ∈ Function.update F l ns l', Fits l' (t.memory x).size := by
    rw [Function.forall_update_iff F fun l' ms => ∀ x ∈ ms, Fits l' (t.memory x).size]
    refine ⟨hfits, fun l' hl x hx => ?_⟩
    rw [hnode l' hl x hx]
    exact h.list_fits l' x hx
  have hempty : ∀ l', ¬ used l' → Function.update F l ns l' = [] := by
    rw [Function.forall_update_iff F fun l' ms => ¬ used l' → ms = []]
    exact ⟨hunused, fun l' _ => h.unused l'⟩
  refine ⟨hlists, ?_, fun ptr hptr => ?_, fun ptr hptr => ?_, hlistFits, hempty, ?_, ?_, ?_⟩
  · rw [freeBlocks_eq t.memory _ l, Function.update_self, otherBlocks_update hnode, hmem, hsize,
      hblocks, add_left_comm s.liveBlocks, add_left_comm (blocks t.memory moving')]
    exact htiles
  · rw [hlive] at hptr
    have hfresh := h.fresh ptr hptr
    exact ⟨hfresh.ne_zero, by rw [hheader ptr hptr, hfresh.next_eq],
      by rw [hheader ptr hptr, hfresh.prev_eq]⟩
  · rw [hlive] at hptr
    rw [hheader ptr hptr]
    exact h.live_fits ptr hptr
  · rw [hmem]
    exact hmem_le
  · rw [hmem, hsize]
    exact h.top_lt
  · rw [hmem, hsize]
    exact h.buffer

/-- No list changes. -/
theorem keep (h : Layout used moving s F) (hlive : t.live = s.live)
    (hmem : t.allocator.mem = s.allocator.mem) (hsize : t.allocator.size = s.allocator.size)
    (hlists : ∀ l, t.allocator.list l = s.allocator.list l)
    (hheader : ∀ ptr ∈ s.live, t.memory (header ptr) = s.memory (header ptr))
    (hnode : ∀ l, ∀ x ∈ F l, t.memory x = s.memory x)
    (hmem_le : s.allocator.mem ≤ t.allocator.offset)
    (htiles : Tiles t.allocator.offset (s.allocator.mem + s.allocator.size)
      (blocks t.memory moving' + (s.liveBlocks + freeBlocks s.memory F))) :
    Layout used moving' t F := by
  have hblocks : blocks t.memory (F none) = blocks s.memory (F none) :=
    blocks_congr fun x hx => congrArg MemNode.size (hnode none x hx)
  rw [← Function.update_eq_self none F]
  refine h.replace hlive hmem hsize (fun l _ => hlists l) ?_ (fun x hx => ?_) (h.unused none)
    hheader (fun l _ => hnode l) hmem_le ?_
  · rw [hlists]
    exact (h.lists none).congr (hnode none)
  · rw [hnode none x hx]
    exact h.list_fits none x hx
  · rw [hblocks, add_left_comm, add_left_comm (blocks s.memory (F none)), ← freeBlocks_eq]
    exact htiles

/-! ### The parts of a call -/

/-- The lowest memory of the buffer becomes a block. -/
theorem bump (h : Layout used [] s F) {node size : Nat} (hnode : node + size = s.allocator.offset)
    (hmem : s.allocator.mem ≤ node) (hsize : 0 < size) :
    Layout used [node]
      ⟨setSize s.memory node size, { s.allocator with offset := node }, s.live⟩ F := by
  have hout : ∀ b ∈ s.liveBlocks + freeBlocks s.memory F, b.start ≠ node := by
    intro b hb
    have hbounds := h.tiles.bounds (Multiset.mem_add.mpr (Or.inr hb))
    omega
  refine h.keep rfl rfl rfl (fun l => by cases l <;> rfl) (fun ptr hptr => setSize_of_ne ?_)
    (fun l x hx => setSize_of_ne ?_) hmem ?_
  · exact hout (blockAt s.memory (header ptr)) (Multiset.mem_add.mpr (Or.inl (mem_liveBlocks hptr)))
  · exact hout (blockAt s.memory x) (Multiset.mem_add.mpr (Or.inr (mem_freeBlocks hx)))
  · have ht := h.tiles
    have hblock : blockAt (setSize s.memory node size) node = ⟨node, size⟩ := by
      rw [blockAt, setSize_self]
    rw [blocks_nil, zero_add, ← hnode] at ht
    rw [blocks_cons, blocks_nil, hblock, Multiset.cons_add, zero_add]
    exact ht.extend hsize

/-- A block at `Offset` becomes the lowest memory of the buffer. -/
theorem retract (h : Layout used [x] s F) (hx : x = s.allocator.offset) :
    Layout used [] ⟨s.memory,
      { s.allocator with offset := s.allocator.offset + (s.memory x).size }, s.live⟩ F := by
  have ht := h.tiles
  rw [blocks_cons, blocks_nil, Multiset.cons_add, zero_add, blockAt, ← hx] at ht
  refine h.keep rfl rfl rfl (fun l => by cases l <;> rfl) (fun _ _ => rfl) (fun _ _ _ => rfl)
    (Nat.le_trans h.mem_le (Nat.le_add_right _ _)) ?_
  rw [blocks_nil, zero_add, ← hx]
  exact ht.retract

/-- A node leaves a list. -/
theorem take (h : Layout used [] s F) {memory' : Memory} {list' : AllocList} {ns : List Nat}
    (ht : Taken s.allocator.offset (s.allocator.mem + s.allocator.size)
      (s.liveBlocks + otherBlocks s.memory F l) s.memory (F l) x memory' list' ns)
    (hfits : ∀ y ∈ ns, Fits l (memory' y).size) (hused : used l) :
    Layout used [x] ⟨memory', s.allocator.setList l list', s.live⟩ (Function.update F l ns) := by
  have htiles := ht.tiles
  have hout : ∀ b ∈ s.liveBlocks + otherBlocks s.memory F l, b.start ≠ x := by
    intro b hb heq
    rw [← Multiset.singleton_add] at htiles
    exact htiles.start_ne (Multiset.mem_singleton_self (blockAt memory' x))
      (Multiset.mem_add.mpr (Or.inr hb)) heq.symm
  refine h.replace rfl mem_setList size_setList (fun l' hl => list_setList_of_ne hl) ?_ hfits
    (fun hl => absurd hused hl) (fun ptr hptr => ht.frame _ ?_) (fun l' hl y hy => ht.frame y ?_)
    (by rw [offset_setList]; exact h.mem_le) ?_
  · rw [list_setList]
    exact ht.list
  · rw [List.mem_cons, not_or]
    exact ⟨hout (blockAt s.memory (header ptr))
        (Multiset.mem_add.mpr (Or.inl (mem_liveBlocks hptr))),
      fun hmem => (h.live_ne hptr).2 l _ hmem rfl⟩
  · rw [List.mem_cons, not_or]
    exact ⟨hout (blockAt s.memory y) (Multiset.mem_add.mpr (Or.inr (mem_otherBlocks hl hy))),
      fun hmem => (h.node_ne hmem).2 l' hl y hy rfl⟩
  · rw [offset_setList, blocks_cons, blocks_nil, Multiset.cons_add, zero_add, Multiset.add_cons]
    exact htiles

/-- A list has changed by a block that no live block and no other list holds. -/
theorem absorb (h : Layout used moving s F) {isBucket : Bool} (hbucket : isBucket = l.isSome)
    (hused : used l) (hfit : ∀ y ∈ x :: F l, Fits l (s.memory y).size)
    (hlive : ∀ p ∈ s.live, header p ≠ x) (hnode : ∀ l', l' ≠ l → ∀ y ∈ F l', y ≠ x)
    {u : ListState} {ns : List Nat}
    (hab : Absorbed (s.allocator.mem + s.allocator.size) (s.liveBlocks + otherBlocks s.memory F l) x
      isBucket ⟨s.memory, s.allocator.offset, s.allocator.list l⟩ (F l) u ns) :
    Layout used [] ⟨u.memory, { s.allocator with offset := u.offset }.setList l u.list, s.live⟩
      (Function.update F l ns) := by
  refine h.replace rfl mem_setList size_setList (fun l' hl => ?_) ?_ (fun y hy => ?_)
    (fun hl => absurd hused hl) (fun p hp => hab.frame _ ?_)
    (fun l' hl y hy => hab.frame y ?_) ?_ ?_
  · rw [list_setList_of_ne hl]
    cases l' <;> rfl
  · rw [list_setList]
    exact hab.list
  · exact (hfit y (hab.subset y hy)).mono (hab.size_le y) fun hl =>
      hab.size_eq (hbucket.trans hl) y
  · rw [List.mem_cons, not_or]
    exact ⟨hlive p hp, fun hmem => (h.live_ne hp).2 l _ hmem rfl⟩
  · rw [List.mem_cons, not_or]
    exact ⟨hnode l' hl y hy, fun hmem => (h.node_ne hmem).2 l' hl y hy rfl⟩
  · rw [offset_setList]
    exact Nat.le_trans h.mem_le hab.offset_le
  · rw [offset_setList, blocks_nil, zero_add]
    exact hab.tiles

/-- A block goes into a list. -/
theorem insert (h : Layout used [x] s F) {isBucket : Bool} (hbucket : isBucket = l.isSome)
    (hused : used l) (hfit : Fits l (s.memory x).size) {u : ListState} {ns : List Nat}
    (hab : Absorbed (s.allocator.mem + s.allocator.size) (s.liveBlocks + otherBlocks s.memory F l) x
      isBucket ⟨s.memory, s.allocator.offset, s.allocator.list l⟩ (F l) u ns) :
    Layout used [] ⟨u.memory, { s.allocator with offset := u.offset }.setList l u.list, s.live⟩
      (Function.update F l ns) := by
  refine h.absorb hbucket hused (fun y hy => ?_)
    (fun p hp => (h.live_ne hp).1 x (List.mem_singleton_self x))
    (fun l' _ y hy => (h.node_ne hy).1 x (List.mem_singleton_self x)) hab
  rcases List.mem_cons.mp hy with rfl | hy
  · exact hfit
  · exact h.list_fits l y hy

/-- A block is handed out. -/
theorem lend (h : Layout used [x] s F) (hx : x ≠ 0)
    (hfit : ∃ l, used l ∧ Fits l (s.memory x).size) :
    Layout used []
      ⟨setNext (setPrev s.memory x 0) x 0, s.allocator, (x + sizeofMemNode) :: s.live⟩ F := by
  have hheader : header (x + sizeofMemNode) = x := Nat.add_sub_cancel ..
  have hout : ∀ y, y ≠ x → setNext (setPrev s.memory x 0) x 0 y = s.memory y := by
    intro y hy
    rw [setNext_of_ne hy, setPrev_of_ne hy]
  have hsize : ∀ y, (setNext (setPrev s.memory x 0) x 0 y).size = (s.memory y).size := by simp
  have hkeep : Layout used [x] { s with memory := setNext (setPrev s.memory x 0) x 0 } F := by
    refine h.keep rfl rfl rfl (fun _ => rfl) (fun ptr hptr => hout _ ?_) (fun l y hy => hout y ?_)
      h.mem_le ?_
    · exact (h.live_ne hptr).1 x (List.mem_singleton_self x)
    · exact (h.node_ne hy).1 x (List.mem_singleton_self x)
    · rw [blocks_congr fun y _ => hsize y]
      exact h.tiles
  refine ⟨hkeep.lists, ?_, fun ptr hptr => ?_, fun ptr hptr => ?_, hkeep.list_fits, h.unused,
    h.mem_le, h.top_lt, h.buffer⟩
  · have ht := hkeep.tiles
    rw [blocks_cons, blocks_nil, Multiset.cons_add, zero_add] at ht
    rw [blocks_nil, zero_add, State.liveBlocks, List.map_cons, hheader, blocks_cons,
      Multiset.cons_add]
    exact ht
  · rcases List.mem_cons.mp hptr with rfl | hptr
    · rw [hheader]
      exact ⟨hx, by simp, by simp⟩
    · exact hkeep.fresh ptr hptr
  · rcases List.mem_cons.mp hptr with rfl | hptr
    · rw [hheader, hsize]
      exact hfit
    · exact hkeep.live_fits ptr hptr

/-- A block is given back. -/
theorem reclaim (h : Layout used [] s F) (hptr : ptr ∈ s.live) :
    Layout used [header ptr] { s with live := s.live.erase ptr } F := by
  have herase : ∀ p ∈ s.live.erase ptr, p ∈ s.live := fun p => List.mem_of_mem_erase
  refine ⟨h.lists, ?_, fun p hp => h.fresh p (herase p hp), fun p hp => h.live_fits p (herase p hp),
    h.list_fits, h.unused, h.mem_le, h.top_lt, h.buffer⟩
  have ht := h.tiles
  have hperm : (s.live.map header).Perm (header ptr :: (s.live.erase ptr).map header) :=
    (List.perm_cons_erase hptr).map header
  rw [blocks_nil, zero_add, State.liveBlocks, blocks, Multiset.coe_eq_coe.mpr hperm] at ht
  rw [blocks_cons, blocks_nil, Multiset.cons_add, zero_add]
  rw [← Multiset.cons_coe, Multiset.map_cons, Multiset.cons_add] at ht
  exact ht

/-- No header lies inside a live block, past its start. -/
theorem start_ne_inside (h : Layout used [] s F) {address : Nat} (hptr : ptr ∈ s.live)
    (hlow : header ptr < address) (hhigh : address < header ptr + (s.memory (header ptr)).size) :
    ∀ b ∈ s.liveBlocks + freeBlocks s.memory F, b.start ≠ address := by
  have ht := h.tiles
  rw [blocks_nil, zero_add] at ht
  exact ht.start_ne_inside (Multiset.mem_add.mpr (Or.inl (mem_liveBlocks hptr))) hlow hhigh

/-- A store inside a live block, past the start of its header, changes no header. -/
theorem write (h : Layout used [] s F) {address : Nat} (hptr : ptr ∈ s.live)
    (hlow : header ptr < address) (hhigh : address < header ptr + (s.memory (header ptr)).size)
    (value : MemNode) :
    Layout used [] { s with memory := Function.update s.memory address value } F := by
  have hout := h.start_ne_inside hptr hlow hhigh
  refine h.keep rfl rfl rfl (fun _ => rfl) (fun ptr' hptr' => Function.update_of_ne ?_ ..)
    (fun l x hx => Function.update_of_ne ?_ ..) h.mem_le h.tiles
  · exact hout (blockAt s.memory (header ptr'))
      (Multiset.mem_add.mpr (Or.inl (mem_liveBlocks hptr')))
  · exact hout (blockAt s.memory x) (Multiset.mem_add.mpr (Or.inr (mem_freeBlocks hx)))

end Layout

end ScalBase.HeapAllocator
