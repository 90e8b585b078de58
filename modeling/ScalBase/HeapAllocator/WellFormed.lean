/-
  HeapAllocator/WellFormed.lean --- `InsertMemNode` on one well-formed list.

  A list is well formed when it ascends, its nodes are apart and at or above `Offset`,
  the links are inverse to each other and `Length` is the number of nodes.
  `InsertMemNode` keeps that, and the memory that is free grows by the size of the node,
  at all exits but two.  Where the only node lies at `Offset` and goes back to the buffer,
  the exit that makes the new node the head does not count it.  Where a large node takes
  the place of the head that begins at its end, the node after the head keeps the old
  head for its `Prev`.

  The addresses between the nodes are blocks of nobody, so the specification of
  `InsertMemNode` for a whole tiling applies to the list alone.
-/
import ScalBase.HeapAllocator.Insertion

set_option autoImplicit false

namespace ScalBase.HeapAllocator

open ScalBase.Foundation

/-! ## Well-formed lists -/

/-- A block of memory above `Offset`. -/
structure InMemory (s : ListState) (x : Nat) : Prop where
  offset_le : s.offset ≤ x
  size_pos : 0 < (s.memory x).size
  end_lt : x + (s.memory x).size < 2 ^ 64

/-- The list has the nodes `ns`. -/
structure WellFormed (s : ListState) (ns : List Nat) : Prop where
  list : FreeList s.memory s.list ns
  length : s.list.length = ns.length
  inMemory : ∀ x ∈ ns, InMemory s x
  apart : ns.Pairwise fun x y => (blockAt s.memory x).Apart (blockAt s.memory y)

/-- A node that is to be inserted. -/
structure Insertable (s : ListState) (ns : List Nat) (node : Nat) : Prop where
  fresh : Fresh s.memory node
  inMemory : InMemory s node
  apart : ∀ x ∈ ns, (blockAt s.memory node).Apart (blockAt s.memory x)

/-- The sizes of the nodes and `Offset`. -/
def freeMemory (s : ListState) (ns : List Nat) : Nat :=
  s.offset + (ns.map fun x => (s.memory x).size).sum

/-- The nodes that are left when a head at `Offset` has gone back to the buffer. -/
def remaining (s : ListState) (ns : List Nat) : List Nat :=
  if ns.head? = some s.offset then ns.tail else ns

theorem remaining_pop (s : ListState) (ns : List Nat) : remaining s (s.offset :: ns) = ns :=
  if_pos rfl

theorem remaining_of_ne {s : ListState} {x : Nat} (hx : x ≠ s.offset) (ns : List Nat) :
    remaining s (x :: ns) = x :: ns := if_neg fun h => hx (Option.some.inj h)

/-- The list is not a single node at `Offset`, and the node does not end at the first of
two or more remaining nodes, unless the list is a bucket. -/
def CleanInsert (s : ListState) (ns : List Nat) (node : Nat) (isBucket : Bool) : Prop :=
  ns ≠ [s.offset] ∧ ¬ (isBucket = false ∧
    (remaining s ns).head? = some (node + (s.memory node).size) ∧ 2 ≤ (remaining s ns).length)

/-- The list is well formed again and has the memory of the node. -/
def InsertsWell (fuel : Nat) (s : ListState) (ns : List Nat) (node : Nat)
    (isBucket : Bool) : Prop :=
  ∃ t, insertMemNode fuel s node isBucket = some t ∧
    ∃ ns', WellFormed t ns' ∧ freeMemory t ns' = freeMemory s ns + (s.memory node).size

variable {s t : ListState} {ns ns' : List Nat} {node x y : Nat} {isBucket : Bool} {hi fuel : Nat}
  {rest : Multiset Block}

theorem blocks_eq_coe (memory : Memory) (ns : List Nat) :
    blocks memory ns = ((ns.map (blockAt memory) : List Block) : Multiset Block) :=
  Multiset.map_coe ..

/-- In a tiling the free memory is what the other blocks leave. -/
theorem freeMemory_eq (ht : Tiles s.offset hi (blocks s.memory ns + rest)) :
    freeMemory s ns + (rest.map Block.size).sum = hi := by
  have hsum := ht.sum_sizes
  have hle := ht.le
  have hmap : (ns.map (blockAt s.memory)).map Block.size = ns.map fun x => (s.memory x).size :=
    List.map_map ..
  rw [Multiset.map_add, Multiset.sum_add, blocks_eq_coe, Multiset.map_coe, Multiset.sum_coe, hmap]
    at hsum
  unfold freeMemory
  omega

/-- The list and the node, with the addresses around them, are what `InsertMemNode` is
specified for. -/
theorem WellFormed.inserting (h : WellFormed s ns) (hnode : Insertable s ns node) :
    ∃ rest, Inserting (2 ^ 64 - 1) rest node s ns := by
  have hin : ∀ x ∈ node :: ns, InMemory s x := List.forall_mem_cons.mpr ⟨hnode.inMemory, h.inMemory⟩
  obtain ⟨rest, ht⟩ :=
    @Tiles.exists_rest s.offset (2 ^ 64 - 1) ((node :: ns).map (blockAt s.memory))
      (by have := hnode.inMemory.offset_le; have := hnode.inMemory.end_lt; omega)
    (List.forall_mem_map.mpr fun x hx => (hin x hx).size_pos)
    (List.forall_mem_map.mpr fun x hx =>
      ⟨(hin x hx).offset_le, Nat.le_sub_one_of_lt (hin x hx).end_lt⟩)
    (List.pairwise_map.mpr (List.pairwise_cons.mpr ⟨hnode.apart, h.apart⟩))
  rw [← blocks_eq_coe, blocks_cons, Multiset.cons_add] at ht
  exact ⟨rest, h.list, hnode.fresh, ht, by omega⟩

/-- What has gone into the list is a well-formed list, if it is counted. -/
theorem Absorbed.wellFormed (h : Inserting hi rest node s ns)
    (hab : Absorbed hi rest node isBucket s ns t ns') (hlength : t.list.length = ns'.length) :
    WellFormed t ns' ∧ freeMemory t ns' = freeMemory s ns + (s.memory node).size := by
  have ht := hab.tiles
  have hhi := h.hi_lt
  refine ⟨⟨hab.list, hlength, fun x hx => ?_, ?_⟩, ?_⟩
  · have hmem : blockAt t.memory x ∈ blocks t.memory ns' + rest :=
      Multiset.mem_add.mpr (Or.inl (blockAt_mem_blocks hx))
    have hbounds := ht.bounds hmem
    simp only [blockAt] at hbounds
    exact ⟨hbounds.1, ht.pos _ hmem, by omega⟩
  · rw [blocks_eq_coe] at ht
    exact List.pairwise_map.mp ht.pairwise
  · have hafter := freeMemory_eq ht
    have hbefore := @freeMemory_eq s (node :: ns) hi rest (by
      rw [blocks_cons, Multiset.cons_add]
      exact h.tiles)
    simp only [freeMemory, List.map_cons, List.sum_cons] at hbefore
    unfold freeMemory at hafter ⊢
    omega

theorem WellFormed.length_lt (h : Inserting (2 ^ 64 - 1) rest node s ns) :
    ns.length + 1 < 2 ^ 64 := by
  have hcard := h.tiles.card_le
  rw [Multiset.card_cons, Multiset.card_add, blocks, Multiset.card_map, Multiset.coe_card] at hcard
  omega

/-! ## The clean exits -/

/-- The node that the inserted one is compared with first. -/
theorem WellFormed.first_eq (h : WellFormed s ns) (hne : ns ≠ []) :
    s.first = (remaining s ns).headD 0 := by
  cases ns with
  | nil => exact absurd rfl hne
  | cons x ns =>
    have hhead : s.list.head = x := h.list.head_eq
    have hlist : FreeList s.memory s.list ([] ++ x :: ns) := h.list
    rw [ListState.first, hhead]
    by_cases hx : x = s.offset
    · rw [if_pos hx, hlist.next_eq, hx, remaining_pop]
    · rw [if_neg hx, remaining_of_ne hx, List.headD_cons]

theorem WellFormed.suffix_remaining (s : ListState) (ns : List Nat) : remaining s ns <:+ ns := by
  unfold remaining
  split_ifs
  · exact List.tail_suffix ns
  · exact List.suffix_refl ns

theorem insertsWell_of_clean (h : WellFormed s ns) (hnode : Insertable s ns node)
    (hfuel : ns.length < fuel) (hclean : CleanInsert s ns node isBucket) :
    InsertsWell fuel s ns node isBucket := by
  obtain ⟨rest, hinserting⟩ := h.inserting hnode
  have hlast : ns ≠ [] → isBucket = false → node + (s.memory node).size = s.first →
      (s.memory s.first).next = 0 := by
    intro hne hb hadjacent
    obtain ⟨xs, hxs⟩ := WellFormed.suffix_remaining s ns
    have hfirst := h.first_eq hne
    rcases hremaining : remaining s ns with _ | ⟨x, _ | ⟨y, ys⟩⟩
    · rw [hremaining] at hfirst
      rw [hfirst] at hadjacent
      have := hinserting.node_pos
      simp at hadjacent
      omega
    · rw [hremaining] at hxs hfirst
      have hlist : FreeList s.memory s.list (xs ++ x :: []) := hxs ▸ h.list
      rw [hfirst]
      exact hlist.next_eq
    · exfalso
      apply hclean.2
      rw [hremaining] at hfirst ⊢
      refine ⟨hb, ?_, by simp⟩
      rw [hadjacent, hfirst]
      rfl
  obtain ⟨t, ht, ns', hab, hlength⟩ := insertMemNode_length hinserting hlast hfuel
  exact ⟨t, ht, ns',
    hab.wellFormed hinserting (hlength hclean.1 h.length (WellFormed.length_lt hinserting))⟩

/-! ## The two others -/

/-- The only node goes back to the buffer, and `Length` is zero after that. -/
theorem not_insertsWell_single (h : WellFormed s [s.offset])
    (hnode : Insertable s [s.offset] node) : ¬ InsertsWell fuel s [s.offset] node isBucket := by
  rintro ⟨t, ht, ns', hwf, -⟩
  obtain ⟨rest, hinserting⟩ := h.inserting hnode
  have hoffset : s.offset ≠ 0 := h.list.ne_zero (List.mem_cons_self ..)
  have hhead : s.list.head = s.offset := h.list.head_eq
  obtain ⟨hpop, -⟩ := hinserting.pop
  have hturn : insertTurn node isBucket (s, s.offset) =
      .done ⟨s.pop.memory, s.pop.offset, { s.pop.list with head := node }⟩ := by
    have hnull : s.pop.list.head = 0 := hpop.list.head_eq
    rw [insertTurn_pop hoffset, if_pos hnull]
  rw [insertMemNode, hhead, if_neg hoffset] at ht
  cases fuel with
  | zero => cases ht
  | succ fuel =>
    rw [Loop.run_succ_done fuel hturn] at ht
    cases ht
    have hlength : s.pop.list.length = ns'.length := hwf.length
    rw [s.pop_length, h.length, List.length_singleton,
      sub64_eq (Nat.le_refl 1) (by norm_num)] at hlength
    obtain rfl := List.length_eq_zero_iff.mp hlength.symm
    exact hnode.fresh.ne_zero hwf.list.head_eq

/-- A list in which the node after the head has another node for its `Prev`. -/
theorem not_freeList (hnode : node ≠ 0) (hy : y ≠ 0) (hx : x ≠ node) (hhead : t.list.head = node)
    (hnext : (t.memory node).next = y) (hprev : (t.memory y).prev = x) :
    ¬ FreeList t.memory t.list ns' := by
  intro h
  have hstart := h.head_eq
  rw [hhead] at hstart
  rcases ns' with _ | ⟨z, _ | ⟨w, ws⟩⟩
  · exact hnode hstart
  · obtain rfl : node = z := hstart
    have h' : FreeList t.memory t.list ([] ++ node :: []) := h
    exact hy (hnext.symm.trans h'.next_eq)
  · obtain rfl : node = z := hstart
    have h' : FreeList t.memory t.list ([] ++ node :: w :: ws) := h
    have h'' : FreeList t.memory t.list ([node] ++ w :: ws) := h
    obtain rfl : y = w := hnext.symm.trans h'.next_eq
    exact hx (hprev.symm.trans h''.prev_eq)

/-- The node after a head that was replaced still has it for its `Prev`. -/
theorem Inserting.not_freeList_front {ys : List Nat} (h : Inserting hi rest node s (x :: y :: ys))
    (hadjacent : node + (s.memory node).size = x) {p : ListState × Nat}
    (hp : insertTurn node false p = insertCompare node false s x)
    (ht : Loop.run (insertTurn node false) fuel p = some t) : ¬ FreeList t.memory t.list ns' := by
  have h' : FreeList s.memory s.list ([x] ++ y :: ys) := h.list
  have hy : y ≠ node := h.ne (by simp)
  have hy0 : y ≠ 0 := h.list.ne_zero (by simp)
  cases fuel with
  | zero => cases ht
  | succ fuel =>
    rw [Loop.run_succ_done fuel (hp.trans (h.compare_front hadjacent))] at ht
    cases ht
    refine not_freeList h.fresh.ne_zero hy0 (h.ne (List.mem_cons_self ..)) rfl ?_ ?_
    · simp
    · simp only
      rw [setPrev_of_ne hy, setNext_of_ne hy, setSize_of_ne hy]
      exact h'.prev_eq

theorem not_insertsWell_front (h : WellFormed s ns) (hnode : Insertable s ns node)
    (hhead : (remaining s ns).head? = some (node + (s.memory node).size))
    (htwo : 2 ≤ (remaining s ns).length) : ¬ InsertsWell fuel s ns node false := by
  rintro ⟨t, ht, ns', hwf, -⟩
  obtain ⟨rest, hinserting⟩ := h.inserting hnode
  rcases hremaining : remaining s ns with _ | ⟨x, _ | ⟨y, ys⟩⟩
  · simp [hremaining] at htwo
  · simp [hremaining] at htwo
  · rw [hremaining] at hhead
    have hadjacent : node + (s.memory node).size = x := (Option.some.inj hhead).symm
    cases ns with
    | nil => simp [remaining] at hremaining
    | cons z zs =>
      have hz : z ≠ 0 := h.list.ne_zero (List.mem_cons_self ..)
      have hstart : s.list.head = z := h.list.head_eq
      rw [insertMemNode, hstart, if_neg hz] at ht
      by_cases hoffset : z = s.offset
      · -- The head goes back to the buffer first.
        subst hoffset
        rw [remaining_pop] at hremaining
        subst hremaining
        obtain ⟨hpop, hsame, -⟩ := hinserting.pop
        have hx : s.pop.list.head = x := hpop.list.head_eq
        have hx0 : x ≠ 0 := hpop.list.ne_zero (List.mem_cons_self ..)
        exact hpop.not_freeList_front (by rw [hsame]; exact hadjacent)
          (by rw [insertTurn_pop hz, hx, if_neg hx0]) ht hwf.list
      · rw [remaining_of_ne hoffset] at hremaining
        obtain ⟨rfl, rfl⟩ := List.cons.inj hremaining
        exact hinserting.not_freeList_front hadjacent (insertTurn_eq hz hoffset) ht hwf.list

/-- `InsertMemNode` keeps a well-formed list, and the memory that is free grows by the size
of the node, exactly at the other exits. -/
theorem insertMemNode_keeps_iff (h : WellFormed s ns) (hnode : Insertable s ns node)
    (hfuel : ns.length < fuel) (isBucket : Bool) :
    InsertsWell fuel s ns node isBucket ↔ CleanInsert s ns node isBucket := by
  refine ⟨fun hwell => ⟨?_, ?_⟩, insertsWell_of_clean h hnode hfuel⟩
  · rintro rfl
    exact not_insertsWell_single h hnode hwell
  · rintro ⟨rfl, hhead, htwo⟩
    exact not_insertsWell_front h hnode hhead htwo hwell

/-- Nodes at 96 and 256, and one at 64 that ends at the first. -/
def twoNodes : ListState where
  memory := fun x => if x = 96 then ⟨32, 256, 0⟩ else if x = 256 then ⟨16, 0, 96⟩
    else if x = 64 then ⟨32, 0, 0⟩ else ⟨0, 0, 0⟩
  offset := 16
  list := ⟨96, 256, 2⟩

theorem wellFormed_twoNodes : WellFormed twoNodes [96, 256] where
  list := ⟨rfl, ⟨by decide, by decide, ⟨rfl, rfl, trivial⟩, ⟨rfl, rfl, trivial⟩⟩, by decide⟩
  length := rfl
  inMemory := by
    intro x hx
    rcases List.mem_pair.mp hx with rfl | rfl <;> exact ⟨by decide, by decide, by decide⟩
  apart := List.pairwise_pair.mpr (Or.inl (by decide))

theorem insertable_twoNodes : Insertable twoNodes [96, 256] 64 where
  fresh := ⟨by decide, rfl, rfl⟩
  inMemory := ⟨by decide, by decide, by decide⟩
  apart := by
    intro x hx
    rcases List.mem_pair.mp hx with rfl | rfl <;> exact Or.inl (by decide)

/-- In a bucket the node goes before the two. -/
theorem insertMemNode_keeps_bucket : InsertsWell 3 twoNodes [96, 256] 64 true :=
  (insertMemNode_keeps_iff wellFormed_twoNodes insertable_twoNodes (by decide) true).mpr
    ⟨by decide, fun h => absurd h.1 (by decide)⟩

/-- A single node at `Offset` of 64. -/
def oneNode : ListState where
  memory := fun x => if x = 64 then ⟨32, 0, 0⟩ else if x = 256 then ⟨16, 0, 0⟩ else ⟨0, 0, 0⟩
  offset := 64
  list := ⟨64, 64, 1⟩

theorem wellFormed_oneNode : WellFormed oneNode [64] where
  list := ⟨rfl, ⟨by decide, by decide, ⟨rfl, trivial⟩, ⟨rfl, trivial⟩⟩, by decide⟩
  length := rfl
  inMemory := by
    intro x hx
    obtain rfl := List.mem_singleton.mp hx
    exact ⟨by decide, by decide, by decide⟩
  apart := List.pairwise_singleton _ _

theorem insertable_oneNode : Insertable oneNode [64] 256 where
  fresh := ⟨by decide, rfl, rfl⟩
  inMemory := ⟨by decide, by decide, by decide⟩
  apart := by
    intro x hx
    obtain rfl := List.mem_singleton.mp hx
    exact Or.inr (by decide)

/-- A large list loses the way back to the node, and a list whose only node lies at
`Offset` is not counted any more. -/
theorem insertMemNode_breaks :
    (WellFormed twoNodes [96, 256] ∧ Insertable twoNodes [96, 256] 64 ∧
      ¬ InsertsWell 3 twoNodes [96, 256] 64 false) ∧
    WellFormed oneNode [64] ∧ Insertable oneNode [64] 256 ∧
      ¬ InsertsWell 2 oneNode [64] 256 true := by
  refine ⟨⟨wellFormed_twoNodes, insertable_twoNodes, ?_⟩,
    wellFormed_oneNode, insertable_oneNode, ?_⟩
  · exact not_insertsWell_front wellFormed_twoNodes insertable_twoNodes rfl (by decide)
  · exact @not_insertsWell_single oneNode 256 true 2 wellFormed_oneNode insertable_oneNode

end ScalBase.HeapAllocator
