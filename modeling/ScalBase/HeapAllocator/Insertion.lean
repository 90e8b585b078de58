/-
  HeapAllocator/Insertion.lean --- `InsertMemNode`.

  The blocks of the list, of the node and of everything else tile the memory above
  `Offset` (`Inserting`).  Afterwards the node is in the list or part of one of its
  nodes, or the list is shorter by a head that went back to the buffer, and the
  tiling is kept (`Absorbed`).

  One exit is wrong: a large node that ends at the head becomes the head in its
  place, and the node after it still has the old head for its `Prev`.  The
  specification `insertMemNode_spec` asks that there be no node after it.
-/
import ScalBase.HeapAllocator.FreeLists

set_option autoImplicit false

namespace ScalBase.HeapAllocator

open ScalBase.Foundation

variable {hi node x : Nat} {rest : Multiset Block} {s t : ListState} {ns ns' xs ys : List Nat}
  {isBucket : Bool}

/-! ## What is inserted, and what comes out -/

/-- A header with null links. -/
structure Fresh (memory : Memory) (node : Nat) : Prop where
  ne_zero : node ≠ 0
  next_eq : (memory node).next = 0
  prev_eq : (memory node).prev = 0

/-- A fresh node beside a free list. -/
structure Inserting (hi : Nat) (rest : Multiset Block) (node : Nat) (s : ListState)
    (ns : List Nat) : Prop where
  list : FreeList s.memory s.list ns
  fresh : Fresh s.memory node
  tiles : Tiles s.offset hi (blockAt s.memory node ::ₘ (blocks s.memory ns + rest))
  hi_lt : hi < 2 ^ 64

/-- The node has gone into the list. -/
structure Absorbed (hi : Nat) (rest : Multiset Block) (node : Nat) (isBucket : Bool) (s : ListState)
    (ns : List Nat) (t : ListState) (ns' : List Nat) : Prop where
  list : FreeList t.memory t.list ns'
  tiles : Tiles t.offset hi (blocks t.memory ns' + rest)
  offset_le : s.offset ≤ t.offset
  frame : ∀ z, z ∉ node :: ns → t.memory z = s.memory z
  subset : ∀ z ∈ ns', z ∈ node :: ns
  size_le : ∀ z, (s.memory z).size ≤ (t.memory z).size
  size_eq : isBucket = true → ∀ z, (t.memory z).size = (s.memory z).size

/-- The list has as many nodes as before and `Length` is as before, or it has one more and
`Length` goes up. -/
def Lengthened (s : ListState) (ns : List Nat) (t : ListState) (ns' : List Nat) : Prop :=
  ns'.length = ns.length ∧ t.list.length = s.list.length ∨
    ns'.length = ns.length + 1 ∧ t.list.length = s.list.lengthen.length

theorem Lengthened.of_insert (hlength : t.list.length = s.list.lengthen.length) :
    Lengthened s (xs ++ ys) t (xs ++ x :: ys) :=
  Or.inr ⟨List.perm_middle.length_eq, hlength⟩

theorem Lengthened.counted (h : Lengthened s ns t ns') (hlength : s.list.length = ns.length)
    (hword : ns.length + 1 < 2 ^ 64) : t.list.length = ns'.length := by
  rcases h with ⟨hsame, heq⟩ | ⟨hmore, heq⟩
  · rw [heq, hsame, hlength]
  · rw [heq, hmore, AllocList.lengthen, hlength, u64_eq hword]

namespace Inserting

theorem node_end (h : Inserting hi rest node s ns) : node + (s.memory node).size ≤ hi :=
  (h.tiles.bounds (Multiset.mem_cons_self ..)).2

theorem node_pos (h : Inserting hi rest node s ns) : 0 < (s.memory node).size :=
  h.tiles.pos _ (Multiset.mem_cons_self (blockAt s.memory node) _)

theorem mem_tiles (hx : x ∈ ns) :
    blockAt s.memory x ∈ blockAt s.memory node ::ₘ (blocks s.memory ns + rest) :=
  Multiset.mem_cons_of_mem (Multiset.mem_add.mpr (Or.inl (blockAt_mem_blocks hx)))

theorem iter_end (h : Inserting hi rest node s ns) (hx : x ∈ ns) :
    s.offset ≤ x ∧ x + (s.memory x).size ≤ hi :=
  h.tiles.bounds (mem_tiles hx)

theorem iter_pos (h : Inserting hi rest node s ns) (hx : x ∈ ns) : 0 < (s.memory x).size :=
  h.tiles.pos _ (mem_tiles hx)

/-- The node and a node of the list have no address in common. -/
theorem apart (h : Inserting hi rest node s ns) (hx : x ∈ ns) :
    node + (s.memory node).size ≤ x ∨ x + (s.memory x).size ≤ node := by
  obtain ⟨N, hN⟩ := Multiset.exists_cons_of_mem
    (Multiset.mem_add.mpr (Or.inl (blockAt_mem_blocks hx)) :
      blockAt s.memory x ∈ blocks s.memory ns + rest)
  have ht := h.tiles
  rw [hN] at ht
  exact ht.apart_cons

theorem ne (h : Inserting hi rest node s ns) (hx : x ∈ ns) : x ≠ node := by
  have hapart := h.apart hx
  have hpos := h.node_pos
  have hpos' := h.iter_pos hx
  omega

theorem notMem (h : Inserting hi rest node s ns) : node ∉ ns := fun hmem => h.ne hmem rfl

/-! ## The exits -/

/-- The node is put between two nodes of the list, or at an end. -/
theorem linked (h : Inserting hi rest node s (xs ++ ys)) (hlow : ∀ z ∈ xs, z < node)
    (hhigh : ∀ z ∈ ys, node < z) (hoffset : t.offset = s.offset)
    (hlinks : links t.memory = (links s.memory).link node (lastD xs) (ys.headD 0))
    (hsize : ∀ z, (t.memory z).size = (s.memory z).size)
    (hhead : t.list.head = (xs ++ node :: ys).headD 0) :
    Absorbed hi rest node isBucket s (xs ++ ys) t (xs ++ node :: ys) := by
  obtain ⟨hxs, hys, hcross⟩ := List.pairwise_append.mp h.list.sorted
  have hsorted : (xs ++ node :: ys).Pairwise (· < ·) := by
    refine List.pairwise_append.mpr ⟨hxs, List.pairwise_cons.mpr ⟨hhigh, hys⟩, fun a ha b hb => ?_⟩
    rcases List.mem_cons.mp hb with rfl | hb
    · exact hlow a ha
    · exact hcross a ha b hb
  refine ⟨⟨hhead, hlinks ▸ h.list.linked.link h.fresh.ne_zero h.notMem, hsorted⟩, ?_,
    hoffset.ge, fun z hz => ?_, fun z hz => List.perm_middle.mem_iff.mp hz,
    fun z => (hsize z).ge, fun _ => hsize⟩
  · rw [blocks_middle, Multiset.cons_add, blocks_congr fun z _ => hsize z, blockAt, hsize node,
      hoffset]
    exact h.tiles
  · rw [List.mem_cons, not_or] at hz
    obtain ⟨hn, hp⟩ := Linked.link_other (links s.memory) hz.1 hz.2
    exact memNode_eq (by rw [hlinks, hn]) (by rw [hlinks, hp]) (hsize z)

/-- The node goes to the end of the node before it. -/
theorem merged (h : Inserting hi rest node s (xs ++ x :: ys))
    (hadjacent : x + (s.memory x).size = node) (hoffset : t.offset = s.offset)
    (hmemory : t.memory = setSize s.memory x ((s.memory x).size + (s.memory node).size))
    (hlist : t.list = s.list) :
    Absorbed hi rest node false s (xs ++ x :: ys) t (xs ++ x :: ys) := by
  have hself : (t.memory x).size = (s.memory x).size + (s.memory node).size := by
    rw [hmemory, setSize_self]
  have hout : ∀ z, z ≠ x → t.memory z = s.memory z := by
    intro z hz
    rw [hmemory, setSize_of_ne hz]
  have hother : ∀ z ∈ xs ++ ys, z ≠ x := by
    rintro z hz rfl
    exact h.list.notMem hz
  have hlinks : links t.memory = links s.memory := by rw [hmemory, links_setSize]
  refine ⟨hlist ▸ h.list.of_links hlinks, ?_, hoffset.ge, fun z hz => hout z ?_,
    fun z => List.mem_cons_of_mem node, fun z => ?_, nofun⟩
  · have ht := h.tiles
    rw [blocks_middle, Multiset.cons_add, Multiset.cons_swap, blockAt, blockAt] at ht
    rw [blocks_middle, Multiset.cons_add, hoffset, blockAt, hself,
      blocks_congr fun z hz => congrArg MemNode.size (hout z (hother z hz))]
    have hstart : (⟨node, (s.memory node).size⟩ : Block) =
        ⟨x + (s.memory x).size, (s.memory node).size⟩ := by rw [hadjacent]
    rw [hstart] at ht
    exact ht.merge
  · rintro rfl
    exact hz (by simp)
  · by_cases hz : z = x
    · rw [hz, hself]
      exact Nat.le_add_right _ _
    · rw [hout z hz]

/-- The node takes the place of the only node of the list, which it ends at. -/
theorem merged_front (h : Inserting hi rest node s [x])
    (hadjacent : node + (s.memory node).size = x) (hoffset : t.offset = s.offset)
    (hmemory : t.memory = setPrev (setNext
      (setSize s.memory node ((s.memory node).size + (s.memory x).size)) node 0) node 0)
    (hhead : t.list.head = node) : Absorbed hi rest node false s [x] t [node] := by
  have hself : t.memory node = ⟨(s.memory node).size + (s.memory x).size, 0, 0⟩ := by
    rw [hmemory, setPrev_self, setNext_self, setSize_self]
  have hout : ∀ z, z ≠ node → t.memory z = s.memory z := by
    intro z hz
    rw [hmemory, setPrev_of_ne hz, setNext_of_ne hz, setSize_of_ne hz]
  have hlist : FreeList t.memory t.list [node] := by
    refine ⟨hhead, ⟨?_, List.nodup_singleton node, ⟨?_, trivial⟩, ?_, trivial⟩,
      List.pairwise_singleton _ _⟩
    · simpa using h.fresh.ne_zero.symm
    · exact congrArg MemNode.next hself
    · exact congrArg MemNode.prev hself
  refine ⟨hlist, ?_, hoffset.ge, fun z hz => hout z (List.ne_of_not_mem_cons hz), fun z hz => ?_,
    fun z => ?_, nofun⟩
  · have ht := h.tiles
    have hstart : (⟨x, (s.memory x).size⟩ : Block) =
        ⟨node + (s.memory node).size, (s.memory x).size⟩ := by rw [hadjacent]
    rw [blocks_cons, blocks_nil, Multiset.cons_add, zero_add, blockAt, blockAt, hstart] at ht
    rw [blocks_cons, blocks_nil, Multiset.cons_add, zero_add, blockAt, hself, hoffset]
    exact ht.merge
  · rw [List.mem_singleton.mp hz]
    exact List.mem_cons_self ..
  · by_cases hz : z = node
    · rw [hz, hself]
      exact Nat.le_add_right _ _
    · rw [hout z hz]

end Inserting

/-! ## The loop -/

/-- What `InsertMemNode` goes on with when the head lies at `Offset`. -/
def ListState.pop (s : ListState) : ListState :=
  let r := removeMemNode s.memory s.list s.offset
  ⟨r.1, u64 (s.offset + (s.memory s.offset).size), r.2⟩

theorem ListState.pop_memory (s : ListState) :
    s.pop.memory = (removeMemNode s.memory s.list s.offset).1 := by rw [pop]

theorem ListState.pop_list (s : ListState) :
    s.pop.list = (removeMemNode s.memory s.list s.offset).2 := by rw [pop]

theorem insertTurn_eq (hx : x ≠ 0) (hoffset : x ≠ s.offset) :
    insertTurn node isBucket (s, x) = insertCompare node isBucket s x := by
  rw [insertTurn, if_neg hx, if_neg hoffset]

theorem insertTurn_pop (hx : s.offset ≠ 0) :
    insertTurn node isBucket (s, s.offset) =
      if s.pop.list.head = 0 then
        .done ⟨s.pop.memory, s.pop.offset, { s.pop.list with head := node }⟩
      else insertCompare node isBucket s.pop s.pop.list.head := by
  rw [insertTurn, if_neg hx, if_pos rfl, ListState.pop]

/-- `InsertMemNodeBefore` puts a node between `curr` and the node before it. -/
theorem insertMemNodeBefore_spec {memory : Memory} {list : AllocList} {insert curr : Nat}
    (hcurr : curr ≠ 0) (hne : insert ≠ curr) (hprev : (memory insert).prev = 0)
    (hbefore : (memory curr).prev ≠ insert) :
    links (insertMemNodeBefore memory list insert curr).1 =
        (links memory).link insert (memory curr).prev curr ∧
      (∀ z, ((insertMemNodeBefore memory list insert curr).1 z).size = (memory z).size) ∧
      (insertMemNodeBefore memory list insert curr).2.head =
        if (memory curr).prev = 0 then insert else list.head := by
  have hidem : Function.update (links memory).prev insert 0 = (links memory).prev :=
    Function.update_eq_self_iff.mpr hprev.symm
  unfold insertMemNodeBefore Links.link
  simp only [prev_setNext]
  by_cases hnone : (memory curr).prev = 0
  · rw [if_pos hnone, if_pos hnone, hnone, bridge_zero, bridge_of_ne hcurr, links_setPrev,
      links_setNext]
    refine ⟨?_, by simp, rfl⟩
    rw [Function.update_comm hne.symm, hidem]
  · rw [if_neg hnone, if_neg hnone, bridge_of_ne hnone, bridge_of_ne hcurr, setPrev_of_ne hne.symm,
      prev_setNext, links_setPrev, links_setNext, links_setPrev, links_setNext]
    refine ⟨?_, by simp, rfl⟩
    rw [Function.update_comm hne.symm, Function.update_comm hbefore]

@[simp] theorem length_insertMemNodeBefore (memory : Memory) (list : AllocList)
    (insert curr : Nat) : (insertMemNodeBefore memory list insert curr).2.length = list.length := by
  simp only [insertMemNodeBefore]
  split_ifs <;> rfl

namespace Inserting

/-- What follows a node above the inserted one is above it too. -/
theorem lt_rest (h : Inserting hi rest node s (xs ++ x :: ys)) (hlt : node < x) :
    ∀ z ∈ x :: ys, node < z := by
  have hsorted := (List.pairwise_append.mp h.list.sorted).2.1
  intro z hz
  rcases List.mem_cons.mp hz with rfl | hz
  · exact hlt
  · exact Nat.lt_trans hlt ((List.pairwise_cons.mp hsorted).1 z hz)

/-- A node of the list above the inserted one: the node goes before it. -/
theorem before (h : Inserting hi rest node s (xs ++ x :: ys)) (hlow : ∀ z ∈ xs, z < node)
    (hlt : node < x) :
    Absorbed hi rest node isBucket s (xs ++ x :: ys)
      { s with
        memory := (insertMemNodeBefore s.memory s.list node x).1
        list := (insertMemNodeBefore s.memory s.list node x).2.lengthen }
      (xs ++ node :: x :: ys) := by
  have hprev := h.list.prev_eq
  have hx0 : x ≠ 0 := h.list.ne_zero (by simp)
  have hnode' : (s.memory x).prev ≠ node := by
    rw [hprev]
    intro heq
    rcases lastD_mem_or xs with h0 | hlast
    · exact h.fresh.ne_zero (heq.symm.trans h0)
    · exact h.notMem (List.mem_append_left _ (heq ▸ hlast))
  obtain ⟨hlinks, hsize, hhead⟩ := @insertMemNodeBefore_spec s.memory s.list node x hx0
    (Nat.ne_of_lt hlt) h.fresh.prev_eq hnode'
  refine h.linked hlow (h.lt_rest hlt) rfl ?_ hsize ?_
  · rw [hlinks, hprev]
    rfl
  · show (insertMemNodeBefore s.memory s.list node x).2.lengthen.head = _
    rw [AllocList.head_lengthen, hhead, hprev, h.list.head_eq, headD_append, headD_append]
    cases xs with
    | nil => rfl
    | cons y xs =>
      rw [if_neg (h.list.lastD_ne_zero (List.cons_ne_nil y xs))]
      rfl

/-- The inserted node goes before the head. -/
theorem at_front (h : Inserting hi rest node s (x :: ys)) (hlt : node < x) :
    Absorbed hi rest node isBucket s (x :: ys)
      { s with
        memory := setPrev (setPrev (setNext s.memory node x) node 0) x node
        list := { s.list with head := node }.lengthen }
      (node :: x :: ys) := by
  have h' : Inserting hi rest node s ([] ++ x :: ys) := h
  refine h'.linked nofun (h'.lt_rest hlt) rfl ?_ (by simp) (by simp)
  simp only [links_setPrev, links_setNext, Links.link, List.headD_cons, lastD_nil, bridge_zero]
  rw [bridge_of_ne (h.list.ne_zero (List.mem_cons_self ..)), Function.update_comm hlt.ne']

/-- The words in which the node is compared with a node of the list. -/
theorem compare_words (h : Inserting hi rest node s ns) (hx : x ∈ ns) :
    u64 (x + (s.memory x).size) = x + (s.memory x).size ∧
      u64 (node + (s.memory node).size) = node + (s.memory node).size ∧
      u64 ((s.memory x).size + (s.memory node).size) = (s.memory x).size + (s.memory node).size ∧
      u64 ((s.memory node).size + (s.memory x).size) =
        (s.memory node).size + (s.memory x).size := by
  have hhi := h.hi_lt
  have hiter := h.iter_end hx
  have hnode := h.node_end
  have hapart := h.apart hx
  exact ⟨u64_eq (by omega), u64_eq (by omega), u64_eq (by omega), u64_eq (by omega)⟩

/-- The comparison with a head that begins where the inserted node ends: the node takes the
place of the head, and nothing is stored in the node after it. -/
theorem compare_front (h : Inserting hi rest node s (x :: ys))
    (hadjacent : node + (s.memory node).size = x) :
    insertCompare node false s x = .done { s with
      memory := setPrev (setNext (setSize s.memory node
        ((s.memory node).size + (s.memory x).size)) node (ys.headD 0)) node 0
      list := { s.list with head := node } } := by
  have hmem : x ∈ x :: ys := List.mem_cons_self ..
  have hlist : FreeList s.memory s.list ([] ++ x :: ys) := h.list
  have hpos := h.node_pos
  have hpos' := h.iter_pos hmem
  obtain ⟨hiterEnd, hnodeEnd, -, hsum⟩ := h.compare_words hmem
  have hhead : s.list.head = x := h.list.head_eq
  have hnext : (setSize s.memory node ((s.memory node).size + (s.memory x).size) x).next =
      ys.headD 0 := by
    rw [setSize_of_ne (h.ne hmem)]
    exact hlist.next_eq
  have hbehind : ¬ x + (s.memory x).size = node := by omega
  simp only [insertCompare, hiterEnd, hnodeEnd, if_neg (h.ne hmem),
    if_neg (show ¬ x < node by omega),
    if_neg (show ¬ x < node + (s.memory node).size by omega), hhead, and_self, if_true,
    if_neg hbehind, if_pos hadjacent, hsum, hnext]

/-- The comparison with a node that begins where the inserted one ends, or after it. -/
theorem compare_above (h : Inserting hi rest node s (xs ++ x :: ys)) (hlow : ∀ z ∈ xs, z < node)
    (hclean : isBucket = false → xs = [] → node + (s.memory node).size = x → ys = [])
    (habove : node + (s.memory node).size ≤ x) :
    ∃ t, insertCompare node isBucket s x = .done t ∧
      ∃ ns', Absorbed hi rest node isBucket s (xs ++ x :: ys) t ns' ∧
        Lengthened s (xs ++ x :: ys) t ns' := by
  have hmem : x ∈ xs ++ x :: ys := by simp
  have hpos := h.node_pos
  have hpos' := h.iter_pos hmem
  have hlt : node < x := by omega
  by_cases hfront : (x = s.list.head ∧ isBucket = false) ∧ node + (s.memory node).size = x
  · -- The inserted node takes the place of the head.
    obtain ⟨⟨hhead, rfl⟩, hadjacent⟩ := hfront
    obtain rfl := h.list.eq_nil_of_head hhead
    obtain rfl := hclean rfl rfl hadjacent
    exact ⟨_, h.compare_front hadjacent, _, h.merged_front hadjacent rfl rfl rfl,
      Or.inl ⟨rfl, rfl⟩⟩
  · obtain ⟨hiterEnd, hnodeEnd, -, -⟩ := h.compare_words hmem
    have hbehind : ¬ x + (s.memory x).size = node := by omega
    simp only [insertCompare, hiterEnd, hnodeEnd, if_neg (h.ne hmem), if_neg (Nat.lt_asymm hlt),
      if_neg (Nat.not_lt.mpr habove), if_neg hbehind, if_neg fun hc => hbehind (And.left hc)]
    split_ifs with hhead hadjacent
    · exact absurd ⟨hhead, hadjacent⟩ hfront
    · obtain rfl := h.list.eq_nil_of_head hhead.1
      exact ⟨_, rfl, _, h.at_front hlt, Or.inr ⟨rfl, rfl⟩⟩
    · refine ⟨_, rfl, _, h.before hlow hlt, .of_insert ?_⟩
      rw [AllocList.lengthen, AllocList.lengthen, length_insertMemNodeBefore]

/-- The comparison with a node that ends where the inserted one begins, or before it. -/
theorem compare_below (h : Inserting hi rest node s (xs ++ x :: ys)) (hlow : ∀ z ∈ xs, z < node)
    (hbelow : x + (s.memory x).size ≤ node) :
    (∃ t, insertCompare node isBucket s x = .done t ∧
        ∃ ns', Absorbed hi rest node isBucket s (xs ++ x :: ys) t ns' ∧
          Lengthened s (xs ++ x :: ys) t ns') ∨
      insertCompare node isBucket s x = .again (s, ys.headD 0) ∧ x < node ∧ ys ≠ [] := by
  have hmem : x ∈ xs ++ x :: ys := by simp
  have hpos' := h.iter_pos hmem
  have hlt : x < node := by omega
  obtain ⟨hiterEnd, -, hsum, -⟩ := h.compare_words hmem
  simp only [insertCompare, hiterEnd, hsum, if_neg (h.ne hmem), if_pos hlt,
    if_neg (Nat.not_lt.mpr hbelow), h.list.next_eq]
  split_ifs with hadjacent hlast
  · left
    obtain ⟨hadjacent, rfl⟩ := hadjacent
    exact ⟨_, rfl, _, h.merged hadjacent rfl rfl rfl, Or.inl ⟨rfl, rfl⟩⟩
  · -- `x` is the last node.
    left
    obtain rfl := h.list.eq_nil (h.list.next_eq.trans hlast)
    have hns : xs ++ [x] = (xs ++ [x]) ++ [] := (List.append_nil _).symm
    rw [hns] at h ⊢
    refine ⟨_, rfl, _, h.linked ?_ nofun rfl ?_ (by simp) ?_, .of_insert rfl⟩
    · intro z hz
      rcases List.mem_append.mp hz with hz | hz
      · exact hlow z hz
      · rw [List.mem_singleton.mp hz]
        exact hlt
    · have hidem : Function.update (bridge (links s.memory).next x node) node 0 =
          bridge (links s.memory).next x node := by
        rw [Function.update_eq_self_iff, bridge_apply_of_ne hlt.ne']
        exact h.fresh.next_eq.symm
      simp only [links_setPrev, links_setNext, Links.link, List.headD_nil, lastD_concat,
        bridge_zero]
      rw [hidem, bridge_of_ne (h.list.ne_zero (by simp))]
    · show s.list.lengthen.head = _
      rw [AllocList.head_lengthen, h.list.head_eq, List.append_nil, headD_append, headD_append,
        headD_append]
      rfl
  · exact Or.inr ⟨rfl, hlt, fun hys => hlast (by rw [hys]; rfl)⟩

/-- One comparison: the node is absorbed, or it comes after `x` and the loop goes on. -/
theorem compare (h : Inserting hi rest node s (xs ++ x :: ys)) (hlow : ∀ z ∈ xs, z < node)
    (hclean : isBucket = false → xs = [] → node + (s.memory node).size = x → ys = []) :
    (∃ t, insertCompare node isBucket s x = .done t ∧
        ∃ ns', Absorbed hi rest node isBucket s (xs ++ x :: ys) t ns' ∧
          Lengthened s (xs ++ x :: ys) t ns') ∨
      insertCompare node isBucket s x = .again (s, ys.headD 0) ∧ x < node ∧ ys ≠ [] := by
  rcases h.apart (x := x) (by simp) with habove | hbelow
  · exact Or.inl (h.compare_above hlow hclean habove)
  · exact h.compare_below hlow hbelow

/-- The turns after the first: `Offset` lies below, and the node comes after the head. -/
theorem loop (h : Inserting hi rest node s (x :: ns)) (hlt : x < node) (hne : ns ≠ []) {fuel : Nat}
    (hfuel : ns.length < fuel) :
    ∃ t, Loop.run (insertTurn node isBucket) fuel (s, ns.headD 0) = some t ∧
      ∃ ns', Absorbed hi rest node isBucket s (x :: ns) t ns' ∧ Lengthened s (x :: ns) t ns' := by
  refine Loop.run_list (fun xs ys p => ns = xs ++ ys ∧ p = (s, ys.headD 0) ∧ ys ≠ [] ∧
    ∀ z ∈ x :: xs, z < node) _ ?_ ?_ ⟨rfl, rfl, hne, by simpa using hlt⟩ hfuel
  · rintro xs p ⟨-, -, hys, -⟩
    exact absurd rfl hys
  · rintro xs y ys p ⟨rfl, rfl, -, hlow⟩
    have hy0 : y ≠ 0 := h.list.ne_zero (by simp)
    have hoffset : y ≠ s.offset := by
      have hx := (h.iter_end (List.mem_cons_self ..)).1
      have hxy := (List.pairwise_cons.mp h.list.sorted).1 y (by simp)
      omega
    have hclean : isBucket = false → x :: xs = [] → node + (s.memory node).size = y → ys = [] :=
      nofun
    have h' : Inserting hi rest node s ((x :: xs) ++ y :: ys) := h
    rw [List.headD_cons, insertTurn_eq hy0 hoffset]
    rcases h'.compare hlow hclean with hdone | ⟨hagain, hylt, hys⟩
    · exact Or.inl hdone
    · refine Or.inr ⟨_, hagain, by simp, rfl, hys, ?_⟩
      intro z hz
      rcases List.mem_append.mp (show z ∈ (x :: xs) ++ [y] from hz) with hz | hz
      · exact hlow z hz
      · rw [List.mem_singleton.mp hz]
        exact hylt

/-- A loop whose first turn compares with the head. -/
theorem run_from_head (h : Inserting hi rest node s (x :: ns))
    (hclean : isBucket = false → node + (s.memory node).size = x → ns = [])
    {p : ListState × Nat} (hp : insertTurn node isBucket p = insertCompare node isBucket s x)
    {fuel : Nat} (hfuel : ns.length < fuel) :
    ∃ t, Loop.run (insertTurn node isBucket) (fuel + 1) p = some t ∧
      ∃ ns', Absorbed hi rest node isBucket s (x :: ns) t ns' ∧ Lengthened s (x :: ns) t ns' := by
  have h' : Inserting hi rest node s ([] ++ x :: ns) := h
  rcases h'.compare nofun fun hb _ => hclean hb with ⟨t, hdone, hab⟩ | ⟨hagain, hlt, hne⟩
  · exact ⟨t, Loop.run_succ_done fuel (hp.trans hdone), hab⟩
  · rw [Loop.run_succ_again fuel (hp.trans hagain)]
    exact h.loop hlt hne hfuel

/-- The node becomes the only one of the list. -/
theorem single (h : Inserting hi rest node s []) {list : AllocList} (hhead : list.head = node) :
    Absorbed hi rest node isBucket s [] ⟨s.memory, s.offset, list⟩ [node] := by
  have h' : Inserting hi rest node s ([] ++ []) := h
  have hnext : Function.update (links s.memory).next node 0 = (links s.memory).next :=
    Function.update_eq_self_iff.mpr h.fresh.next_eq.symm
  have hprev : Function.update (links s.memory).prev node 0 = (links s.memory).prev :=
    Function.update_eq_self_iff.mpr h.fresh.prev_eq.symm
  refine h'.linked nofun nofun rfl ?_ (fun _ => rfl) hhead
  rw [Links.link, lastD_nil, List.headD_nil, bridge_zero, bridge_zero, hnext, hprev]

end Inserting

/-! ## The head goes back to the buffer -/

/-- The head at `Offset` leaves the list and becomes the lowest memory of the buffer. -/
theorem ListState.pop_spec (hlist : FreeList s.memory s.list (s.offset :: ns))
    (ht : Tiles s.offset hi (blocks s.memory (s.offset :: ns) + rest)) (hhi : hi < 2 ^ 64) :
    FreeList s.pop.memory s.pop.list ns ∧ Tiles s.pop.offset hi (blocks s.pop.memory ns + rest) ∧
      s.offset ≤ s.pop.offset ∧ (∀ z, (s.pop.memory z).size = (s.memory z).size) ∧
      ∀ z, z ∉ ns → s.pop.memory z = s.memory z := by
  have hlist' : FreeList s.memory s.list ([] ++ s.offset :: ns) := hlist
  obtain ⟨hremoved, hsize, hframe⟩ := hlist'.remove
  rw [List.nil_append, ← s.pop_memory] at hremoved hframe
  rw [← s.pop_list] at hremoved
  rw [← s.pop_memory] at hsize
  rw [blocks_cons, Multiset.cons_add] at ht
  have hend := (ht.bounds (Multiset.mem_cons_self ..)).2
  simp only [blockAt] at hend
  have hoffset : s.pop.offset = s.offset + (s.memory s.offset).size := by
    rw [ListState.pop, u64_eq (by omega)]
  refine ⟨hremoved, ?_, by omega, hsize, hframe⟩
  rw [hoffset, blocks_congr fun z _ => hsize z]
  exact ht.retract

theorem Inserting.pop (h : Inserting hi rest node s (s.offset :: ns)) :
    Inserting hi rest node s.pop ns ∧ s.pop.memory node = s.memory node ∧
      s.offset ≤ s.pop.offset ∧ (∀ z, (s.pop.memory z).size = (s.memory z).size) ∧
      ∀ z, z ∉ ns → s.pop.memory z = s.memory z := by
  have ht := h.tiles
  rw [← Multiset.add_cons] at ht
  obtain ⟨hremoved, htiles, hoffset, hsize, hframe⟩ := ListState.pop_spec h.list ht h.hi_lt
  have hnode : s.pop.memory node = s.memory node :=
    hframe node fun hmem => h.notMem (List.mem_cons_of_mem _ hmem)
  have hfresh : Fresh s.pop.memory node :=
    ⟨h.fresh.ne_zero, by rw [hnode, h.fresh.next_eq], by rw [hnode, h.fresh.prev_eq]⟩
  refine ⟨⟨hremoved, hfresh, ?_, h.hi_lt⟩, hnode, hoffset, hsize, hframe⟩
  rw [blockAt, hnode, ← Multiset.add_cons]
  exact htiles

/-- What happens after the pop has happened to the whole list. -/
theorem Absorbed.of_pop (h : Inserting hi rest node s (s.offset :: ns))
    (hab : Absorbed hi rest node isBucket s.pop ns t ns') :
    Absorbed hi rest node isBucket s (s.offset :: ns) t ns' := by
  obtain ⟨-, -, hoffset, hsize, hframe⟩ := h.pop
  refine ⟨hab.list, hab.tiles, Nat.le_trans hoffset hab.offset_le, fun z hz => ?_, fun z hz => ?_,
    fun z => hsize z ▸ hab.size_le z, fun hb z => (hab.size_eq hb z).trans (hsize z)⟩
  · simp only [List.mem_cons, not_or] at hz
    rw [hab.frame z (by simp [hz.1, hz.2.2]), hframe z hz.2.2]
  · rcases List.mem_cons.mp (hab.subset z hz) with rfl | hmem
    · exact List.mem_cons_self ..
    · exact List.mem_cons_of_mem _ (List.mem_cons_of_mem _ hmem)

/-- The head that the node is compared with first, null if there is none. -/
def ListState.first (s : ListState) : Nat :=
  if s.list.head = s.offset then (s.memory s.list.head).next else s.list.head

/-- A run that starts with the head at `Offset`: it goes back to the buffer, and the node
meets the next one. -/
theorem Inserting.run_popped (h : Inserting hi rest node s (s.offset :: ns))
    (hclean : isBucket = false → node + (s.memory node).size = s.first →
      (s.memory s.first).next = 0)
    {fuel : Nat} (hfuel : ns.length < fuel + 1) :
    ∃ t, Loop.run (insertTurn node isBucket) (fuel + 1) (s, s.offset) = some t ∧
      ∃ ns', Absorbed hi rest node isBucket s (s.offset :: ns) t ns' ∧
        (ns ≠ [] → Lengthened s.pop ns t ns') := by
  have hlist : FreeList s.memory s.list ([] ++ s.offset :: ns) := h.list
  have hoffset : s.offset ≠ 0 := h.list.ne_zero (List.mem_cons_self ..)
  obtain ⟨hpop, hnode, -, -, -⟩ := h.pop
  have hhead : s.pop.list.head = ns.headD 0 := hpop.list.head_eq
  have hfirst : s.first = ns.headD 0 := by
    have hstart : s.list.head = s.offset := h.list.head_eq
    rw [ListState.first, if_pos hstart, hstart]
    exact hlist.next_eq
  cases ns with
  | nil =>
    rw [List.headD_nil] at hhead
    have hturn : insertTurn node isBucket (s, s.offset) =
        .done ⟨s.pop.memory, s.pop.offset, { s.pop.list with head := node }⟩ := by
      rw [insertTurn_pop hoffset, if_pos hhead]
    exact ⟨_, Loop.run_succ_done fuel hturn, _, Absorbed.of_pop h (hpop.single rfl),
      fun hne => absurd rfl hne⟩
  | cons y ns =>
    rw [List.headD_cons] at hhead hfirst
    have hlist' : FreeList s.memory s.list ([s.offset] ++ y :: ns) := h.list
    have hturn : insertTurn node isBucket (s, s.offset) = insertCompare node isBucket s.pop y := by
      rw [insertTurn_pop hoffset, hhead, if_neg (h.list.ne_zero (by simp))]
    have hclean' : isBucket = false → node + (s.pop.memory node).size = y → ns = [] := by
      intro hb hadjacent
      rw [hnode, ← hfirst] at hadjacent
      exact hlist'.eq_nil (hfirst ▸ hclean hb hadjacent)
    obtain ⟨t, ht, ns', hab, hlength⟩ := hpop.run_from_head hclean' hturn
      (show ns.length < fuel from Nat.lt_of_succ_lt_succ hfuel)
    exact ⟨t, ht, ns', Absorbed.of_pop h hab, fun _ => hlength⟩

/-- A head that goes back to the buffer is counted. -/
theorem ListState.pop_length (s : ListState) :
    s.pop.list.length = sub64 s.list.length 1 := by
  rw [pop_list, removeMemNode]
  simp only [AllocList.shorten]
  split_ifs <;> rfl

/-- `InsertMemNode` puts a fresh node into a list, where the node does not take the
place of a head that has a successor.  The node is counted, unless it takes that of an
only node which has gone back to the buffer. -/
theorem insertMemNode_length (h : Inserting hi rest node s ns)
    (hclean : ns ≠ [] → isBucket = false → node + (s.memory node).size = s.first →
      (s.memory s.first).next = 0)
    {fuel : Nat} (hfuel : ns.length < fuel) :
    ∃ t, insertMemNode fuel s node isBucket = some t ∧
      ∃ ns', Absorbed hi rest node isBucket s ns t ns' ∧
        (ns ≠ [s.offset] → s.list.length = ns.length → ns.length + 1 < 2 ^ 64 →
          t.list.length = ns'.length) := by
  have hhead := h.list.head_eq
  unfold insertMemNode
  cases ns with
  | nil =>
    rw [List.headD_nil] at hhead
    rw [if_pos hhead]
    refine ⟨_, rfl, _, h.single ?_, fun _ hlength _ => ?_⟩
    · rw [AllocList.head_lengthen]
    · rw [AllocList.lengthen, hlength]
      rfl
  | cons x ns =>
    rw [List.headD_cons] at hhead
    have hx : x ≠ 0 := h.list.ne_zero (List.mem_cons_self ..)
    obtain ⟨fuel, rfl⟩ := Nat.exists_eq_succ_of_ne_zero (Nat.ne_of_gt (Nat.zero_lt_of_lt hfuel))
    have hfuel' : ns.length < fuel := Nat.lt_of_succ_lt_succ hfuel
    rw [hhead, if_neg hx]
    by_cases hoffset : x = s.offset
    · subst hoffset
      obtain ⟨t, ht, ns', hab, hlengthened⟩ :=
        h.run_popped (hclean (List.cons_ne_nil _ _)) (Nat.lt_succ_of_lt hfuel')
      refine ⟨t, ht, ns', hab, fun hne hlength hword => ?_⟩
      have hpop : s.pop.list.length = ns.length := by
        rw [s.pop_length, hlength, List.length_cons, sub64_eq (by omega) (by simp at hword; omega)]
        rfl
      exact (hlengthened fun hnil => hne (by rw [hnil])).counted hpop (by simp at hword; omega)
    · have hfirst : s.first = x := by rw [ListState.first, hhead, if_neg hoffset]
      have hlist : FreeList s.memory s.list ([] ++ x :: ns) := h.list
      have hclean' : isBucket = false → node + (s.memory node).size = x → ns = [] := by
        intro hb hadjacent
        exact hlist.eq_nil (hfirst ▸ hclean (List.cons_ne_nil _ _) hb (hfirst ▸ hadjacent))
      obtain ⟨t, ht, ns', hab, hlengthened⟩ :=
        h.run_from_head hclean' (insertTurn_eq hx hoffset) hfuel'
      exact ⟨t, ht, ns', hab, fun _ => hlengthened.counted⟩

/-- The same without the length. -/
theorem insertMemNode_spec (h : Inserting hi rest node s ns)
    (hclean : isBucket = false → node + (s.memory node).size = s.first →
      (s.memory s.first).next = 0)
    {fuel : Nat} (hfuel : ns.length < fuel) :
    ∃ t, insertMemNode fuel s node isBucket = some t ∧
      ∃ ns', Absorbed hi rest node isBucket s ns t ns' := by
  obtain ⟨t, ht, ns', hab, -⟩ := insertMemNode_length h (fun _ => hclean) hfuel
  exact ⟨t, ht, ns', hab⟩

end ScalBase.HeapAllocator
