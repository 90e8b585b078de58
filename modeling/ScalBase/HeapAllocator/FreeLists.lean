/-
  HeapAllocator/FreeLists.lean --- the operations on one free list.

  A free list is linked both ways, starts at `Head` and ascends by address
  (`FreeList`).  Each operation has one specification here: what it does to the
  list of nodes, to the sizes, and to the memory outside the list.

  `Tail` and `Length` are written but decide nothing.
-/
import ScalBase.HeapAllocator.Model
import ScalBase.Foundation.LinkedList
import ScalBase.Foundation.Tiling

set_option autoImplicit false

namespace ScalBase.HeapAllocator

open ScalBase.Foundation

variable {memory memory' : Memory} {p x v : Nat}

/-! ## Stores -/

theorem setSize_of_ne (h : x ≠ p) : setSize memory p v x = memory x := Function.update_of_ne h ..

theorem setNext_of_ne (h : x ≠ p) : setNext memory p v x = memory x := Function.update_of_ne h ..

theorem setPrev_of_ne (h : x ≠ p) : setPrev memory p v x = memory x := Function.update_of_ne h ..

@[simp] theorem setSize_self : setSize memory p v p = { memory p with size := v } :=
  Function.update_self ..

@[simp] theorem setNext_self : setNext memory p v p = { memory p with next := v } :=
  Function.update_self ..

@[simp] theorem setPrev_self : setPrev memory p v p = { memory p with prev := v } :=
  Function.update_self ..

@[simp] theorem size_setNext : (setNext memory p v x).size = (memory x).size := by
  by_cases h : x = p
  · rw [h, setNext_self]
  · rw [setNext_of_ne h]

@[simp] theorem size_setPrev : (setPrev memory p v x).size = (memory x).size := by
  by_cases h : x = p
  · rw [h, setPrev_self]
  · rw [setPrev_of_ne h]

@[simp] theorem prev_setNext : (setNext memory p v x).prev = (memory x).prev := by
  by_cases h : x = p
  · rw [h, setNext_self]
  · rw [setNext_of_ne h]

/-- The links in memory. -/
def links (memory : Memory) : Links Nat := ⟨fun x => (memory x).next, fun x => (memory x).prev⟩

@[simp] theorem links_setSize : links (setSize memory p v) = links memory := by
  unfold links
  congr 1 <;> funext x <;> by_cases h : x = p <;> simp [setSize, h]

theorem links_setNext :
    links (setNext memory p v) =
      ⟨Function.update (links memory).next p v, (links memory).prev⟩ := by
  unfold links
  congr 1 <;> funext x <;> by_cases h : x = p <;> simp [setNext, h]

theorem links_setPrev :
    links (setPrev memory p v) =
      ⟨(links memory).next, Function.update (links memory).prev p v⟩ := by
  unfold links
  congr 1 <;> funext x <;> by_cases h : x = p <;> simp [setPrev, h]

/-! ## Free lists -/

/-- The nodes of a free list. -/
structure FreeList (memory : Memory) (list : AllocList) (ns : List Nat) : Prop where
  head_eq : list.head = ns.headD 0
  linked : Linked (links memory) ns
  sorted : ns.Pairwise (· < ·)

variable {list : AllocList} {ns xs ys : List Nat}

theorem FreeList.congr (h : FreeList memory list ns) (hsame : ∀ x ∈ ns, memory' x = memory x) :
    FreeList memory' list ns :=
  ⟨h.head_eq, h.linked.congr (fun x hx => congrArg MemNode.next (hsame x hx))
    (fun x hx => congrArg MemNode.prev (hsame x hx)), h.sorted⟩

theorem FreeList.of_links (h : FreeList memory list ns) (hlinks : links memory' = links memory) :
    FreeList memory' list ns :=
  ⟨h.head_eq, hlinks ▸ h.linked, h.sorted⟩

theorem FreeList.ne_zero (h : FreeList memory list ns) (hx : x ∈ ns) : x ≠ 0 := by
  rintro rfl
  exact h.linked.ne_zero hx

theorem FreeList.next_eq (h : FreeList memory list (xs ++ x :: ys)) :
    (memory x).next = ys.headD 0 := h.linked.next_mid

theorem FreeList.prev_eq (h : FreeList memory list (xs ++ x :: ys)) :
    (memory x).prev = lastD xs := h.linked.prev_mid

theorem FreeList.notMem (h : FreeList memory list (xs ++ x :: ys)) : x ∉ xs ++ ys :=
  (List.nodup_cons.mp (List.perm_middle.nodup_iff.mp h.linked.nodup)).1

/-- A node without a successor is the last one. -/
theorem FreeList.eq_nil (h : FreeList memory list (xs ++ x :: ys)) (hnext : (memory x).next = 0) :
    ys = [] := by
  rw [h.next_eq] at hnext
  exact (headD_eq_zero fun h0 => h.linked.ne_zero (by simp [h0])).mp hnext

/-- The head has no node before it. -/
theorem FreeList.eq_nil_of_head (h : FreeList memory list (xs ++ x :: ys)) (hhead : x = list.head) :
    xs = [] := by
  rw [h.head_eq, headD_append] at hhead
  cases xs with
  | nil => rfl
  | cons y xs =>
    have hxy : x = y := hhead
    exact absurd (by simp [hxy]) h.notMem

/-- A node that is not the first has one before it. -/
theorem FreeList.lastD_ne_zero (h : FreeList memory list (xs ++ x :: ys)) (hxs : xs ≠ []) :
    lastD xs ≠ 0 := by
  rw [Ne, lastD_eq_zero fun h0 => h.linked.ne_zero (List.mem_append_left _ h0)]
  exact hxs

/-! ## RemoveMemNode -/

/-- `p.next := v`, unless `p` is null. -/
def bridgeNext (memory : Memory) (p v : Nat) : Memory :=
  if p = 0 then memory else setNext memory p v

/-- `p.prev := v`, unless `p` is null. -/
def bridgePrev (memory : Memory) (p v : Nat) : Memory :=
  if p = 0 then memory else setPrev memory p v

@[simp] theorem size_bridgeNext : (bridgeNext memory p v x).size = (memory x).size := by
  unfold bridgeNext
  split_ifs <;> simp

@[simp] theorem size_bridgePrev : (bridgePrev memory p v x).size = (memory x).size := by
  unfold bridgePrev
  split_ifs <;> simp

theorem links_bridgeNext :
    links (bridgeNext memory p v) = ⟨bridge (links memory).next p v, (links memory).prev⟩ := by
  unfold bridgeNext bridge
  split_ifs
  · rfl
  · exact links_setNext

theorem links_bridgePrev :
    links (bridgePrev memory p v) = ⟨(links memory).next, bridge (links memory).prev p v⟩ := by
  unfold bridgePrev bridge
  split_ifs
  · rfl
  · exact links_setPrev

/-- The neighbours lead to each other and `Head` moves when there is none before; some
of the stores are made twice. -/
theorem removeMemNode_eq (hp : (memory x).prev ≠ x) (hn : (memory x).next ≠ x) :
    (removeMemNode memory list x).1 =
        bridgePrev (bridgeNext memory (memory x).prev (memory x).next) (memory x).next
          (memory x).prev ∧
      (removeMemNode memory list x).2.head =
        if (memory x).prev = 0 then (memory x).next else list.head := by
  unfold removeMemNode bridgeNext bridgePrev
  by_cases hprev : (memory x).prev = 0 <;> by_cases hnext : (memory x).next = 0
  · simp [hprev, hnext]
  · have hidem : setPrev (setPrev memory (memory x).next 0) (memory x).next 0 =
        setPrev memory (memory x).next 0 := by
      unfold setPrev
      rw [Function.update_self, Function.update_idem]
    simp [hprev, hnext, setPrev_of_ne hn.symm, hidem]
  · have hidem : setNext (setNext memory (memory x).prev 0) (memory x).prev 0 =
        setNext memory (memory x).prev 0 := by
      unfold setNext
      rw [Function.update_self, Function.update_idem]
    simp [hprev, hnext, setNext_of_ne hp.symm, hidem]
  · simp [hprev, hnext, setNext_of_ne hp.symm]

/-- A header is its size and its links. -/
theorem memNode_eq (hnext : (links memory').next x = (links memory).next x)
    (hprev : (links memory').prev x = (links memory).prev x)
    (hsize : (memory' x).size = (memory x).size) : memory' x = memory x := by
  have hext : ∀ {a b : MemNode}, a.size = b.size → a.next = b.next → a.prev = b.prev → a = b := by
    rintro ⟨⟩ ⟨⟩ rfl rfl rfl
    rfl
  exact hext hsize hnext hprev

/-- `RemoveMemNode` of a node of the list. -/
theorem FreeList.remove (h : FreeList memory list (xs ++ x :: ys)) :
    FreeList (removeMemNode memory list x).1 (removeMemNode memory list x).2 (xs ++ ys) ∧
      (∀ z, ((removeMemNode memory list x).1 z).size = (memory z).size) ∧
      ∀ z, z ∉ xs ++ ys → (removeMemNode memory list x).1 z = memory z := by
  have hx := h.notMem
  have hx0 : x ≠ 0 := h.ne_zero (by simp)
  rw [List.mem_append, not_or] at hx
  have hprev : (memory x).prev ≠ x := by
    rw [h.prev_eq]
    intro heq
    exact (lastD_mem_or xs).elim (fun h0 => hx0 (heq.symm.trans h0)) (heq ▸ hx.1)
  have hnext : (memory x).next ≠ x := by
    rw [h.next_eq]
    intro heq
    exact (headD_mem_or ys).elim (fun h0 => hx0 (heq.symm.trans h0)) (heq ▸ hx.2)
  obtain ⟨hmemory, hhead⟩ := @removeMemNode_eq memory x list hprev hnext
  have hlinks : links (removeMemNode memory list x).1 = (links memory).unlink x := by
    rw [hmemory, links_bridgePrev, links_bridgeNext]
    rfl
  have hsize : ∀ z, ((removeMemNode memory list x).1 z).size = (memory z).size := by
    intro z
    rw [hmemory, size_bridgePrev, size_bridgeNext]
  have hsorted : (xs ++ ys).Pairwise (· < ·) :=
    h.sorted.sublist ((List.Sublist.refl xs).append (List.sublist_cons_self x ys))
  have hhead' : (removeMemNode memory list x).2.head = (xs ++ ys).headD 0 := by
    rw [hhead, h.prev_eq, h.next_eq, h.head_eq, headD_append, headD_append]
    cases xs with
    | nil => simp
    | cons y xs =>
      rw [if_neg (h.lastD_ne_zero (List.cons_ne_nil y xs))]
      rfl
  refine ⟨⟨hhead', hlinks ▸ h.linked.unlink, hsorted⟩, hsize, fun z hz => ?_⟩
  obtain ⟨hn, hp⟩ := h.linked.unlink_other hz
  exact memNode_eq (by rw [hlinks, hn]) (by rw [hlinks, hp]) (hsize z)

/-! ## The blocks of nodes -/

/-- The block that starts with a header. -/
def blockAt (memory : Memory) (x : Nat) : Block := ⟨x, (memory x).size⟩

/-- The blocks of a list of headers. -/
def blocks (memory : Memory) (ns : List Nat) : Multiset Block :=
  (ns : Multiset Nat).map (blockAt memory)

@[simp] theorem blocks_nil : blocks memory [] = 0 := rfl

@[simp] theorem blocks_cons : blocks memory (x :: ns) = blockAt memory x ::ₘ blocks memory ns := by
  unfold blocks
  rw [← Multiset.cons_coe, Multiset.map_cons]

theorem blocks_middle :
    blocks memory (xs ++ x :: ys) = blockAt memory x ::ₘ blocks memory (xs ++ ys) := by
  rw [← blocks_cons, blocks, blocks, Multiset.coe_eq_coe.mpr List.perm_middle]

theorem blockAt_mem_blocks (hx : x ∈ ns) : blockAt memory x ∈ blocks memory ns :=
  Multiset.mem_map_of_mem _ (Multiset.mem_coe.mpr hx)

/-- Only the sizes of the headers matter. -/
theorem blocks_congr (h : ∀ x ∈ ns, (memory' x).size = (memory x).size) :
    blocks memory' ns = blocks memory ns := by
  refine Multiset.map_congr rfl fun x hx => ?_
  rw [blockAt, blockAt, h x (Multiset.mem_coe.mp hx)]

/-! ## FindMemNode -/

/-- A node has been taken out of the list, or off the end of a node of the list. -/
structure Taken (lo hi : Nat) (rest : Multiset Block) (memory : Memory) (ns : List Nat)
    (node : Nat) (memory' : Memory) (list' : AllocList) (ns' : List Nat) : Prop where
  list : FreeList memory' list' ns'
  tiles : Tiles lo hi (blockAt memory' node ::ₘ (blocks memory' ns' + rest))
  frame : ∀ z, z ∉ node :: ns → memory' z = memory z
  subset : ∀ z ∈ ns', z ∈ ns
  size : ∀ z ∈ ns', (memory' z).size = (memory z).size ∨ memSplitThreshold < (memory' z).size

variable {lo hi : Nat} {rest : Multiset Block}

/-- A node taken out by `RemoveMemNode`. -/
theorem FreeList.taken (h : FreeList memory list (xs ++ x :: ys))
    (ht : Tiles lo hi (blocks memory (xs ++ x :: ys) + rest)) :
    Taken lo hi rest memory (xs ++ x :: ys) x (removeMemNode memory list x).1
      (removeMemNode memory list x).2 (xs ++ ys) := by
  obtain ⟨hlist, hsize, hframe⟩ := h.remove
  refine ⟨hlist, ?_, ?_, ?_, fun z _ => Or.inl (hsize z)⟩
  · rw [blocks_middle, Multiset.cons_add] at ht
    rwa [blocks_congr fun z _ => hsize z, blockAt, hsize x]
  · intro z hz
    refine hframe z fun hmem => hz (List.mem_cons_of_mem x ?_)
    rw [List.mem_append] at hmem ⊢
    exact hmem.imp id (List.mem_cons_of_mem x)
  · intro z hz
    rw [List.mem_append] at hz ⊢
    exact hz.imp id (List.mem_cons_of_mem x)

/-- `SplitMemNode` keeps the first part of the node in its place; the new header is at the end. -/
theorem splitMemNode_eq {bytes : Nat} (hbytes : bytes ≤ (memory x).size)
    (hend : x + (memory x).size < 2 ^ 64) :
    splitMemNode memory x bytes =
      (x + ((memory x).size - bytes),
        setSize (setSize memory x ((memory x).size - bytes)) (x + ((memory x).size - bytes))
          bytes) := by
  have hrest : sub64 (memory x).size bytes = (memory x).size - bytes := sub64_eq hbytes (by omega)
  rw [splitMemNode, hrest, u64_eq (by omega)]

/-- The end of a node taken off by `SplitMemNode`. -/
theorem FreeList.split (h : FreeList memory list (xs ++ x :: ys))
    (ht : Tiles lo hi (blocks memory (xs ++ x :: ys) + rest)) (hhi : hi < 2 ^ 64) {bytes : Nat}
    (hbytes : 0 < bytes) (hlarge : bytes + memSplitThreshold < (memory x).size) :
    (splitMemNode memory x bytes).1 = x + ((memory x).size - bytes) ∧
      ((splitMemNode memory x bytes).2 (splitMemNode memory x bytes).1).size = bytes ∧
      Taken lo hi rest memory (xs ++ x :: ys) (splitMemNode memory x bytes).1
        (splitMemNode memory x bytes).2 list (xs ++ x :: ys) := by
  have hmid := @blocks_middle memory x xs ys
  rw [hmid, Multiset.cons_add] at ht
  have hbounds := (ht.bounds (Multiset.mem_cons_self ..)).2
  simp only [blockAt] at hbounds
  rw [splitMemNode_eq (by omega) (by omega)]
  simp only [true_and]
  -- The new header lies inside the old block, so it is no header of another block.
  have hnew := @Tiles.start_ne_inside lo hi _ _ (x + ((memory x).size - bytes)) ht
    (Multiset.mem_cons_self ..) (by simp only [blockAt]; omega) (by simp only [blockAt]; omega)
  have hsplit : blockAt memory x = ⟨x, ((memory x).size - bytes) + bytes⟩ := by
    rw [blockAt, Nat.sub_add_cancel (by omega)]
  rw [hsplit] at ht
  have htiles := ht.split (show 0 < (memory x).size - bytes by omega) hbytes
  generalize hz : x + ((memory x).size - bytes) = z at *
  have hzx : z ≠ x := by omega
  have hself : (setSize (setSize memory x ((memory x).size - bytes)) z bytes x).size =
      (memory x).size - bytes := by
    rw [setSize_of_ne hzx.symm, setSize_self]
  have hout : ∀ w, w ≠ z → w ≠ x →
      setSize (setSize memory x ((memory x).size - bytes)) z bytes w = memory w := by
    intro w hwz hwx
    rw [setSize_of_ne hwz, setSize_of_ne hwx]
  have hkept : ∀ w ∈ xs ++ ys, setSize (setSize memory x ((memory x).size - bytes)) z bytes w =
      memory w := by
    intro w hw
    refine hout w ?_ fun hwx => h.notMem (hwx ▸ hw)
    exact hnew (blockAt memory w)
      (Multiset.mem_cons_of_mem (Multiset.mem_add.mpr (Or.inl (blockAt_mem_blocks hw))))
  refine ⟨by rw [setSize_self], ?_⟩
  refine ⟨h.of_links (by rw [links_setSize, links_setSize]), ?_, fun w hw => ?_, fun _ => id,
    fun w hw => ?_⟩
  · rw [blocks_middle, blocks_congr fun w hw => congrArg MemNode.size (hkept w hw), blockAt,
      blockAt, setSize_self, hself, Multiset.cons_add, Multiset.cons_swap]
    exact htiles
  · rw [List.mem_cons, not_or] at hw
    refine hout w hw.1 ?_
    rintro rfl
    exact hw.2 (by simp)
  · rcases List.mem_cons.mp (List.perm_middle.mem_iff.mp hw) with rfl | hw
    · right
      rw [hself]
      omega
    · exact Or.inl (congrArg MemNode.size (hkept w hw))

/-- `FindMemNode`: either no node is large enough and nothing changes, or a node of at
least `bytes` bytes is taken. -/
theorem FreeList.find (h : FreeList memory list ns)
    (ht : Tiles lo hi (blocks memory ns + rest)) (hhi : hi < 2 ^ 64) {bytes : Nat}
    (hbytes : 0 < bytes)
    (hsum : ∀ x ∈ ns, bytes ≤ (memory x).size → bytes + memSplitThreshold < 2 ^ 64) {fuel : Nat}
    (hfuel : ns.length < fuel) :
    ∃ r, findMemNode fuel memory list bytes = some r ∧
      (r = (0, memory, list) ∨
        r.1 ≠ 0 ∧ bytes ≤ (r.2.1 r.1).size ∧
          ∃ ns', Taken lo hi rest memory ns r.1 r.2.1 r.2.2 ns' ∧
            ∀ z ∈ ns, z = r.1 ∨ z ∈ ns') := by
  have hstart : list.head = ns.headD 0 := h.head_eq
  rw [findMemNode]
  refine Loop.run_list (fun xs ys node => ns = xs ++ ys ∧ node = ys.headD 0) _ ?_ ?_
    ⟨rfl, hstart⟩ hfuel
  · rintro xs node ⟨-, hnode⟩
    exact ⟨(0, memory, list), if_pos hnode, Or.inl rfl⟩
  · rintro xs x ys node ⟨rfl, hnode⟩
    rw [List.headD_cons] at hnode
    subst hnode
    have hx : node ≠ 0 := h.ne_zero (by simp)
    rw [findTurn, if_neg hx]
    split_ifs with hsmall hwhole
    · right
      exact ⟨_, rfl, by simp, h.next_eq⟩
    · left
      refine ⟨_, rfl, Or.inr ⟨hx, ?_, xs ++ ys, h.taken ht, fun z hz => ?_⟩⟩
      · rw [h.remove.2.1 node]
        omega
      · exact List.mem_cons.mp (List.perm_middle.mem_iff.mp hz)
    · left
      rw [u64_eq (hsum node (by simp) (Nat.not_lt.mp hsmall))] at hwhole
      obtain ⟨hnode, hsize, htaken⟩ := h.split ht hhi hbytes (by omega)
      refine ⟨_, rfl, Or.inr ⟨?_, hsize.ge, _, htaken, fun z hz => Or.inr hz⟩⟩
      rw [hnode]
      omega

end ScalBase.HeapAllocator
