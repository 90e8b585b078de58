/-
  BHeap/Misuse.lean --- pushes on a full heap and pops from an empty one.

  `Count` and the indexes are the `int`s of the source here, and the memory goes on in
  front of `Items`, so that a heap is followed where `Count` has become negative.
  `touched` lists the indexes that were read or written.

  While `Count` is in range a call does what the model of `BHeap/Conservation.lean` does
  (`push_refines`, `pop_refines`) and touches items of the heap only.  The pushes and
  `PopMax` return at once where there is nothing to do.  `PopMin` only asserts it: on an
  empty heap it reads `Items[-1]` and leaves a `Count` of `-1`, which the next push
  writes to.
-/
import ScalBase.BHeap.Conservation

set_option autoImplicit false

namespace ScalBase.BHeaps

open Foundation Foundation.BinaryHeap

/-! ## The memory -/

/-- The memory that `Items` points into, and the indexes read or written so far. -/
structure Memory where
  items : Int → BHeapItem
  touched : List Int

namespace Memory

variable (m : Memory)

/-- The items at some indexes are read. -/
def reads (indexes : List Int) : Memory := { m with touched := indexes ++ m.touched }

/-- `Items[index] = item`. -/
def set (index : Int) (item : BHeapItem) : Memory :=
  ⟨Function.update m.items index item, index :: m.touched⟩

/-- The memory from `Items` on. -/
def nats (index : Nat) : BHeapItem := m.items index

/-- Nothing outside the items of a heap was read or written. -/
def InRange (capacity : Int) : Prop := ∀ i ∈ m.touched, 0 ≤ i ∧ i < capacity

@[simp] theorem nats_reads (indexes : List Int) : (m.reads indexes).nats = m.nats := rfl

@[simp] theorem nats_set (index : Nat) (item : BHeapItem) :
    (m.set index item).nats = Function.update m.nats index item :=
  Function.update_comp_eq_of_injective m.items Nat.cast_injective index item

variable {m} {capacity : Int}

theorem InRange.reads (h : m.InRange capacity) {indexes : List Int}
    (hin : ∀ i ∈ indexes, 0 ≤ i ∧ i < capacity) : (m.reads indexes).InRange capacity := by
  intro i hi
  rcases List.mem_append.mp hi with hi | hi
  · exact hin i hi
  · exact h i hi

theorem InRange.set (h : m.InRange capacity) {index : Int} (hin : 0 ≤ index ∧ index < capacity)
    (item : BHeapItem) : (m.set index item).InRange capacity := by
  intro i hi
  rcases List.mem_cons.mp hi with rfl | hi
  · exact hin
  · exact h i hi

end Memory

/-! ## The heap -/

/-- The heap, with the memory around its items. -/
structure IntHeap where
  compareFunc : Nat → Nat → Int
  memory : Memory
  count : Int
  capacity : Int

/-- The locals of `HeapifyMin` and `HeapifyMax`. -/
structure IntSift where
  memory : Memory
  index : Int
  item : BHeapItem

namespace IntHeap

/-- `Init`. -/
def init (items : Int → BHeapItem) (capacity : Int) (compareFunc : Nat → Nat → Int) : IntHeap :=
  ⟨compareFunc, ⟨items, []⟩, 0, capacity⟩

/-- One turn of the loop of `PushMin` and `PushMax`. -/
def siftUpTurn (compareFunc : Nat → Nat → Int) (goesUp : Int → Bool) (s : Memory × Int) :
    Turn (Memory × Int) Memory :=
  let (memory, index) := s
  if index > 0 then
    let parentIdx := (index - 1) >>> (1 : Nat)
    let cur := memory.items index
    let parent := memory.items parentIdx
    let memory := memory.reads [index, parentIdx]
    if goesUp (compareFunc cur.key parent.key) then
      .again ((memory.set index parent).set parentIdx cur, parentIdx)
    else .done memory
  else .done memory

/-- The body that `PushMin` and `PushMax` share. -/
def push (goesUp : Int → Bool) (fuel : Nat) (s : IntHeap) (key user : Nat) : Option IntHeap :=
  if s.count = s.capacity then some s
  else
    (Loop.run (siftUpTurn s.compareFunc goesUp) fuel
      (s.memory.set s.count ⟨key, user⟩, s.count)).map fun memory =>
        { s with memory := memory, count := s.count + 1 }

/-- The child that the two comparisons of a turn pick, or the node. -/
def pick (before : Nat → Nat → Bool) (count : Int) (s : IntSift) : Int × Memory :=
  let left := 2 * s.index + 1
  let right := 2 * s.index + 2
  let items := s.memory.items
  let memory := s.memory.reads [left, s.index]
  let best := if before (items left).key (items s.index).key then left else s.index
  if right < count then
    (if before (items right).key (items best).key then right else best, memory.reads [right, best])
  else (best, memory)

/-- One turn of the loop of `HeapifyMin` and `HeapifyMax`. -/
def heapifyTurn (before : Nat → Nat → Bool) (count : Int) (s : IntSift) : Turn IntSift Memory :=
  if 2 * s.index + 1 < count then
    let (best, memory) := pick before count s
    if best = s.index then .done memory
    else
      .again
        { s with
          memory := ((memory.reads [best]).set s.index (memory.items best)).set best s.item
          index := best }
  else .done s.memory

/-- `2 * index` is an `int`. -/
def IndexFits (s : IntSift) : Prop := 2 * s.index < 2 ^ 31

instance IndexFits.decidable : DecidablePred IndexFits := fun _ => Int.decLt _ _

/-- The body that `HeapifyMin` and `HeapifyMax` share. -/
def heapify (before : Nat → Nat → Bool) (fuel : Nat) (s : IntHeap) (index : Int) : Option IntHeap :=
  ((Loop.run (Loop.guard IndexFits (heapifyTurn before s.count)) fuel
    { memory := s.memory.reads [index], index := index, item := s.memory.items index }).bind id).map
      fun memory => { s with memory := memory }

/-- The heap with its last item put on the root. -/
def lastToRoot (s : IntHeap) : IntHeap :=
  { s with
    memory := (s.memory.reads [s.count - 1]).set 0 (s.memory.items (s.count - 1))
    count := s.count - 1 }

/-- The body that `PopMin` and `PopMax` share. -/
def pop (before : Nat → Nat → Bool) (fuel : Nat) (s : IntHeap) : Option (BHeapItem × IntHeap) :=
  (heapify before fuel (lastToRoot { s with memory := s.memory.reads [0] }) 0).map fun t =>
    (s.memory.items 0, t)

/-- `PopMin`. -/
def popMin : Nat → IntHeap → Option (BHeapItem × IntHeap) := pop fun a b => a < b

/-- `PopMax`. -/
def popMax (fuel : Nat) (s : IntHeap) : Option (BHeapItem × IntHeap) :=
  if s.count ≤ 0 then some (⟨0, 0⟩, s) else pop (fun a b => a > b) fuel s

/-- Make a call. -/
def step (fuel : Nat) (s : IntHeap) : Call → Option IntHeap
  | .pushMin key user => push (fun compare => compare < 0) fuel s key user
  | .pushMax key user => push (fun compare => compare ≥ 0) fuel s key user
  | .popMin => (popMin fuel s).map Prod.snd
  | .popMax => (popMax fuel s).map Prod.snd

/-! ### What a call should do -/

/-- `Count` is in range, and so were all indexes. -/
structure InBounds (capacity : Nat) (s : IntHeap) : Prop where
  capacity_eq : s.capacity = capacity
  count_nonneg : 0 ≤ s.count
  count_le : s.count ≤ capacity
  touched : s.memory.InRange capacity

/-- There is nothing to do: a push on a full heap, or a pop from an empty one. -/
def Idle (s : IntHeap) : Call → Prop
  | .pushMin _ _ => s.count = s.capacity
  | .pushMax _ _ => s.count = s.capacity
  | .popMin => s.count = 0
  | .popMax => s.count = 0

/-- A call returns within the bounds, and where there is nothing to do it does nothing. -/
def Withstands (capacity fuel : Nat) (s : IntHeap) (call : Call) : Prop :=
  ∃ t, step fuel s call = some t ∧ t.InBounds capacity ∧ (s.Idle call → t = s)

/-- The heap as the model of `BHeap.lean` has it. -/
def toBHeap (s : IntHeap) : BHeap :=
  ⟨s.compareFunc, s.memory.nats, s.count.toNat, s.capacity.toNat⟩

/-- `PopMin` is not called on an empty heap, and the sift of a pop stays below index
`2^30`. -/
def Clean (s : IntHeap) : Call → Prop
  | .pushMin _ _ => True
  | .pushMax _ _ => True
  | .popMin => 0 < s.count ∧ SiftFits (fun a b => a < b) s.toBHeap
  | .popMax => 0 < s.count → SiftFits (fun a b => a > b) s.toBHeap

/-! ## The loops -/

section Loops

variable {capacity : Nat}

/-- The loop of a push here and in the model of `BHeap.lean`. -/
structure SiftingUp (capacity : Nat) (s : Memory × Int) (t : (Nat → BHeapItem) × Nat) : Prop where
  items : s.1.nats = t.1
  index : s.2 = t.2
  lt : t.2 < capacity
  touched : s.1.InRange capacity

/-- The memory after a loop. -/
structure Sifted (capacity : Nat) (memory : Memory) (items : Nat → BHeapItem) : Prop where
  items : memory.nats = items
  touched : memory.InRange capacity

theorem siftUpTurn_lift (compareFunc : Nat → Nat → Int) (goesUp : Int → Bool) {s : Memory × Int}
    {t : (Nat → BHeapItem) × Nat} (h : SiftingUp capacity s t) :
    Turn.Lift (SiftingUp capacity) (Sifted capacity) (siftUpTurn compareFunc goesUp s)
      (ScalBase.BHeaps.siftUpTurn compareFunc goesUp t) := by
  obtain ⟨memory, index⟩ := s
  obtain ⟨items, i⟩ := t
  obtain ⟨hitems, hindex, hlt, hin⟩ := h
  simp only at hitems hindex hlt hin
  subst hitems hindex
  rcases Nat.eq_zero_or_pos i with rfl | hpos
  · exact .done ⟨rfl, hin⟩
  · have hparent : ((i : Int) - 1) >>> (1 : Nat) = (((i - 1) >>> 1 : Nat) : Int) := by
      rw [Int.shiftRight_eq_div_pow, Nat.shiftRight_eq_div_pow]
      omega
    have hup : (i - 1) >>> 1 < capacity := by
      rw [Nat.shiftRight_eq_div_pow]
      omega
    have hread : (memory.reads [(i : Int), (((i - 1) >>> 1 : Nat) : Int)]).InRange capacity := by
      apply hin.reads
      intro j hj
      rcases List.mem_pair.mp hj with rfl | rfl <;> omega
    have hposInt : (i : Int) > 0 := by omega
    simp only [siftUpTurn, ScalBase.BHeaps.siftUpTurn, if_pos hposInt, if_pos hpos, hparent]
    have hcur : memory.items i = memory.nats i := rfl
    have hpar : memory.items (((i - 1) >>> 1 : Nat) : Int) = memory.nats ((i - 1) >>> 1) := rfl
    rw [hcur, hpar]
    by_cases hgoes :
        goesUp (compareFunc (memory.nats i).key (memory.nats ((i - 1) >>> 1)).key) = true
    · rw [if_pos hgoes, if_pos hgoes]
      refine .again ⟨?_, rfl, hup, ?_⟩
      · simp only [Memory.nats_set, Memory.nats_reads]
      · exact (hread.set (by omega) _).set (by omega) _
    · rw [if_neg hgoes, if_neg hgoes]
      exact .done ⟨rfl, hread⟩

/-- The loop of a pop here and in the model of `BHeap.lean`. -/
structure SiftingDown (capacity : Nat) (s : IntSift) (t : HeapifyLoop) : Prop where
  items : s.memory.nats = t.items
  index : s.index = t.index
  item : s.item = t.item
  lt : t.index < capacity
  touched : s.memory.InRange capacity

theorem SiftingDown.child {s : IntSift} {t : HeapifyLoop} (h : SiftingDown capacity s t) (k : Nat) :
    2 * s.index + k = ((2 * t.index + k : Nat) : Int) := by
  rw [h.index]
  push_cast
  rfl

/-- The comparisons of a turn pick the same child, and read nothing but items. -/
theorem pick_lift (before : Nat → Nat → Bool) {count : Nat} (hcount : count ≤ capacity)
    {s : IntSift} {t : HeapifyLoop} (h : SiftingDown capacity s t)
    (hchild : 2 * t.index + 1 < count) :
    (pick before count s).1 = ScalBase.BHeaps.pick before count t ∧
      Sifted capacity (pick before count s).2 t.items := by
  have hitem (j : Nat) : s.memory.items (j : Int) = t.items j := congrFun h.items j
  have hleft : 2 * s.index + 1 = ((2 * t.index + 1 : Nat) : Int) := h.child 1
  have hright : 2 * s.index + 2 = ((2 * t.index + 2 : Nat) : Int) := h.child 2
  have hlt := h.lt
  have hread :
      (s.memory.reads [((2 * t.index + 1 : Nat) : Int), (t.index : Int)]).InRange capacity := by
    apply h.touched.reads
    intro j hj
    rcases List.mem_pair.mp hj with rfl | rfl <;> omega
  simp only [pick, ScalBase.BHeaps.pick, hleft, hright]
  simp only [h.index, hitem]
  -- The first comparison picks one index below the capacity.
  obtain ⟨best, hbest, hbestInt, hbestLt⟩ : ∃ best,
      (if before (t.items (2 * t.index + 1)).key (t.items t.index).key = true
        then 2 * t.index + 1 else t.index) = best ∧
      (if before (t.items (2 * t.index + 1)).key (t.items t.index).key = true
        then ((2 * t.index + 1 : Nat) : Int) else (t.index : Int)) = (best : Int) ∧
      best < capacity := by
    split_ifs
    · exact ⟨_, rfl, rfl, by omega⟩
    · exact ⟨_, rfl, rfl, hlt⟩
  rw [hbest, hbestInt, hitem]
  by_cases hroom : 2 * t.index + 2 < count
  · rw [if_pos (Int.ofNat_lt.mpr hroom)]
    refine ⟨?_, h.items, hread.reads ?_⟩
    · simp only [hroom, true_and]
      split_ifs <;> rfl
    · intro j hj
      rcases List.mem_pair.mp hj with rfl | rfl <;> omega
  · rw [if_neg (Int.ofNat_lt.not.mpr hroom), if_neg (fun hboth => hroom hboth.1)]
    exact ⟨rfl, h.items, hread⟩

theorem heapifyTurn_lift (before : Nat → Nat → Bool) {count : Nat} (hcount : count ≤ capacity)
    {s : IntSift} {t : HeapifyLoop} (h : SiftingDown capacity s t) :
    Turn.Lift (SiftingDown capacity) (Sifted capacity) (heapifyTurn before count s)
      (ScalBase.BHeaps.heapifyTurn before count t) := by
  have hcond : 2 * s.index + 1 < (count : Int) ↔ 2 * t.index + 1 < count := by
    rw [h.index]
    omega
  rw [heapifyTurn, ScalBase.BHeaps.heapifyTurn]
  by_cases hchild : 2 * t.index + 1 < count
  · rw [if_pos (hcond.mpr hchild), if_pos hchild]
    obtain ⟨hbest, hitems, hin⟩ := pick_lift before hcount h hchild
    have hcases := pick_cases before count t
    have hlt := h.lt
    simp only
    rw [hbest, h.index]
    generalize ScalBase.BHeaps.pick before count t = best at hcases ⊢
    generalize (pick before count s).2 = memory at hitems hin ⊢
    by_cases hstop : best = t.index
    · rw [if_pos (congrArg Nat.cast hstop), if_pos hstop]
      exact .done ⟨hitems, hin⟩
    · rw [if_neg (fun heq => hstop (Int.ofNat_inj.mp heq)), if_neg hstop]
      refine .again ⟨?_, rfl, h.item, by simp only; omega, ?_⟩
      · have hread : memory.items (best : Int) = t.items best := congrFun hitems best
        simp only [Memory.nats_set, Memory.nats_reads, hitems, hread, h.item]
      · refine ((hin.reads ?_).set ?_ _).set ?_ _
        · intro j hj
          obtain rfl := List.mem_singleton.mp hj
          omega
        · omega
        · omega
  · rw [if_neg (hcond.not.mpr hchild), if_neg hchild]
    exact .done ⟨h.items, h.touched⟩

end Loops

/-! ## One call -/

/-- The heap is in bounds, and it is the one of the model of `BHeap.lean`. -/
structure Refines (capacity : Nat) (s : IntHeap) (bh : BHeap) : Prop where
  inBounds : s.InBounds capacity
  toBHeap : s.toBHeap = bh

section Calls

variable {s : IntHeap} {capacity fuel : Nat}

/-- A heap in bounds has natural numbers for its `int`s. -/
theorem InBounds.exists_nats (h : s.InBounds capacity) : ∃ compareFunc memory, ∃ count : Nat,
    s = ⟨compareFunc, memory, count, capacity⟩ ∧ count ≤ capacity ∧ memory.InRange capacity := by
  obtain ⟨compareFunc, memory, count, _⟩ := s
  obtain ⟨hcapacity, hcount, hle, hin⟩ := h
  simp only at hcapacity hcount hle hin
  subst hcapacity
  obtain ⟨n, rfl⟩ := Int.eq_ofNat_of_zero_le hcount
  exact ⟨compareFunc, memory, n, rfl, Int.ofNat_le.mp hle, hin⟩

theorem toBHeap_nats (compareFunc : Nat → Nat → Int) (memory : Memory) (count : Nat) :
    toBHeap ⟨compareFunc, memory, count, capacity⟩ = ⟨compareFunc, memory.nats, count, capacity⟩ :=
  rfl

theorem refines_nats (compareFunc : Nat → Nat → Int) {memory : Memory} {items : Nat → BHeapItem}
    {count : Nat} (h : Sifted capacity memory items) (hle : count ≤ capacity) :
    Refines capacity ⟨compareFunc, memory, count, capacity⟩
      ⟨compareFunc, items, count, capacity⟩ where
  inBounds := ⟨rfl, Int.natCast_nonneg count, Int.ofNat_le.mpr hle, h.touched⟩
  toBHeap := by rw [toBHeap_nats, h.items]

/-- A push on a heap that is not full is the push of `BHeap.lean`. -/
theorem push_refines (h : s.InBounds capacity) (hroom : s.count ≠ s.capacity) (goesUp : Int → Bool)
    (key user : Nat) : Option.Rel (Refines capacity) (push goesUp fuel s key user)
      (ScalBase.BHeaps.push goesUp fuel s.toBHeap key user) := by
  obtain ⟨compareFunc, memory, n, rfl, hle, hin⟩ := h.exists_nats
  have hne : n ≠ capacity := fun heq => hroom (congrArg Nat.cast heq)
  have hlt : n < capacity := Nat.lt_of_le_of_ne hle hne
  have hstart : SiftingUp capacity (memory.set n ⟨key, user⟩, (n : Int))
      (Function.update memory.nats n ⟨key, user⟩, n) :=
    ⟨memory.nats_set n _, rfl, hlt, hin.set (by omega) _⟩
  have hloop := Loop.run_lift _ _ (fun _ _ => siftUpTurn_lift compareFunc goesUp) fuel hstart
  rw [push, if_neg hroom, toBHeap_nats, ScalBase.BHeaps.push, if_neg hne]
  exact rel_map hloop fun after items hafter => refines_nats compareFunc hafter hlt

theorem heapify_refines (before : Nat → Nat → Bool) {compareFunc : Nat → Nat → Int}
    {memory : Memory} {items : Nat → BHeapItem} {n : Nat} (h : Sifted capacity memory items)
    (hlt : n < capacity) :
    Option.Rel (Refines capacity) (heapify before fuel ⟨compareFunc, memory, n, capacity⟩ 0)
      (heapifyInt before fuel ⟨compareFunc, items, n, capacity⟩ 0) := by
  have hpos : 0 < capacity := Nat.zero_lt_of_lt hlt
  have hstart : SiftingDown capacity ⟨memory.reads [0], 0, memory.items 0⟩ ⟨items, 0, items 0⟩ := by
    refine ⟨h.items, rfl, congrFun h.items 0, hpos, h.touched.reads fun i hi => ?_⟩
    obtain rfl := List.mem_singleton.mp hi
    omega
  have hfits {u : IntSift} {v : HeapifyLoop} (huv : SiftingDown capacity u v) :
      IndexFits u ↔ ScalBase.BHeaps.IndexFits v := by
    unfold IndexFits ScalBase.BHeaps.IndexFits
    rw [huv.index]
    omega
  have hloop := Loop.run_lift _ _ (fun u v huv =>
    Loop.guard_lift (hfits huv) (heapifyTurn_lift before hlt.le huv)) fuel hstart
  rw [heapify, heapifyInt]
  exact rel_map (rel_join hloop) fun after items' hafter => refines_nats compareFunc hafter hlt.le

/-- A pop from a heap that is not empty is the pop of `BHeap/Conservation.lean`. -/
theorem pop_refines (h : s.InBounds capacity) (hpos : 0 < s.count) (before : Nat → Nat → Bool) :
    Option.Rel (fun x y => x.1 = y.1 ∧ Refines capacity x.2 y.2) (pop before fuel s)
      (popInt before fuel s.toBHeap) := by
  obtain ⟨compareFunc, memory, n, rfl, hle, hin⟩ := h.exists_nats
  have hn : 0 < n := Int.natCast_pos.mp hpos
  have hlast : (n : Int) - 1 = ((n - 1 : Nat) : Int) := by omega
  have hread : ((memory.reads [0]).reads [(n : Int) - 1]).InRange capacity := by
    refine (hin.reads fun i hi => ?_).reads fun i hi => ?_
    · obtain rfl := List.mem_singleton.mp hi
      omega
    · obtain rfl := List.mem_singleton.mp hi
      omega
  have hroot : Sifted capacity
      (((memory.reads [0]).reads [(n : Int) - 1]).set 0 (memory.items ((n : Int) - 1)))
      (Function.update memory.nats 0 (memory.nats (n - 1))) := by
    refine ⟨?_, hread.set (by omega) _⟩
    rw [hlast]
    exact Memory.nats_set _ 0 _
  have hheap := @heapify_refines capacity fuel before compareFunc _ _ (n - 1) hroot (by omega)
  rw [← hlast] at hheap
  rw [toBHeap_nats]
  exact rel_map hheap fun t bh ht => ⟨rfl, ht⟩

/-- Both pushes return, and do nothing on a full heap. -/
theorem push_spec (h : s.InBounds capacity) (hfuel : capacity ≤ fuel) (goesUp : Int → Bool)
    (key user : Nat) : ∃ t, push goesUp fuel s key user = some t ∧ t.InBounds capacity ∧
      (s.count = s.capacity → t = s) := by
  by_cases hfull : s.count = s.capacity
  · exact ⟨s, by rw [push, if_pos hfull], h, fun _ => rfl⟩
  · have hrefines := @push_refines s capacity fuel h hfull goesUp key user
    obtain ⟨compareFunc, memory, n, rfl, hle, hin⟩ := h.exists_nats
    have hroom : n < capacity := Nat.lt_of_le_of_ne hle fun heq => hfull (congrArg Nat.cast heq)
    rw [toBHeap_nats] at hrefines
    obtain ⟨items, hpush, -⟩ :=
      @push_contents fuel ⟨compareFunc, memory.nats, n, capacity⟩ goesUp hroom key user hfuel
    rw [hpush] at hrefines
    obtain ⟨t, ht, htr⟩ := exists_of_rel_some hrefines
    exact ⟨t, ht, htr.inBounds, fun heq => absurd heq hfull⟩

/-- A pop from a heap that is not empty returns where its sift fits. -/
theorem pop_cases (h : s.InBounds capacity) (hfuel : capacity ≤ fuel) (hpos : 0 < s.count)
    {le before : Nat → Nat → Bool} (ho : StrictPart le before) :
    (SiftFits before s.toBHeap ∧
        ∃ t, (pop before fuel s).map Prod.snd = some t ∧ t.InBounds capacity) ∨
      (¬ SiftFits before s.toBHeap ∧ (pop before fuel s).map Prod.snd = none) := by
  have hrefines := @pop_refines s capacity fuel h hpos before
  obtain ⟨compareFunc, memory, n, rfl, hle, hin⟩ := h.exists_nats
  rw [toBHeap_nats] at hrefines ⊢
  rcases @StrictPart.popInt_cases _ _ fuel ⟨compareFunc, memory.nats, n, capacity⟩ ho
    (Int.natCast_pos.mp hpos) (hle.trans hfuel) with ⟨hfits, items, hpop, -⟩ | ⟨hfits, hpop⟩
  · rw [hpop] at hrefines
    obtain ⟨r, hr, -, hrr⟩ := exists_of_rel_some hrefines
    exact Or.inl ⟨hfits, r.2, by rw [hr, Option.map_some], hrr.inBounds⟩
  · rw [hpop] at hrefines
    exact Or.inr ⟨hfits, by rw [eq_none_of_rel_none hrefines, Option.map_none]⟩

/-- A pop takes one off `Count`, which is not checked here. -/
theorem pop_count {before : Nat → Nat → Bool} {r : BHeapItem × IntHeap}
    (h : pop before fuel s = some r) : r.2.count = s.count - 1 := by
  obtain ⟨t, ht, rfl⟩ := Option.map_eq_some_iff.mp h
  obtain ⟨memory, -, rfl⟩ := Option.map_eq_some_iff.mp ht
  rfl

/-- So `PopMin` on an empty heap leaves a negative one. -/
theorem not_withstands_popMin (hzero : s.count = 0) : ¬ s.Withstands capacity fuel .popMin := by
  rintro ⟨t, ht, hbounds, -⟩
  obtain ⟨r, hr, rfl⟩ := Option.map_eq_some_iff.mp ht
  have hcount := pop_count hr
  have hnonneg := hbounds.count_nonneg
  omega

/-- A call does what it should exactly when it is clean. -/
theorem withstands_iff (h : s.InBounds capacity) (hfuel : capacity ≤ fuel) (call : Call) :
    s.Withstands capacity fuel call ↔ s.Clean call := by
  cases call with
  | pushMin key user => exact iff_of_true (push_spec h hfuel _ key user) trivial
  | pushMax key user => exact iff_of_true (push_spec h hfuel _ key user) trivial
  | popMin =>
    rcases h.count_nonneg.eq_or_lt with hzero | hpos
    · exact iff_of_false (not_withstands_popMin hzero.symm) fun hclean => hclean.1.ne hzero
    · rcases pop_cases h hfuel hpos strictPart_lt with ⟨hfits, t, ht, hbounds⟩ | ⟨hfits, hnone⟩
      · exact iff_of_true ⟨t, ht, hbounds, fun hidle => absurd hidle hpos.ne'⟩ ⟨hpos, hfits⟩
      · refine iff_of_false ?_ fun hclean => hfits hclean.2
        rintro ⟨t, ht, -⟩
        exact absurd (ht.symm.trans hnone) (Option.some_ne_none t)
  | popMax =>
    rcases h.count_nonneg.eq_or_lt with hzero | hpos
    · refine iff_of_true ⟨s, ?_, h, fun _ => rfl⟩ fun hpos => absurd hzero hpos.ne
      rw [step, popMax, if_pos hzero.ge]
      rfl
    · have hstep : step fuel s .popMax = (pop (fun a b => a > b) fuel s).map Prod.snd := by
        rw [step, popMax, if_neg (not_le.mpr hpos)]
      rw [Withstands, hstep]
      rcases pop_cases h hfuel hpos strictPart_gt with ⟨hfits, t, ht, hbounds⟩ | ⟨hfits, hnone⟩
      · exact iff_of_true ⟨t, ht, hbounds, fun hidle => absurd hidle hpos.ne'⟩ fun _ => hfits
      · refine iff_of_false ?_ fun hclean => hfits (hclean hpos)
        rintro ⟨t, ht, -⟩
        exact absurd (ht.symm.trans hnone) (Option.some_ne_none t)

end Calls

/-! ## Whole runs -/

theorem inBounds_init (items : Int → BHeapItem) (capacity : Nat) (compareFunc : Nat → Nat → Int) :
    (init items capacity compareFunc).InBounds capacity :=
  ⟨rfl, le_rfl, Int.natCast_nonneg capacity, fun _ hi => absurd hi List.not_mem_nil⟩

/-- In every sequence of calls from `Init` on, with pushes on a full heap and pops from an
empty one, all calls return within the bounds, and do nothing where there is nothing to do,
exactly when `PopMin` is never called on an empty heap and no sift gets to index `2^30`. -/
theorem heap_withstands_iff (items : Int → BHeapItem) (compareFunc : Nat → Nat → Int)
    {capacity fuel : Nat} (hfuel : capacity ≤ fuel) (calls : List Call) :
    AtEach (step fuel) (Withstands capacity fuel) (init items capacity compareFunc) calls ↔
      AtEach (step fuel) Clean (init items capacity compareFunc) calls := by
  refine atEach_iff (InBounds capacity) (fun s call hs _ hclean => ?_)
    (fun s call hs _ => withstands_iff hs hfuel call) (inBounds_init items capacity compareFunc)
    (fun _ _ _ _ _ => trivial : AtEach (step fuel) (fun _ _ => True) _ calls)
  obtain ⟨t, ht, hbounds, -⟩ := (withstands_iff hs hfuel call).mpr hclean
  exact ⟨t, ht, hbounds⟩

/-- `PopMin` is called on a heap that is not empty. -/
def Present (s : IntHeap) : Call → Prop
  | .popMin => 0 < s.count
  | _ => True

instance Present.decidable : ∀ (s : IntHeap) (call : Call), Decidable (s.Present call)
  | s, .popMin => inferInstanceAs (Decidable (0 < s.count))
  | _, .pushMin _ _ => isTrue trivial
  | _, .pushMax _ _ => isTrue trivial
  | _, .popMax => isTrue trivial

/-- In a heap for up to `2^30` items every sift fits. -/
theorem Present.clean {s : IntHeap} {capacity : Nat} {call : Call} (hcall : s.Present call)
    (h : s.InBounds capacity) (hsize : capacity ≤ 2 ^ 30) : s.Clean call := by
  have hle : s.toBHeap.count ≤ 2 ^ 30 := by
    have hcount := h.count_le
    have hto : s.toBHeap.count = s.count.toNat := rfl
    omega
  cases call with
  | pushMin key user => trivial
  | pushMax key user => trivial
  | popMin => exact ⟨hcall, siftFits_of_count_le _ hle⟩
  | popMax => exact fun _ => siftFits_of_count_le _ hle

theorem clean_of_capacity_le {items : Int → BHeapItem} {compareFunc : Nat → Nat → Int}
    {capacity fuel : Nat} (hfuel : capacity ≤ fuel) (hsize : capacity ≤ 2 ^ 30) {calls : List Call}
    (h : AtEach (step fuel) Present (init items capacity compareFunc) calls) :
    AtEach (step fuel) Clean (init items capacity compareFunc) calls := by
  refine AtEach.imp (InBounds capacity) (fun s call hs hcall => ?_)
    (fun s call hs hcall => hcall.clean hs hsize) (inBounds_init items capacity compareFunc) h
  obtain ⟨t, ht, hbounds, -⟩ := (withstands_iff hs hfuel call).mpr (hcall.clean hs hsize)
  exact ⟨t, ht, hbounds⟩

/-- A heap for one item, with a push when it is full and a pop when it is empty. -/
theorem heap_withstands_one : AtEach (step 1) (Withstands 1 1)
    (init (fun _ => ⟨0, 0⟩) 1 fun _ _ => 0) [.pushMin 5 0, .pushMax 4 0, .popMin, .popMax] :=
  (heap_withstands_iff (fun _ => ⟨0, 0⟩) (fun _ _ => 0) (Nat.le_refl 1) _).mpr
    (clean_of_capacity_le (Nat.le_refl 1) (by decide) (by decide))

/-- `PopMin` on a heap that is empty reads the item before the first one and leaves a
`Count` of `-1`; a push then writes to that item. -/
theorem popMin_empty_underflows :
    (∃ t, exec (step 1) (init (fun _ => ⟨0, 0⟩) 1 fun _ _ => 0) [.popMin] = some t ∧
      t.count = -1 ∧ -1 ∈ t.memory.touched) ∧
    (∃ t, exec (step 1) (init (fun _ => ⟨0, 0⟩) 1 fun _ _ => 0) [.popMin, .pushMin 5 0] = some t ∧
      t.memory.items (-1) = ⟨5, 0⟩) ∧
    ¬ AtEach (step 1) (Withstands 1 1) (init (fun _ => ⟨0, 0⟩) 1 fun _ _ => 0) [.popMin] :=
  ⟨⟨_, rfl, rfl, by decide⟩, ⟨_, rfl, rfl⟩, fun h => not_withstands_popMin rfl h.head⟩

end IntHeap

end ScalBase.BHeaps
