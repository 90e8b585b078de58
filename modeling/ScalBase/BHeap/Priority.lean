/-
  BHeap/Priority.lean --- the binary heap as a priority queue.

  The pushes sift up by `CompareFunc`, the pops sift down by the addresses of the keys.
  `Agrees` says that at every node the last item sinks to, what the addresses put there
  comes first by `CompareFunc` as well.  The pops then return the first item under
  `CompareFunc` (`pop_first`), otherwise they need not (`popMin_not_minimal`).
-/
import ScalBase.BHeap.Walk
import ScalBase.Foundation.Run

set_option autoImplicit false

namespace ScalBase.BHeaps

open Foundation Foundation.BinaryHeap

/-! ## Runs -/

/-- A call on the heap. -/
inductive Op where
  | push (key user : Nat)
  | pop
  deriving DecidableEq, Repr

/-- The heap together with the items pushed and not yet popped. -/
structure Queue where
  heap : BHeap
  bag : Multiset BHeapItem

/-- The effect of a call, for the push and the pop that are used. -/
def Queue.step (push : BHeap → Nat → Nat → Option BHeap) (pop : BHeap → Option (BHeapItem × BHeap))
    (s : Queue) : Op → Option Queue
  | .push key user => (push s.heap key user).map fun bh => ⟨bh, ⟨key, user⟩ ::ₘ s.bag⟩
  | .pop => (pop s.heap).map fun r => ⟨r.2, s.bag.erase r.1⟩

/-- `PushMin` and `PopMin`. -/
def stepMin (fuel : Nat) : Queue → Op → Option Queue := Queue.step (pushMin fuel) (popMin fuel)

/-- `PushMax` and `PopMax`. -/
def stepMax (fuel : Nat) : Queue → Op → Option Queue := Queue.step (pushMax fuel) (popMax fuel)

/-! ## The condition -/

/-- What a sift puts at `c`, where the item of the root comes to: the item of the child it
goes on to, or else itself. -/
def PutAt (before : Nat → Nat → Bool) (bh : BHeap) (c j : Nat) : Prop :=
  ((j = 2 * c + 1 ∨ j = 2 * c + 2) ∧ j < bh.count ∧ Preferred before bh j) ∨
    (j = 0 ∧ ∀ i, i = 2 * c + 1 ∨ i = 2 * c + 2 → i < bh.count → ¬ Preferred before bh i)

/-- At every node with a child that the item of the root sinks to, what is put there comes
first, under `le`, among that item and those of the children. -/
def SinkAgrees (le before : Nat → Nat → Bool) (bh : BHeap) : Prop :=
  ∀ c, SinksTo before bh c → 2 * c + 1 < bh.count → ∀ j, PutAt before bh c j →
    ∀ i, i = 0 ∨ i = 2 * c + 1 ∨ i = 2 * c + 2 → i < bh.count →
      le (bh.items j).key (bh.items i).key = true

/-- So it is when a pop has put the last item on the root. -/
def Agrees (le before : Nat → Nat → Bool) (bh : BHeap) : Prop := SinkAgrees le before bh.lastToRoot

/-- The calls considered: no push when full, no pop when empty.  The last item sinks to no
index from `2^30` on, and its way agrees with `le`. -/
def Admissible (le before : Nat → Nat → Bool) (s : Queue) : Op → Prop
  | .push _ _ => s.heap.count < s.heap.capacity
  | .pop => 0 < s.heap.count ∧ SinkFits before s.heap.lastToRoot ∧ Agrees le before s.heap

section Agreement

variable {byAddress le before : Nat → Nat → Bool} {bh : BHeap} {s : HeapifyLoop}

/-- What a turn at a node picks. -/
theorem StrictPart.putAt_iff (ho : StrictPart byAddress before) (h : Sunk bh s)
    (hchild : 2 * s.index + 1 < bh.count) {j : Nat} : PutAt before bh s.index j ↔
      j = if pick before bh.count s = s.index then 0 else pick before bh.count s := by
  have hpick (i : Nat) (hi : i = 2 * s.index + 1 ∨ i = 2 * s.index + 2) (hlt : i < bh.count) :
      pick before bh.count s = i ↔ Preferred before bh i :=
    ho.pick_eq_iff h (by omega) hlt (by unfold parent; omega)
  have hcases := pick_cases before bh.count s
  constructor
  · rintro (⟨hj, hlt, hpref⟩ | ⟨rfl, hnone⟩)
    · have heq := (hpick j hj hlt).mpr hpref
      rw [if_neg (by omega), heq]
    · rw [if_pos]
      by_contra hne
      exact hnone _ (by omega) (by omega) ((hpick _ (by omega) (by omega)).mp rfl)
  · split_ifs with hstay
    · rintro rfl
      refine Or.inr ⟨rfl, fun i hi hlt hpref => ?_⟩
      have heq := (hpick i hi hlt).mpr hpref
      omega
    · rintro rfl
      have hlt : pick before bh.count s < bh.count := by omega
      have hwhere : pick before bh.count s = 2 * s.index + 1 ∨
          pick before bh.count s = 2 * s.index + 2 := by omega
      exact Or.inl ⟨hwhere, hlt, (hpick _ hwhere hlt).mp rfl⟩

/-- The agreement of a turn, in terms of the heap before the sift. -/
theorem StrictPart.turnAgrees_iff (ho : StrictPart byAddress before) (h : Sunk bh s) :
    TurnAgrees le before bh.count s ↔ (2 * s.index + 1 < bh.count →
      ∀ j, PutAt before bh s.index j → ∀ i, i = 0 ∨ i = 2 * s.index + 1 ∨ i = 2 * s.index + 2 →
        i < bh.count → le (bh.items j).key (bh.items i).key = true) := by
  refine forall_congr' fun hchild => ?_
  have hcases := pick_cases before bh.count s
  have hput : s.items (pick before bh.count s) =
      bh.items (if pick before bh.count s = s.index then 0 else pick before bh.count s) := by
    split_ifs with hstay
    · rw [hstay, h.node]
    · exact h.below _ (by omega)
  simp only [ho.putAt_iff h hchild, forall_eq, hput]
  constructor
  · rintro hfirst i (rfl | hi) hlt
    · rw [← h.node]
      exact hfirst s.index (Or.inl rfl) (by omega)
    · rw [← h.below i (by omega)]
      exact hfirst i (Or.inr hi) hlt
  · rintro hfirst i (rfl | hi) hlt
    · rw [h.node]
      exact hfirst 0 (Or.inl rfl) (by omega)
    · rw [h.below i (by omega)]
      exact hfirst i (Or.inr hi) hlt

/-- The sift agrees at all its turns where the way of the root's item does. -/
theorem StrictPart.visits_agree_iff (ho : StrictPart byAddress before) :
    (∀ t, Loop.Visits (heapifyTurn before bh.count) ⟨bh.items, 0, bh.items 0⟩ t →
        TurnAgrees le before bh.count t) ↔ SinkAgrees le before bh := by
  constructor
  · intro h c hc
    obtain ⟨t, ht, hsunk, rfl⟩ := ho.visits_of_sinksTo hc
    exact (ho.turnAgrees_iff hsunk).mp (h t ht)
  · intro h t ht
    have hsunk := ht.invariant (Sunk bh) (fun _ _ hs hb => hs.again hb) ⟨rfl, rfl, fun _ _ => rfl⟩
    exact (ho.turnAgrees_iff hsunk).mpr (h _ (ho.sinksTo_of_visits ht))

/-- Where the addresses are in the order `le` themselves, every pop agrees with it. -/
theorem StrictPart.agrees (ho : StrictPart le before) (bh : BHeap) : Agrees le before bh :=
  ho.visits_agree_iff.mp fun t _ => ho.turnAgrees _ t

/-- A pop of a heap that is not empty returns the root and a heap of the others; where
its sift agrees with `le`, that is in order again. -/
theorem StrictPart.pop_spec (ho : StrictPart byAddress before) (hpos : 0 < bh.count)
    (hheap : Heaped (above le) bh.count bh.items)
    {fuel : Nat} (hfuel : bh.count ≤ fuel) :
    ∃ items, heapify before fuel bh.lastToRoot 0 = some { bh.lastToRoot with items := items } ∧
      bh.items 0 ::ₘ contents (bh.count - 1) items = contents bh.count bh.items ∧
      (Agrees le before bh → Heaped (above le) (bh.count - 1) items) := by
  obtain ⟨items, hrun, hcont, hsift⟩ :=
    @heapify_spec le before bh.lastToRoot fuel (show bh.count - 1 < fuel by omega)
  refine ⟨items, hrun, ?_, ?_⟩
  · rw [← contents_lastToRoot hpos, ← hcont]
    rfl
  · exact fun hagree =>
      hsift ⟨(hheap.shorten (Nat.sub_le _ 1)).sinking _, ho.visits_agree_iff.mpr hagree⟩

end Agreement

/-! ## Whole runs -/

section Runs

variable {byAddress le before : Nat → Nat → Bool} {compareFunc : Nat → Nat → Int}
  {goesUp : Int → Bool}

/-- The heap is in order and holds the items pushed and not yet popped. -/
structure Ordered (le : Nat → Nat → Bool) (compareFunc : Nat → Nat → Int) (capacity : Nat)
    (s : Queue) : Prop where
  compare : s.heap.compareFunc = compareFunc
  capacity : s.heap.capacity = capacity
  count : s.heap.count ≤ s.heap.capacity
  heaped : Heaped (above le) s.heap.count s.heap.items
  bag : s.bag = contents s.heap.count s.heap.items

theorem ordered_init (items : Nat → BHeapItem) (capacity : Nat) :
    Ordered le compareFunc capacity ⟨init items capacity compareFunc, 0⟩ :=
  ⟨rfl, rfl, Nat.zero_le _, fun _ _ hi => absurd hi (Nat.not_lt_zero _), rfl⟩

/-- Admissible calls keep the order. -/
theorem Ordered.step (hd : Decides le compareFunc goesUp) (ho : StrictPart byAddress before)
    {capacity fuel : Nat} (hfuel : capacity ≤ fuel) {pop : BHeap → Option (BHeapItem × BHeap)}
    (hpop : ∀ bh : BHeap, 0 < bh.count →
      pop bh = (heapify before fuel bh.lastToRoot 0).map fun bh' => (bh.items 0, bh'))
    {s t : Queue} {op : Op} (h : Ordered le compareFunc capacity s)
    (hok : Admissible le before s op) (hstep : Queue.step (push goesUp fuel) pop s op = some t) :
    Ordered le compareFunc capacity t := by
  obtain ⟨hcmp, hcap, hcount, hheap, hbag⟩ := h
  cases op with
  | push key user =>
    have hroom : s.heap.count < s.heap.capacity := hok
    have hfuel' : s.heap.capacity ≤ fuel := by omega
    obtain ⟨items, hpush, hsifted⟩ := push_spec (hcmp ▸ hd) hroom hheap key user hfuel'
    rw [Queue.step, hpush, Option.map_some] at hstep
    cases hstep
    exact ⟨hcmp, hcap, hroom, hsifted.heaped, by rw [hsifted.bag, ← hbag]⟩
  | pop =>
    obtain ⟨hpos, -, hagree⟩ := hok
    have hfuel' : s.heap.count ≤ fuel := by omega
    obtain ⟨items, hrun, hcont, hheap'⟩ := ho.pop_spec hpos hheap hfuel'
    rw [Queue.step, hpop s.heap hpos, hrun] at hstep
    cases hstep
    refine ⟨hcmp, hcap, (Nat.sub_le _ 1).trans hcount, hheap' hagree, ?_⟩
    simp only
    rw [hbag, ← hcont, Multiset.erase_cons_head]
    rfl

/-- In an ordered heap that is not empty a pop returns a first item. -/
theorem Ordered.first_of_pop (hd : Decides le compareFunc goesUp) (ho : StrictPart byAddress before)
    {capacity fuel : Nat} (hfuel : capacity ≤ fuel) {pop : BHeap → Option (BHeapItem × BHeap)}
    (hpop : ∀ bh : BHeap, 0 < bh.count →
      pop bh = (heapify before fuel bh.lastToRoot 0).map fun bh' => (bh.items 0, bh'))
    {s : Queue} (h : Ordered le compareFunc capacity s) (hpos : 0 < s.heap.count) :
    ∃ item bh, pop s.heap = some (item, bh) ∧ item ∈ s.bag ∧
      ∀ other ∈ s.bag, le item.key other.key = true := by
  obtain ⟨-, hcap, hcount, hheap, hbag⟩ := h
  have hfuel' : s.heap.count ≤ fuel := by omega
  obtain ⟨items, hrun, -, -⟩ := ho.pop_spec hpos hheap hfuel'
  refine ⟨s.heap.items 0, _, by rw [hpop s.heap hpos, hrun]; rfl, ?_, ?_⟩
  · rw [hbag, mem_contents]
    exact ⟨0, hpos, rfl⟩
  · intro other hother
    rw [hbag, mem_contents] at hother
    obtain ⟨i, hi, rfl⟩ := hother
    exact hheap.root (fun x => hd.refl x.key) (fun x y z => hd.trans x.key y.key z.key) i hi

theorem popMin_eq (fuel : Nat) {bh : BHeap} (hpos : 0 < bh.count) : popMin fuel bh =
    (heapify (fun a b => a < b) fuel bh.lastToRoot 0).map fun bh' => (bh.items 0, bh') := by
  rw [popMin, if_neg hpos.ne']
  rfl

theorem popMax_eq (fuel : Nat) {bh : BHeap} (hpos : 0 < bh.count) : popMax fuel bh =
    (heapify (fun a b => a > b) fuel bh.lastToRoot 0).map fun bh' => (bh.items 0, bh') := by
  rw [popMax, if_neg hpos.ne']
  rfl

/-- Three keys whose order is the reverse of their addresses: the first `PopMin` puts
the wrong one on the root, and the second returns it. -/
theorem popMin_not_minimal :
    ∃ s, exec (stepMin 4) ⟨init (fun _ => ⟨0, 0⟩) 3 fun a b => (b : Int) - a, 0⟩
        [.push 1 0, .push 2 0, .push 3 0, .pop] = some s ∧
      s.bag = {⟨1, 0⟩, ⟨2, 0⟩} ∧
      (popMin 4 s.heap).map (·.1) = some ⟨1, 0⟩ ∧ s.heap.compareFunc 2 1 < 0 :=
  ⟨_, rfl, by decide, by decide, by decide⟩

/-- For a comparison that is a total preorder: in every state reached by admissible
pushes and pops, `PopMin` of a heap that is not empty returns an item with a minimal
key among those pushed and not yet popped, and dually `PopMax`. -/
theorem pop_first (h : TotalPreorder compareFunc) (items : Nat → BHeapItem) {capacity fuel : Nat}
    (hfuel : capacity ≤ fuel) :
    (∀ ops s, Run (stepMin fuel) (Admissible (leMin compareFunc) fun a b => a < b)
        ⟨init items capacity compareFunc, 0⟩ ops s → 0 < s.heap.count →
      ∃ item bh, popMin fuel s.heap = some (item, bh) ∧ item ∈ s.bag ∧
        ∀ other ∈ s.bag, compareFunc item.key other.key ≤ 0) ∧
    (∀ ops s, Run (stepMax fuel) (Admissible (leMax compareFunc) fun a b => a > b)
        ⟨init items capacity compareFunc, 0⟩ ops s → 0 < s.heap.count →
      ∃ item bh, popMax fuel s.heap = some (item, bh) ∧ item ∈ s.bag ∧
        ∀ other ∈ s.bag, compareFunc item.key other.key ≥ 0) := by
  constructor
  · intro ops s hrun hpos
    have hpop := fun bh hpos => @popMin_eq fuel bh hpos
    have hinv := hrun.invariant (Ordered (leMin compareFunc) compareFunc capacity)
      (fun _ _ _ hI hok hstep => hI.step h.decides_min strictPart_lt hfuel hpop hok hstep)
      (ordered_init items capacity)
    simpa only [leMin, decide_eq_true_eq] using
      hinv.first_of_pop h.decides_min strictPart_lt hfuel hpop hpos
  · intro ops s hrun hpos
    have hpop := fun bh hpos => @popMax_eq fuel bh hpos
    have hinv := hrun.invariant (Ordered (leMax compareFunc) compareFunc capacity)
      (fun _ _ _ hI hok hstep => hI.step h.decides_max strictPart_gt hfuel hpop hok hstep)
      (ordered_init items capacity)
    simpa only [leMax, decide_eq_true_eq] using
      hinv.first_of_pop h.decides_max strictPart_gt hfuel hpop hpos

/-- Four keys ordered by address, of which one is popped. -/
theorem pop_first_by_address :
    (∃ s, Run (stepMin 4) (Admissible (leMin fun a b => (a : Int) - b) fun a b => a < b)
        ⟨init (fun _ => ⟨0, 0⟩) 4 fun a b => (a : Int) - b, 0⟩
        [.push 3 0, .push 1 0, .push 4 0, .push 2 0, .pop] s ∧
      ∃ item bh, popMin 4 s.heap = some (item, bh) ∧ item ∈ s.bag ∧
        ∀ other ∈ s.bag, (item.key : Int) - other.key ≤ 0) ∧
    (∃ s, Run (stepMax 4) (Admissible (leMax fun a b => (a : Int) - b) fun a b => a > b)
        ⟨init (fun _ => ⟨0, 0⟩) 4 fun a b => (a : Int) - b, 0⟩
        [.push 3 0, .push 1 0, .push 4 0, .push 2 0, .pop] s ∧
      ∃ item bh, popMax 4 s.heap = some (item, bh) ∧ item ∈ s.bag ∧
        ∀ other ∈ s.bag, (item.key : Int) - other.key ≥ 0) := by
  have h : TotalPreorder fun a b => (a : Int) - b :=
    ⟨fun a b => by omega, fun a b c => by omega⟩
  have hlt : StrictPart (leMin fun a b => (a : Int) - b) fun a b => a < b :=
    ⟨by simp [leMin], by simp [leMin]; omega, by simp [leMin]; omega⟩
  have hgt : StrictPart (leMax fun a b => (a : Int) - b) fun a b => a > b :=
    ⟨by simp [leMax], by simp [leMax]; omega, by simp [leMax]; omega⟩
  have hmin : ∃ s, Run (stepMin 4) (Admissible (leMin fun a b => (a : Int) - b) fun a b => a < b)
      ⟨init (fun _ => ⟨0, 0⟩) 4 fun a b => (a : Int) - b, 0⟩
      [.push 3 0, .push 1 0, .push 4 0, .push 2 0, .pop] s ∧ 0 < s.heap.count :=
    ⟨_, .cons (show 0 < 4 by decide) rfl (.cons (show 1 < 4 by decide) rfl
      (.cons (show 2 < 4 by decide) rfl (.cons (show 3 < 4 by decide) rfl
        (.cons ⟨by decide, sinkFits_of_count_le _ (by decide), hlt.agrees _⟩ rfl (.nil _))))),
      by decide⟩
  have hmax : ∃ s, Run (stepMax 4) (Admissible (leMax fun a b => (a : Int) - b) fun a b => a > b)
      ⟨init (fun _ => ⟨0, 0⟩) 4 fun a b => (a : Int) - b, 0⟩
      [.push 3 0, .push 1 0, .push 4 0, .push 2 0, .pop] s ∧ 0 < s.heap.count :=
    ⟨_, .cons (show 0 < 4 by decide) rfl (.cons (show 1 < 4 by decide) rfl
      (.cons (show 2 < 4 by decide) rfl (.cons (show 3 < 4 by decide) rfl
        (.cons ⟨by decide, sinkFits_of_count_le _ (by decide), hgt.agrees _⟩ rfl (.nil _))))),
      by decide⟩
  obtain ⟨s, hs, hpos⟩ := hmin
  obtain ⟨t, ht, hpos'⟩ := hmax
  exact ⟨⟨s, hs, (pop_first h _ (Nat.le_refl 4)).1 _ s hs hpos⟩,
    ⟨t, ht, (pop_first h _ (Nat.le_refl 4)).2 _ t ht hpos'⟩⟩

end Runs

end ScalBase.BHeaps
