/-
  BHeap/Conservation.lean --- no item of a binary heap is lost, doubled or made up.

  The calls of this file may be mixed in any way and `CompareFunc` may be anything:
  the sifts only exchange items, so the items in the heap and those popped so far
  are those pushed.

  `HeapifyMin` and `HeapifyMax` compute `2 * index` as an `int`.  From index `2^30`
  on it is none, so a pop whose sift gets there has no result; a heap of up to
  `2^30` items has no such index.
-/
import ScalBase.BHeap.Walk
import ScalBase.Foundation.Run

set_option autoImplicit false

namespace ScalBase.BHeaps

open Foundation Foundation.BinaryHeap

/-! ## The pops with their index arithmetic -/

/-- `2 * index` is an `int`. -/
def IndexFits (s : HeapifyLoop) : Prop := 2 * s.index < 2 ^ 31

instance IndexFits.decidable : DecidablePred IndexFits := fun _ => Nat.decLt _ _

/-- The body of `HeapifyMin` and `HeapifyMax`, with no result where the index overflows. -/
def heapifyInt (before : Nat → Nat → Bool) (fuel : Nat) (bh : BHeap) (index : Nat) : Option BHeap :=
  ((Loop.run (Loop.guard IndexFits (heapifyTurn before bh.count)) fuel
    { items := bh.items, index := index, item := bh.items index }).bind id).map fun items =>
      { bh with items := items }

/-- The body that `PopMin` and `PopMax` share. -/
def popInt (before : Nat → Nat → Bool) (fuel : Nat) (bh : BHeap) : Option (BHeapItem × BHeap) :=
  (heapifyInt before fuel bh.lastToRoot 0).map fun bh' => (bh.items 0, bh')

/-- `PopMin`. -/
def popMinInt (fuel : Nat) (bh : BHeap) : Option (BHeapItem × BHeap) :=
  if bh.count = 0 then none else popInt (fun a b => a < b) fuel bh

/-- `PopMax`. -/
def popMaxInt (fuel : Nat) (bh : BHeap) : Option (BHeapItem × BHeap) :=
  if bh.count = 0 then some (⟨0, 0⟩, bh) else popInt (fun a b => a > b) fuel bh

/-- A call, of either kind. -/
inductive Call where
  | pushMin (key user : Nat)
  | pushMax (key user : Nat)
  | popMin
  | popMax

/-- A heap, the items pushed on it and the items popped from it. -/
structure Ledger where
  heap : BHeap
  pushed : Multiset BHeapItem
  popped : Multiset BHeapItem

def Ledger.push (s : Ledger) (key user : Nat) (bh : BHeap) : Ledger :=
  ⟨bh, ⟨key, user⟩ ::ₘ s.pushed, s.popped⟩

def Ledger.pop (s : Ledger) (r : BHeapItem × BHeap) : Ledger := ⟨r.2, s.pushed, r.1 ::ₘ s.popped⟩

def Ledger.step (fuel : Nat) (s : Ledger) : Call → Option Ledger
  | .pushMin key user => (ScalBase.BHeaps.pushMin fuel s.heap key user).map (s.push key user)
  | .pushMax key user => (ScalBase.BHeaps.pushMax fuel s.heap key user).map (s.push key user)
  | .popMin => (popMinInt fuel s.heap).map s.pop
  | .popMax => (popMaxInt fuel s.heap).map s.pop

/-- The items in the heap and those popped are those pushed. -/
def Ledger.Balanced (s : Ledger) : Prop :=
  contents s.heap.count s.heap.items + s.popped = s.pushed

/-- No push on a full heap, no pop from an empty one. -/
def Ledger.Valid (s : Ledger) : Call → Prop
  | .pushMin _ _ => s.heap.count < s.heap.capacity
  | .pushMax _ _ => s.heap.count < s.heap.capacity
  | .popMin => 0 < s.heap.count
  | .popMax => 0 < s.heap.count

/-- The last item, which a pop puts on the root, sinks to no index from `2^30` on. -/
def SiftFits (before : Nat → Nat → Bool) (bh : BHeap) : Prop := SinkFits before bh.lastToRoot

/-- The sifts of the pops stay below index `2^30`. -/
def Ledger.Fits (s : Ledger) : Call → Prop
  | .pushMin _ _ => True
  | .pushMax _ _ => True
  | .popMin => SiftFits (fun a b => a < b) s.heap
  | .popMax => SiftFits (fun a b => a > b) s.heap

/-! ## One call -/

section Calls

variable {le before : Nat → Nat → Bool} {fuel : Nat} {bh : BHeap}

/-- The condition on the turns of a sift, in terms of the heap before it. -/
theorem StrictPart.visits_fit_iff (ho : StrictPart le before) :
    (∀ t, Loop.Visits (heapifyTurn before bh.count) ⟨bh.items, 0, bh.items 0⟩ t → IndexFits t) ↔
      SinkFits before bh := by
  constructor
  · intro h c hc
    obtain ⟨t, ht, -, rfl⟩ := ho.visits_of_sinksTo hc
    have hfits := h t ht
    unfold IndexFits at hfits
    omega
  · intro h t ht
    have hlt := h _ (ho.sinksTo_of_visits ht)
    unfold IndexFits
    omega

/-- With the order that relates everything, the specifications of the sifts are about
the contents alone. -/
theorem decides_all (compareFunc : Nat → Nat → Int) (goesUp : Int → Bool) :
    Decides (fun _ _ => true) compareFunc goesUp :=
  ⟨fun _ => rfl, fun _ _ _ _ _ => rfl, fun _ _ _ => rfl, fun _ _ _ => rfl⟩

theorem heaped_all (n : Nat) (items : Nat → BHeapItem) : Heaped (above fun _ _ => true) n items :=
  fun _ _ _ => rfl

/-- A push adds its item, whatever the comparisons say. -/
theorem push_contents (goesUp : Int → Bool) (hroom : bh.count < bh.capacity) (key user : Nat)
    (hfuel : bh.capacity ≤ fuel) :
    ∃ items, push goesUp fuel bh key user = some { bh with items := items, count := bh.count + 1 } ∧
      contents (bh.count + 1) items = ⟨key, user⟩ ::ₘ contents bh.count bh.items := by
  obtain ⟨items, hpush, hsifted⟩ :=
    push_spec (decides_all bh.compareFunc goesUp) hroom (heaped_all _ _) key user hfuel
  exact ⟨items, hpush, hsifted.bag⟩

theorem heapify_eq_some {index : Nat} {items : Nat → BHeapItem}
    (hrun : heapify before fuel bh index = some { bh with items := items }) :
    Loop.run (heapifyTurn before bh.count) fuel ⟨bh.items, index, bh.items index⟩ = some items := by
  obtain ⟨items', hloop, heq⟩ := Option.map_eq_some_iff.mp hrun
  have hitems : items' = items := congrArg BHeap.items heq
  rw [hloop, hitems]

/-- A sift that ends has the same result as an `int` loop if the item of the root sinks to
indexes that fit, and none otherwise. -/
theorem StrictPart.heapifyInt_cases (ho : StrictPart le before) {items : Nat → BHeapItem}
    (hrun : heapify before fuel bh 0 = some { bh with items := items }) :
    (SinkFits before bh ∧ heapifyInt before fuel bh 0 = some { bh with items := items }) ∨
      (¬ SinkFits before bh ∧ heapifyInt before fuel bh 0 = none) := by
  rw [← ho.visits_fit_iff]
  rcases @Loop.run_guard _ _ IndexFits _ _ _ _ _ (heapify_eq_some hrun) with
    ⟨hfits, hguard⟩ | ⟨hfits, hguard⟩
  · exact Or.inl ⟨hfits, by rw [heapifyInt, hguard]; rfl⟩
  · exact Or.inr ⟨hfits, by rw [heapifyInt, hguard]; rfl⟩

/-- A pop whose sift stays below index `2^30` takes out the item that it returns, and
one whose sift does not has no result. -/
theorem StrictPart.popInt_cases (ho : StrictPart le before) (hpos : 0 < bh.count)
    (hfuel : bh.count ≤ fuel) :
    (SiftFits before bh ∧ ∃ items,
        popInt before fuel bh =
          some (bh.items 0, { bh with items := items, count := bh.count - 1 }) ∧
        bh.items 0 ::ₘ contents (bh.count - 1) items = contents bh.count bh.items) ∨
      (¬ SiftFits before bh ∧ popInt before fuel bh = none) := by
  have hlt : bh.lastToRoot.count < fuel := by
    have hcount : bh.lastToRoot.count = bh.count - 1 := rfl
    omega
  obtain ⟨items, hrun, hcont, -⟩ := @heapify_spec (fun _ _ => true) before bh.lastToRoot fuel hlt
  rcases ho.heapifyInt_cases hrun with ⟨hfits, hint⟩ | ⟨hfits, hint⟩
  · refine Or.inl ⟨hfits, items, by rw [popInt, hint]; rfl, ?_⟩
    rw [← contents_lastToRoot hpos, ← hcont]
    rfl
  · exact Or.inr ⟨hfits, by rw [popInt, hint]; rfl⟩

end Calls

/-! ## Whole runs -/

/-- What holds between the calls. -/
structure Ledger.Sound (capacity : Nat) (s : Ledger) : Prop where
  capacity : s.heap.capacity = capacity
  count : s.heap.count ≤ s.heap.capacity
  balanced : s.Balanced

section Runs

variable {capacity fuel : Nat} {s : Ledger}

theorem Ledger.Sound.push (h : s.Sound capacity) (hfuel : capacity ≤ fuel) (goesUp : Int → Bool)
    (key user : Nat) (hroom : s.heap.count < s.heap.capacity) :
    ∃ t, (ScalBase.BHeaps.push goesUp fuel s.heap key user).map (s.push key user) = some t ∧
      t.Sound capacity := by
  obtain ⟨hcap, hcount, hbal⟩ := h
  have hfuel' : s.heap.capacity ≤ fuel := by omega
  obtain ⟨items, hpush, hcont⟩ := push_contents goesUp hroom key user hfuel'
  refine ⟨s.push key user { s.heap with items := items, count := s.heap.count + 1 },
    by rw [hpush]; rfl, hcap, hroom, ?_⟩
  rw [Ledger.Balanced, Ledger.push, hcont, Multiset.cons_add, hbal]

theorem Ledger.Sound.pop (h : s.Sound capacity) (hfuel : capacity ≤ fuel)
    {le before : Nat → Nat → Bool} (ho : StrictPart le before) (hpos : 0 < s.heap.count) :
    (SiftFits before s.heap ∧ ∃ t, (popInt before fuel s.heap).map s.pop = some t ∧
        t.Sound capacity) ∨
      (¬ SiftFits before s.heap ∧ (popInt before fuel s.heap).map s.pop = none) := by
  obtain ⟨hcap, hcount, hbal⟩ := h
  have hfuel' : s.heap.count ≤ fuel := by omega
  rcases ho.popInt_cases hpos hfuel' with ⟨hfits, items, hpop, hcont⟩ | ⟨hfits, hpop⟩
  · refine Or.inl ⟨hfits, s.pop (s.heap.items 0,
      { s.heap with items := items, count := s.heap.count - 1 }), by rw [hpop]; rfl, hcap,
      (Nat.sub_le _ 1).trans hcount, ?_⟩
    rw [Ledger.Balanced, Ledger.pop, Multiset.add_cons, ← Multiset.cons_add, hcont, hbal]
  · exact Or.inr ⟨hfits, by rw [hpop]; rfl⟩

/-- A valid call keeps what holds between the calls, unless it is a pop whose sift does
not fit, which has no result. -/
theorem Ledger.Sound.step_cases (h : s.Sound capacity) (hfuel : capacity ≤ fuel) {call : Call}
    (hvalid : s.Valid call) :
    (s.Fits call ∧ ∃ t, s.step fuel call = some t ∧ t.Sound capacity) ∨
      (¬ s.Fits call ∧ s.step fuel call = none) := by
  cases call with
  | pushMin key user => exact Or.inl ⟨trivial, h.push hfuel _ key user hvalid⟩
  | pushMax key user => exact Or.inl ⟨trivial, h.push hfuel _ key user hvalid⟩
  | popMin =>
    have hpos : s.heap.count ≠ 0 := Nat.ne_of_gt hvalid
    rw [Ledger.step, popMinInt, if_neg hpos]
    exact h.pop hfuel strictPart_lt hvalid
  | popMax =>
    have hpos : s.heap.count ≠ 0 := Nat.ne_of_gt hvalid
    rw [Ledger.step, popMaxInt, if_neg hpos]
    exact h.pop hfuel strictPart_gt hvalid

/-- An empty heap, on memory that holds `items`. -/
def Ledger.initial (items : Nat → BHeapItem) (capacity : Nat) (compareFunc : Nat → Nat → Int) :
    Ledger := ⟨init items capacity compareFunc, 0, 0⟩

theorem sound_initial (items : Nat → BHeapItem) (capacity : Nat) (compareFunc : Nat → Nat → Int) :
    (Ledger.initial items capacity compareFunc).Sound capacity :=
  ⟨rfl, Nat.zero_le _, by simp [Ledger.Balanced, Ledger.initial, init, contents, Slots.held]⟩

/-- For every `CompareFunc` and every sequence of valid calls of both kinds: each call
returns, with the items in the heap and those popped being those pushed, exactly when
the sift of every pop stays below index `2^30`. -/
theorem heap_conserves_iff (items : Nat → BHeapItem) (compareFunc : Nat → Nat → Int)
    (hfuel : capacity ≤ fuel) (calls : List Call)
    (hvalid : AtEach (Ledger.step fuel) Ledger.Valid
      (Ledger.initial items capacity compareFunc) calls) :
    (∀ done, done <+: calls →
        ∃ t, exec (Ledger.step fuel) (Ledger.initial items capacity compareFunc) done = some t ∧
          t.Balanced) ↔
      AtEach (Ledger.step fuel) Ledger.Fits (Ledger.initial items capacity compareFunc) calls := by
  have hstart := sound_initial items capacity compareFunc
  rw [← atEach_returns_iff hstart.balanced]
  refine atEach_iff (Ledger.Sound capacity) (fun s call hI hok hclean => ?_)
    (fun s call hI hok => ?_) hstart hvalid
  · rcases hI.step_cases hfuel hok with ⟨-, hstep⟩ | ⟨hfits, -⟩
    · exact hstep
    · exact absurd hclean hfits
  · rcases hI.step_cases hfuel hok with ⟨hfits, t, hstep, hsound⟩ | ⟨hfits, hnone⟩
    · exact iff_of_true ⟨t, hstep, hsound.balanced⟩ hfits
    · exact iff_of_false (by simp [hnone]) hfits

/-- In a heap of up to `2^30` items every sift fits. -/
theorem siftFits_of_count_le (before : Nat → Nat → Bool) {bh : BHeap} (h : bh.count ≤ 2 ^ 30) :
    SiftFits before bh :=
  sinkFits_of_count_le before ((Nat.sub_le bh.count 1).trans h)

theorem Ledger.fits_of_capacity_le {s : Ledger} (h : s.Sound capacity) (hfuel : capacity ≤ fuel)
    (hcap : capacity ≤ 2 ^ 30) {calls : List Call}
    (hvalid : AtEach (Ledger.step fuel) Ledger.Valid s calls) :
    AtEach (Ledger.step fuel) Ledger.Fits s calls := by
  intro done call t hpre ht
  have hrun := (hvalid.of_prefix ((List.prefix_append done [call]).trans hpre)).run ht
  have hsound : t.Sound capacity := by
    refine hrun.invariant (Ledger.Sound capacity) (fun u c v hu hv hstep => ?_) h
    rcases hu.step_cases hfuel hv with ⟨-, v', hstep', hv'⟩ | ⟨-, hnone⟩
    · rw [hstep] at hstep'
      cases hstep'
      exact hv'
    · rw [hstep] at hnone
      cases hnone
  have hle : t.heap.count ≤ 2 ^ 30 := hsound.count.trans (hsound.capacity.trans_le hcap)
  cases call with
  | pushMin key user => trivial
  | pushMax key user => trivial
  | popMin => exact siftFits_of_count_le _ hle
  | popMax => exact siftFits_of_count_le _ hle

instance Ledger.Valid.decidable : ∀ (s : Ledger) (call : Call), Decidable (s.Valid call)
  | s, .pushMin _ _ => inferInstanceAs (Decidable (s.heap.count < s.heap.capacity))
  | s, .pushMax _ _ => inferInstanceAs (Decidable (s.heap.count < s.heap.capacity))
  | s, .popMin => inferInstanceAs (Decidable (0 < s.heap.count))
  | s, .popMax => inferInstanceAs (Decidable (0 < s.heap.count))

/-- A comparison that says the same of all keys, and calls of both kinds. -/
theorem heap_conserves_mixed : ∃ t, exec (Ledger.step 2)
    (Ledger.initial (fun _ => ⟨0, 0⟩) 2 fun _ _ => 0)
    [.pushMin 2 0, .pushMax 1 0, .popMin, .popMax] = some t ∧ t.Balanced := by
  have hvalid : AtEach (Ledger.step 2) Ledger.Valid
      (Ledger.initial (fun _ => ⟨0, 0⟩) 2 fun _ _ => 0)
      [.pushMin 2 0, .pushMax 1 0, .popMin, .popMax] := by decide
  refine (heap_conserves_iff _ _ (Nat.le_refl 2) _ hvalid).mpr ?_ _ (List.prefix_refl _)
  exact Ledger.fits_of_capacity_le (sound_initial _ _ _) (Nat.le_refl 2) (by decide) hvalid

end Runs

/-! ## A heap with a sift that does not fit -/

/-- The keys of `2^30 + 2` items: the last one, which a pop puts on the root, is greater
than all others, and the one before it less. -/
def deepKey (i : Nat) : Nat := if i = 2 ^ 30 + 1 then 3 else if i = 2 ^ 30 then 1 else 2

/-- Push items with these keys. -/
def deepPushes (n : Nat) : List Call := (List.range n).map fun i => .pushMin (deepKey i) 0

/-- The heap with `n` of the items, each where it was pushed. -/
def deepHeap (n : Nat) : BHeap where
  compareFunc := fun _ _ => 0
  items := fun i => if i < n then ⟨deepKey i, 0⟩ else ⟨0, 0⟩
  count := n
  capacity := 2 ^ 30 + 2

theorem deepHeap_push {fuel n : Nat} (hfuel : 0 < fuel) (hn : n < 2 ^ 30 + 2) :
    pushMin fuel (deepHeap n) (deepKey n) 0 = some (deepHeap (n + 1)) := by
  obtain ⟨fuel, rfl⟩ := Nat.exists_eq_succ_of_ne_zero hfuel.ne'
  have hstay (items : Nat → BHeapItem) (i : Nat) :
      siftUpTurn (fun _ _ => 0) (fun compare => compare < 0) (items, i) = .done items := by
    simp [siftUpTurn]
  have hitems : Function.update (deepHeap n).items n ⟨deepKey n, 0⟩ = (deepHeap (n + 1)).items := by
    funext i
    rcases eq_or_ne i n with rfl | hne
    · simp [deepHeap]
    · have hlt : i ≤ n ↔ i < n := by omega
      simp [deepHeap, Function.update_of_ne hne, hlt]
  have hroom : (deepHeap n).count ≠ (deepHeap n).capacity := hn.ne
  have hrun : Loop.run (siftUpTurn (deepHeap n).compareFunc fun compare => compare < 0) (fuel + 1)
      (Function.update (deepHeap n).items (deepHeap n).count ⟨deepKey n, 0⟩, (deepHeap n).count) =
        some (deepHeap (n + 1)).items := by
    rw [← hitems]
    exact Loop.run_succ_done fuel (hstay _ _)
  rw [pushMin, push, if_neg hroom, hrun]
  rfl

theorem deepPushes_exec {fuel : Nat} (hfuel : 0 < fuel) : ∀ n, n ≤ 2 ^ 30 + 2 →
    ∃ bag, exec (Ledger.step fuel) (Ledger.initial (fun _ => ⟨0, 0⟩) (2 ^ 30 + 2) fun _ _ => 0)
      (deepPushes n) = some ⟨deepHeap n, bag, 0⟩ := by
  intro n
  induction n with
  | zero =>
    intro _
    refine ⟨0, ?_⟩
    simp [deepPushes, exec, Ledger.initial, init, deepHeap]
  | succ n ih =>
    intro hn
    obtain ⟨bag, hexec⟩ := ih (by omega)
    have hpushes : deepPushes (n + 1) = deepPushes n ++ [.pushMin (deepKey n) 0] := by
      simp [deepPushes, List.range_succ]
    rw [hpushes, exec_concat, hexec, Option.bind_some, Ledger.step, deepHeap_push hfuel (by omega)]
    exact ⟨_, rfl⟩

/-- The sift of the pop goes down on the left, and at the end to the right, to an index
whose double is no `int`. -/
theorem deepHeap_not_fits : ¬ SiftFits (fun a b => a < b) (deepHeap (2 ^ 30 + 2)) := by
  intro hfits
  have hroot : ((deepHeap (2 ^ 30 + 2)).lastToRoot.items 0).key = 3 := by
    simp [BHeap.lastToRoot, deepHeap, deepKey]
  have hother (i : Nat) (hi : 0 < i) (hlt : i < 2 ^ 30 + 2) :
      ((deepHeap (2 ^ 30 + 2)).lastToRoot.items i).key = deepKey i := by
    simp only [BHeap.lastToRoot, Function.update_of_ne hi.ne']
    simp only [deepHeap, if_pos hlt]
  have hrest (i : Nat) (hi : 0 < i) (hlt : i < 2 ^ 30) :
      ((deepHeap (2 ^ 30 + 2)).lastToRoot.items i).key = 2 := by
    rw [hother i hi (by omega), deepKey, if_neg (by omega), if_neg (by omega)]
  have hlast : ((deepHeap (2 ^ 30 + 2)).lastToRoot.items (2 ^ 30)).key = 1 := by
    rw [hother _ (by omega) (by omega), deepKey, if_neg (by omega), if_pos rfl]
  have hsinks : SinksTo (fun a b => a < b) (deepHeap (2 ^ 30 + 2)).lastToRoot (2 ^ (29 + 1)) :=
    sinksTo_two_pow (show 2 ^ 30 < 2 ^ 30 + 1 by decide) (hroot.symm ▸ (by decide : 2 < 3))
      (fun i hi hlt => hrest i hi (by omega)) (by rw [hlast, hroot]; decide)
      (by rw [hlast, hrest _ (by decide) (by decide)]; decide)
  exact absurd (hfits _ hsinks) (by decide)

/-- However many turns the loops may take, the pop after these pushes has no result. -/
theorem deepPushes_popMin {fuel : Nat} (hfuel : 2 ^ 30 + 2 ≤ fuel) :
    ¬ ∀ done, done <+: deepPushes (2 ^ 30 + 2) ++ [.popMin] →
      ∃ t, exec (Ledger.step fuel)
          (Ledger.initial (fun _ => ⟨0, 0⟩) (2 ^ 30 + 2) fun _ _ => 0) done = some t ∧
        t.Balanced := by
  intro hall
  obtain ⟨t, ht, -⟩ := hall _ (List.prefix_refl _)
  obtain ⟨bag, hexec⟩ := deepPushes_exec (show 0 < fuel by omega) (2 ^ 30 + 2) (Nat.le_refl _)
  have hcount : (deepHeap (2 ^ 30 + 2)).count = 2 ^ 30 + 2 := rfl
  have hnone : popInt (fun a b => a < b) fuel (deepHeap (2 ^ 30 + 2)) = none := by
    rcases @StrictPart.popInt_cases _ _ fuel (deepHeap (2 ^ 30 + 2)) strictPart_lt (by omega)
      (by omega) with ⟨hfits, -⟩ | ⟨-, hnone⟩
    · exact absurd hfits deepHeap_not_fits
    · exact hnone
  have hpos : (deepHeap (2 ^ 30 + 2)).count ≠ 0 := by omega
  rw [exec_concat, hexec, Option.bind_some, Ledger.step, popMinInt, if_neg hpos, hnone] at ht
  cases ht

theorem deep_pop_fails : ¬ ∀ done, done <+: deepPushes (2 ^ 30 + 2) ++ [.popMin] →
    ∃ t, exec (Ledger.step (2 ^ 64)) (Ledger.initial (fun _ => ⟨0, 0⟩) (2 ^ 30 + 2) fun _ _ => 0)
      done = some t ∧ t.Balanced :=
  deepPushes_popMin (by decide)

end ScalBase.BHeaps
