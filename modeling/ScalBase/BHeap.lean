/-
  BHeap.lean --- the binary heap of `Lib/BHeap.h`.

  A `Key` is a pointer, here an address, and `CompareFunc` compares the objects two
  addresses point at.  Indexes are natural numbers: `2 * index` is an `int` for the
  indexes of heaps of up to `2^30` items.

  The pushes sift up by `CompareFunc`.  `HeapifyMin` and `HeapifyMax`, which the pops
  sift down with, compare the addresses of the keys instead.  A sift of either kind only
  exchanges items, and where the comparisons that it makes agree with an order, it
  restores the heap for that order (`push_spec`, `heapify_spec`).
-/
import ScalBase.Base
import ScalBase.Foundation.Loop
import ScalBase.Foundation.BinaryHeap

set_option autoImplicit false

namespace ScalBase.BHeaps

open Foundation Foundation.BinaryHeap

/-! ## The heap -/

/-- An item: two pointers. -/
structure BHeapItem where
  key : Nat
  user : Nat
  deriving DecidableEq, Repr

/-- The heap. -/
structure BHeap where
  compareFunc : Nat → Nat → Int
  items : Nat → BHeapItem
  count : Nat
  capacity : Nat

/-- `Init`, on memory that holds `items`. -/
def init (items : Nat → BHeapItem) (capacity : Nat) (compareFunc : Nat → Nat → Int) : BHeap :=
  { compareFunc := compareFunc, items := items, count := 0, capacity := capacity }

/-! ### Push -/

/-- One turn of the loop of `PushMin` and `PushMax`; `goesUp` is its test of the
comparison. -/
def siftUpTurn (compareFunc : Nat → Nat → Int) (goesUp : Int → Bool)
    (s : (Nat → BHeapItem) × Nat) : Turn ((Nat → BHeapItem) × Nat) (Nat → BHeapItem) :=
  let (items, index) := s
  if index > 0 then
    let parentIdx := (index - 1) >>> 1
    let cur := items index
    let parent := items parentIdx
    if goesUp (compareFunc cur.key parent.key) then
      .again (Function.update (Function.update items index parent) parentIdx cur, parentIdx)
    else .done items
  else .done items

/-- The body that `PushMin` and `PushMax` share. -/
def push (goesUp : Int → Bool) (fuel : Nat) (bh : BHeap) (key user : Nat) : Option BHeap :=
  if bh.count = bh.capacity then some bh
  else
    (Loop.run (siftUpTurn bh.compareFunc goesUp) fuel
      (Function.update bh.items bh.count ⟨key, user⟩, bh.count)).map fun items =>
        { bh with items := items, count := bh.count + 1 }

/-- `PushMin`: `compare < 0`. -/
def pushMin : Nat → BHeap → Nat → Nat → Option BHeap := push fun compare => compare < 0

/-- `PushMax`: `compare >= 0`. -/
def pushMax : Nat → BHeap → Nat → Nat → Option BHeap := push fun compare => compare ≥ 0

/-! ### Pop -/

/-- The locals of `HeapifyMin` and `HeapifyMax`. -/
structure HeapifyLoop where
  items : Nat → BHeapItem
  index : Nat
  item : BHeapItem

/-- The child that the two comparisons of a turn pick, or the node. -/
def pick (before : Nat → Nat → Bool) (count : Nat) (s : HeapifyLoop) : Nat :=
  let left := 2 * s.index + 1
  let right := 2 * s.index + 2
  let best := if before (s.items left).key (s.items s.index).key then left else s.index
  if right < count ∧ before (s.items right).key (s.items best).key then right else best

/-- One turn of the loop of `HeapifyMin` and `HeapifyMax`; `before` compares the
addresses of two keys. -/
def heapifyTurn (before : Nat → Nat → Bool) (count : Nat) (s : HeapifyLoop) :
    Turn HeapifyLoop (Nat → BHeapItem) :=
  if 2 * s.index + 1 < count then
    let best := pick before count s
    if best = s.index then .done s.items
    else
      .again
        { s with
          items := Function.update (Function.update s.items s.index (s.items best)) best s.item
          index := best }
  else .done s.items

/-- The body that `HeapifyMin` and `HeapifyMax` share. -/
def heapify (before : Nat → Nat → Bool) (fuel : Nat) (bh : BHeap) (index : Nat) : Option BHeap :=
  (Loop.run (heapifyTurn before bh.count) fuel
    { items := bh.items, index := index, item := bh.items index }).map fun items =>
      { bh with items := items }

/-- `HeapifyMin`: `<` on the addresses. -/
def heapifyMin : Nat → BHeap → Nat → Option BHeap := heapify fun a b => a < b

/-- `HeapifyMax`: `>` on the addresses. -/
def heapifyMax : Nat → BHeap → Nat → Option BHeap := heapify fun a b => a > b

/-- The heap with its last item put on the root, which a pop then sifts down. -/
def BHeap.lastToRoot (bh : BHeap) : BHeap :=
  { bh with items := Function.update bh.items 0 (bh.items (bh.count - 1)), count := bh.count - 1 }

/-- `PopMin`.  On an empty heap it reads `Items[-1]`. -/
def popMin (fuel : Nat) (bh : BHeap) : Option (BHeapItem × BHeap) :=
  if bh.count = 0 then none
  else (heapifyMin fuel bh.lastToRoot 0).map fun bh' => (bh.items 0, bh')

/-- `PopMax`.  On an empty heap it returns null pointers. -/
def popMax (fuel : Nat) (bh : BHeap) : Option (BHeapItem × BHeap) :=
  if bh.count = 0 then some (⟨0, 0⟩, bh)
  else (heapifyMax fuel bh.lastToRoot 0).map fun bh' => (bh.items 0, bh')

/-! ## Orders of the keys -/

/-- At the node of this turn the item picked is first, under `le`, among the node and
its children. -/
def TurnAgrees (le before : Nat → Nat → Bool) (count : Nat) (s : HeapifyLoop) : Prop :=
  2 * s.index + 1 < count → ∀ c, c = s.index ∨ c = 2 * s.index + 1 ∨ c = 2 * s.index + 2 →
    c < count → le (s.items (pick before count s)).key (s.items c).key = true

/-- `CompareFunc` is a total preorder. -/
structure TotalPreorder (compareFunc : Nat → Nat → Int) : Prop where
  sign : ∀ a b, compareFunc a b < 0 ↔ 0 < compareFunc b a
  trans : ∀ a b c, compareFunc a b ≤ 0 → compareFunc b c ≤ 0 → compareFunc a c ≤ 0

/-- Smaller keys first. -/
def leMin (compareFunc : Nat → Nat → Int) (a b : Nat) : Bool := compareFunc a b ≤ 0

/-- Greater keys first. -/
def leMax (compareFunc : Nat → Nat → Int) (a b : Nat) : Bool := compareFunc a b ≥ 0

/-! ## The sifts -/

/-- The order of the keys as an order of the items. -/
def above (le : Nat → Nat → Bool) (x y : BHeapItem) : Prop := le x.key y.key = true

/-- The test of a push decides the order `le`. -/
structure Decides (le : Nat → Nat → Bool) (compareFunc : Nat → Nat → Int) (goesUp : Int → Bool) :
    Prop where
  refl : ∀ a, le a a = true
  trans : ∀ a b c, le a b = true → le b c = true → le a c = true
  up : ∀ a b, goesUp (compareFunc a b) = true → le a b = true
  stay : ∀ a b, goesUp (compareFunc a b) = false → le b a = true

section Sifts

variable {le : Nat → Nat → Bool} {compareFunc : Nat → Nat → Int} {goesUp : Int → Bool}

theorem TotalPreorder.decides_min (h : TotalPreorder compareFunc) :
    Decides (leMin compareFunc) compareFunc fun compare => compare < 0 where
  refl := by
    intro a
    have hs := h.sign a a
    simp only [leMin, decide_eq_true_eq]
    omega
  trans := by
    intro a b c
    simpa only [leMin, decide_eq_true_eq] using h.trans a b c
  up := by
    intro a b
    simp only [leMin, decide_eq_true_eq]
    omega
  stay := by
    intro a b
    have hs := h.sign a b
    simp only [leMin, decide_eq_true_eq, decide_eq_false_iff_not]
    omega

theorem TotalPreorder.decides_max (h : TotalPreorder compareFunc) :
    Decides (leMax compareFunc) compareFunc fun compare => compare ≥ 0 where
  refl := by
    intro a
    have hs := h.sign a a
    simp only [leMax, decide_eq_true_eq]
    omega
  trans := by
    intro a b c
    have ht := h.trans c b a
    have hs₁ := h.sign a b
    have hs₂ := h.sign b c
    have hs₃ := h.sign a c
    simp only [leMax, decide_eq_true_eq]
    omega
  up := by
    intro a b
    simp only [leMax, decide_eq_true_eq]
    exact id
  stay := by
    intro a b
    have hs := h.sign a b
    simp only [leMax, decide_eq_true_eq, decide_eq_false_iff_not]
    omega

theorem shift_parent (i : Nat) : (i - 1) >>> 1 = parent i := by
  rw [Nat.shiftRight_eq_div_pow, Nat.pow_one, parent]

/-- The loop of a push: the order is broken at most where the new item is. -/
structure SiftingUp (le : Nat → Nat → Bool) (n : Nat) (bag : Multiset BHeapItem)
    (s : (Nat → BHeapItem) × Nat) : Prop where
  index : s.2 < n
  rising : Rising (above le) n s.1 s.2
  bag : contents n s.1 = bag

/-- The items are in order, and they are those of the multiset. -/
structure Sifted (le : Nat → Nat → Bool) (n : Nat) (bag : Multiset BHeapItem)
    (items : Nat → BHeapItem) : Prop where
  heaped : Heaped (above le) n items
  bag : contents n items = bag

theorem SiftingUp.turn (hd : Decides le compareFunc goesUp) {n : Nat} {bag : Multiset BHeapItem}
    {s : (Nat → BHeapItem) × Nat} (h : SiftingUp le n bag s) :
    (∃ items, siftUpTurn compareFunc goesUp s = .done items ∧ Sifted le n bag items) ∨
      ∃ s', siftUpTurn compareFunc goesUp s = .again s' ∧ SiftingUp le n bag s' ∧ s'.2 < s.2 := by
  obtain ⟨items, index⟩ := s
  obtain ⟨hlt, hrise, hbag⟩ := h
  simp only [siftUpTurn, shift_parent]
  simp only at hlt hrise hbag
  split_ifs with hpos hup
  · -- The item goes up.
    have hp := parent_lt hpos
    refine Or.inr ⟨_, rfl, ⟨hp.trans hlt, hrise.move hpos hlt ?_ (hd.up _ _ hup), ?_⟩, hp⟩
    · exact fun x y z => hd.trans x.key y.key z.key
    · rw [← hbag]
      exact contents_exchange items hlt (hp.trans hlt)
  · exact Or.inl ⟨items, rfl, hrise.done fun _ => hd.stay _ _ (Bool.eq_false_iff.mpr hup), hbag⟩
  · exact Or.inl ⟨items, rfl, hrise.done fun h => absurd h hpos, hbag⟩

/-- A push below capacity returns a heap with one item more. -/
theorem push_spec {bh : BHeap} (hd : Decides le bh.compareFunc goesUp)
    (hroom : bh.count < bh.capacity) (hheap : Heaped (above le) bh.count bh.items) (key user : Nat)
    {fuel : Nat} (hfuel : bh.capacity ≤ fuel) :
    ∃ items, push goesUp fuel bh key user =
        some { bh with items := items, count := bh.count + 1 } ∧
      Sifted le (bh.count + 1) (⟨key, user⟩ ::ₘ contents bh.count bh.items) items := by
  have hsame : ∀ i < bh.count, Function.update bh.items bh.count ⟨key, user⟩ i = bh.items i :=
    fun i hi => Function.update_of_ne hi.ne _ _
  have hstart : SiftingUp le (bh.count + 1) (⟨key, user⟩ ::ₘ contents bh.count bh.items)
      (Function.update bh.items bh.count ⟨key, user⟩, bh.count) := by
    refine ⟨Nat.lt_succ_self _, (hheap.congr hsame).rising, ?_⟩
    simp only [contents_succ, Function.update_self, contents_congr hsame]
  obtain ⟨items, hrun, hsifted⟩ := Loop.run_total _ Prod.snd _ (fun s hs => hs.turn hd) hstart
    (Nat.lt_of_lt_of_le hroom hfuel)
  exact ⟨items, by rw [push, if_neg hroom.ne, hrun, Option.map_some], hsifted⟩

variable {before : Nat → Nat → Bool} {n : Nat}

theorem pick_cases (before : Nat → Nat → Bool) (n : Nat) (s : HeapifyLoop) :
    pick before n s = s.index ∨ pick before n s = 2 * s.index + 1 ∨
      (pick before n s = 2 * s.index + 2 ∧ 2 * s.index + 2 < n) := by
  unfold pick
  simp only
  generalize hb : (if before (s.items (2 * s.index + 1)).key (s.items s.index).key = true
    then 2 * s.index + 1 else s.index) = best
  split_ifs with hright
  · exact Or.inr (Or.inr ⟨rfl, hright.1⟩)
  · split_ifs at hb with hleft
    · exact Or.inr (Or.inl hb.symm)
    · exact Or.inl hb.symm

/-- The children of a node. -/
theorem child_cases {i j : Nat} (hpos : 0 < j) (h : parent j = i) :
    j = 2 * i + 1 ∨ j = 2 * i + 2 := by
  unfold parent at h
  omega

/-- The loop of a sift down.  From a start with `Good`, the order is broken at most
below the item that sinks, and the turns to come agree with `le`. -/
structure SiftingDown (le before : Nat → Nat → Bool) (n : Nat) (bag : Multiset BHeapItem)
    (Good : Prop) (s : HeapifyLoop) : Prop where
  item : s.item = s.items s.index
  bag : contents n s.items = bag
  sinking : Good → Sinking (above le) n s.items s.index
  agrees : Good → ∀ t, Loop.Visits (heapifyTurn before n) s t → TurnAgrees le before n t

theorem SiftingDown.turn {bag : Multiset BHeapItem} {Good : Prop} {s : HeapifyLoop}
    (h : SiftingDown le before n bag Good s) :
    (∃ items, heapifyTurn before n s = .done items ∧ contents n items = bag ∧
        (Good → Heaped (above le) n items)) ∨
      ∃ s', heapifyTurn before n s = .again s' ∧ SiftingDown le before n bag Good s' ∧
        n - s'.index < n - s.index := by
  obtain ⟨hitem, hbag, hsink, hagree⟩ := h
  by_cases hchild : 2 * s.index + 1 < n
  · by_cases hstop : pick before n s = s.index
    · -- The node itself is picked.
      refine Or.inl ⟨s.items, by rw [heapifyTurn, if_pos hchild, if_pos hstop], hbag, ?_⟩
      intro hg
      have hfirst := hagree hg s (.here s) hchild
      rw [hstop] at hfirst
      exact (hsink hg).done fun j hpos hj hp => hfirst j (Or.inr (child_cases hpos hp)) hj
    · -- A child is picked and goes up.
      have hturn : heapifyTurn before n s = .again
          { s with
            items := exchange s.items s.index (pick before n s)
            index := pick before n s } := by
        rw [heapifyTurn, if_pos hchild, if_neg hstop, hitem]
        rfl
      have hcases := pick_cases before n s
      have hlt : pick before n s < n := by omega
      have hparent : parent (pick before n s) = s.index := by
        unfold parent
        omega
      refine Or.inr ⟨_, hturn, ⟨?_, ?_, ?_, ?_⟩, by simp only; omega⟩
      · simp only [exchange_right, hitem]
      · rw [← hbag]
        exact contents_exchange s.items (by omega) hlt
      · intro hg
        have hfirst := hagree hg s (.here s) hchild
        refine (hsink hg).move (by omega) hlt hparent (hfirst s.index (Or.inl rfl) (by omega)) ?_
        exact fun j hpos hj hp => hfirst j (Or.inr (child_cases hpos hp)) hj
      · exact fun hg t ht => hagree hg t (.later hturn ht)
  · -- There is no child.
    refine Or.inl ⟨s.items, by rw [heapifyTurn, if_neg hchild], hbag, fun hg => (hsink hg).done ?_⟩
    intro j hpos hj hp
    have hj' := child_cases hpos hp
    omega

/-- A sift down returns with the same items; where it agrees with `le` all along, it
restores the heap. -/
theorem heapify_spec {bh : BHeap} {fuel : Nat} (hfuel : bh.count < fuel) :
    ∃ items, heapify before fuel bh 0 = some { bh with items := items } ∧
      contents bh.count items = contents bh.count bh.items ∧
      (Sinking (above le) bh.count bh.items 0 ∧
        (∀ s, Loop.Visits (heapifyTurn before bh.count) ⟨bh.items, 0, bh.items 0⟩ s →
          TurnAgrees le before bh.count s) → Heaped (above le) bh.count items) := by
  have hstart : SiftingDown le before bh.count (contents bh.count bh.items)
      (Sinking (above le) bh.count bh.items 0 ∧
        ∀ s, Loop.Visits (heapifyTurn before bh.count) ⟨bh.items, 0, bh.items 0⟩ s →
          TurnAgrees le before bh.count s) ⟨bh.items, 0, bh.items 0⟩ :=
    ⟨rfl, rfl, fun h => h.1, fun h => h.2⟩
  obtain ⟨items, hrun, hcont, hheap⟩ := Loop.run_total _ (fun s => bh.count - s.index) _
    (fun s hs => hs.turn) hstart (Nat.lt_of_le_of_lt (Nat.sub_le _ _) hfuel)
  exact ⟨items, by rw [heapify, hrun, Option.map_some], hcont, hheap⟩

/-- The items of a heap are the root and what is left when the last takes its place. -/
theorem contents_lastToRoot {bh : BHeap} (hpos : 0 < bh.count) :
    bh.items 0 ::ₘ contents bh.lastToRoot.count bh.lastToRoot.items =
      contents bh.count bh.items := by
  obtain ⟨n, hn⟩ : ∃ n, bh.count = n + 1 := ⟨bh.count - 1, by omega⟩
  have hcount : bh.lastToRoot.count = n := by simp [BHeap.lastToRoot, hn]
  have hitems : bh.lastToRoot.items = Function.update bh.items 0 (bh.items n) := by
    simp [BHeap.lastToRoot, hn]
  rw [hcount, hitems, hn, contents_succ]
  rcases Nat.eq_zero_or_pos n with rfl | hn'
  · rfl
  · exact contents_update bh.items hn' _

end Sifts

end ScalBase.BHeaps
