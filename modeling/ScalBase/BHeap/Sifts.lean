/-
  BHeap/Sifts.lean --- what one sift does to the heap.

  `HeapifyMin` and `HeapifyMax` compare addresses, so they restore the heap for the
  order of the addresses, whatever `CompareFunc` is: if the children of every node but
  the root stand below it, the item of the root sinks to its place.  Where its way
  (`SinksTo`) leads to index `2^30`, `2 * index` overflows.

  `PushMin` and `PushMax` use `CompareFunc`.  They restore the heap for the order and
  for its reverse; on a tie the first leaves the new item below and the second does not
  (`Climbed`).
-/
import ScalBase.BHeap.Conservation

set_option autoImplicit false

namespace ScalBase.BHeaps

open Foundation Foundation.BinaryHeap

/-! ## Sifting down -/

/-- `HeapifyMin`, with no result where the index overflows. -/
def heapifyMinInt : Nat → BHeap → Nat → Option BHeap := heapifyInt fun a b => a < b

/-- `HeapifyMax`, with no result where the index overflows. -/
def heapifyMaxInt : Nat → BHeap → Nat → Option BHeap := heapifyInt fun a b => a > b

/-- The children of every node but the root stand below it. -/
def BelowRoot (le : Nat → Nat → Bool) (bh : BHeap) : Prop :=
  ∀ i, 0 < i → ∀ j, j = 2 * i + 1 ∨ j = 2 * i + 2 → j < bh.count →
    le (bh.items i).key (bh.items j).key = true

/-- The heap `bh'` is `bh` with its items put in order. -/
structure Restored (le : Nat → Nat → Bool) (bh bh' : BHeap) : Prop where
  same : bh' = { bh with items := bh'.items }
  heaped : Heaped (above le) bh.count bh'.items
  bag : contents bh.count bh'.items = contents bh.count bh.items
  beyond : ∀ i, bh.count ≤ i → bh'.items i = bh.items i

section Down

variable {le before : Nat → Nat → Bool} {fuel : Nat} {bh : BHeap}

/-! ### The heap after a sift -/

theorem BelowRoot.sinking (h : BelowRoot le bh) : Sinking (above le) bh.count bh.items 0 := by
  refine ⟨fun j hpos hj hne => ?_, fun _ _ _ _ h0 => absurd h0 (Nat.lt_irrefl 0)⟩
  exact h _ (Nat.pos_of_ne_zero hne) j (child_cases hpos rfl) hj

/-- A sift writes to positions of the heap only. -/
theorem heapify_beyond {items : Nat → BHeapItem}
    (hrun : heapify before fuel bh 0 = some { bh with items := items }) :
    ∀ i, bh.count ≤ i → items i = bh.items i := by
  refine Loop.run_result (fun s => ∀ i, bh.count ≤ i → s.items i = bh.items i)
    (fun items => ∀ i, bh.count ≤ i → items i = bh.items i) ?_ (fun _ _ => rfl)
    (heapify_eq_some hrun)
  intro s hs
  rcases heapifyTurn_cases before bh.count s with hdone | ⟨hchild, hbest, hagain⟩
  · exact Or.inl ⟨s.items, hdone, hs⟩
  · have hlt := (pick_child hchild hbest).2.1
    refine Or.inr ⟨_, hagain, fun i hi => ?_⟩
    simp only
    rw [Function.update_of_ne (by omega), Function.update_of_ne (by omega), hs i hi]

/-- With its own order, a sift restores the heap exactly where its indexes fit. -/
theorem StrictPart.heapifyInt_restores_iff (ho : StrictPart le before) (hfuel : bh.count < fuel)
    (hbelow : BelowRoot le bh) :
    (∃ bh', heapifyInt before fuel bh 0 = some bh' ∧ Restored le bh bh') ↔ SinkFits before bh := by
  obtain ⟨items, hrun, hbag, hheap⟩ := @heapify_spec le before bh fuel hfuel
  have hheaped := hheap ⟨hbelow.sinking, fun s _ => ho.turnAgrees bh.count s⟩
  rcases ho.heapifyInt_cases hrun with ⟨hfits, hint⟩ | ⟨hfits, hint⟩
  · exact iff_of_true ⟨_, hint, rfl, hheaped, hbag, heapify_beyond hrun⟩ hfits
  · exact iff_of_false (by simp [hint]) hfits

/-- Where the children of every node but the root stand below it by address:
`HeapifyMin` at the root puts the heap in order, with the same items and every other
position as it was, exactly where the item of the root sinks to no index from `2^30`
on; and dually `HeapifyMax`. -/
theorem heapify_restores_iff (hfuel : bh.count < fuel) :
    (BelowRoot (fun a b => a ≤ b) bh →
      ((∃ bh', heapifyMinInt fuel bh 0 = some bh' ∧ Restored (fun a b => a ≤ b) bh bh') ↔
        SinkFits (fun a b => a < b) bh)) ∧
    (BelowRoot (fun a b => a ≥ b) bh →
      ((∃ bh', heapifyMaxInt fuel bh 0 = some bh' ∧ Restored (fun a b => a ≥ b) bh bh') ↔
        SinkFits (fun a b => a > b) bh)) :=
  ⟨strictPart_lt.heapifyInt_restores_iff hfuel, strictPart_gt.heapifyInt_restores_iff hfuel⟩

/-- A heap with these addresses. -/
def ofKeys (keys : List Nat) : BHeap where
  compareFunc := fun _ _ => 0
  items := fun i => ⟨keys.getD i 0, 0⟩
  count := keys.length
  capacity := keys.length

/-- Four items, of which the one on the root belongs at the bottom. -/
theorem heapify_restores_four :
    (∃ bh', heapifyMinInt 5 (ofKeys [9, 1, 2, 3]) 0 = some bh' ∧
      Restored (fun a b => a ≤ b) (ofKeys [9, 1, 2, 3]) bh') ∧
    (∃ bh', heapifyMaxInt 5 (ofKeys [0, 6, 5, 4]) 0 = some bh' ∧
      Restored (fun a b => a ≥ b) (ofKeys [0, 6, 5, 4]) bh') := by
  have hbelow (le : Nat → Nat → Bool) (a b c d : Nat) (hle : le b d = true) :
      BelowRoot le (ofKeys [a, b, c, d]) := by
    intro i hi j hj hlt
    have hcount : j < 4 := hlt
    obtain rfl : i = 1 := by omega
    obtain rfl : j = 3 := by omega
    exact hle
  exact ⟨((heapify_restores_iff (by decide)).1 (hbelow _ 9 1 2 3 rfl)).mpr
      (sinkFits_of_count_le _ (by decide)),
    ((heapify_restores_iff (by decide)).2 (hbelow _ 0 6 5 4 rfl)).mpr
      (sinkFits_of_count_le _ (by decide))⟩

/-- A heap of `2^30 + 1` items: address 3 on the root and at index `2^30 - 1`, and 2
everywhere else. -/
def deepRoot : BHeap where
  compareFunc := fun _ _ => 0
  items := fun i => ⟨if i = 0 ∨ i = 2 ^ 30 - 1 then 3 else 2, 0⟩
  count := 2 ^ 30 + 1
  capacity := 2 ^ 30 + 1

theorem deepRoot_key {i : Nat} (hpos : i ≠ 0) (hi : i ≠ 2 ^ 30 - 1) : (deepRoot.items i).key = 2 :=
  if_neg (not_or.mpr ⟨hpos, hi⟩)

theorem deepRoot_belowRoot : BelowRoot (fun a b => a ≤ b) deepRoot := by
  intro i hi j hj hlt
  have hcount : j < 2 ^ 30 + 1 := hlt
  rw [deepRoot_key (by omega) (by omega), decide_eq_true_eq]
  simp only [deepRoot]
  split_ifs <;> omega

theorem deepRoot_not_fits : ¬ SinkFits (fun a b => a < b) deepRoot := by
  intro hfits
  have hroot : (deepRoot.items 0).key = 3 := rfl
  have hlast : (deepRoot.items (2 ^ 30)).key = 2 := deepRoot_key (by omega) (by omega)
  have hsib : (deepRoot.items (2 ^ 30 - 1)).key = 3 := rfl
  have hsinks : SinksTo (fun a b => a < b) deepRoot (2 ^ (29 + 1)) :=
    sinksTo_two_pow (show 2 ^ 30 < 2 ^ 30 + 1 by decide) (hroot.symm ▸ (by decide : 2 < 3))
      (fun i hi hlt => deepRoot_key (by omega) (by omega)) (by rw [hlast, hroot]; decide)
      (by rw [hlast, hsib]; decide)
  exact absurd (hfits _ hsinks) (Nat.lt_irrefl _)

theorem deepRoot_heapify_fails : BelowRoot (fun a b => a ≤ b) deepRoot ∧
    ¬ ∃ bh', heapifyMinInt (2 ^ 64) deepRoot 0 = some bh' ∧
      Restored (fun a b => a ≤ b) deepRoot bh' := by
  refine ⟨deepRoot_belowRoot, fun h => deepRoot_not_fits ?_⟩
  have hfuel : deepRoot.count < 2 ^ 64 := by decide
  exact (strictPart_lt.heapifyInt_restores_iff hfuel deepRoot_belowRoot).mp h

end Down

/-! ## Sifting up -/

/-- The new item has gone up past the first `j` items above the last place, and past no
more. -/
structure Climbed (goesUp : Int → Bool) (bh : BHeap) (item : BHeapItem)
    (items : Nat → BHeapItem) (j : Nat) : Prop where
  here : items (parent^[j] bh.count) = item
  passed : ∀ i < j, 0 < parent^[i] bh.count ∧
    goesUp (bh.compareFunc item.key (bh.items (parent^[i + 1] bh.count)).key) = true
  stopped : 0 < parent^[j] bh.count →
    goesUp (bh.compareFunc item.key (bh.items (parent^[j + 1] bh.count)).key) = false

section Up

variable {goesUp : Int → Bool} {fuel : Nat} {bh : BHeap} {item : BHeapItem}

/-- The loop of a push after `j` turns: above the new item the heap is as it was. -/
structure Climbing (goesUp : Int → Bool) (bh : BHeap) (item : BHeapItem)
    (s : (Nat → BHeapItem) × Nat) (j : Nat) : Prop where
  index : s.2 = parent^[j] bh.count
  here : s.1 s.2 = item
  above : ∀ i < s.2, s.1 i = bh.items i
  passed : ∀ i < j, 0 < parent^[i] bh.count ∧
    goesUp (bh.compareFunc item.key (bh.items (parent^[i + 1] bh.count)).key) = true

theorem Climbing.turn {s : (Nat → BHeapItem) × Nat} {j : Nat} (h : Climbing goesUp bh item s j) :
    (∃ items, siftUpTurn bh.compareFunc goesUp s = .done items ∧ Climbed goesUp bh item items j) ∨
      ∃ s', siftUpTurn bh.compareFunc goesUp s = .again s' ∧
        Climbing goesUp bh item s' (j + 1) := by
  obtain ⟨items, index⟩ := s
  obtain ⟨hindex, hhere, habove, hpassed⟩ := h
  simp only at hindex hhere habove
  have hnext : parent^[j + 1] bh.count = parent index := by
    rw [Function.iterate_succ_apply', hindex]
  simp only [siftUpTurn, shift_parent, hhere]
  split_ifs with hpos hup
  · -- The item above is passed.
    have hp := parent_lt hpos
    rw [habove _ hp, ← hnext] at hup
    refine Or.inr ⟨_, rfl, ⟨hnext.symm, by simp, ?_, ?_⟩⟩
    · intro i hi
      simp only at hi
      simp only
      rw [Function.update_of_ne (by omega), Function.update_of_ne (by omega), habove i (by omega)]
    · intro i hi
      rcases Nat.lt_succ_iff_lt_or_eq.mp hi with hlt | rfl
      · exact hpassed i hlt
      · exact ⟨hindex ▸ hpos, hup⟩
  · rw [habove _ (parent_lt hpos), ← hnext] at hup
    exact Or.inl ⟨items, rfl, hindex ▸ hhere, hpassed, fun _ => Bool.eq_false_iff.mpr hup⟩
  · exact Or.inl ⟨items, rfl, hindex ▸ hhere, hpassed, fun h => absurd (hindex ▸ h) hpos⟩

/-- A push puts its item where it has passed all that it is to pass. -/
theorem push_climbs (hroom : bh.count < bh.capacity) {key user : Nat} {items : Nat → BHeapItem}
    (hpush : push goesUp fuel bh key user =
      some { bh with items := items, count := bh.count + 1 }) :
    ∃ j, Climbed goesUp bh ⟨key, user⟩ items j := by
  rw [push, if_neg hroom.ne] at hpush
  obtain ⟨items', hrun, heq⟩ := Option.map_eq_some_iff.mp hpush
  have hitems : items' = items := congrArg BHeap.items heq
  subst hitems
  refine Loop.run_result (fun s => ∃ j, Climbing goesUp bh ⟨key, user⟩ s j)
    (fun items => ∃ j, Climbed goesUp bh ⟨key, user⟩ items j) ?_ ⟨0, rfl, ?_, ?_, ?_⟩ hrun
  · rintro s ⟨j, hj⟩
    rcases hj.turn with ⟨items, hdone, hclimbed⟩ | ⟨s', hagain, hj'⟩
    · exact Or.inl ⟨items, hdone, j, hclimbed⟩
    · exact Or.inr ⟨s', hagain, j + 1, hj'⟩
  · simp
  · exact fun i hi => Function.update_of_ne (Nat.ne_of_lt hi) _ _
  · exact fun i hi => absurd hi (Nat.not_lt_zero i)

/-- For a comparison that is a total preorder, and a heap that is not full: if it is in
order, `PushMin` puts it in order with the new item, which goes up past the greater
ones; and dually `PushMax` for the reverse order, where it goes up past the equal ones
as well. -/
theorem push_restores (h : TotalPreorder bh.compareFunc) (hroom : bh.count < bh.capacity)
    (hfuel : bh.capacity ≤ fuel) (key user : Nat) :
    (Heaped (above (leMin bh.compareFunc)) bh.count bh.items →
      ∃ items, pushMin fuel bh key user =
          some { bh with items := items, count := bh.count + 1 } ∧
        Heaped (above (leMin bh.compareFunc)) (bh.count + 1) items ∧
        contents (bh.count + 1) items = ⟨key, user⟩ ::ₘ contents bh.count bh.items ∧
        ∃ j, Climbed (fun compare => compare < 0) bh ⟨key, user⟩ items j) ∧
    (Heaped (above (leMax bh.compareFunc)) bh.count bh.items →
      ∃ items, pushMax fuel bh key user =
          some { bh with items := items, count := bh.count + 1 } ∧
        Heaped (above (leMax bh.compareFunc)) (bh.count + 1) items ∧
        contents (bh.count + 1) items = ⟨key, user⟩ ::ₘ contents bh.count bh.items ∧
        ∃ j, Climbed (fun compare => compare ≥ 0) bh ⟨key, user⟩ items j) := by
  constructor
  · intro hheap
    obtain ⟨items, hpush, hheaped, hbag⟩ := push_spec h.decides_min hroom hheap key user hfuel
    exact ⟨items, hpush, hheaped, hbag, push_climbs hroom hpush⟩
  · intro hheap
    obtain ⟨items, hpush, hheaped, hbag⟩ := push_spec h.decides_max hroom hheap key user hfuel
    exact ⟨items, hpush, hheaped, hbag, push_climbs hroom hpush⟩

/-- A heap with these addresses, compared by their tens, and room for one more. -/
def byTens (keys : List Nat) : BHeap :=
  { ofKeys keys with
    compareFunc := fun a b => (a / 10 : Nat) - (b / 10 : Nat)
    capacity := keys.length + 1 }

theorem byTens_totalPreorder (keys : List Nat) : TotalPreorder (byTens keys).compareFunc :=
  ⟨fun a b => by simp only [byTens]; omega, fun a b c => by simp only [byTens]; omega⟩

theorem byTens_heaped {le : Nat → Nat → Bool} {a b c : Nat} (hleft : le a b = true)
    (hright : le a c = true) :
    Heaped (above le) (byTens [a, b, c]).count (byTens [a, b, c]).items := by
  intro i hpos hi
  have hcount : i < 3 := hi
  have hcases : i = 1 ∨ i = 2 := by omega
  rcases hcases with rfl | rfl
  · exact hleft
  · exact hright

/-- New items that are equal to the item on the root. -/
theorem push_restores_tie :
    (∃ items, pushMin 4 (byTens [15, 21, 13]) 11 0 =
        some { byTens [15, 21, 13] with items := items, count := 4 } ∧
      Heaped (above (leMin (byTens [15, 21, 13]).compareFunc)) 4 items ∧
      contents 4 items = ⟨11, 0⟩ ::ₘ contents 3 (byTens [15, 21, 13]).items ∧
      ∃ j, Climbed (fun compare => compare < 0) (byTens [15, 21, 13]) ⟨11, 0⟩ items j) ∧
    (∃ items, pushMax 4 (byTens [25, 11, 13]) 21 0 =
        some { byTens [25, 11, 13] with items := items, count := 4 } ∧
      Heaped (above (leMax (byTens [25, 11, 13]).compareFunc)) 4 items ∧
      contents 4 items = ⟨21, 0⟩ ::ₘ contents 3 (byTens [25, 11, 13]).items ∧
      ∃ j, Climbed (fun compare => compare ≥ 0) (byTens [25, 11, 13]) ⟨21, 0⟩ items j) :=
  ⟨(push_restores (byTens_totalPreorder [15, 21, 13]) (Nat.lt_succ_self 3) (Nat.le_refl 4) 11 0).1
      (byTens_heaped rfl rfl),
    (push_restores (byTens_totalPreorder [25, 11, 13]) (Nat.lt_succ_self 3) (Nat.le_refl 4) 21 0).2
      (byTens_heaped rfl rfl)⟩

-- The first stays below the root, the second takes its place.
example : (pushMin 4 (byTens [15, 21, 13]) 11 0).map (fun bh => (bh.items 0).key) = some 15 ∧
    (pushMax 4 (byTens [25, 11, 13]) 21 0).map (fun bh => (bh.items 0).key) = some 21 := by decide

end Up

end ScalBase.BHeaps
