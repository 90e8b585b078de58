/-
  Foundation/Slots.lean --- what an array holds.

  `pooled share n places` is the multiset of what the first `n` places hold, where
  `share` says what one place holds; a write to a place changes it by the old share
  and the new one.  `held n cells` is the case of slots that hold one entry or
  none: the entry that leaves and the entry that comes are all the accounting the
  hash-table loops need.
-/
import Mathlib.Tactic
import Mathlib.Algebra.BigOperators.Group.Finset.Basic
import Mathlib.Algebra.Order.Group.Multiset

set_option autoImplicit false

namespace ScalBase.Foundation.Slots

open Finset

variable {E : Type*}

/-! ## Places that each have a share -/

/-- The shares of the first `n` places taken together. -/
def pooled {α : Type*} (share : α → Multiset E) (n : Nat) (places : Nat → α) : Multiset E :=
  ∑ i ∈ range n, share (places i)

section Pooled

variable {α : Type*} {n i : Nat} (share : α → Multiset E) (places : Nat → α)

theorem pooled_eq_zero (h : ∀ i < n, share (places i) = 0) : pooled share n places = 0 :=
  Finset.sum_eq_zero fun i hi => h i (mem_range.mp hi)

/-- A write to place `i` trades the old share of the place for the new one. -/
theorem pooled_update (hi : i < n) (x : α) :
    pooled share n (Function.update places i x) + share (places i) =
      pooled share n places + share x := by
  have hmem : i ∈ range n := mem_range.mpr hi
  have hcomp : (fun j => share (Function.update places i x j)) =
      Function.update (fun j => share (places j)) i (share x) := by
    funext j
    by_cases h : j = i
    · subst h; simp
    · simp [h]
  unfold pooled
  rw [hcomp, sum_update_of_mem hmem, ← add_sum_erase _ _ hmem, sdiff_singleton_eq_erase]
  ac_rfl

theorem pooled_keep (hi : i < n) {x : α} (hx : share x = share (places i)) :
    pooled share n (Function.update places i x) = pooled share n places := by
  have h := pooled_update share places hi x
  rw [hx] at h
  exact add_right_cancel h

theorem pooled_gain (hi : i < n) {x : α} {e : E} (hx : share x = e ::ₘ share (places i)) :
    pooled share n (Function.update places i x) = e ::ₘ pooled share n places := by
  have h := pooled_update share places hi x
  rw [hx, Multiset.add_cons, ← Multiset.cons_add] at h
  exact add_right_cancel h

theorem pooled_lose (hi : i < n) {x : α} {e : E} (hx : share (places i) = e ::ₘ share x) :
    pooled share n places = e ::ₘ pooled share n (Function.update places i x) := by
  have h := pooled_update share places hi x
  rw [hx, Multiset.add_cons, ← Multiset.cons_add] at h
  exact (add_right_cancel h).symm

end Pooled

/-! ## Slots with one entry or none -/

/-- The entry of one slot, if any. -/
def one : Option E → Multiset E
  | none => 0
  | some e => {e}

@[simp] theorem one_none : one (none : Option E) = 0 := rfl
@[simp] theorem one_some (e : E) : one (some e) = {e} := rfl

/-- The entries of the first `n` slots. -/
def held (n : Nat) (cells : Nat → Option E) : Multiset E := ∑ i ∈ range n, one (cells i)

theorem held_congr {n : Nat} {cells cells' : Nat → Option E}
    (h : ∀ i < n, cells i = cells' i) : held n cells = held n cells' :=
  Finset.sum_congr rfl fun i hi => by rw [h i (mem_range.mp hi)]

theorem mem_held {n : Nat} {cells : Nat → Option E} {e : E} :
    e ∈ held n cells ↔ ∃ i < n, cells i = some e := by
  unfold held
  rw [Multiset.mem_sum]
  constructor
  · rintro ⟨i, hi, he⟩
    refine ⟨i, mem_range.mp hi, ?_⟩
    cases hc : cells i with
    | none => simp [hc] at he
    | some e' => simpa [hc, eq_comm] using he
  · rintro ⟨i, hi, hc⟩
    exact ⟨i, mem_range.mpr hi, by simp [hc]⟩

theorem held_eq_zero {n : Nat} {cells : Nat → Option E} (h : ∀ i < n, cells i = none) :
    held n cells = 0 :=
  pooled_eq_zero one cells fun i hi => by rw [h i hi, one_none]

/-- A write to slot `i` trades the old entry of the slot for the new one. -/
theorem held_update {n : Nat} (cells : Nat → Option E) {i : Nat} (hi : i < n) (x : Option E) :
    held n (Function.update cells i x) + one (cells i) = held n cells + one x :=
  pooled_update one cells hi x

theorem held_update_none {n : Nat} {cells : Nat → Option E} {i : Nat} (hi : i < n) {e : E}
    (hc : cells i = some e) : held n cells = e ::ₘ held n (Function.update cells i none) :=
  pooled_lose one cells hi (by rw [hc]; rfl)

theorem held_update_some {n : Nat} {cells : Nat → Option E} {i : Nat} (hi : i < n) {e : E}
    (hc : cells i = none) : held n (Function.update cells i (some e)) = e ::ₘ held n cells :=
  pooled_gain one cells hi (by rw [hc]; rfl)

/-- An exchange of the entry in hand with the entry of a slot keeps both. -/
theorem held_swap {n : Nat} {cells : Nat → Option E} {i : Nat} (hi : i < n) {e old : E}
    (hc : cells i = some old) :
    old ::ₘ held n (Function.update cells i (some e)) = e ::ₘ held n cells := by
  have h := held_update cells hi (some e)
  rw [hc, one_some, one_some] at h
  rw [← Multiset.singleton_add, ← Multiset.singleton_add, add_comm, h, add_comm]

/-- Moving an entry over the contents of a slot: what is held is what is held
without those contents. -/
theorem held_move {n : Nat} {cells : Nat → Option E} {i j : Nat} (hi : i < n) (hj : j < n) {e : E}
    (hne : j ≠ i) (hc : cells j = some e) :
    held n (Function.update (Function.update cells i (some e)) j none) =
      held n (Function.update cells i none) := by
  have hc' : Function.update cells i (some e) j = some e := by rw [Function.update_of_ne hne, hc]
  have hover : Function.update (Function.update cells i none) i (some e) =
      Function.update cells i (some e) := Function.update_idem ..
  have h := held_update_some hi (Function.update_self i none cells) (e := e)
  rw [hover, held_update_none hj hc'] at h
  exact (Multiset.cons_inj_right e).mp h

/-- Two different slots contribute two entries. -/
theorem held_two {n : Nat} {cells : Nat → Option E} {i j : Nat} (hi : i < n) (hj : j < n)
    (hne : i ≠ j) {a b : E} (ha : cells i = some a) (hb : cells j = some b) :
    ∃ rest, held n cells = a ::ₘ b ::ₘ rest := by
  refine ⟨held n (Function.update (Function.update cells i none) j none), ?_⟩
  rw [held_update_none hi ha, ← held_update_none hj (by simp [hne.symm, hb])]

/-- Listing the slots in order. -/
theorem held_eq_filterMap (n : Nat) (cells : Nat → Option E) :
    held n cells = ((List.range n).filterMap cells : Multiset E) := by
  induction n with
  | zero => rfl
  | succ n ih =>
    rw [held, sum_range_succ, ← held, ih, List.range_succ, List.filterMap_append,
      ← Multiset.coe_add]
    cases hc : cells n with
    | none => simp [hc]
    | some e => simp [hc]

theorem card_held (n : Nat) (cells : Nat → Option E) :
    (held n cells).card = ((List.range n).filter fun i => (cells i).isSome).length := by
  rw [held_eq_filterMap, Multiset.coe_card, List.length_filterMap_eq_countP,
    List.countP_eq_length_filter]

/-- Fewer entries than slots leave a free slot. -/
theorem exists_free {n : Nat} {cells : Nat → Option E} (h : (held n cells).card < n) :
    ∃ i < n, cells i = none := by
  by_contra hall
  push Not at hall
  have hone : ∀ i ∈ range n, (one (cells i)).card = 1 := by
    intro i hi
    obtain ⟨e, he⟩ := Option.ne_none_iff_exists'.mp (hall i (mem_range.mp hi))
    rw [he, one_some, Multiset.card_singleton]
  have hcard : (held n cells).card = n := by
    rw [held, Multiset.card_sum, Finset.sum_congr rfl hone]
    simp
  omega

end ScalBase.Foundation.Slots
