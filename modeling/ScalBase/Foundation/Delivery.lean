/-
  Foundation/Delivery.lean --- histories of a queue whose elements are claimed
  first and handed over later.

  A history records the values enqueued, in order, the number of positions
  claimed, the parties that have claimed a position and not been handed its value
  yet, and the values handed over with their positions.  Position `p` is that of
  the `p`-th value enqueued, and positions are claimed one after another.

  `Exact` is delivery exactly once: every claimed position has been enqueued, and
  is either still pending with one party or handed over once, with its own value.
  The three events keep it under the conditions of `enqueue`, `claim` and
  `deliver` below.
-/
import Mathlib.Tactic

set_option autoImplicit false

namespace ScalBase.Foundation

/-- What has happened to a queue. -/
structure Delivery (ι T : Type*) where
  enqueued : List T
  claims : Nat
  pending : ι → Option Nat
  /-- Positions with the values handed over, the latest first. -/
  returned : List (Nat × T)

namespace Delivery

variable {ι T : Type*}

/-- Nothing has happened. -/
def start : Delivery ι T := ⟨[], 0, fun _ => none, []⟩

/-- The positions handed over. -/
def delivered (h : Delivery ι T) : List Nat := h.returned.map Prod.fst

/-- A value is enqueued. -/
def enqueue (h : Delivery ι T) (value : T) : Delivery ι T :=
  { h with enqueued := h.enqueued ++ [value] }

/-- A party claims the next position. -/
def claim [DecidableEq ι] (h : Delivery ι T) (i : ι) : Delivery ι T :=
  { h with claims := h.claims + 1, pending := Function.update h.pending i (some h.claims) }

/-- A party is handed the value of the position it claimed. -/
def deliver [DecidableEq ι] (h : Delivery ι T) (i : ι) (value : T) : Delivery ι T :=
  match h.pending i with
  | none => h
  | some p =>
      { h with pending := Function.update h.pending i none, returned := (p, value) :: h.returned }

/-- Delivery exactly once. -/
structure Exact (h : Delivery ι T) : Prop where
  /-- Only what has been enqueued is claimed. -/
  claims_le : h.claims ≤ h.enqueued.length
  /-- What is handed over is the value of its position. -/
  valued : ∀ p value, (p, value) ∈ h.returned → h.enqueued[p]? = some value
  /-- No position is handed over twice. -/
  once : h.delivered.Nodup
  /-- A position is claimed when it is handed over or pending. -/
  claimed_iff : ∀ p, p < h.claims ↔ p ∈ h.delivered ∨ ∃ i, h.pending i = some p
  /-- What is pending has not been handed over. -/
  not_delivered : ∀ i p, h.pending i = some p → p ∉ h.delivered
  /-- What is pending is pending with one party. -/
  holder : ∀ i j p, h.pending i = some p → h.pending j = some p → i = j

theorem exact_start : (start : Delivery ι T).Exact where
  claims_le := Nat.le_refl _
  valued := nofun
  once := List.nodup_nil
  claimed_iff := by simp [start, delivered]
  not_delivered := nofun
  holder := nofun

/-! ## The three events -/

variable {h : Delivery ι T}

/-- What is enqueued stays where it is. -/
theorem getElem?_enqueue {p : Nat} {v : T} (hp : h.enqueued[p]? = some v) (value : T) :
    (h.enqueue value).enqueued[p]? = some v := by
  have hlt : p < h.enqueued.length := (List.getElem?_eq_some_iff.mp hp).1
  rw [enqueue, List.getElem?_append_left hlt, hp]

@[simp] theorem length_enqueue (h : Delivery ι T) (value : T) :
    (h.enqueue value).enqueued.length = h.enqueued.length + 1 := by
  simp [enqueue]

theorem Exact.enqueue (hx : h.Exact) (value : T) : (h.enqueue value).Exact where
  claims_le := by
    rw [length_enqueue]
    exact Nat.le_succ_of_le hx.claims_le
  valued p v hmem := getElem?_enqueue (hx.valued p v hmem) value
  once := hx.once
  claimed_iff := hx.claimed_iff
  not_delivered := hx.not_delivered
  holder := hx.holder

variable {i : ι}

/-- A pending position has been claimed. -/
theorem Exact.pending_lt (hx : h.Exact) {p : Nat} (hp : h.pending i = some p) : p < h.claims :=
  (hx.claimed_iff p).mpr (Or.inr ⟨i, hp⟩)

variable [DecidableEq ι]

@[simp] theorem pending_claim (h : Delivery ι T) (i : ι) :
    (h.claim i).pending i = some h.claims := Function.update_self ..

theorem pending_claim_of_ne (h : Delivery ι T) {i j : ι} (hji : j ≠ i) :
    (h.claim i).pending j = h.pending j := Function.update_of_ne hji ..

/-- The claiming party has the next position pending, the others are as they were. -/
theorem pending_claim_iff (h : Delivery ι T) (i j : ι) (p : Nat) :
    (h.claim i).pending j = some p ↔ j = i ∧ p = h.claims ∨ j ≠ i ∧ h.pending j = some p := by
  by_cases hji : j = i
  · subst hji
    simp [eq_comm]
  · rw [pending_claim_of_ne h hji]
    simp [hji]

/-- A party with nothing pending may claim the next position when it is enqueued. -/
theorem Exact.claim (hx : h.Exact) (hidle : h.pending i = none)
    (hroom : h.claims < h.enqueued.length) : (h.claim i).Exact where
  claims_le := hroom
  valued := hx.valued
  once := hx.once
  claimed_iff p := by
    constructor
    · intro hlt
      rcases Nat.lt_succ_iff_lt_or_eq.mp hlt with hlt | rfl
      · refine ((hx.claimed_iff p).mp hlt).imp id ?_
        rintro ⟨j, hj⟩
        have hji : j ≠ i := by
          rintro rfl
          simp [hidle] at hj
        exact ⟨j, by rw [pending_claim_of_ne h hji, hj]⟩
      · exact Or.inr ⟨i, pending_claim h i⟩
    · rintro (hdone | ⟨j, hj⟩)
      · exact Nat.lt_succ_of_lt ((hx.claimed_iff p).mpr (Or.inl hdone))
      · rcases (pending_claim_iff h i j p).mp hj with ⟨-, rfl⟩ | ⟨-, hj⟩
        · exact Nat.lt_succ_self _
        · exact Nat.lt_succ_of_lt (hx.pending_lt hj)
  not_delivered j p hj := by
    rcases (pending_claim_iff h i j p).mp hj with ⟨-, rfl⟩ | ⟨-, hj⟩
    · intro hdone
      exact absurd ((hx.claimed_iff _).mpr (Or.inl hdone)) (Nat.lt_irrefl _)
    · exact hx.not_delivered j p hj
  holder j k p hj hk := by
    rcases (pending_claim_iff h i j p).mp hj with ⟨hji, hjp⟩ | ⟨-, hj⟩ <;>
      rcases (pending_claim_iff h i k p).mp hk with ⟨hki, hkp⟩ | ⟨-, hk⟩
    · rw [hji, hki]
    · exact absurd hjp (Nat.ne_of_lt (hx.pending_lt hk))
    · exact absurd hkp (Nat.ne_of_lt (hx.pending_lt hj))
    · exact hx.holder j k p hj hk

theorem deliver_eq {p : Nat} (hp : h.pending i = some p) (value : T) :
    h.deliver i value =
      { h with
        pending := Function.update h.pending i none
        returned := (p, value) :: h.returned } := by
  rw [deliver, hp]

/-- The handed over party has nothing pending, the others are as they were. -/
theorem pending_deliver {p : Nat} (hp : h.pending i = some p) (value : T) (j : ι) (q : Nat) :
    (h.deliver i value).pending j = some q ↔ j ≠ i ∧ h.pending j = some q := by
  rw [deliver_eq hp]
  by_cases hji : j = i
  · simp [hji]
  · simp [hji]

theorem delivered_deliver {p : Nat} (hp : h.pending i = some p) (value : T) :
    (h.deliver i value).delivered = p :: h.delivered := by
  rw [deliver_eq hp]
  rfl

/-- A party may be handed the value of the position it claimed. -/
theorem Exact.deliver (hx : h.Exact) {p : Nat} {value : T} (hp : h.pending i = some p)
    (hvalue : h.enqueued[p]? = some value) : (h.deliver i value).Exact where
  claims_le := by
    rw [deliver_eq hp]
    exact hx.claims_le
  valued q v hmem := by
    rw [deliver_eq hp] at hmem ⊢
    rcases List.mem_cons.mp hmem with heq | hmem
    · cases heq
      exact hvalue
    · exact hx.valued q v hmem
  once := by
    rw [delivered_deliver hp]
    exact List.nodup_cons.mpr ⟨hx.not_delivered i p hp, hx.once⟩
  claimed_iff q := by
    have hclaims : (h.deliver i value).claims = h.claims := by rw [deliver_eq hp]
    rw [hclaims, hx.claimed_iff q, delivered_deliver hp, List.mem_cons]
    constructor
    · rintro (hdone | ⟨j, hj⟩)
      · exact Or.inl (Or.inr hdone)
      · by_cases hji : j = i
        · rw [hji, hp] at hj
          cases hj
          exact Or.inl (Or.inl rfl)
        · exact Or.inr ⟨j, (pending_deliver hp value j q).mpr ⟨hji, hj⟩⟩
    · rintro ((rfl | hdone) | ⟨j, hj⟩)
      · exact Or.inr ⟨i, hp⟩
      · exact Or.inl hdone
      · exact Or.inr ⟨j, ((pending_deliver hp value j q).mp hj).2⟩
  not_delivered j q hj := by
    obtain ⟨hji, hj⟩ := (pending_deliver hp value j q).mp hj
    rw [delivered_deliver hp, List.mem_cons, not_or]
    refine ⟨?_, hx.not_delivered j q hj⟩
    rintro rfl
    exact hji (hx.holder j i q hj hp)
  holder j k q hj hk :=
    hx.holder j k q ((pending_deliver hp value j q).mp hj).2
      ((pending_deliver hp value k q).mp hk).2

end Delivery

end ScalBase.Foundation
