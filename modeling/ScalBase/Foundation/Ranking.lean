/-
  Foundation/Ranking.lean --- components that come to rest.

  `total cost places n` adds up what the first `n` places cost.  A rank is a number of
  a state.  Where counted calls lower it and no call raises it, a run without end
  makes no counted call from some call on.
-/
import ScalBase.Foundation.Run

set_option autoImplicit false

namespace ScalBase.Foundation.Ranking

open Finset

/-! ## Costs of places -/

section Total

variable {β : Type*} {n i : Nat} (cost : β → Nat) (places : Nat → β)

/-- What the first `n` places cost. -/
def total (n : Nat) : Nat := ∑ i ∈ range n, cost (places i)

/-- A write to a place trades its old cost for the new one. -/
theorem total_update (hi : i < n) (x : β) :
    total cost (Function.update places i x) n + cost (places i) = total cost places n + cost x := by
  have hmem : i ∈ range n := mem_range.mpr hi
  have hcomp : (fun j => cost (Function.update places i x j)) =
      Function.update (fun j => cost (places j)) i (cost x) := by
    funext j
    by_cases h : j = i
    · subst h
      simp
    · simp [h]
  unfold total
  rw [hcomp, sum_update_of_mem hmem, ← add_sum_erase _ _ hmem, sdiff_singleton_eq_erase]
  ac_rfl

end Total

/-! ## Runs that come to rest -/

section Runs

variable {σ α : Type*} {step : σ → α → Option σ} {ok : σ → α → Prop}

/-- What a rank has to meet: counted calls lower it and no call raises it, in states
with `I`. -/
structure Ranks (step : σ → α → Option σ) (ok : σ → α → Prop) (I : σ → Prop) (counted : α → Prop)
    (rank : σ → Nat) : Prop where
  lower : ∀ s a t, I s → ok s a → step s a = some t → counted a → rank t < rank s
  keep : ∀ s a t, I s → ok s a → step s a = some t → rank t ≤ rank s

variable {I : σ → Prop} {counted : α → Prop} {rank : σ → Nat}

/-- A run without end. -/
structure Forever (step : σ → α → Option σ) (ok : σ → α → Prop) (states : Nat → σ)
    (calls : Nat → α) : Prop where
  ok : ∀ n, ok (states n) (calls n)
  step : ∀ n, step (states n) (calls n) = some (states (n + 1))

variable {states : Nat → σ} {calls : Nat → α}

/-- What every call keeps holds in every state of a run without end. -/
theorem Forever.invariant (h : Forever step ok states calls) (hstart : I (states 0))
    (hkeep : ∀ s a t, I s → ok s a → step s a = some t → I t) : ∀ n, I (states n)
  | 0 => hstart
  | n + 1 => hkeep _ _ _ (h.invariant hstart hkeep n) (h.ok n) (h.step n)

/-- What is left of a run without end. -/
theorem Forever.drop (h : Forever step ok states calls) (k : Nat) :
    Forever step ok (fun n => states (k + n)) fun n => calls (k + n) :=
  ⟨fun n => h.ok (k + n), fun n => h.step (k + n)⟩

/-- In a run without end that stays in states with `I`, no call is counted from some
call on. -/
theorem Ranks.eventually (h : Ranks step ok I counted rank) :
    ∀ {states : Nat → σ} {calls : Nat → α}, Forever step ok states calls → (∀ n, I (states n)) →
      ∃ k, ∀ n, k ≤ n → ¬ counted (calls n) := by
  intro states calls
  -- Induction on the rank of the first state: a counted call leaves a run of lower rank.
  induction hr : rank (states 0) using Nat.strong_induction_on generalizing states calls with
  | _ r ih =>
    intro hrun hI
    by_cases hnone : ∀ n, ¬ counted (calls n)
    · exact ⟨0, fun n _ => hnone n⟩
    · push Not at hnone
      obtain ⟨m, hm⟩ := hnone
      have hmono : ∀ n, rank (states n) ≤ rank (states 0) := by
        intro n
        induction n with
        | zero => exact le_rfl
        | succ n ihn => exact (h.keep _ _ _ (hI n) (hrun.ok n) (hrun.step n)).trans ihn
      have hlower := h.lower _ _ _ (hI m) (hrun.ok m) (hrun.step m) hm
      obtain ⟨k, hk⟩ := ih (rank (states (m + 1))) (by have := hmono m; omega) rfl
        (hrun.drop (m + 1)) fun n => hI (m + 1 + n)
      refine ⟨m + 1 + k, fun n hn => ?_⟩
      have heq : m + 1 + (n - (m + 1)) = n := by omega
      have := hk (n - (m + 1)) (by omega)
      rwa [heq] at this

/-- A run that ends where a call changes nothing goes on forever with that call. -/
theorem Run.forever {s u : σ} {as : List α} {a : α} (hrun : Run step ok s as u) (hok : ok u a)
    (hstep : step u a = some u) :
    ∃ states calls, Forever step ok states calls ∧ states 0 = s ∧
      ∃ k, ∀ n, k ≤ n → states n = u ∧ calls n = a := by
  induction hrun with
  | nil s =>
    exact ⟨fun _ => s, fun _ => a, ⟨fun _ => hok, fun _ => hstep⟩, rfl, 0, fun _ _ => ⟨rfl, rfl⟩⟩
  | @cons s t u b as hb ht _ ih =>
    obtain ⟨states, calls, hforever, rfl, k, hk⟩ := ih hok hstep
    refine ⟨fun n => n.casesOn s states, fun n => n.casesOn b calls,
      ⟨fun n => ?_, fun n => ?_⟩, rfl, k + 1, fun n hn => ?_⟩
    · cases n with
      | zero => exact hb
      | succ n => exact hforever.ok n
    · cases n with
      | zero => exact ht
      | succ n => exact hforever.step n
    · obtain ⟨n, rfl⟩ : ∃ m, n = m + 1 := ⟨n - 1, by omega⟩
      exact hk n (by omega)

end Runs

end ScalBase.Foundation.Ranking
