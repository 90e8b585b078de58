/-
  Foundation/Loop.lean --- bounded execution of an imperative loop.

  A `while (true)` loop is a body that maps the loop state either to another
  state or to a result.  `run body fuel s` takes at most `fuel` turns and answers
  `none` when the loop is still going, so a claim that a loop ends is a claim
  that some explicit amount of fuel yields `some`.

  The rules for a result are here: `run_total` (an invariant and a decreasing
  measure), `run_result` (the invariant alone, for a loop that ends), `run_list`
  (a loop along a list) and `run_path` (a loop whose states are known).  `guard`
  is a loop that has no result in some states, such as those that a machine integer
  cannot hold.  `run_lift` and `run_congr` are the rules for two loops that take the same
  turns.
-/
import Mathlib.Tactic

set_option autoImplicit false

namespace ScalBase.Foundation

/-- What one turn of a loop body decides. -/
inductive Turn (σ ρ : Type*) where
  /-- Go round again from the state `s`. -/
  | again (s : σ)
  /-- Leave the loop with the result `r`. -/
  | done (r : ρ)

/-- Two turns that decide the same, with related states or related results. -/
inductive Turn.Lift {σ τ ρ ρ' : Type*} (R : σ → τ → Prop) (Q : ρ → ρ' → Prop) :
    Turn σ ρ → Turn τ ρ' → Prop
  | again {s : σ} {t : τ} (h : R s t) : Lift R Q (.again s) (.again t)
  | done {r : ρ} {r' : ρ'} (h : Q r r') : Lift R Q (.done r) (.done r')

namespace Loop

variable {σ ρ : Type*}

/-- Run a loop body for at most `fuel` turns. -/
def run (body : σ → Turn σ ρ) : Nat → σ → Option ρ
  | 0, _ => none
  | fuel + 1, s =>
      match body s with
      | .again s' => run body fuel s'
      | .done r => some r

theorem run_succ_again {body : σ → Turn σ ρ} {s s' : σ} (fuel : Nat)
    (h : body s = .again s') : run body (fuel + 1) s = run body fuel s' := by
  simp [run, h]

theorem run_succ_done {body : σ → Turn σ ρ} {s : σ} {r : ρ} (fuel : Nat)
    (h : body s = .done r) : run body (fuel + 1) s = some r := by
  simp [run, h]

/-- Total correctness: if every turn from a state in `I` either leaves with a
result in `Q` or goes on to a state in `I` with a smaller measure, the loop ends
within `μ s + 1` turns with a result in `Q`. -/
theorem run_total {body : σ → Turn σ ρ} (I : σ → Prop) (μ : σ → Nat) (Q : ρ → Prop)
    (hturn : ∀ s, I s → (∃ r, body s = .done r ∧ Q r) ∨
      ∃ s', body s = .again s' ∧ I s' ∧ μ s' < μ s) :
    ∀ {fuel : Nat} {s : σ}, I s → μ s < fuel → ∃ r, run body fuel s = some r ∧ Q r := by
  intro fuel
  induction fuel with
  | zero => intro s _ h; omega
  | succ n ih =>
    intro s hs hμ
    rcases hturn s hs with ⟨r, hb, hr⟩ | ⟨s', hb, hs', hlt⟩
    · rw [run_succ_done _ hb]
      exact ⟨r, rfl, hr⟩
    · rw [run_succ_again _ hb]
      exact ih hs' (by omega)

/-- Partial correctness: if every turn from a state in `I` either leaves with a result in
`Q` or goes on to a state in `I`, a loop that ends has a result in `Q`. -/
theorem run_result {body : σ → Turn σ ρ} (I : σ → Prop) (Q : ρ → Prop)
    (hturn : ∀ s, I s → (∃ r, body s = .done r ∧ Q r) ∨ ∃ s', body s = .again s' ∧ I s') :
    ∀ {fuel : Nat} {s : σ} {r : ρ}, I s → run body fuel s = some r → Q r := by
  intro fuel
  induction fuel with
  | zero => intro s r _ h; cases h
  | succ n ih =>
    intro s r hs h
    rcases hturn s hs with ⟨r', hb, hr⟩ | ⟨s', hb, hs'⟩
    · rw [run_succ_done n hb] at h
      cases h
      exact hr
    · rw [run_succ_again n hb] at h
      exact ih hs' h

/-- A loop along a list: `I xs ys s` is the invariant where the elements `xs` have been
passed and `ys` are to come. -/
theorem run_list {α : Type*} {body : σ → Turn σ ρ} (I : List α → List α → σ → Prop) (Q : ρ → Prop)
    (hnil : ∀ xs s, I xs [] s → ∃ r, body s = .done r ∧ Q r)
    (hcons : ∀ xs x ys s, I xs (x :: ys) s → (∃ r, body s = .done r ∧ Q r) ∨
      ∃ s', body s = .again s' ∧ I (xs ++ [x]) ys s')
    {ys : List α} {fuel : Nat} {s : σ} (hs : I [] ys s) (hfuel : ys.length < fuel) :
    ∃ r, run body fuel s = some r ∧ Q r := by
  -- Induction on the elements to come, for any that have been passed.
  suffices hall : ∀ (ys xs : List α) (fuel : Nat) (s : σ), I xs ys s → ys.length < fuel →
      ∃ r, run body fuel s = some r ∧ Q r from hall ys [] fuel s hs hfuel
  intro ys
  induction ys with
  | nil =>
    intro xs fuel s hs hfuel
    obtain ⟨fuel, rfl⟩ := Nat.exists_eq_succ_of_ne_zero (Nat.ne_of_gt hfuel)
    obtain ⟨r, hb, hr⟩ := hnil xs s hs
    exact ⟨r, run_succ_done fuel hb, hr⟩
  | cons x ys ih =>
    intro xs fuel s hs hfuel
    obtain ⟨fuel, rfl⟩ := Nat.exists_eq_succ_of_ne_zero (Nat.ne_of_gt (Nat.zero_lt_of_lt hfuel))
    rcases hcons xs x ys s hs with ⟨r, hb, hr⟩ | ⟨s', hb, hs'⟩
    · exact ⟨r, run_succ_done fuel hb, hr⟩
    · rw [run_succ_again fuel hb]
      exact ih _ fuel s' hs' (Nat.lt_of_succ_lt_succ hfuel)

/-- `t` is one of the states in which a turn begins, from `s` on. -/
inductive Visits (body : σ → Turn σ ρ) : σ → σ → Prop
  | here (s : σ) : Visits body s s
  | later {s s' t : σ} (hb : body s = .again s') (h : Visits body s' t) : Visits body s t

/-- What every turn keeps holds in all states. -/
theorem Visits.invariant {body : σ → Turn σ ρ} (I : σ → Prop)
    (hagain : ∀ s s', I s → body s = .again s' → I s') {s t : σ} (h : Visits body s t) (hs : I s) :
    I t := by
  induction h with
  | here s => exact hs
  | later hb _ ih => exact ih (hagain _ _ hs hb)

theorem Visits.snoc {body : σ → Turn σ ρ} {s t u : σ} (h : Visits body s t)
    (hb : body t = .again u) : Visits body s u := by
  induction h with
  | here s => exact .later hb (.here u)
  | later hb' _ ih => exact .later hb' (ih hb)

/-- A body that has a result in the states with `ok` only. -/
def guard (ok : σ → Prop) [DecidablePred ok] (body : σ → Turn σ ρ) (s : σ) : Turn σ (Option ρ) :=
  if ok s then
    match body s with
    | .again s' => .again s'
    | .done r => .done (some r)
  else .done none

/-- A loop that ends has the same result with the guard, if the states of its turns all
have `ok`, and none otherwise. -/
theorem run_guard {ok : σ → Prop} [DecidablePred ok] {body : σ → Turn σ ρ} :
    ∀ {fuel : Nat} {s : σ} {r : ρ}, run body fuel s = some r →
      ((∀ t, Visits body s t → ok t) ∧ run (guard ok body) fuel s = some (some r)) ∨
        ((¬ ∀ t, Visits body s t → ok t) ∧ run (guard ok body) fuel s = some none) := by
  intro fuel
  induction fuel with
  | zero => intro s r h; cases h
  | succ n ih =>
    intro s r h
    by_cases hok : ok s
    · cases hb : body s with
      | done r' =>
        have hg : guard ok body s = .done (some r') := by rw [guard, if_pos hok, hb]
        rw [run_succ_done n hb] at h
        cases h
        refine Or.inl ⟨fun t ht => ?_, run_succ_done n hg⟩
        cases ht with
        | here => exact hok
        | later hb' _ => rw [hb] at hb'; cases hb'
      | again s' =>
        have hg : guard ok body s = .again s' := by rw [guard, if_pos hok, hb]
        rw [run_succ_again n hb] at h
        rw [run_succ_again n hg]
        -- The states of the turns from here are this one and those from the next.
        have hall : (∀ t, Visits body s t → ok t) ↔ ∀ t, Visits body s' t → ok t := by
          refine ⟨fun h t ht => h t (.later hb ht), fun h t ht => ?_⟩
          cases ht with
          | here => exact hok
          | later hb' ht' =>
            rw [hb] at hb'
            cases hb'
            exact h t ht'
        rw [hall]
        exact ih h
    · have hg : guard ok body s = .done none := if_neg hok
      exact Or.inr ⟨fun h => hok (h s (.here s)), run_succ_done n hg⟩

/-- A loop whose turns are all admitted ends as it does without the guard. -/
theorem run_guard_eq {ok : σ → Prop} [DecidablePred ok] {body : σ → Turn σ ρ} {fuel : Nat} {s : σ}
    {r : ρ} (hrun : run body fuel s = some r) (hok : ∀ t, Visits body s t → ok t) :
    (run (guard ok body) fuel s).join = some r := by
  rcases @run_guard σ ρ ok _ body fuel s r hrun with ⟨-, hguard⟩ | ⟨hnot, -⟩
  · rw [hguard, Option.join_some]
  · exact absurd hok hnot

/-- A loop that goes through the states `f 0, f 1, …` and leaves at `f d`. -/
theorem run_path {body : σ → Turn σ ρ} (f : Nat → σ) {d : Nat} {r : ρ}
    (hagain : ∀ e < d, body (f e) = .again (f (e + 1))) (hdone : body (f d) = .done r)
    {fuel : Nat} (hfuel : d < fuel) : run body fuel (f 0) = some r := by
  -- Induction on the turns that are left.
  have key : ∀ k e n, e + k = d → k < n → run body n (f e) = some r := by
    intro k
    induction k with
    | zero =>
      intro e n he hn
      obtain ⟨n, rfl⟩ : ∃ n', n = n' + 1 := ⟨n - 1, by omega⟩
      exact run_succ_done n (by rw [← hdone, ← he, Nat.add_zero])
    | succ k ih =>
      intro e n he hn
      obtain ⟨n, rfl⟩ : ∃ n', n = n' + 1 := ⟨n - 1, by omega⟩
      rw [run_succ_again n (hagain e (by omega))]
      exact ih (e + 1) n (by omega) (by omega)
  exact key d 0 fuel (Nat.zero_add d) hfuel

/-- Two loops in lockstep: if related states have related turns, the loops end together,
with related results, or neither has ended. -/
theorem run_lift {τ ρ' : Type*} {body : σ → Turn σ ρ} {body' : τ → Turn τ ρ'} (R : σ → τ → Prop)
    (Q : ρ → ρ' → Prop) (hturn : ∀ s t, R s t → Turn.Lift R Q (body s) (body' t)) :
    ∀ (fuel : Nat) {s : σ} {t : τ}, R s t → Option.Rel Q (run body fuel s) (run body' fuel t) := by
  intro fuel
  induction fuel with
  | zero => intro s t _; exact .none
  | succ n ih =>
    intro s t h
    have hlift := hturn s t h
    rw [run, run]
    generalize body s = x at hlift
    generalize body' t = y at hlift
    cases hlift with
    | again h' => exact ih h'
    | done h' => exact .some h'

/-- Two bodies that agree in the states that are reached. -/
theorem run_congr {body body' : σ → Turn σ ρ} (I : σ → Prop)
    (hturn : ∀ s, I s → body' s = body s ∧ ∀ s', body s = .again s' → I s') :
    ∀ (fuel : Nat) {s : σ}, I s → run body' fuel s = run body fuel s := by
  intro fuel
  induction fuel with
  | zero => intro s _; rfl
  | succ n ih =>
    intro s hs
    obtain ⟨hsame, hnext⟩ := hturn s hs
    rw [run, run, hsame]
    cases hb : body s with
    | again s' => exact ih (hnext s' hb)
    | done r => rfl

/-- Guards that agree on two related states keep their turns related. -/
theorem guard_lift {τ ρ' : Type*} {body : σ → Turn σ ρ} {body' : τ → Turn τ ρ'} {R : σ → τ → Prop}
    {Q : ρ → ρ' → Prop} {ok : σ → Prop} {ok' : τ → Prop} [DecidablePred ok] [DecidablePred ok']
    {s : σ} {t : τ} (hok : ok s ↔ ok' t) (h : Turn.Lift R Q (body s) (body' t)) :
    Turn.Lift R (Option.Rel Q) (guard ok body s) (guard ok' body' t) := by
  rw [guard, guard]
  by_cases hs : ok s
  · rw [if_pos hs, if_pos (hok.mp hs)]
    generalize body s = x at h
    generalize body' t = y at h
    cases h with
    | again h' => exact .again h'
    | done h' => exact .done (.some h')
  · rw [if_neg hs, if_neg (hok.not.mp hs)]
    exact .done .none

end Loop

end ScalBase.Foundation
