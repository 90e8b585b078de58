/-
  Foundation/Run.lean --- sequences of calls on a component.

  A component is a step function `σ → α → Option σ`: the state before, the call,
  and the state after when the call returns.  `exec` makes the calls of a list
  one after another.  `Run` is the same with a side condition `ok` that each call
  has to meet in the state it is made in.  A state reached in a run is the end of
  a run of a prefix of its calls, so what holds at the end of every run holds in
  every state reached.  `AtEach` is a property of every call of a sequence in the
  state it is made in.  `replies` is what a caller sees of a sequence.
-/
import Mathlib.Tactic

set_option autoImplicit false

namespace ScalBase.Foundation

variable {σ τ α : Type*}

/-- Make the calls of a list one after another. -/
def exec (step : σ → α → Option σ) : σ → List α → Option σ
  | s, [] => some s
  | s, a :: as => (step s a).bind fun t => exec step t as

theorem exec_cons {step : σ → α → Option σ} {s t : σ} {a : α} (as : List α)
    (h : step s a = some t) : exec step s (a :: as) = exec step t as := by
  simp [exec, h]

/-- The calls of one list after those of another. -/
theorem exec_append {step : σ → α → Option σ} : ∀ (as bs : List α) {s : σ},
    exec step s (as ++ bs) = (exec step s as).bind fun t => exec step t bs := by
  intro as bs
  induction as with
  | nil => intro s; rfl
  | cons b as ih =>
    intro s
    cases h : step s b with
    | none => simp [exec, h]
    | some t => rw [List.cons_append, exec_cons _ h, exec_cons _ h, ih]

/-- One more call at the end. -/
theorem exec_concat {step : σ → α → Option σ} (as : List α) (a : α) {s : σ} :
    exec step s (as ++ [a]) = (exec step s as).bind fun t => step t a := by
  rw [exec_append]
  congr 1
  funext t
  cases h : step t a <;> simp [exec, h]

/-- Calls that always return are a fold. -/
theorem exec_total (f : σ → α → σ) (s : σ) (as : List α) :
    exec (fun s a => some (f s a)) s as = some (as.foldl f s) := by
  induction as generalizing s with
  | nil => rfl
  | cons a as ih => rw [exec_cons as rfl, ih, List.foldl_cons]

/-- Forward simulation along a sequence: `Q` is what the calls to come meet.  If a call
that meets it returns, keeps `R` with the abstract step and leaves `Q` for the rest, the
sequence returns and keeps `R`. -/
theorem exec_simulates_along {step : σ → α → Option σ} {astep : τ → α → τ} (R : σ → τ → Prop)
    (Q : σ → τ → List α → Prop)
    (hstep : ∀ s x a as, R s x → Q s x (a :: as) →
      ∃ t, step s a = some t ∧ R t (astep x a) ∧ Q t (astep x a) as) :
    ∀ (as : List α) {s : σ} {x : τ}, R s x → Q s x as →
      ∃ t, exec step s as = some t ∧ R t (as.foldl astep x) := by
  intro as
  induction as with
  | nil => intro s x h _; exact ⟨s, rfl, h⟩
  | cons a as ih =>
    intro s x h hQ
    obtain ⟨t, ht, hR, hQ'⟩ := hstep s x a as h hQ
    rw [exec_cons as ht]
    exact ih hR hQ'

/-- The same where every call returns and keeps `R`. -/
theorem exec_simulates {step : σ → α → Option σ} {astep : τ → α → τ} (R : σ → τ → Prop)
    (hstep : ∀ s x a, R s x → ∃ t, step s a = some t ∧ R t (astep x a)) (as : List α)
    {s : σ} {x : τ} (hR : R s x) : ∃ t, exec step s as = some t ∧ R t (as.foldl astep x) := by
  refine exec_simulates_along R (fun _ _ _ => True) (fun s x a as h _ => ?_) as hR trivial
  obtain ⟨t, ht, hR'⟩ := hstep s x a h
  exact ⟨t, ht, hR', trivial⟩

/-- The invariant rule for calls that always return. -/
theorem exec_invariant {step : σ → α → Option σ} (I : σ → Prop)
    (hstep : ∀ s a, I s → ∃ t, step s a = some t ∧ I t) (as : List α) {s : σ} (h : I s) :
    ∃ t, exec step s as = some t ∧ I t :=
  @exec_simulates σ Unit α step (fun x _ => x) (fun s _ => I s)
    (fun s _ a hs => hstep s a hs) as s () h

/-- The invariant rule for calls that may not return. -/
theorem exec_keeps {step : σ → α → Option σ} (I : σ → Prop)
    (hstep : ∀ s a t, I s → step s a = some t → I t) :
    ∀ {as : List α} {s t : σ}, I s → exec step s as = some t → I t := by
  intro as
  induction as with
  | nil =>
    intro s t h hexec
    cases hexec
    exact h
  | cons a as ih =>
    intro s t h hexec
    obtain ⟨u, hu, hrest⟩ := Option.bind_eq_some_iff.mp hexec
    exact ih (hstep s a u h hu) hrest

/-- A sequence of calls each of which returns and meets `ok` where it is made. -/
inductive Run (step : σ → α → Option σ) (ok : σ → α → Prop) : σ → List α → σ → Prop
  | nil (s : σ) : Run step ok s [] s
  | cons {s t u : σ} {a : α} {as : List α} (hok : ok s a) (hstep : step s a = some t)
      (hrest : Run step ok t as u) : Run step ok s (a :: as) u

namespace Run

variable {step : σ → α → Option σ} {ok : σ → α → Prop}

/-- A run is what `exec` does. -/
theorem exec_eq : ∀ {s : σ} {as : List α} {u : σ},
    Run step ok s as u → exec step s as = some u := by
  intro s as u h
  induction h with
  | nil s => rfl
  | cons _ hstep _ ih => rw [exec_cons _ hstep, ih]

/-- The invariant rule: what holds at the start and is kept by every admitted
call holds at the end. -/
theorem invariant (I : σ → Prop)
    (hkeep : ∀ s a t, I s → ok s a → step s a = some t → I t) :
    ∀ {s : σ} {as : List α} {u : σ}, Run step ok s as u → I s → I u := by
  intro s as u h
  induction h with
  | nil s => exact id
  | cons hok hstep _ ih => exact fun hs => ih (hkeep _ _ _ hs hok hstep)

/-- The simulation rule: a relation with an abstract state kept by every admitted
call relates the ends of the two runs. -/
theorem simulates {astep : τ → α → τ} (R : σ → τ → Prop)
    (hkeep : ∀ s x a t, R s x → ok s a → step s a = some t → R t (astep x a)) :
    ∀ {s : σ} {as : List α} {u : σ}, Run step ok s as u →
      ∀ {x : τ}, R s x → R u (as.foldl astep x) := by
  intro s as u h
  induction h with
  | nil s => exact id
  | cons hok hstep _ ih => exact fun hR => ih (hkeep _ _ _ _ hR hok hstep)

end Run

/-! ## A property of every call -/

section AtEach

variable {step : σ → α → Option σ} {P : σ → α → Prop} {s : σ}

/-- Every call of a sequence meets `P` in the state it is made in. -/
def AtEach (step : σ → α → Option σ) (P : σ → α → Prop) (s : σ) (as : List α) : Prop :=
  ∀ done a t, done ++ [a] <+: as → exec step s done = some t → P t a

theorem AtEach.nil : AtEach step P s [] := by
  intro done a t hpre
  simp at hpre

theorem AtEach.cons {a : α} {as : List α} (h : P s a)
    (hrest : ∀ t, step s a = some t → AtEach step P t as) : AtEach step P s (a :: as) := by
  intro done b t hpre ht
  cases done with
  | nil =>
    obtain ⟨rfl, -⟩ := List.cons_prefix_cons.mp hpre
    cases ht
    exact h
  | cons c done =>
    obtain ⟨rfl, hpre'⟩ := List.cons_prefix_cons.mp hpre
    obtain ⟨s', hs', ht'⟩ := Option.bind_eq_some_iff.mp ht
    exact hrest s' hs' done b t hpre' ht'

theorem AtEach.head {a : α} {as : List α} (h : AtEach step P s (a :: as)) : P s a :=
  h [] a s (List.cons_prefix_cons.mpr ⟨rfl, List.nil_prefix⟩) rfl

theorem AtEach.tail {a : α} {as : List α} {t : σ} (h : AtEach step P s (a :: as))
    (ht : step s a = some t) : AtEach step P t as :=
  fun done b u hpre hu =>
    h (a :: done) b u (List.cons_prefix_cons.mpr ⟨rfl, hpre⟩) (by rw [exec_cons _ ht, hu])

/-- The calls after one that returns are made in the state that it leaves. -/
theorem atEach_cons_iff {a : α} {as : List α} {t : σ} (ht : step s a = some t) :
    AtEach step P s (a :: as) ↔ P s a ∧ AtEach step P t as := by
  constructor
  · exact fun h => ⟨h.head, h.tail ht⟩
  · rintro ⟨ha, has⟩
    refine .cons ha fun u hu => ?_
    rw [ht] at hu
    cases hu
    exact has

/-- Calls that leave the state as it is are all made in it. -/
theorem atEach_fixed_iff {as : List α} (hfixed : ∀ a ∈ as, step s a = some s) :
    AtEach step P s as ↔ ∀ a ∈ as, P s a := by
  induction as with
  | nil => simp [AtEach.nil]
  | cons a as ih =>
    rw [atEach_cons_iff (hfixed a (List.mem_cons_self ..)),
      ih fun b hb => hfixed b (List.mem_cons_of_mem a hb), List.forall_mem_cons]

/-- Whether every call meets `P` is found by making them. -/
instance AtEach.decidable [∀ s a, Decidable (P s a)] : ∀ (s : σ) (as : List α),
    Decidable (AtEach step P s as)
  | _, [] => isTrue AtEach.nil
  | s, a :: as =>
      match hstep : step s a with
      | none =>
          decidable_of_iff (P s a) ⟨fun h => .cons h fun t ht => by simp [hstep] at ht, AtEach.head⟩
      | some t =>
          have := AtEach.decidable t as
          decidable_of_iff (P s a ∧ AtEach step P t as)
            ⟨fun h => .cons h.1 fun t' ht' => by rw [hstep] at ht'; cases ht'; exact h.2,
              fun h => ⟨h.head, h.tail hstep⟩⟩

theorem AtEach.of_prefix {as bs : List α} (h : AtEach step P s bs) (hpre : as <+: bs) :
    AtEach step P s as :=
  fun done a t hd => h done a t (hd.trans hpre)

/-- Calls that return and each meet `P` are a run. -/
theorem AtEach.run {as : List α} {u : σ} (h : AtEach step P s as)
    (hexec : exec step s as = some u) : Run step P s as u := by
  induction as generalizing s with
  | nil =>
    cases hexec
    exact .nil _
  | cons a as ih =>
    obtain ⟨t, ht, hrest⟩ := Option.bind_eq_some_iff.mp hexec
    exact .cons h.head ht (ih (h.tail ht) hrest)

/-- Forward simulation over the calls of a sequence that each meet `P`. -/
theorem AtEach.exec_simulates {astep : τ → α → τ} (R : σ → τ → Prop)
    (hstep : ∀ s x a, R s x → P s a → ∃ t, step s a = some t ∧ R t (astep x a))
    {as : List α} {x : τ} (hR : R s x) (h : AtEach step P s as) :
    ∃ t, exec step s as = some t ∧ R t (as.foldl astep x) := by
  refine exec_simulates_along R (fun s _ as => AtEach step P s as) ?_ as hR h
  intro s x a as hR h
  obtain ⟨t, ht, hR'⟩ := hstep s x a hR h.head
  exact ⟨t, ht, hR', h.tail ht⟩

/-- The same where `P` is about the abstract state that a call is made in. -/
theorem AtEach.exec_refines {astep : τ → α → τ} (R : σ → τ → Prop) {ok : τ → α → Prop}
    (hstep : ∀ s x a, R s x → ok x a → ∃ t, step s a = some t ∧ R t (astep x a)) {as : List α}
    {x : τ} (hR : R s x) (h : AtEach (fun x a => some (astep x a)) ok x as) :
    ∃ t, exec step s as = some t ∧ R t (as.foldl astep x) := by
  refine exec_simulates_along R (fun _ x as => AtEach (fun x a => some (astep x a)) ok x as)
    ?_ as hR h
  intro s x a as hR h
  obtain ⟨t, ht, hR'⟩ := hstep s x a hR h.head
  exact ⟨t, ht, hR', h.tail rfl⟩

/-- Every call leads to a state with `G` exactly when every state passed has `G`. -/
theorem atEach_leads_iff {G : σ → Prop} (hs : G s) {as : List α} :
    AtEach step (fun t a => ∀ u, step t a = some u → G u) s as ↔
      ∀ done t, done <+: as → exec step s done = some t → G t := by
  constructor
  · intro h done t hpre ht
    cases done using List.reverseRecOn with
    | nil =>
      cases ht
      exact hs
    | append_singleton done a =>
      rw [exec_concat] at ht
      obtain ⟨u, hu, hstep⟩ := Option.bind_eq_some_iff.mp ht
      exact h done a u hpre hu t hstep
  · intro h done a t hpre ht u hu
    exact h (done ++ [a]) u hpre (by rw [exec_concat, ht, Option.bind_some, hu])

/-- The same where every call also returns. -/
theorem atEach_returns_iff {G : σ → Prop} (hs : G s) {as : List α} :
    AtEach step (fun t a => ∃ u, step t a = some u ∧ G u) s as ↔
      ∀ done, done <+: as → ∃ t, exec step s done = some t ∧ G t := by
  constructor
  · intro h done
    induction done using List.reverseRecOn with
    | nil => exact fun _ => ⟨s, rfl, hs⟩
    | append_singleton done a ih =>
      intro hpre
      obtain ⟨t, ht, -⟩ := ih ((List.prefix_append done [a]).trans hpre)
      obtain ⟨u, hu, hG⟩ := h done a t hpre ht
      exact ⟨u, by rw [exec_concat, ht, Option.bind_some, hu], hG⟩
  · intro h done a t hpre ht
    obtain ⟨u, hu, hG⟩ := h _ hpre
    rw [exec_concat, ht, Option.bind_some] at hu
    exact ⟨u, hu, hG⟩

/-- An invariant kept by the calls that meet `clean` holds after a sequence of such
calls. -/
theorem AtEach.invariant {ok clean : σ → α → Prop} (I : σ → Prop)
    (hkeep : ∀ s a, I s → ok s a → clean s a → ∃ t, step s a = some t ∧ I t) :
    ∀ {as : List α}, I s → AtEach step ok s as → AtEach step clean s as →
      ∃ t, exec step s as = some t ∧ I t := by
  intro as hs
  induction as using List.reverseRecOn with
  | nil => intro _ _; exact ⟨s, rfl, hs⟩
  | append_singleton as a ih =>
    intro hok hclean
    have hshort : as <+: as ++ [a] := List.prefix_append as [a]
    obtain ⟨t, ht, hI⟩ := ih (hok.of_prefix hshort) (hclean.of_prefix hshort)
    obtain ⟨u, hu, hI'⟩ :=
      hkeep t a hI (hok as a t (List.prefix_refl _) ht) (hclean as a t (List.prefix_refl _) ht)
    exact ⟨u, by rw [exec_concat, ht, Option.bind_some, hu], hI'⟩

/-- The same with one condition on the calls. -/
theorem AtEach.exec_invariant {ok : σ → α → Prop} (I : σ → Prop)
    (hkeep : ∀ s a, I s → ok s a → ∃ t, step s a = some t ∧ I t) {as : List α} (hs : I s)
    (hok : AtEach step ok s as) : ∃ t, exec step s as = some t ∧ I t :=
  AtEach.invariant I (fun s a h _ hc => hkeep s a h hc) hs hok hok

/-- What the calls meet under an invariant that they keep, they meet. -/
theorem AtEach.imp {ok : σ → α → Prop} (I : σ → Prop)
    (hkeep : ∀ s a, I s → ok s a → ∃ t, step s a = some t ∧ I t)
    (himp : ∀ s a, I s → ok s a → P s a) {as : List α} (hs : I s) (hok : AtEach step ok s as) :
    AtEach step P s as := by
  intro done a t hpre ht
  have hshort : done <+: as := (List.prefix_append done [a]).trans hpre
  obtain ⟨u, hu, hI⟩ := AtEach.exec_invariant I hkeep hs (hok.of_prefix hshort)
  rw [ht] at hu
  cases hu
  exact himp t a hI (hok done a t hpre ht)

/-- If, under an invariant, a call does well exactly when it is clean, and clean calls
keep the invariant, then all calls of a sequence do well exactly when all are clean. -/
theorem atEach_iff {ok clean good : σ → α → Prop} (I : σ → Prop)
    (hkeep : ∀ s a, I s → ok s a → clean s a → ∃ t, step s a = some t ∧ I t)
    (hiff : ∀ s a, I s → ok s a → (good s a ↔ clean s a)) (hs : I s) {as : List α}
    (hok : AtEach step ok s as) : AtEach step good s as ↔ AtEach step clean s as := by
  constructor
  · intro hgood
    -- Induction on the sequence: the calls before the last are clean.
    induction as using List.reverseRecOn with
    | nil => exact AtEach.nil
    | append_singleton as a ih =>
      have hshort : as <+: as ++ [a] := List.prefix_append as [a]
      have hclean := ih (hok.of_prefix hshort) (hgood.of_prefix hshort)
      obtain ⟨t, ht, hI⟩ := AtEach.invariant I hkeep hs (hok.of_prefix hshort) hclean
      intro done b u hpre hu
      rcases List.prefix_concat_iff.mp hpre with heq | hpre
      · obtain ⟨rfl, hb⟩ := List.append_inj' heq rfl
        cases hb
        rw [ht] at hu
        cases hu
        exact (hiff t a hI (hok _ a t (List.prefix_refl _) ht)).mp
          (hgood _ a t (List.prefix_refl _) ht)
      · exact hclean done b u hpre hu
  · intro hclean done a t hpre ht
    have hshort : done <+: as := (List.prefix_append done [a]).trans hpre
    obtain ⟨t', ht', hI⟩ :=
      AtEach.invariant I hkeep hs (hok.of_prefix hshort) (hclean.of_prefix hshort)
    rw [ht] at ht'
    cases ht'
    exact (hiff t a hI (hok done a t hpre ht)).mpr (hclean done a t hpre ht)

/-- Let clean calls keep `R`, and a call that returns with `P` be clean.  As `R` implies
`P`, all calls of a sequence return with `P` exactly when all are clean. -/
theorem refines_iff {astep : τ → α → τ} (R P : σ → τ → Prop) {ok clean : τ → α → Prop}
    (himp : ∀ s x, R s x → P s x)
    (hkeep : ∀ s x a, R s x → ok x a → clean x a → ∃ t, step s a = some t ∧ R t (astep x a))
    (hclean : ∀ s x a, R s x → ok x a → (∃ t, step s a = some t ∧ P t (astep x a)) → clean x a) :
    ∀ (as : List α) {s : σ} {x : τ}, R s x → AtEach (fun x a => some (astep x a)) ok x as →
      ((∀ done, done <+: as → ∃ t, exec step s done = some t ∧ P t (done.foldl astep x)) ↔
        AtEach (fun x a => some (astep x a)) clean x as) := by
  intro as
  induction as with
  | nil =>
    intro s x h _
    refine ⟨fun _ => .nil, fun _ done hdone => ?_⟩
    obtain rfl := List.prefix_nil.mp hdone
    exact ⟨s, rfl, himp s x h⟩
  | cons a as ih =>
    intro s x h hok
    have hok' := hok.tail rfl
    -- After a clean call the rest is a sequence of the same kind.
    have hrest : ∀ {t : σ}, step s a = some t → R t (astep x a) →
        ((∀ done, done <+: a :: as → ∃ t, exec step s done = some t ∧ P t (done.foldl astep x)) ↔
          AtEach (fun x a => some (astep x a)) clean (astep x a) as) := by
      intro t ht hR
      rw [← ih hR hok']
      constructor
      · intro hall done hdone
        obtain ⟨v, hv, hPv⟩ := hall (a :: done) (List.cons_prefix_cons.mpr ⟨rfl, hdone⟩)
        rw [exec_cons _ ht] at hv
        exact ⟨v, hv, hPv⟩
      · intro hall done hdone
        cases done with
        | nil => exact ⟨s, rfl, himp s x h⟩
        | cons b done =>
          obtain ⟨rfl, hdone'⟩ := List.cons_prefix_cons.mp hdone
          obtain ⟨v, hv, hPv⟩ := hall done hdone'
          exact ⟨v, by rw [exec_cons _ ht, hv], hPv⟩
    constructor
    · intro hall
      obtain ⟨t, ht, hP⟩ := hall [a] (List.cons_prefix_cons.mpr ⟨rfl, List.nil_prefix⟩)
      obtain ⟨u, hu, hu'⟩ := Option.bind_eq_some_iff.mp ht
      cases hu'
      have hcall := hclean s x a h hok.head ⟨t, hu, hP⟩
      obtain ⟨u, hu, hR⟩ := hkeep s x a h hok.head hcall
      exact (atEach_cons_iff rfl).mpr ⟨hcall, (hrest hu hR).mp hall⟩
    · intro hall
      obtain ⟨t, ht, hR⟩ := hkeep s x a h hok.head hall.head
      exact (hrest ht hR).mpr (hall.tail rfl)

/-- If a call from related states returns with related states exactly when the call is
clean for the abstract state, then all calls of a sequence do exactly when all are
clean. -/
theorem simulates_iff {astep : τ → α → τ} (R : σ → τ → Prop) {ok clean : τ → α → Prop}
    (hcall : ∀ s x a, R s x → ok x a →
      ((∃ t, step s a = some t ∧ R t (astep x a)) ↔ clean x a)) :
    ∀ (as : List α) {s : σ} {x : τ}, R s x → AtEach (fun x a => some (astep x a)) ok x as →
      ((∀ done, done <+: as → ∃ t, exec step s done = some t ∧ R t (done.foldl astep x)) ↔
        AtEach (fun x a => some (astep x a)) clean x as) :=
  refines_iff R R (fun _ _ h => h) (fun s x a h hok => (hcall s x a h hok).mpr)
    fun s x a h hok => (hcall s x a h hok).mp

end AtEach

/-! ## What a caller sees -/

section Replies

variable {ρ : Type*}

/-- The replies of a sequence of calls, up to the first call that does not return. -/
def replies (call : σ → α → Option (ρ × σ)) : σ → List α → List ρ
  | _, [] => []
  | s, a :: as =>
      match call s a with
      | none => []
      | some (r, t) => r :: replies call t as

theorem rel_map {α' β β' : Type*} {Q : α → α' → Prop} {Q' : β → β' → Prop} {o : Option α}
    {o' : Option α'} {f : α → β} {g : α' → β'} (h : Option.Rel Q o o')
    (hfg : ∀ x y, Q x y → Q' (f x) (g y)) : Option.Rel Q' (o.map f) (o'.map g) := by
  cases h with
  | none => exact .none
  | some hxy => exact .some (hfg _ _ hxy)

theorem exists_of_rel_some {α' β' : Type*} {Q : α' → β' → Prop} {o : Option α'} {y : β'}
    (h : Option.Rel Q o (some y)) : ∃ x, o = some x ∧ Q x y := by
  cases h with
  | some hxy => exact ⟨_, rfl, hxy⟩

theorem eq_none_of_rel_none {α' β' : Type*} {Q : α' → β' → Prop} {o : Option α'}
    (h : Option.Rel Q o none) : o = none := by
  cases h with
  | none => rfl

theorem rel_join {α' β' : Type*} {Q : α' → β' → Prop} {o : Option (Option α')}
    {o' : Option (Option β')} (h : Option.Rel (Option.Rel Q) o o') :
    Option.Rel Q (o.bind id) (o'.bind id) := by
  cases h with
  | none => exact .none
  | some h' => exact h'

/-- Two components look the same if related states answer every call alike, and related
states follow. -/
theorem replies_eq {call : σ → α → Option (ρ × σ)} {call' : τ → α → Option (ρ × τ)}
    (R : σ → τ → Prop)
    (hcall : ∀ s t a, R s t →
      Option.Rel (fun x y => x.1 = y.1 ∧ R x.2 y.2) (call s a) (call' t a)) :
    ∀ (as : List α) {s : σ} {t : τ}, R s t → replies call s as = replies call' t as := by
  intro as
  induction as with
  | nil => intro s t _; rfl
  | cons a as ih =>
    intro s t h
    have hrel := hcall s t a h
    rw [replies, replies]
    generalize call s a = x at hrel
    generalize call' t a = y at hrel
    cases hrel with
    | none => rfl
    | @some x y hxy =>
      obtain ⟨r, s'⟩ := x
      obtain ⟨r', t'⟩ := y
      obtain ⟨rfl, hR⟩ := hxy
      exact congrArg (r :: ·) (ih hR)

/-- Let `Q` be what the calls to come meet.  If a call that meets it is answered as the abstract
component answers it, related states follow and `Q` is left for the rest, then a sequence is
served to its end. -/
theorem replies_along {call : σ → α → Option (ρ × σ)} {serve : τ → α → ρ × τ} (R : σ → τ → Prop)
    (Q : σ → τ → List α → Prop)
    (hcall : ∀ s x a as, R s x → Q s x (a :: as) →
      ∃ t, call s a = some ((serve x a).1, t) ∧ R t (serve x a).2 ∧ Q t (serve x a).2 as) :
    ∀ (as : List α) {s : σ} {x : τ}, R s x → Q s x as →
      replies call s as = replies (fun x a => some (serve x a)) x as ∧
        ∃ t, exec (fun s a => (call s a).map Prod.snd) s as = some t ∧
          R t (as.foldl (fun x a => (serve x a).2) x) := by
  intro as
  induction as with
  | nil => exact fun hR _ => ⟨rfl, _, rfl, hR⟩
  | cons a as ih =>
    intro s x hR hQ
    obtain ⟨t, ht, hR', hQ'⟩ := hcall s x a as hR hQ
    obtain ⟨hreplies, u, hu, hRu⟩ := ih hR' hQ'
    refine ⟨?_, u, ?_, hRu⟩
    · rw [replies, ht, replies]
      exact congrArg (_ :: ·) hreplies
    · rw [exec_cons as (show (call s a).map Prod.snd = some t by rw [ht]; rfl), hu]

/-- The calls each meet `ok`, which is about the abstract state that a call is made in. -/
theorem AtEach.serves {call : σ → α → Option (ρ × σ)} {serve : τ → α → ρ × τ} (R : σ → τ → Prop)
    {ok : τ → α → Prop}
    (hcall : ∀ s x a, R s x → ok x a →
      ∃ t, call s a = some ((serve x a).1, t) ∧ R t (serve x a).2)
    {as : List α} {s : σ} {x : τ} (hR : R s x)
    (hok : AtEach (fun x a => some (serve x a).2) ok x as) :
    replies call s as = replies (fun x a => some (serve x a)) x as ∧
      ∃ t, exec (fun s a => (call s a).map Prod.snd) s as = some t ∧
        R t (as.foldl (fun x a => (serve x a).2) x) := by
  refine replies_along R (fun _ x as => AtEach (fun x a => some (serve x a).2) ok x as) ?_ as hR hok
  intro s x a as hR hok
  obtain ⟨t, ht, hR'⟩ := hcall s x a hR hok.head
  exact ⟨t, ht, hR', hok.tail rfl⟩

/-- The same where `ok` is about the concrete state. -/
theorem AtEach.answers {call : σ → α → Option (ρ × σ)} {serve : τ → α → ρ × τ} (R : σ → τ → Prop)
    {ok : σ → α → Prop}
    (hcall : ∀ s x a, R s x → ok s a →
      ∃ t, call s a = some ((serve x a).1, t) ∧ R t (serve x a).2)
    {as : List α} {s : σ} {x : τ} (hR : R s x)
    (hok : AtEach (fun s a => (call s a).map Prod.snd) ok s as) :
    replies call s as = replies (fun x a => some (serve x a)) x as ∧
      ∃ t, exec (fun s a => (call s a).map Prod.snd) s as = some t ∧
        R t (as.foldl (fun x a => (serve x a).2) x) := by
  refine replies_along R (fun s _ as => AtEach (fun s a => (call s a).map Prod.snd) ok s as)
    ?_ as hR hok
  intro s x a as hR hok
  obtain ⟨t, ht, hR'⟩ := hcall s x a hR hok.head
  exact ⟨t, ht, hR', hok.tail (by rw [ht]; rfl)⟩

end Replies

end ScalBase.Foundation
