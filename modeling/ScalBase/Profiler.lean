/-
  Profiler.lean --- the scope profiler of `Lib/Debug.h`.

  A `ProfilerScope` is an object on the stack: its constructor reads the clock and
  its destructor adds the time that has passed to the counters of an anchor.  So
  scopes are destructed in the reverse order of their construction, and a run is
  a sequence of brackets; the reading of `Platform::GetCPUTime` is part of each.

  Self time is kept by subtracting the time of a scope from the anchor around it,
  with unsigned words that may pass below zero on the way.  The law is therefore
  proved modulo `2 ^ 64` first (`run_nest`), and for the numbers themselves at the
  end of a run.
-/
import ScalBase.Base
import ScalBase.Foundation.Nesting
import ScalBase.Foundation.Run

set_option autoImplicit false

namespace ScalBase.Profilers

open ScalBase.Foundation

/-! ## The profiler -/

structure ProfileAnchor where
  elapsedSelf : Nat
  elapsedChildren : Nat
  hitCount : Nat
  label : Option String

/-- `g_Profiler`, of which a scope uses the anchors, and `g_ProfilerParentIndex`. -/
structure Profiler where
  anchors : Nat → ProfileAnchor
  parentIndex : Nat

structure ProfilerScope where
  label : String
  start : Nat
  oldElapsedChildren : Nat
  anchorIndex : Nat
  parentIndex : Nat

/-- What a constructor is called with, and the clock it reads. -/
structure Opening where
  label : String
  anchorIndex : Nat
  cpuTime : Nat
  deriving DecidableEq

/-- Write to one anchor. -/
def Profiler.setAnchor (p : Profiler) (i : Nat) (f : ProfileAnchor → ProfileAnchor) : Profiler :=
  { p with anchors := Function.update p.anchors i (f (p.anchors i)) }

/-- `ProfilerScope::ProfilerScope`. -/
def ProfilerScope.construct (p : Profiler) (o : Opening) : Profiler × ProfilerScope :=
  ({ p with parentIndex := o.anchorIndex },
    { label := o.label
      start := o.cpuTime
      oldElapsedChildren := (p.anchors o.anchorIndex).elapsedChildren
      anchorIndex := o.anchorIndex
      parentIndex := p.parentIndex })

/-- `ProfilerScope::~ProfilerScope`.  The anchor of the scope and the one around it may
be the same, so the writes are made one after another. -/
def ProfilerScope.destruct (p : Profiler) (scope : ProfilerScope) (cpuTime : Nat) : Profiler :=
  let elapsed := sub64 cpuTime scope.start
  let p := { p with parentIndex := scope.parentIndex }
  let p := p.setAnchor p.parentIndex fun parentAnchor =>
    { parentAnchor with elapsedSelf := sub64 parentAnchor.elapsedSelf elapsed }
  let p := p.setAnchor scope.anchorIndex fun anchor =>
    { anchor with elapsedSelf := u64 (anchor.elapsedSelf + elapsed) }
  let p := p.setAnchor scope.anchorIndex fun anchor =>
    { anchor with elapsedChildren := u64 (scope.oldElapsedChildren + elapsed) }
  let p := p.setAnchor scope.anchorIndex fun anchor =>
    { anchor with hitCount := u64 (anchor.hitCount + 1) }
  p.setAnchor scope.anchorIndex fun anchor => { anchor with label := some scope.label }

/-- The profiler and the scopes on the stack, innermost first. -/
structure Machine where
  profiler : Profiler
  scopes : List ProfilerScope

/-- Construct a scope, or destruct the innermost one. -/
def step (m : Machine) : Delimiter Opening Nat → Option Machine
  | .enter o =>
      let (p, scope) := ProfilerScope.construct m.profiler o
      some ⟨p, scope :: m.scopes⟩
  | .leave cpuTime =>
      match m.scopes with
      | [] => none
      | scope :: scopes => some ⟨scope.destruct m.profiler cpuTime, scopes⟩

theorem step_enter (p : Profiler) (scopes : List ProfilerScope) (o : Opening) :
    step ⟨p, scopes⟩ (.enter o) =
      some ⟨(ProfilerScope.construct p o).1, (ProfilerScope.construct p o).2 :: scopes⟩ := rfl

theorem step_leave (p : Profiler) (scope : ProfilerScope) (scopes : List ProfilerScope) (t : Nat) :
    step ⟨p, scope :: scopes⟩ (.leave t) = some ⟨scope.destruct p t, scopes⟩ := rfl

/-- All counters and the parent index are zero, and no scope is open. -/
def idle : Machine := ⟨⟨fun _ => ⟨0, 0, 0, none⟩, 0⟩, []⟩

/-- The reading of the clock that a bracket takes. -/
def reading : Delimiter Opening Nat → Nat
  | .enter o => o.cpuTime
  | .leave cpuTime => cpuTime

/-! ## What the counters are for -/

/-- The time from the construction of a scope to its destruction. -/
def duration (x : Opening × Nat) : ℤ := x.2 - x.1.cpuTime

/-- The duration of a scope less those of the scopes directly in it. -/
def ownTime (x : Activation Opening Nat) : ℤ :=
  duration (x.enter, x.leave) - (x.inner.roots.map duration).sum

/-- The scopes of the anchor `a`. -/
def activationsOf (a : Nat) (run : Nest Opening Nat) : List (Activation Opening Nat) :=
  (run.activations []).filter fun x => x.enter.anchorIndex = a

/-- The time spent in the anchor `a` itself. -/
def selfTime (a : Nat) (run : Nest Opening Nat) : ℤ := ((activationsOf a run).map ownTime).sum

/-- The time spent in the anchor `a` and below it: a scope of `a` inside another one of
`a` is part of that one's time already. -/
def totalTime (a : Nat) (run : Nest Opening Nat) : ℤ :=
  (((activationsOf a run).filter fun x => a ∉ x.outer.map Opening.anchorIndex).map
    fun x => duration (x.enter, x.leave)).sum

/-- How often the anchor `a` is entered. -/
def hits (a : Nat) (run : Nest Opening Nat) : Nat := (activationsOf a run).length

section Recursion

variable (a : Nat) (o : Opening) (inner : Nest Opening Nat) (t : Nat) (rest : Nest Opening Nat)

theorem activationsOf_scope : activationsOf a (.scope o inner t rest) =
    (if a = o.anchorIndex then [⟨[], o, inner, t⟩] else []) ++
      ((activationsOf a inner).map (Activation.within [o]) ++ activationsOf a rest) := by
  have hin := Nest.activations_append [o] inner []
  rw [List.nil_append] at hin
  rw [activationsOf, Nest.activations_scope, hin, List.filter_cons, List.filter_append,
    List.filter_map]
  by_cases h : a = o.anchorIndex
  · rw [if_pos (decide_eq_true h.symm), if_pos h]
    rfl
  · rw [if_neg (by simpa using Ne.symm h), if_neg h]
    rfl

theorem selfTime_scope : selfTime a (.scope o inner t rest) =
    (if a = o.anchorIndex then duration (o, t) - (inner.roots.map duration).sum else 0) +
      (selfTime a inner + selfTime a rest) := by
  have hown : ownTime ∘ Activation.within [o] = ownTime := rfl
  rw [selfTime, activationsOf_scope, List.map_append, List.map_append, List.map_map, hown,
    List.sum_append, List.sum_append]
  split <;> simp [ownTime, selfTime]

theorem hits_scope : hits a (.scope o inner t rest) =
    (if a = o.anchorIndex then 1 else 0) + (hits a inner + hits a rest) := by
  rw [hits, activationsOf_scope, List.length_append, List.length_append, List.length_map]
  split <;> rfl

/-- A scope of the anchor hides those in it. -/
theorem totalTime_scope : totalTime a (.scope o inner t rest) =
    (if a = o.anchorIndex then duration (o, t) else totalTime a inner) + totalTime a rest := by
  rw [totalTime, activationsOf_scope, List.filter_append, List.filter_append, List.map_append,
    List.map_append, List.sum_append, List.sum_append, List.filter_map, List.map_map]
  by_cases h : a = o.anchorIndex
  · simp [h, totalTime, Activation.within, Function.comp_def, or_imp, forall_and]
  · simp [h, Ne.symm h, totalTime, Activation.within, Function.comp_def, or_imp, forall_and]

end Recursion

/-! ## One scope -/

/-- A counter, read modulo the width of its word. -/
abbrev Word := ZMod (2 ^ 64)

theorem cast_u64 (n : Nat) : (u64 n : Word) = n := ZMod.natCast_mod n (2 ^ 64)

theorem cast_sub64 (a : Nat) {b : Nat} (hb : b ≤ 2 ^ 64) : (sub64 a b : Word) = a - b := by
  rw [sub64, ZMod.natCast_mod, Nat.cast_add, Nat.cast_sub hb, ZMod.natCast_self]
  ring

theorem sub64_lt (a b : Nat) : sub64 a b < 2 ^ 64 := Nat.mod_lt _ (by decide)

section Destruct

variable (p : Profiler) (scope : ProfilerScope) (t a : Nat)

theorem destruct_elapsedSelf (hs : scope.start < 2 ^ 64) :
    (((scope.destruct p t).anchors a).elapsedSelf : Word) =
      (p.anchors a).elapsedSelf - (if a = scope.parentIndex then (t - scope.start : Word) else 0) +
        (if a = scope.anchorIndex then (t - scope.start : Word) else 0) := by
  obtain ⟨label, start, old, k, q⟩ := scope
  have he := (sub64_lt t start).le
  rcases eq_or_ne a q with rfl | hq <;> rcases eq_or_ne a k with rfl | hk <;>
    simp_all [ProfilerScope.destruct, Profiler.setAnchor, Function.update_apply, cast_u64,
      cast_sub64 _ he, cast_sub64 t hs.le]

theorem destruct_elapsedChildren (hs : scope.start < 2 ^ 64) :
    (((scope.destruct p t).anchors a).elapsedChildren : Word) =
      if a = scope.anchorIndex then (scope.oldElapsedChildren + (t - scope.start) : Word)
      else ((p.anchors a).elapsedChildren : Word) := by
  obtain ⟨label, start, old, k, q⟩ := scope
  rcases eq_or_ne a q with rfl | hq <;> rcases eq_or_ne a k with rfl | hk <;>
    simp_all [ProfilerScope.destruct, Profiler.setAnchor, Function.update_apply, cast_u64,
      cast_sub64 t hs.le]

theorem destruct_hitCount : (((scope.destruct p t).anchors a).hitCount : Word) =
    (p.anchors a).hitCount + if a = scope.anchorIndex then 1 else 0 := by
  obtain ⟨label, start, old, k, q⟩ := scope
  rcases eq_or_ne a q with rfl | hq <;> rcases eq_or_ne a k with rfl | hk <;>
    simp_all [ProfilerScope.destruct, Profiler.setAnchor, Function.update_apply, cast_u64]

end Destruct

/-! ## A nest of scopes -/

/-- What the scopes of a run add to the counters: its own scopes are also taken from the
self time of the anchor around them. -/
structure Gains (run : Nest Opening Nat) (p q : Profiler) : Prop where
  parentIndex : q.parentIndex = p.parentIndex
  elapsedSelf : ∀ a, ((q.anchors a).elapsedSelf : Word) = (p.anchors a).elapsedSelf +
    selfTime a run - if a = p.parentIndex then (((run.roots.map duration).sum : ℤ) : Word) else 0
  elapsedChildren : ∀ a, ((q.anchors a).elapsedChildren : Word) =
    (p.anchors a).elapsedChildren + totalTime a run
  hitCount : ∀ a, ((q.anchors a).hitCount : Word) = (p.anchors a).hitCount + hits a run

theorem Gains.nil (p : Profiler) : Gains .nil p p :=
  ⟨rfl, fun a => by simp [selfTime, activationsOf], fun a => by simp [totalTime, activationsOf],
    fun a => by simp [hits, activationsOf]⟩

/-- A scope: its constructor, the scopes in it, its destructor, and the scopes after it. -/
theorem Gains.scope {p q r : Profiler} {o : Opening} {t : Nat} {inner rest : Nest Opening Nat}
    (ho : o.cpuTime < 2 ^ 64) (hin : Gains inner (ProfilerScope.construct p o).1 q)
    (hrest : Gains rest ((ProfilerScope.construct p o).2.destruct q t) r) :
    Gains (.scope o inner t rest) p r := by
  have hdur : ((duration (o, t) : ℤ) : Word) = t - o.cpuTime := by simp [duration]
  refine ⟨hrest.parentIndex, fun a => ?_, fun a => ?_, fun a => ?_⟩
  · -- Inside the scope its anchor is the parent, after it the one that was before.
    have hinner : ((q.anchors a).elapsedSelf : Word) =
        (p.anchors a).elapsedSelf + selfTime a inner -
        if a = o.anchorIndex then (((inner.roots.map duration).sum : ℤ) : Word) else 0 :=
      hin.elapsedSelf a
    have hafter : ((r.anchors a).elapsedSelf : Word) =
        ((q.anchors a).elapsedSelf - (if a = p.parentIndex then (t - o.cpuTime : Word) else 0) +
          if a = o.anchorIndex then (t - o.cpuTime : Word) else 0) + selfTime a rest -
          if a = p.parentIndex then (((rest.roots.map duration).sum : ℤ) : Word) else 0 := by
      rw [hrest.elapsedSelf, destruct_elapsedSelf _ _ _ _ ho]
      rfl
    rw [hafter, hinner, selfTime_scope, Nest.roots_scope, List.map_cons, List.sum_cons]
    split_ifs <;> push_cast [hdur] <;> ring
  · have hafter : ((r.anchors a).elapsedChildren : Word) =
        (if a = o.anchorIndex then
          ((p.anchors o.anchorIndex).elapsedChildren + (t - o.cpuTime) : Word)
        else ((q.anchors a).elapsedChildren : Word)) + totalTime a rest := by
      rw [hrest.elapsedChildren, destruct_elapsedChildren _ _ _ _ ho]
      rfl
    have hinner : ((q.anchors a).elapsedChildren : Word) =
        (p.anchors a).elapsedChildren + totalTime a inner := hin.elapsedChildren a
    rw [hafter, hinner, totalTime_scope]
    split_ifs with h
    · rw [h]
      push_cast [hdur]
      ring
    · push_cast
      ring
  · have hafter : ((r.anchors a).hitCount : Word) =
        (q.anchors a).hitCount + (if a = o.anchorIndex then 1 else 0) + hits a rest := by
      rw [hrest.hitCount, destruct_hitCount]
      rfl
    have hinner : ((q.anchors a).hitCount : Word) = (p.anchors a).hitCount + hits a inner :=
      hin.hitCount a
    rw [hafter, hinner, hits_scope]
    push_cast
    ring

/-- The run of a nest returns to the scopes that were open before it. -/
theorem run_nest : ∀ (run : Nest Opening Nat) (p : Profiler) (scopes : List ProfilerScope),
    (∀ e ∈ run.brackets, reading e < 2 ^ 64) →
    ∃ q, exec step ⟨p, scopes⟩ run.brackets = some ⟨q, scopes⟩ ∧ Gains run p q := by
  intro run
  induction run with
  | nil => intro p scopes _; exact ⟨p, rfl, .nil p⟩
  | scope o inner t rest ihInner ihRest =>
    intro p scopes hread
    simp only [Nest.brackets_scope, List.forall_mem_cons, List.forall_mem_append] at hread
    obtain ⟨ho, hinner, -, hrest⟩ := hread
    obtain ⟨q, hq, hgq⟩ := ihInner (ProfilerScope.construct p o).1
      ((ProfilerScope.construct p o).2 :: scopes) hinner
    obtain ⟨r, hr, hgr⟩ := ihRest ((ProfilerScope.construct p o).2.destruct q t) scopes hrest
    refine ⟨r, ?_, .scope ho hgq hgr⟩
    rw [Nest.brackets_scope, exec_cons _ (step_enter p scopes o), exec_append, hq, Option.bind_some,
      exec_cons _ (step_leave q _ scopes t), hr]

/-! ## Clock readings that do not decrease -/

/-- The readings of the clock do not decrease. -/
def Ordered (events : List (Delimiter Opening Nat)) : Prop :=
  (events.map reading).Pairwise (· ≤ ·)

instance Ordered.decidable (events : List (Delimiter Opening Nat)) : Decidable (Ordered events) :=
  inferInstanceAs (Decidable (List.Pairwise _ _))

theorem Ordered.scope {o : Opening} {t : Nat} {inner rest : Nest Opening Nat}
    (h : Ordered (Nest.scope o inner t rest).brackets) :
    Ordered inner.brackets ∧ Ordered rest.brackets ∧ o.cpuTime ≤ t ∧
      (∀ e ∈ inner.brackets, o.cpuTime ≤ reading e ∧ reading e ≤ t) ∧
      ∀ e ∈ rest.brackets, t ≤ reading e := by
  simp only [Ordered, Nest.brackets_scope, List.map_cons, List.map_append, List.pairwise_cons,
    List.pairwise_append, List.mem_append, List.mem_cons, List.mem_map] at h
  obtain ⟨hfirst, hinner, ⟨hlast, hrest⟩, hcross⟩ := h
  refine ⟨hinner, hrest, hfirst t (Or.inr (Or.inl rfl)), fun e he => ⟨?_, ?_⟩, fun e he => ?_⟩
  · exact hfirst _ (Or.inl ⟨e, he, rfl⟩)
  · exact hcross _ ⟨e, he, rfl⟩ t (Or.inl rfl)
  · exact hlast _ ⟨e, he, rfl⟩

/-- Scopes that do not overlap last no longer than the time in which they all lie. -/
theorem sum_roots_le : ∀ (run : Nest Opening Nat) {lo hi : Nat}, lo ≤ hi →
    Ordered run.brackets → (∀ e ∈ run.brackets, lo ≤ reading e ∧ reading e ≤ hi) →
    (run.roots.map duration).sum ≤ (hi : ℤ) - lo := by
  intro run
  induction run with
  | nil => intro lo hi hle _ _; simpa using hle
  | scope o inner t rest _ ihRest =>
    intro lo hi _ hord hmem
    obtain ⟨-, hrest, -, -, hlater⟩ := hord.scope
    simp only [Nest.brackets_scope, List.forall_mem_cons, List.forall_mem_append] at hmem
    obtain ⟨ho, -, ht, hmem⟩ := hmem
    have hsum := ihRest ht.2 hrest fun e he => ⟨hlater e he, (hmem e he).2⟩
    have hlo : (lo : ℤ) ≤ o.cpuTime := by exact_mod_cast ho.1
    have hsum' : (rest.roots.map duration).sum ≤ (hi : ℤ) - t := hsum
    calc (((o, t) :: rest.roots).map duration).sum
        = ((t : ℤ) - o.cpuTime) + (rest.roots.map duration).sum := List.sum_cons
      _ ≤ (hi : ℤ) - lo := by linarith

/-- No scope is shorter than the scopes directly in it. -/
theorem ownTime_nonneg : ∀ (run : Nest Opening Nat) (outer : List Opening),
    Ordered run.brackets →
    ∀ x ∈ run.activations outer, 0 ≤ ownTime x ∧ 0 ≤ duration (x.enter, x.leave) := by
  intro run
  induction run with
  | nil => intro outer _ x hx; simp at hx
  | scope o inner t rest ihInner ihRest =>
    intro outer hord x hx
    obtain ⟨hinner, hrest, hle, hwithin, -⟩ := hord.scope
    rw [Nest.activations_scope, List.mem_cons, List.mem_append] at hx
    rcases hx with rfl | hx | hx
    · have hdur : (o.cpuTime : ℤ) ≤ t := by exact_mod_cast hle
      exact ⟨sub_nonneg.mpr (sum_roots_le inner hle hinner hwithin), sub_nonneg.mpr hdur⟩
    · exact ihInner _ hinner x hx
    · exact ihRest _ hrest x hx

theorem selfTime_nonneg {run : Nest Opening Nat} (h : Ordered run.brackets) (a : Nat) :
    0 ≤ selfTime a run := by
  refine List.sum_nonneg fun z hz => ?_
  obtain ⟨x, hx, rfl⟩ := List.mem_map.mp hz
  exact (ownTime_nonneg run [] h x (List.mem_filter.mp hx).1).1

theorem totalTime_nonneg {run : Nest Opening Nat} (h : Ordered run.brackets) (a : Nat) :
    0 ≤ totalTime a run := by
  refine List.sum_nonneg fun z hz => ?_
  obtain ⟨x, hx, rfl⟩ := List.mem_map.mp hz
  exact (ownTime_nonneg run [] h x (List.mem_filter.mp (List.mem_filter.mp hx).1).1).2

/-! ## Whole runs -/

/-- The counters are words. -/
def Profiler.Words (p : Profiler) : Prop :=
  ∀ a, (p.anchors a).elapsedSelf < 2 ^ 64 ∧ (p.anchors a).elapsedChildren < 2 ^ 64 ∧
    (p.anchors a).hitCount < 2 ^ 64

theorem Profiler.Words.destruct {p : Profiler} (h : p.Words) (scope : ProfilerScope) (t : Nat) :
    (scope.destruct p t).Words := by
  have hu (n : Nat) : u64 n < 2 ^ 64 := Nat.mod_lt n (by decide)
  have hsub := sub64_lt
  intro a
  have ha := h a
  obtain ⟨label, start, old, k, q⟩ := scope
  rcases eq_or_ne a q with rfl | hq <;> rcases eq_or_ne a k with rfl | hk <;>
    simp_all [ProfilerScope.destruct, Profiler.setAnchor, Function.update_apply]

theorem step_words {m m' : Machine} {e : Delimiter Opening Nat} (h : m.profiler.Words)
    (hstep : step m e = some m') : m'.profiler.Words := by
  obtain ⟨p, scopes⟩ := m
  cases e with
  | enter o =>
    cases hstep
    exact h
  | leave t =>
    cases scopes with
    | nil => cases hstep
    | cons scope scopes =>
      cases hstep
      exact Profiler.Words.destruct h scope t

theorem run_words (events : List (Delimiter Opening Nat)) {m m' : Machine}
    (h : m.profiler.Words) (hrun : exec step m events = some m') : m'.profiler.Words := by
  induction events generalizing m with
  | nil =>
    cases hrun
    exact h
  | cons e events ih =>
    obtain ⟨t, ht, hrest⟩ := Option.bind_eq_some_iff.mp hrun
    exact ih (step_words h ht) hrest

theorem step_openAfter : ∀ (events : List (Delimiter Opening Nat)) {m m' : Machine},
    exec step m events = some m' → openAfter m.scopes.length events = some m'.scopes.length := by
  intro events
  induction events with
  | nil =>
    intro m m' h
    cases h
    rfl
  | cons e events ih =>
    intro m m' h
    obtain ⟨p, scopes⟩ := m
    cases e with
    | enter o =>
      rw [exec_cons _ (step_enter p scopes o)] at h
      exact ih h
    | leave t =>
      cases scopes with
      | nil => cases h
      | cons scope scopes =>
        rw [exec_cons _ (step_leave p scope scopes t)] at h
        exact ih h

/-- A run that leaves no scope open is that of a nest. -/
theorem closed_run_nest {events : List (Delimiter Opening Nat)} {m : Machine}
    (hrun : exec step idle events = some m) (hclosed : m.scopes = []) :
    ∃ run : Nest Opening Nat, run.brackets = events := by
  have h := step_openAfter events hrun
  rw [hclosed] at h
  exact exists_nest h

/-- A word that is a number below the width modulo it is that number. -/
theorem word_eq {n : Nat} {z : ℤ} (hn : n < 2 ^ 64) (hz : 0 ≤ z) (hlt : z < 2 ^ 64)
    (h : (n : Word) = z) : (n : ℤ) = z := by
  have hmod := (ZMod.intCast_eq_intCast_iff (n : ℤ) z (2 ^ 64)).mp (by simpa using h)
  have hn' : (n : ℤ) < 2 ^ 64 := by exact_mod_cast hn
  have hmod' : (n : ℤ) % 2 ^ 64 = z % 2 ^ 64 := by exact_mod_cast hmod
  rwa [Int.emod_eq_of_lt (Int.natCast_nonneg n) hn', Int.emod_eq_of_lt hz hlt] at hmod'

/-- The times add up.  A run from the idle profiler that leaves no scope open, and in
which the clock does not go back, is that of a nest of scopes; for every anchor other
than the outermost one the counters are its self time, its total time without the
scopes inside another of the same anchor, and the number of its scopes. -/
theorem profiler_adds_up {events : List (Delimiter Opening Nat)} {m : Machine}
    (hrun : exec step idle events = some m) (hclosed : m.scopes = [])
    (hword : ∀ e ∈ events, reading e < 2 ^ 64) (hclock : Ordered events) :
    (∃ run : Nest Opening Nat, run.brackets = events) ∧
      ∀ run : Nest Opening Nat, run.brackets = events →
        m.profiler.parentIndex = idle.profiler.parentIndex ∧
        ∀ a, 1 ≤ a → selfTime a run < 2 ^ 64 → totalTime a run < 2 ^ 64 → hits a run < 2 ^ 64 →
          ((m.profiler.anchors a).elapsedSelf : ℤ) = selfTime a run ∧
          ((m.profiler.anchors a).elapsedChildren : ℤ) = totalTime a run ∧
          (m.profiler.anchors a).hitCount = hits a run := by
  refine ⟨closed_run_nest hrun hclosed, ?_⟩
  rintro run rfl
  obtain ⟨q, hq, hgains⟩ := run_nest run idle.profiler idle.scopes hword
  obtain rfl : (⟨q, idle.scopes⟩ : Machine) = m := Option.some.inj (hq.symm.trans hrun)
  have hwords : q.Words := run_words run.brackets (fun _ => by simp [idle]) hq
  refine ⟨hgains.parentIndex, fun a ha hself htotal hhits => ⟨?_, ?_, ?_⟩⟩
  · refine word_eq (hwords a).1 (selfTime_nonneg hclock a) hself ?_
    have h := hgains.elapsedSelf a
    rwa [if_neg (by exact Nat.ne_of_gt ha), sub_zero, idle, Nat.cast_zero, zero_add] at h
  · refine word_eq (hwords a).2.1 (totalTime_nonneg hclock a) htotal ?_
    have h := hgains.elapsedChildren a
    rwa [idle, Nat.cast_zero, zero_add] at h
  · have h := hgains.hitCount a
    rw [idle, Nat.cast_zero, zero_add] at h
    exact_mod_cast word_eq (hwords a).2.2 (Int.natCast_nonneg _) (by exact_mod_cast hhits)
      (by exact_mod_cast h)

/-- A scope of the anchor 1 from 10 to 50, in it one of 2 from 15 to 40, and in that one
of 1 again from 20 to 26. -/
def recursiveRun : Nest Opening Nat :=
  .scope ⟨"f", 1, 10⟩ (.scope ⟨"g", 2, 15⟩ (.scope ⟨"f", 1, 20⟩ .nil 26 .nil) 40 .nil) 50 .nil

theorem profiler_adds_up_recursive : ∃ m, exec step idle recursiveRun.brackets = some m ∧
    (m.profiler.anchors 1).elapsedSelf = 21 ∧ (m.profiler.anchors 1).elapsedChildren = 40 ∧
    (m.profiler.anchors 1).hitCount = 2 := by
  refine ⟨_, rfl, ?_⟩
  obtain ⟨hself, htotal, hhits⟩ := ((@profiler_adds_up recursiveRun.brackets _ rfl rfl
    (by decide) (by decide)).2 recursiveRun rfl).2 1 (by decide) (by decide) (by decide) (by decide)
  have h₁ : selfTime 1 recursiveRun = 21 := by decide
  have h₂ : totalTime 1 recursiveRun = 40 := by decide
  rw [h₁] at hself
  rw [h₂] at htotal
  exact ⟨by exact_mod_cast hself, by exact_mod_cast htotal, hhits⟩

end ScalBase.Profilers
