/-
  Profiler/Report.lean --- which anchors `EndAndPrintProfile` prints.

  The report goes through all anchors and prints those whose `ElapsedSelf` is not
  zero.  The outermost scopes of a run take their time from the anchor 0, which is no
  scope's: it is printed, without a label, after every run that took any time.  And a
  scope that has no time of its own is not printed.  What remains is the run in which
  nothing is to be printed.
-/
import ScalBase.Profiler

set_option autoImplicit false

namespace ScalBase.Profilers

open ScalBase.Foundation

/-! ## The report -/

/-- `EndAndPrintProfile`: the total time and the index of the anchor that
`PrintTimeElapsed` is called with, one call after another.  The rest of the function
measures the frequency of the clock for its first line. -/
def endAndPrintProfile (p : Profiler) (startTime endTime : Nat) : List (Nat × Nat) :=
  let totalCPUElapsed := sub64 endTime startTime
  (List.range 4096).filterMap fun anchorIndex =>
    if (p.anchors anchorIndex).elapsedSelf ≠ 0 then some (totalCPUElapsed, anchorIndex) else none

/-- The report lists the anchors that were hit, and finds a label for each. -/
structure Reports (p : Profiler) (startTime endTime : Nat) : Prop where
  anchors : (endAndPrintProfile p startTime endTime).map Prod.snd =
    (List.range 4096).filter fun a => 0 < (p.anchors a).hitCount
  labels : ∀ call ∈ endAndPrintProfile p startTime endTime, (p.anchors call.2).label ≠ none

theorem printed_eq (p : Profiler) (startTime endTime : Nat) :
    (endAndPrintProfile p startTime endTime).map Prod.snd =
      (List.range 4096).filter fun a => (p.anchors a).elapsedSelf ≠ 0 := by
  rw [endAndPrintProfile, List.map_filterMap, ← List.filterMap_eq_filter]
  congr 1
  funext a
  by_cases h : (p.anchors a).elapsedSelf = 0 <;> simp [h, Option.guard]

theorem Reports.elapsedSelf_iff {p : Profiler} {startTime endTime a : Nat}
    (h : Reports p startTime endTime) (ha : a < 4096) :
    (p.anchors a).elapsedSelf ≠ 0 ↔ 0 < (p.anchors a).hitCount := by
  have hmem : a ∈ (List.range 4096).filter (fun a => (p.anchors a).elapsedSelf ≠ 0) ↔
      a ∈ (List.range 4096).filter fun a => 0 < (p.anchors a).hitCount := by
    rw [← printed_eq p startTime endTime, h.anchors]
  simpa [ha] using hmem

/-- Where no anchor has a counter that is not zero, nothing is printed. -/
theorem Reports.of_zero {p : Profiler} (startTime endTime : Nat)
    (h : ∀ a < 4096, (p.anchors a).elapsedSelf = 0 ∧ (p.anchors a).hitCount = 0) :
    Reports p startTime endTime := by
  have hnone : (endAndPrintProfile p startTime endTime).map Prod.snd = [] := by
    rw [printed_eq, List.filter_eq_nil_iff]
    intro a ha
    simp [(h a (List.mem_range.mp ha)).1]
  refine ⟨?_, fun call hcall => ?_⟩
  · rw [hnone, eq_comm, List.filter_eq_nil_iff]
    intro a ha
    simp [(h a (List.mem_range.mp ha)).2]
  · rw [List.map_eq_nil_iff] at hnone
    rw [hnone] at hcall
    exact absurd hcall List.not_mem_nil

/-! ## What a run leaves in the counters -/

section Counters

variable {run : Nest Opening Nat}

/-- The time spent in all outermost scopes together. -/
def rootTime (run : Nest Opening Nat) : ℤ := (run.roots.map duration).sum

/-- No anchor has more time of its own than the outermost scopes took together. -/
theorem selfTime_le_rootTime : ∀ {run : Nest Opening Nat}, Ordered run.brackets → ∀ a,
    selfTime a run ≤ rootTime run := by
  intro run
  induction run with
  | nil => intro _ a; rfl
  | scope o inner t rest ihInner ihRest =>
    intro hord a
    obtain ⟨hinner, hrest, hle, hwithin, -⟩ := hord.scope
    have hself := ihInner hinner a
    have hafter := ihRest hrest a
    have hroots := sum_roots_le inner hle hinner hwithin
    have hsum : rootTime (.scope o inner t rest) = duration (o, t) + rootTime rest := List.sum_cons
    have hdur : duration (o, t) = t - o.cpuTime := rfl
    rw [selfTime_scope, hsum]
    unfold rootTime at *
    split_ifs <;> linarith

theorem rootTime_nonneg (h : Ordered run.brackets) : 0 ≤ rootTime run :=
  (selfTime_nonneg h 0).trans (selfTime_le_rootTime h 0)

theorem rootTime_lt (h : Ordered run.brackets) (hword : ∀ e ∈ run.brackets, reading e < 2 ^ 64) :
    rootTime run < 2 ^ 64 := by
  have hle := @sum_roots_le run 0 (2 ^ 64 - 1) (Nat.zero_le _) h
    fun e he => ⟨Nat.zero_le _, Nat.le_pred_of_lt (hword e he)⟩
  exact hle.trans_lt (by norm_num)

/-- No scope has the anchor 0. -/
theorem activationsOf_zero : ∀ {run : Nest Opening Nat},
    (∀ o, .enter o ∈ run.brackets → 1 ≤ o.anchorIndex) → activationsOf 0 run = [] := by
  intro run
  induction run with
  | nil => intro _; rfl
  | scope o inner t rest ihInner ihRest =>
    intro h
    simp only [Nest.brackets_scope, List.mem_cons, List.mem_append] at h
    have ho : 1 ≤ o.anchorIndex := h o (Or.inl rfl)
    rw [activationsOf_scope, if_neg (by omega), ihInner fun o' ho' => h o' (Or.inr (Or.inl ho')),
      ihRest fun o' ho' => h o' (Or.inr (Or.inr (Or.inr ho')))]
    rfl

variable {q : Profiler} (hgains : Gains run idle.profiler q) (hwords : q.Words)

include hgains hwords

/-- An anchor is hit as often as its scopes run, up to the width of the counter. -/
theorem hitCount_eq_zero_iff (a : Nat) : (q.anchors a).hitCount = 0 ↔ 2 ^ 64 ∣ hits a run := by
  have h := hgains.hitCount a
  rw [idle, Nat.cast_zero, zero_add] at h
  rw [← ZMod.natCast_eq_zero_iff, ← h, ZMod.natCast_eq_zero_iff]
  refine ⟨fun h0 => h0 ▸ dvd_zero _, fun hdvd => Nat.eq_zero_of_dvd_of_lt hdvd (hwords a).2.2⟩

/-- The time of the outermost scopes is taken from the anchor 0. -/
theorem elapsedSelf_zero_iff (hord : Ordered run.brackets)
    (hread : ∀ e ∈ run.brackets, reading e < 2 ^ 64)
    (hanchor : ∀ o, .enter o ∈ run.brackets → 1 ≤ o.anchorIndex) :
    (q.anchors 0).elapsedSelf = 0 ↔ rootTime run = 0 := by
  have h := hgains.elapsedSelf 0
  have hself : selfTime 0 run = 0 := by rw [selfTime, activationsOf_zero hanchor]; rfl
  have hneg : ((q.anchors 0).elapsedSelf : Word) = -(rootTime run : Word) := by
    have hroot : 0 = idle.profiler.parentIndex := rfl
    rw [h, if_pos hroot, hself, rootTime]
    simp [idle]
  constructor
  · intro hzero
    rw [hzero, Nat.cast_zero, zero_eq_neg] at hneg
    exact (word_eq (by norm_num) (rootTime_nonneg hord) (rootTime_lt hord hread)
      (by rw [hneg, Nat.cast_zero])).symm
  · intro hzero
    rw [hzero, Int.cast_zero, neg_zero] at hneg
    exact_mod_cast word_eq (hwords 0).1 le_rfl (by norm_num) (by rw [hneg, Int.cast_zero])

/-- Where the outermost scopes took no time, no anchor has any. -/
theorem elapsedSelf_eq_zero (hord : Ordered run.brackets)
    (hread : ∀ e ∈ run.brackets, reading e < 2 ^ 64)
    (hanchor : ∀ o, .enter o ∈ run.brackets → 1 ≤ o.anchorIndex) (hzero : rootTime run = 0)
    (a : Nat) : (q.anchors a).elapsedSelf = 0 := by
  rcases Nat.eq_zero_or_pos a with rfl | ha
  · exact (elapsedSelf_zero_iff hgains hwords hord hread hanchor).mpr hzero
  · have hself : selfTime a run = 0 :=
      le_antisymm (hzero ▸ selfTime_le_rootTime hord a) (selfTime_nonneg hord a)
    have h := hgains.elapsedSelf a
    rw [if_neg (by exact Nat.ne_of_gt ha), sub_zero, idle, Nat.cast_zero, zero_add, hself] at h
    exact_mod_cast word_eq (hwords a).1 le_rfl (by norm_num) h

end Counters

/-! ## Whole runs -/

/-- After a run from the idle profiler the report lists the scopes that ran exactly where
the outermost scopes took no time and the counters of all anchors are back at zero, so
where there is nothing to list. -/
theorem report_lists_scopes_iff {events : List (Delimiter Opening Nat)} {m : Machine}
    (hrun : exec step idle events = some m) (hclosed : m.scopes = [])
    (hanchor : ∀ o, .enter o ∈ events → 1 ≤ o.anchorIndex ∧ o.anchorIndex < 4096)
    (hword : ∀ e ∈ events, reading e < 2 ^ 64) (hclock : Ordered events) (startTime endTime : Nat) :
    ∃ run : Nest Opening Nat, run.brackets = events ∧
      (Reports m.profiler startTime endTime ↔
        rootTime run = 0 ∧ ∀ a < 4096, 2 ^ 64 ∣ hits a run) := by
  obtain ⟨run, rfl⟩ := closed_run_nest hrun hclosed
  obtain ⟨q, hq, hgains⟩ := run_nest run idle.profiler idle.scopes hword
  obtain rfl : (⟨q, idle.scopes⟩ : Machine) = m := Option.some.inj (hq.symm.trans hrun)
  have hwords : q.Words := run_words run.brackets (fun _ => by simp [idle]) hq
  have hanchor' : ∀ o, .enter o ∈ run.brackets → 1 ≤ o.anchorIndex := fun o ho => (hanchor o ho).1
  have hself := elapsedSelf_eq_zero hgains hwords hclock hword hanchor'
  have hhits := hitCount_eq_zero_iff hgains hwords
  refine ⟨run, rfl, fun hreports => ?_, fun hidle => ?_⟩
  · -- The anchor 0 was never hit, so the outermost scopes left it as it was.
    have hroot : rootTime run = 0 := by
      rw [← elapsedSelf_zero_iff hgains hwords hclock hword hanchor']
      have hzero : (q.anchors 0).hitCount = 0 := by
        rw [hhits, hits, activationsOf_zero hanchor']
        exact dvd_zero _
      have hiff := hreports.elapsedSelf_iff (by norm_num : 0 < 4096)
      rw [hzero] at hiff
      exact not_not.mp (fun h => absurd (hiff.mp h) (Nat.lt_irrefl 0))
    refine ⟨hroot, fun a ha => ?_⟩
    rw [← hhits]
    have hiff := hreports.elapsedSelf_iff ha
    rw [hself hroot a] at hiff
    exact Nat.eq_zero_of_not_pos fun hpos => hiff.mpr hpos rfl
  · obtain ⟨hzero, hnone⟩ := hidle
    exact .of_zero startTime endTime fun a ha => ⟨hself hzero a, (hhits a).mpr (hnone a ha)⟩

/-- One scope of the anchor 1 from 10 to 20. -/
def singleRun : Nest Opening Nat := .scope ⟨"f", 1, 10⟩ .nil 20 .nil

/-- The condition for it: the outermost scope takes time, so the report is wrong. -/
theorem report_lists_scopes_single : ∃ m, exec step idle singleRun.brackets = some m ∧
    ∃ run : Nest Opening Nat, run.brackets = singleRun.brackets ∧
      (Reports m.profiler 0 30 ↔ rootTime run = 0 ∧ ∀ a < 4096, 2 ^ 64 ∣ hits a run) := by
  refine ⟨_, rfl, report_lists_scopes_iff rfl rfl ?_ ?_ (by decide) 0 30⟩
  · intro o ho
    obtain rfl : o = ⟨"f", 1, 10⟩ := by simpa [singleRun, Nest.brackets] using ho
    decide
  · simp [singleRun, Nest.brackets, reading]

/-- The anchor 0 is printed after it. -/
theorem report_lists_root : ∃ m, exec step idle singleRun.brackets = some m ∧ m.scopes = [] ∧
    ¬ Reports m.profiler 0 30 := by
  refine ⟨_, rfl, rfl, fun hreports => ?_⟩
  have hiff := hreports.elapsedSelf_iff (by norm_num : 0 < 4096)
  exact absurd (hiff.mp (by decide)) (by decide)

end ScalBase.Profilers
