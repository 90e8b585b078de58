/-
  Jobs/Dispatch.lean --- the groups of one `JobsDispatch`.

  The number of groups is `jobCount / groupSize` rounded up, over 32-bit words.  Where
  `jobCount + groupSize - 1` fits, the groups are the chunks of the jobs, and no product or
  sum in the loop wraps either.  Where it does not, it wraps to less than `groupSize`,
  and no group is dispatched at all.
-/
import ScalBase.Jobs.Model
import ScalBase.Foundation.Chunks
import ScalBase.Foundation.Run

set_option autoImplicit false

namespace ScalBase.Jobs

open Foundation Foundation.Chunks

/-! ## The calls for a group -/

/-- The jobs of a group. -/
def Job.indices (job : Job) : List Nat :=
  List.range' job.groupJobOffset (job.groupJobEnd - job.groupJobOffset)

/-- What the loop of `Work` calls the task with, from `groupJobOffset` to `groupJobEnd`. -/
def Job.calls (job : Job) : List JobArgs := job.indices.map job.args

/-- A worker that is at the head of the loop makes these calls. -/
theorem Job.exec_callTask {numThreads workers w startingQueue i : Nat} (hw : w < workers)
    {job : Job} :
    ∀ n {j : Nat} {s : State}, s.workers w = .running startingQueue i job j →
      j + n ≤ job.groupJobEnd →
      ∃ s', exec (State.step numThreads workers) s (List.replicate n (.callTask w)) = some s' ∧
        s'.workers w = .running startingQueue i job (j + n) ∧
        s'.called = ((List.range' j n).map fun k => (job.task, job.args k)).reverse ++
          s.called := by
  intro n
  induction n with
  | zero => exact fun hs _ => ⟨_, rfl, hs, rfl⟩
  | succ n ih =>
    intro j s hs hle
    have hstep : State.step numThreads workers s (.callTask w) =
        some { s.worker w (.running startingQueue i job (j + 1)) with
          called := (job.task, job.args j) :: s.called } := by
      rw [State.step, hs]
      exact if_pos ⟨hw, by omega⟩
    obtain ⟨s', hexec, hworker, hcalled⟩ := ih (j := j + 1) (s := { s.worker w
      (.running startingQueue i job (j + 1)) with called := (job.task, job.args j) :: s.called })
      (Function.update_self ..) (by omega)
    refine ⟨s', ?_, ?_, ?_⟩
    · rw [List.replicate_succ, exec_cons _ hstep, hexec]
    · rw [hworker]
      congr 1
      omega
    · rw [hcalled, List.range'_succ, List.map_cons, List.reverse_cons, List.append_assoc]
      rfl

/-- A worker that has popped a group calls the task for its jobs, and then lowers the
counter. -/
theorem Job.work {numThreads workers w startingQueue i : Nat} (hw : w < workers) {job : Job}
    (hle : job.groupJobOffset ≤ job.groupJobEnd) {s : State}
    (hs : s.workers w = .running startingQueue i job job.groupJobOffset) :
    ∃ s', exec (State.step numThreads workers) s
        (List.replicate job.calls.length (.callTask w)) = some s' ∧
      s'.called = (job.calls.map fun args => (job.task, args)).reverse ++ s.called ∧
      State.step numThreads workers s' (.callTask w) = none ∧
      (State.step numThreads workers s' (.lowerCounter w)).isSome := by
  have hlength : job.calls.length = job.groupJobEnd - job.groupJobOffset := by
    rw [calls, indices, List.length_map, List.length_range']
  obtain ⟨s', hexec, hworker, hcalled⟩ :=
    @Job.exec_callTask numThreads workers w startingQueue i hw job job.calls.length _ s hs
      (by omega)
  have hend : job.groupJobOffset + job.calls.length = job.groupJobEnd := by omega
  rw [hend] at hworker
  refine ⟨s', hexec, ?_, ?_, ?_⟩
  · rw [hcalled, hlength, calls, indices, List.map_map]
    rfl
  · rw [State.step, hworker]
    exact if_neg fun h => Nat.lt_irrefl _ h.2
  · rw [State.step, hworker]
    simp only [hw, Nat.lt_irrefl, not_false_eq_true, and_self, if_true, Option.isSome_some]

/-! ## The groups of a call -/

/-- `JobIndex` `j` lies in the range of the group. -/
def Job.Covers (job : Job) (j : Nat) : Prop := job.groupJobOffset ≤ j ∧ j < job.groupJobEnd

instance (job : Job) : DecidablePred job.Covers := fun _ => inferInstanceAs (Decidable (_ ∧ _))

/-- The ranges of the groups partition the jobs, none is longer than `groupSize`, and the
calls for the groups are one for each job, with one first and one last in each group. -/
structure CoversOnce (jobCount groupSize : Nat) (groups : List Job) : Prop where
  partition : ∀ j, groups.countP (·.Covers j) = if j < jobCount then 1 else 0
  size : ∀ job ∈ groups, job.groupJobEnd - job.groupJobOffset ≤ groupSize
  calls : ∀ j, (groups.flatMap Job.calls).countP (·.jobIndex = j) = if j < jobCount then 1 else 0
  first : ∀ job ∈ groups, job.calls.countP (·.isFirstJobInGroup) = 1
  last : ∀ job ∈ groups, job.calls.countP (·.isLastJobInGroup) = 1

theorem Job.count_indices (job : Job) (j : Nat) :
    job.indices.count j = if job.Covers j then 1 else 0 := by
  have hmem : j ∈ job.indices ↔ job.Covers j := by
    rw [indices, List.mem_range'_1, Covers]
    omega
  rw [indices, List.Nodup.count List.nodup_range']
  exact if_congr hmem rfl rfl

/-- How many groups a job lies in is how often it is among their jobs. -/
theorem countP_covers (groups : List Job) (j : Nat) :
    groups.countP (·.Covers j) = (groups.flatMap Job.indices).count j := by
  induction groups with
  | nil => rfl
  | cons job groups ih =>
    rw [List.flatMap_cons, List.count_append, job.count_indices, List.countP_cons, ih, Nat.add_comm]
    simp only [decide_eq_true_eq]

theorem countP_calls (groups : List Job) (j : Nat) :
    (groups.flatMap Job.calls).countP (·.jobIndex = j) = (groups.flatMap Job.indices).count j := by
  induction groups with
  | nil => rfl
  | cons job groups ih =>
    rw [List.flatMap_cons, List.flatMap_cons, List.countP_append, List.count_append, ih, Job.calls,
      List.countP_map]
    congr 1

/-- A group that is not empty has one first job. -/
theorem Job.countP_first {job : Job} (h : job.groupJobOffset < job.groupJobEnd) :
    job.calls.countP (·.isFirstJobInGroup) = 1 := by
  have hcount := job.count_indices job.groupJobOffset
  rw [if_pos ⟨Nat.le_refl _, h⟩] at hcount
  rw [calls, List.countP_map]
  exact hcount

/-- A group that is not empty has one last job. -/
theorem Job.countP_last {job : Job} (h : job.groupJobOffset < job.groupJobEnd)
    (hword : job.groupJobEnd < 2 ^ 32) : job.calls.countP (·.isLastJobInGroup) = 1 := by
  have hcount := job.count_indices (job.groupJobEnd - 1)
  have hlast : u32 (job.groupJobEnd + (2 ^ 32 - 1)) = job.groupJobEnd - 1 := by
    unfold u32
    omega
  rw [if_pos ⟨by omega, by omega⟩, ← hlast] at hcount
  rw [calls, List.countP_map]
  exact hcount

section Fits

variable {jobCount groupSize : Nat} (hpos : 0 < groupSize) (hfits : jobCount + groupSize ≤ 2 ^ 32)

include hpos hfits

theorem jobsDispatchGroupCount_eq :
    jobsDispatchGroupCount jobCount groupSize = chunkCount jobCount groupSize := by
  have hsum : u32 (jobCount + groupSize + (2 ^ 32 - 1)) = jobCount + groupSize - 1 := by
    unfold u32
    omega
  rw [jobsDispatchGroupCount, chunkCount, hsum]

/-- Neither the product nor the sum of a group wraps. -/
theorem range_eq {groupId : Nat} (hlt : groupId * groupSize < jobCount) :
    u32 (groupId * groupSize) = groupId * groupSize ∧
      u32 (groupId * groupSize + groupSize) = groupId * groupSize + groupSize := by
  constructor <;> exact Nat.mod_eq_of_lt (by omega)

/-- The groups are the chunks of the jobs. -/
theorem mem_jobsDispatchGroups {handle task stack : Nat} {job : Job}
    (hjob : job ∈ jobsDispatchGroups handle jobCount groupSize task stack) :
    ∃ groupId, groupId * groupSize < jobCount ∧ job.groupJobOffset = groupId * groupSize ∧
      job.groupJobEnd = min (groupId * groupSize + groupSize) jobCount := by
  obtain ⟨groupId, hmem, rfl⟩ := List.mem_map.mp hjob
  rw [jobsDispatchGroupCount_eq hpos hfits, List.mem_range, lt_chunkCount_iff hpos] at hmem
  obtain ⟨hproduct, hsum⟩ := range_eq hpos hfits hmem
  exact ⟨groupId, hmem, hproduct, by simp only [hproduct, hsum]⟩

theorem flatMap_indices (handle task stack : Nat) :
    (jobsDispatchGroups handle jobCount groupSize task stack).flatMap Job.indices =
      List.range jobCount := by
  rw [← flatMap_chunk hpos, jobsDispatchGroups, jobsDispatchGroupCount_eq hpos hfits,
    List.flatMap_map]
  refine List.flatMap_congr fun groupId hmem => ?_
  rw [List.mem_range, lt_chunkCount_iff hpos] at hmem
  obtain ⟨hproduct, hsum⟩ := range_eq hpos hfits hmem
  simp only [Job.indices, chunk, hproduct, hsum]

theorem coversOnce (handle task stack : Nat) : CoversOnce jobCount groupSize
    (jobsDispatchGroups handle jobCount groupSize task stack) := by
  have hcount : ∀ j, (List.range jobCount).count j = if j < jobCount then 1 else 0 := by
    intro j
    rw [List.nodup_range.count]
    exact if_congr List.mem_range rfl rfl
  refine ⟨fun j => ?_, fun job hjob => ?_, fun j => ?_, fun job hjob => ?_, fun job hjob => ?_⟩
  · rw [countP_covers, flatMap_indices hpos hfits, hcount]
  · obtain ⟨groupId, -, hoffset, hend⟩ := mem_jobsDispatchGroups hpos hfits hjob
    omega
  · rw [countP_calls, flatMap_indices hpos hfits, hcount]
  · obtain ⟨groupId, hlt, hoffset, hend⟩ := mem_jobsDispatchGroups hpos hfits hjob
    exact Job.countP_first (by omega)
  · obtain ⟨groupId, hlt, hoffset, hend⟩ := mem_jobsDispatchGroups hpos hfits hjob
    exact Job.countP_last (by omega) (by omega)

end Fits

/-- Where the sum wraps there is no group. -/
theorem jobsDispatchGroups_wrap {jobCount groupSize : Nat} (hjobs : jobCount < 2 ^ 32)
    (hsize : groupSize < 2 ^ 32) (hwrap : 2 ^ 32 < jobCount + groupSize) (handle task stack : Nat) :
    jobsDispatchGroups handle jobCount groupSize task stack = [] := by
  have hcount : jobsDispatchGroupCount jobCount groupSize = 0 := by
    rw [jobsDispatchGroupCount]
    apply Nat.div_eq_of_lt
    unfold u32
    omega
  rw [jobsDispatchGroups, hcount]
  rfl

/-- For every number of jobs and every group size other than 0, `JobsDispatch` covers every
job once exactly when the sum of the two is at most 2^32. -/
theorem jobsDispatch_coversOnce_iff (jobCount groupSize : UInt32) (hpos : 0 < groupSize)
    (handle task stack : Nat) :
    CoversOnce jobCount.toNat groupSize.toNat
        (jobsDispatchGroups handle jobCount.toNat groupSize.toNat task stack) ↔
      jobCount.toNat + groupSize.toNat ≤ 2 ^ 32 := by
  have hjobs : jobCount.toNat < 2 ^ 32 := jobCount.toNat_lt
  have hsize : groupSize.toNat < 2 ^ 32 := groupSize.toNat_lt
  constructor
  · intro hcovers
    by_contra hwrap
    have hfirst := hcovers.partition 0
    rw [jobsDispatchGroups_wrap hjobs hsize (Nat.lt_of_not_le hwrap), if_pos (by omega)] at hfirst
    cases hfirst
  · exact fun hfits => coversOnce hpos hfits handle task stack

/-- Seven jobs in groups of three. -/
theorem jobsDispatch_coversOnce_seven :
    CoversOnce 7 3 (jobsDispatchGroups 0 7 3 0 0) ↔ 7 + 3 ≤ 2 ^ 32 :=
  jobsDispatch_coversOnce_iff 7 3 (by decide) 0 0 0

/-- The largest count in groups of two: no group is made, and no job runs. -/
theorem jobsDispatch_covers_nothing :
    jobsDispatchGroups 0 (2 ^ 32 - 1) 2 0 0 = [] ∧
      ¬ CoversOnce (2 ^ 32 - 1) 2 (jobsDispatchGroups 0 (2 ^ 32 - 1) 2 0 0) := by
  have hempty : jobsDispatchGroups 0 (2 ^ 32 - 1) 2 0 0 = [] :=
    jobsDispatchGroups_wrap (by decide) (by decide) (by decide) 0 0 0
  refine ⟨hempty, fun hcovers => ?_⟩
  have hfirst := hcovers.partition 0
  rw [hempty, if_pos (by decide)] at hfirst
  cases hfirst

end ScalBase.Jobs
