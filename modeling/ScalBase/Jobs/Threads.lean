/-
  Jobs/Threads.lean --- the worker threads and the calling thread of `Lib/Jobs.h`.

  Each of the `NumThreads` threads of `JobsInitialize` loads `IsAlive`, runs `Work` and
  waits on its semaphore.  `JobsExecute` and `JobsDispatch` post to the semaphore of the
  queue that they pushed to.  `JobHandleWait` posts to all of them and then runs `Work`
  itself: the calling thread is worker number `NumThreads`.  A move is one shared access
  of one thread; what it does to the queues and the counters is the access of
  `Jobs/Model.lean`.

  A whole `Enqueue` or `Dequeue` is one access there, and so what is proved of the runs of
  `System` is proved of queues whose calls are atomic.  Those of `QueueThreaded.h` are not:
  `Dequeue` gives a slot up before it copies it, and a group may be lost then.

  A `zpl_semaphore` is a counting semaphore.  A thread is started with the address of the
  loop variable of `JobsInitialize`, so the word that it passes to `Work` may be any.
  The destructor of `JobsState` is `shutdown`: `Threads.Count` stays zero after `Resize`,
  so it only stores `IsAlive`.
-/
import ScalBase.Jobs.Balance

set_option autoImplicit false

namespace ScalBase.Jobs

open Foundation Foundation.Slots Queues

/-- Where a worker thread stands in its loop. -/
inductive ThreadPoint where
  /-- About to load `IsAlive`. -/
  | loading
  | inWork
  /-- In `zpl_semaphore_wait`. -/
  | waiting
  | exited
  deriving DecidableEq, Repr

/-- Where the calling thread stands. -/
inductive CallerPoint where
  /-- Between two calls. -/
  | free
  /-- At a group that it has to push. -/
  | pushing
  /-- It has pushed to queue `idx` and is about to post. -/
  | posting (idx : Nat)
  /-- In the loop of `JobHandleWait` that posts. -/
  | waking (handle threadId : Nat)
  /-- In `Work` of `JobHandleWait`, or in the loop after it. -/
  | helping (handle : Nat)
  /-- `JobsState` was destroyed. -/
  | closed
  deriving DecidableEq, Repr

/-- The job system and all threads. -/
structure System where
  jobs : State
  semaphore : Nat → Nat
  isAlive : Bool
  threads : Nat → ThreadPoint
  main : CallerPoint

/-- One shared access. -/
inductive Move where
  | jobsExecute (handle task stack : Nat)
  | jobsDispatch (handle : Nat) (jobCount groupSize : UInt32) (task stack : Nat)
  | fetchQueueIndex
  | pushBack
  | post
  /-- `JobHandleWait` is called and loads the counter. -/
  | jobHandleWait (handle : Nat)
  /-- `JobHandleWait` posts to one thread. -/
  | wake
  /-- `JobHandleWait` fetches a queue index and calls `Work`. -/
  | help
  /-- `JobHandleWait` loads the counter after `Work`. -/
  | spin
  | shutdown
  /-- Thread `t` loads `IsAlive`, and calls `Work` with the word that it was started with. -/
  | load (t startingQueue : Nat)
  | popFront (w : Nat)
  | callTask (w : Nat)
  | lowerCounter (w : Nat)
  /-- Thread `t` gets through `zpl_semaphore_wait`. -/
  | wait (t : Nat)
  deriving DecidableEq, Repr

namespace System

/-- `JobHandleIsBusy`. -/
def jobHandleIsBusy (s : System) (handle : Nat) : Bool := 0 < (s.jobs.counter handle).toInt

/-- An access to the queues and the counters. -/
def access (numThreads : Nat) (s : System) (a : Access) : Option System :=
  (s.jobs.step numThreads (numThreads + 1) a).map fun jobs => { s with jobs := jobs }

/-- The head of the loop over the groups of a call. -/
def next (s : System) : System :=
  { s with main := if s.jobs.caller.left = [] then .free else .pushing }

/-- `zpl_semaphore_post` to thread `t`. -/
def signal (s : System) (t : Nat) : System :=
  { s with semaphore := Function.update s.semaphore t (s.semaphore t + 1) }

/-- A thread whose `Work` has returned goes to its semaphore. -/
def returned (numThreads : Nat) (s : System) (w : Nat) : System :=
  if w < numThreads ∧ s.jobs.workers w = .idle then
    { s with threads := Function.update s.threads w .waiting }
  else s

/-- The effect of a move, none where nobody is about to make it. -/
def step (numThreads : Nat) (s : System) : Move → Option System
  | .jobsExecute handle task stack =>
      if s.main = .free then (s.access numThreads (.jobsExecute handle task stack)).map next
      else none
  | .jobsDispatch handle jobCount groupSize task stack =>
      if s.main = .free then
        (s.access numThreads (.jobsDispatch handle jobCount groupSize task stack)).map next
      else none
  | .fetchQueueIndex =>
      if s.main = .pushing then s.access numThreads .fetchQueueIndex else none
  | .pushBack =>
      match s.main, s.jobs.caller.idx with
      | .pushing, some idx =>
          (s.access numThreads .pushBack).map fun t => { t with main := .posting idx }
      | _, _ => none
  | .post =>
      match s.main with
      | .posting idx => some (s.signal idx).next
      | _ => none
  | .jobHandleWait handle =>
      if s.main = .free then
        some { s with main := if s.jobHandleIsBusy handle then .waking handle 0 else .free }
      else none
  | .wake =>
      match s.main with
      | .waking handle threadId =>
          if threadId < numThreads then
            some { s.signal threadId with main := .waking handle (threadId + 1) }
          else none
      | _ => none
  | .help =>
      match s.main with
      | .waking handle threadId =>
          if threadId < numThreads then none
          else
            let idx := s.jobs.nextQueueIndex % numThreads
            let jobs := { s.jobs with nextQueueIndex := u32 (s.jobs.nextQueueIndex + 1) }
            ({ s with jobs := jobs, main := .helping handle } : System).access numThreads
              (.work numThreads idx)
      | _ => none
  | .spin =>
      match s.main with
      | .helping handle =>
          if s.jobs.workers numThreads = .idle then
            some { s with main := if s.jobHandleIsBusy handle then .helping handle else .free }
          else none
      | _ => none
  | .shutdown => if s.main = .free then some { s with isAlive := false, main := .closed } else none
  | .load t startingQueue =>
      if t < numThreads ∧ s.threads t = .loading then
        if s.isAlive then
          (s.access numThreads (.work t startingQueue)).map fun s' =>
            { s' with threads := Function.update s'.threads t .inWork }
        else some { s with threads := Function.update s.threads t .exited }
      else none
  | .popFront w => (s.access numThreads (.popFront w)).map fun t => t.returned numThreads w
  | .callTask w => s.access numThreads (.callTask w)
  | .lowerCounter w => s.access numThreads (.lowerCounter w)
  | .wait t =>
      if t < numThreads ∧ s.threads t = .waiting ∧ 0 < s.semaphore t then
        some { s with
          semaphore := Function.update s.semaphore t (s.semaphore t - 1)
          threads := Function.update s.threads t .loading }
      else none

/-- `JobsInitialize` has started the threads. -/
def create (memory : Nat → Nat → Job) (semaphore : Nat → Nat) : System :=
  { jobs := State.create memory
    semaphore := semaphore
    isAlive := true
    threads := fun _ => .loading
    main := .free }

/-- The accesses of a move fit, and the word that a thread passes to `Work` leaves room for
the number of queues. -/
def Fits (numThreads : Nat) (s : System) : Move → Prop
  | .jobsExecute handle task stack => s.jobs.Fits (.jobsExecute handle task stack)
  | .jobsDispatch handle jobCount groupSize task stack =>
      s.jobs.Fits (.jobsDispatch handle jobCount groupSize task stack)
  | .pushBack => s.jobs.Fits .pushBack
  | .load _ startingQueue => startingQueue + numThreads ≤ 2 ^ 32
  | _ => True

instance (numThreads : Nat) (s : System) (move : Move) : Decidable (s.Fits numThreads move) :=
  match move with
  | .jobsExecute handle task stack =>
      inferInstanceAs (Decidable (s.jobs.Fits (.jobsExecute handle task stack)))
  | .jobsDispatch handle jobCount groupSize task stack =>
      inferInstanceAs (Decidable (s.jobs.Fits (.jobsDispatch handle jobCount groupSize task stack)))
  | .pushBack => inferInstanceAs (Decidable (s.jobs.Fits .pushBack))
  | .load _ startingQueue => inferInstanceAs (Decidable (startingQueue + numThreads ≤ 2 ^ 32))
  | .fetchQueueIndex | .post | .jobHandleWait _ | .wake | .help | .spin | .shutdown | .popFront _
  | .callTask _ | .lowerCounter _ | .wait _ => isTrue trivial

end System

/-! ## What a move does -/

namespace State

variable {numThreads workers : Nat} {s t : State}

theorem work_eq_some {w startingQueue : Nat} :
    s.step numThreads workers (.work w startingQueue) = some t ↔
      (w < workers ∧ s.workers w = .idle) ∧ t = s.worker w (.searching startingQueue 0) := by
  simp only [step]
  split_ifs with h
  · simp [h, eq_comm]
  · simp [h]

theorem popFront_eq_some {w : Nat} (h : s.step numThreads workers (.popFront w) = some t) :
    ∃ startingQueue i, s.workers w = .searching startingQueue i ∧ w < workers ∧
      ((i < numThreads ∧ ∃ job queue,
          dequeue (s.jobQueuePerThread (startingQueue % numThreads)) = some (job, queue) ∧
          t = { s.worker w (.running startingQueue i job job.groupJobOffset) with
            jobQueuePerThread :=
              Function.update s.jobQueuePerThread (startingQueue % numThreads) queue }) ∨
        (i < numThreads ∧ dequeue (s.jobQueuePerThread (startingQueue % numThreads)) = none ∧
          t = s.worker w (.searching (u32 (startingQueue + 1)) (i + 1))) ∨
        (¬ i < numThreads ∧ t = s.worker w .idle)) := by
  simp only [step] at h
  split at h
  · rename_i startingQueue i hpoint
    refine ⟨startingQueue, i, hpoint, ?_⟩
    split_ifs at h with hw hi
    · split at h
      · rename_i job queue hdeq
        cases h
        exact ⟨hw, .inl ⟨hi, job, queue, hdeq, rfl⟩⟩
      · rename_i hdeq
        cases h
        exact ⟨hw, .inr (.inl ⟨hi, hdeq, rfl⟩)⟩
    · cases h
      exact ⟨hw, .inr (.inr ⟨hi, rfl⟩)⟩
  · cases h

theorem callTask_eq_some {w : Nat} (h : s.step numThreads workers (.callTask w) = some t) :
    ∃ startingQueue i job j, s.workers w = .running startingQueue i job j ∧
      (w < workers ∧ j < job.groupJobEnd) ∧
      t = { s.worker w (.running startingQueue i job (j + 1)) with
        called := (job.task, job.args j) :: s.called } := by
  simp only [step] at h
  split at h
  · rename_i startingQueue i job j hpoint
    split_ifs at h with hj
    cases h
    exact ⟨startingQueue, i, job, j, hpoint, hj, rfl⟩
  · cases h

theorem lowerCounter_eq_some {w : Nat} (h : s.step numThreads workers (.lowerCounter w) = some t) :
    ∃ startingQueue i job j, s.workers w = .running startingQueue i job j ∧
      (w < workers ∧ ¬ j < job.groupJobEnd) ∧
      t = { s.worker w (.searching startingQueue i) with
        counter := Function.update s.counter job.handle (s.counter job.handle - 1)
        ran := job ::ₘ s.ran } := by
  simp only [step] at h
  split at h
  · rename_i startingQueue i job j hpoint
    split_ifs at h with hj
    cases h
    exact ⟨startingQueue, i, job, j, hpoint, hj, rfl⟩
  · cases h

theorem pushBack_eq_some (h : s.step numThreads workers .pushBack = some t) :
    ∃ job left idx, s.caller = ⟨job :: left, some idx⟩ ∧
      t = { s with
        jobQueuePerThread := Function.update s.jobQueuePerThread idx
          (enqueue (s.jobQueuePerThread idx) job).2
        caller := ⟨left, none⟩ } := by
  simp only [step] at h
  split at h
  · rename_i job left idx hcaller
    cases h
    exact ⟨job, left, idx, hcaller, rfl⟩
  · cases h

theorem fetchQueueIndex_eq_some (h : s.step numThreads workers .fetchQueueIndex = some t) :
    (s.caller.left ≠ [] ∧ s.caller.idx = none) ∧
      t = { s with
        nextQueueIndex := u32 (s.nextQueueIndex + 1)
        caller.idx := some (s.nextQueueIndex % numThreads) } := by
  simp only [step] at h
  split_ifs at h with hcaller
  cases h
  exact ⟨hcaller, rfl⟩

end State

namespace System

variable {numThreads : Nat} {s t : System}

/-- The moves with the states that they lead to. -/
inductive Effect (numThreads : Nat) (s : System) : Move → System → Prop
  | execute (handle task stack : Nat) (hfree : s.main = .free) :
      Effect numThreads s (.jobsExecute handle task stack)
        ({ s with jobs := s.jobs.raise handle 1 [⟨task, stack, handle, 0, 0, 1⟩] }).next
  | dispatch (handle : Nat) (jobCount groupSize : UInt32) (task stack : Nat)
      (hfree : s.main = .free) :
      Effect numThreads s (.jobsDispatch handle jobCount groupSize task stack) ({ s with
        jobs := s.jobs.raise handle (jobsDispatchGroupCount jobCount.toNat groupSize.toNat)
          (jobsDispatchGroups handle jobCount.toNat groupSize.toNat task stack) }).next
  /-- `JobsDispatch` of no jobs, or in groups of none. -/
  | nothing (handle : Nat) (jobCount groupSize : UInt32) (task stack : Nat)
      (hfree : s.main = .free) (hleft : s.jobs.caller.left = []) :
      Effect numThreads s (.jobsDispatch handle jobCount groupSize task stack) s.next
  | fetch (hmain : s.main = .pushing)
      (hcaller : s.jobs.caller.left ≠ [] ∧ s.jobs.caller.idx = none) :
      Effect numThreads s .fetchQueueIndex { s with
        jobs := { s.jobs with
          nextQueueIndex := u32 (s.jobs.nextQueueIndex + 1)
          caller.idx := some (s.jobs.nextQueueIndex % numThreads) } }
  | push (job : Job) (left : List Job) (idx : Nat) (hmain : s.main = .pushing)
      (hcaller : s.jobs.caller = ⟨job :: left, some idx⟩) :
      Effect numThreads s .pushBack { s with
        jobs := { s.jobs with
          jobQueuePerThread := Function.update s.jobs.jobQueuePerThread idx
            (enqueue (s.jobs.jobQueuePerThread idx) job).2
          caller := ⟨left, none⟩ }
        main := .posting idx }
  | post (idx : Nat) (hmain : s.main = .posting idx) :
      Effect numThreads s .post (s.signal idx).next
  | ask (handle : Nat) (hfree : s.main = .free) :
      Effect numThreads s (.jobHandleWait handle)
        { s with main := if s.jobHandleIsBusy handle then .waking handle 0 else .free }
  | wake (handle threadId : Nat) (hmain : s.main = .waking handle threadId)
      (hlt : threadId < numThreads) :
      Effect numThreads s .wake
        { s.signal threadId with main := .waking handle (threadId + 1) }
  | help (handle threadId : Nat) (hmain : s.main = .waking handle threadId)
      (hge : ¬ threadId < numThreads) (hidle : s.jobs.workers numThreads = .idle) :
      Effect numThreads s .help { s with
        jobs := ({ s.jobs with nextQueueIndex := u32 (s.jobs.nextQueueIndex + 1) } : State).worker
          numThreads (.searching (s.jobs.nextQueueIndex % numThreads) 0)
        main := .helping handle }
  | spin (handle : Nat) (hmain : s.main = .helping handle)
      (hidle : s.jobs.workers numThreads = .idle) :
      Effect numThreads s .spin
        { s with main := if s.jobHandleIsBusy handle then .helping handle else .free }
  | shutdown (hfree : s.main = .free) :
      Effect numThreads s .shutdown { s with isAlive := false, main := .closed }
  | load (w startingQueue : Nat) (hw : w < numThreads) (hpoint : s.threads w = .loading)
      (halive : s.isAlive) (hidle : s.jobs.workers w = .idle) :
      Effect numThreads s (.load w startingQueue) { s with
        jobs := s.jobs.worker w (.searching startingQueue 0)
        threads := Function.update s.threads w .inWork }
  | exit (w startingQueue : Nat) (hw : w < numThreads) (hpoint : s.threads w = .loading)
      (hdead : s.isAlive = false) :
      Effect numThreads s (.load w startingQueue)
        { s with threads := Function.update s.threads w .exited }
  /-- Worker `w` takes a group, passes over an empty queue, or returns from `Work`. -/
  | take (w startingQueue i : Nat) (job : Job) (queue : QueueThreaded Job)
      (hw : w ≤ numThreads) (hpoint : s.jobs.workers w = .searching startingQueue i)
      (hi : i < numThreads)
      (hdeq : dequeue (s.jobs.jobQueuePerThread (startingQueue % numThreads)) = some (job, queue)) :
      Effect numThreads s (.popFront w) { s with
        jobs := { s.jobs.worker w (.running startingQueue i job job.groupJobOffset) with
          jobQueuePerThread := Function.update s.jobs.jobQueuePerThread
            (startingQueue % numThreads) queue } }
  | pass (w startingQueue i : Nat) (hw : w ≤ numThreads)
      (hpoint : s.jobs.workers w = .searching startingQueue i) (hi : i < numThreads)
      (hdeq : dequeue (s.jobs.jobQueuePerThread (startingQueue % numThreads)) = none) :
      Effect numThreads s (.popFront w)
        { s with jobs := s.jobs.worker w (.searching (u32 (startingQueue + 1)) (i + 1)) }
  | leave (w startingQueue i : Nat) (hw : w ≤ numThreads)
      (hpoint : s.jobs.workers w = .searching startingQueue i) (hi : ¬ i < numThreads) :
      Effect numThreads s (.popFront w) { s with
        jobs := s.jobs.worker w .idle
        threads := if w < numThreads then Function.update s.threads w .waiting else s.threads }
  | task (w startingQueue i : Nat) (job : Job) (j : Nat) (hw : w ≤ numThreads)
      (hpoint : s.jobs.workers w = .running startingQueue i job j) (hj : j < job.groupJobEnd) :
      Effect numThreads s (.callTask w) { s with
        jobs := { s.jobs.worker w (.running startingQueue i job (j + 1)) with
          called := (job.task, job.args j) :: s.jobs.called } }
  | lower (w startingQueue i : Nat) (job : Job) (j : Nat) (hw : w ≤ numThreads)
      (hpoint : s.jobs.workers w = .running startingQueue i job j) (hj : ¬ j < job.groupJobEnd) :
      Effect numThreads s (.lowerCounter w) { s with
        jobs := { s.jobs.worker w (.searching startingQueue i) with
          counter := Function.update s.jobs.counter job.handle (s.jobs.counter job.handle - 1)
          ran := job ::ₘ s.jobs.ran } }
  | wait (w : Nat) (hw : w < numThreads) (hpoint : s.threads w = .waiting)
      (hpost : 0 < s.semaphore w) :
      Effect numThreads s (.wait w) { s with
        semaphore := Function.update s.semaphore w (s.semaphore w - 1)
        threads := Function.update s.threads w .loading }

theorem access_eq_some {a : Access} (h : s.access numThreads a = some t) :
    ∃ jobs, s.jobs.step numThreads (numThreads + 1) a = some jobs ∧
      t = { s with jobs := jobs } := by
  obtain ⟨jobs, hjobs, rfl⟩ := Option.map_eq_some_iff.mp h
  exact ⟨jobs, hjobs, rfl⟩

theorem popFront_effect {w : Nat} (h : s.step numThreads (.popFront w) = some t) :
    Effect numThreads s (.popFront w) t := by
  obtain ⟨s', hs', rfl⟩ := Option.map_eq_some_iff.mp h
  obtain ⟨jobs, hjobs, rfl⟩ := access_eq_some hs'
  obtain ⟨startingQueue, i, hpoint, hw, hcase⟩ := State.popFront_eq_some hjobs
  obtain ⟨hi, job, queue, hdeq, rfl⟩ | ⟨hi, hdeq, rfl⟩ | ⟨hi, rfl⟩ := hcase
  · rw [returned, if_neg (by simp [State.worker])]
    exact .take w startingQueue i job queue (Nat.lt_succ_iff.mp hw) hpoint hi hdeq
  · rw [returned, if_neg (by simp [State.worker])]
    exact .pass w startingQueue i (Nat.lt_succ_iff.mp hw) hpoint hi hdeq
  · have heffect := @Effect.leave numThreads s w startingQueue i (Nat.lt_succ_iff.mp hw) hpoint hi
    by_cases hlt : w < numThreads
    · rw [if_pos hlt] at heffect
      rw [returned, if_pos ⟨hlt, Function.update_self ..⟩]
      exact heffect
    · rw [if_neg hlt] at heffect
      rw [returned, if_neg fun hand => hlt hand.1]
      exact heffect

/-- A move has one of the effects. -/
theorem step_effect {move : Move} (h : s.step numThreads move = some t) :
    Effect numThreads s move t := by
  cases move with
  | jobsExecute handle task stack =>
    simp only [step] at h
    split_ifs at h with hfree
    obtain ⟨s', hs', rfl⟩ := Option.map_eq_some_iff.mp h
    obtain ⟨jobs, hjobs, rfl⟩ := access_eq_some hs'
    simp only [State.step] at hjobs
    split_ifs at hjobs
    cases hjobs
    exact .execute handle task stack hfree
  | jobsDispatch handle jobCount groupSize task stack =>
    simp only [step] at h
    split_ifs at h with hfree
    obtain ⟨s', hs', rfl⟩ := Option.map_eq_some_iff.mp h
    obtain ⟨jobs, hjobs, rfl⟩ := access_eq_some hs'
    simp only [State.step] at hjobs
    split_ifs at hjobs with hleft
    · cases hjobs
      exact .nothing handle jobCount groupSize task stack hfree hleft
    · cases hjobs
      exact .dispatch handle jobCount groupSize task stack hfree
  | fetchQueueIndex =>
    simp only [step] at h
    split_ifs at h with hmain
    obtain ⟨jobs, hjobs, rfl⟩ := access_eq_some h
    obtain ⟨hcaller, rfl⟩ := State.fetchQueueIndex_eq_some hjobs
    exact .fetch hmain hcaller
  | pushBack =>
    simp only [step] at h
    split at h
    · rename_i idx hmain hidx
      obtain ⟨s', hs', rfl⟩ := Option.map_eq_some_iff.mp h
      obtain ⟨jobs, hjobs, rfl⟩ := access_eq_some hs'
      obtain ⟨job, left, idx', hcaller, rfl⟩ := State.pushBack_eq_some hjobs
      rw [hcaller] at hidx
      cases hidx
      exact .push job left idx hmain hcaller
    · cases h
  | post =>
    simp only [step] at h
    split at h
    · rename_i idx hmain
      cases h
      exact .post idx hmain
    · cases h
  | jobHandleWait handle =>
    simp only [step] at h
    split at h
    · rename_i hfree
      cases h
      exact .ask handle hfree
    · cases h
  | wake =>
    simp only [step] at h
    split at h
    · rename_i handle threadId hmain
      split_ifs at h with hlt
      cases h
      exact .wake handle threadId hmain hlt
    · cases h
  | help =>
    simp only [step] at h
    split at h
    · rename_i handle threadId hmain
      split_ifs at h with hlt
      obtain ⟨jobs, hjobs, rfl⟩ := access_eq_some h
      obtain ⟨⟨-, hidle⟩, rfl⟩ := State.work_eq_some.mp hjobs
      exact .help handle threadId hmain hlt hidle
    · cases h
  | spin =>
    simp only [step] at h
    split at h
    · rename_i handle hmain
      split at h
      · rename_i hidle
        cases h
        exact .spin handle hmain hidle
      · cases h
    · cases h
  | shutdown =>
    simp only [step] at h
    split_ifs at h with hfree
    cases h
    exact .shutdown hfree
  | load w startingQueue =>
    simp only [step] at h
    split_ifs at h with hw halive
    · obtain ⟨s', hs', rfl⟩ := Option.map_eq_some_iff.mp h
      obtain ⟨jobs, hjobs, rfl⟩ := access_eq_some hs'
      obtain ⟨⟨-, hidle⟩, rfl⟩ := State.work_eq_some.mp hjobs
      exact .load w startingQueue hw.1 hw.2 halive hidle
    · cases h
      exact .exit w startingQueue hw.1 hw.2 (by simpa using halive)
  | popFront w => exact popFront_effect h
  | callTask w =>
    obtain ⟨jobs, hjobs, rfl⟩ := access_eq_some h
    obtain ⟨startingQueue, i, job, j, hpoint, ⟨hw, hj⟩, rfl⟩ := State.callTask_eq_some hjobs
    exact .task w startingQueue i job j (Nat.lt_succ_iff.mp hw) hpoint hj
  | lowerCounter w =>
    obtain ⟨jobs, hjobs, rfl⟩ := access_eq_some h
    obtain ⟨startingQueue, i, job, j, hpoint, ⟨hw, hj⟩, rfl⟩ := State.lowerCounter_eq_some hjobs
    exact .lower w startingQueue i job j (Nat.lt_succ_iff.mp hw) hpoint hj
  | wait w =>
    simp only [step] at h
    split_ifs at h with hw
    cases h
    exact .wait w hw.1 hw.2.1 hw.2.2

end System

end ScalBase.Jobs
