/-
  Jobs/Model.lean --- the job system of `Lib/Jobs.h`.

  One thread calls `JobsExecute` and `JobsDispatch`; any number of workers run
  `Work`.  A step is one shared access by one of them, and a run is any sequence of
  steps.  `Enqueue` and `Dequeue` of a queue are one access each.  A worker may start
  `Work` at any time and may stay where it is for as long as it likes, so the
  semaphores are left out.  `SAssert`s are compiled out.

  `Counter` is a signed 32-bit word.  `NextQueueIndex` is taken modulo `NumThreads`
  as an unsigned one, and the result is an `i32`: a negative one is outside the array,
  and the step has no successor.

  The state also records which groups were dispatched, which of them have run, and
  the calls made to the task.
-/
import ScalBase.Base
import ScalBase.Foundation.Slots
import ScalBase.QueueThreaded

set_option autoImplicit false

namespace ScalBase.Jobs

open Foundation Foundation.Slots Queues

/-! ## The queue of one thread -/

/-- `JOB_QUEUE_SIZE`. -/
def jobQueueSize : Nat := 256

section Queue

variable {T : Type*}

/-- `Enqueue`, as one access. -/
def enqueue (queue : QueueThreaded T) (value : T) : Bool × QueueThreaded T :=
  let originalLast := queue.last
  let newLast := (originalLast + 1) % jobQueueSize
  if newLast ≠ queue.first then
    (true, { queue with
      memory := Function.update queue.memory originalLast value
      last := newLast })
  else (false, queue)

/-- `Dequeue`, as one access. -/
def dequeue (queue : QueueThreaded T) : Option (T × QueueThreaded T) :=
  let originalFirst := queue.first
  if originalFirst ≠ queue.last then
    some (queue.memory originalFirst,
      { queue with first := (originalFirst + 1) % jobQueueSize })
  else none

/-- The values in the queue, oldest first. -/
def items (queue : QueueThreaded T) : List T :=
  (List.range ((queue.last + (jobQueueSize - queue.first)) % jobQueueSize)).map fun k =>
    queue.memory ((queue.first + k) % jobQueueSize)

end Queue

/-! ## Jobs -/

/-- A group of a task's jobs. -/
structure Job where
  task : Nat
  stack : Nat
  handle : Nat
  groupId : Nat
  groupJobOffset : Nat
  groupJobEnd : Nat
  deriving DecidableEq, Repr

/-- What a task is called with. -/
structure JobArgs where
  stackMemory : Nat
  jobIndex : Nat
  groupId : Nat
  groupIndex : Nat
  isFirstJobInGroup : Bool
  isLastJobInGroup : Bool
  deriving DecidableEq, Repr

/-- The arguments for job `j` of a group. -/
def Job.args (job : Job) (j : Nat) : JobArgs :=
  { groupId := job.groupId
    stackMemory := job.stack
    jobIndex := j
    groupIndex := j - job.groupJobOffset
    isFirstJobInGroup := j == job.groupJobOffset
    isLastJobInGroup := j == u32 (job.groupJobEnd + (2 ^ 32 - 1)) }

/-- `JobsDispatchGroupCount`. -/
def jobsDispatchGroupCount (jobCount groupSize : Nat) : Nat :=
  u32 (jobCount + groupSize + (2 ^ 32 - 1)) / groupSize

/-- The groups that the loop in `JobsDispatch` pushes. -/
def jobsDispatchGroups (handle jobCount groupSize task stack : Nat) : List Job :=
  (List.range (jobsDispatchGroupCount jobCount groupSize)).map fun groupId =>
    let groupJobOffset := u32 (groupId * groupSize)
    { handle := handle
      task := task
      stack := stack
      groupId := groupId
      groupJobOffset := groupJobOffset
      groupJobEnd := min (u32 (groupJobOffset + groupSize)) jobCount }

/-! ## The threads -/

/-- The calling thread: the groups it still has to push, and the queue index it has
fetched for the first of them.  It is between calls when none are left. -/
structure Caller where
  left : List Job
  idx : Option Nat
  deriving DecidableEq, Repr

/-- Where a worker stands in `Work`. -/
inductive Worker where
  | idle
  /-- About to pop from queue `startingQueue % NumThreads`, in turn `i`. -/
  | searching (startingQueue i : Nat)
  /-- At the head of the loop over the jobs of a group. -/
  | running (startingQueue i : Nat) (job : Job) (j : Nat)
  deriving DecidableEq, Repr

/-- The group a worker executes. -/
def Worker.job : Worker → Option Job
  | .running _ _ job _ => some job
  | _ => none

/-- The shared state, the threads, and what has happened. -/
structure State where
  nextQueueIndex : Nat
  jobQueuePerThread : Nat → QueueThreaded Job
  /-- `handle->Counter` -/
  counter : Nat → BitVec 32
  caller : Caller
  workers : Nat → Worker
  dispatched : Multiset Job
  ran : Multiset Job
  called : List (Nat × JobArgs)

/-- One shared access. -/
inductive Access where
  /-- `JobsExecute` is called and raises the counter. -/
  | jobsExecute (handle task stack : Nat)
  /-- `JobsDispatch` is called and raises the counter. -/
  | jobsDispatch (handle : Nat) (jobCount groupSize : UInt32) (task stack : Nat)
  | fetchQueueIndex
  | pushBack
  /-- Worker `w` calls `Work`. -/
  | work (w startingQueue : Nat)
  | popFront (w : Nat)
  /-- Worker `w` calls the task for the next job of its group. -/
  | callTask (w : Nat)
  /-- Worker `w` has called the task for every job, and lowers the counter. -/
  | lowerCounter (w : Nat)
  deriving DecidableEq, Repr

namespace State

/-- `zpl_atomic32_fetch_add(&handle->Counter, groupCount)` and the groups to push. -/
def raise (s : State) (handle groupCount : Nat) (groups : List Job) : State :=
  { s with
    counter := Function.update s.counter handle
      (s.counter handle + BitVec.ofNat 32 groupCount)
    caller := ⟨groups, none⟩
    dispatched := s.dispatched + groups }

/-- Worker `w` goes to another point. -/
def worker (s : State) (w : Nat) (point : Worker) : State :=
  { s with workers := Function.update s.workers w point }

/-- The effect of an access, none where nobody is about to make it. -/
def step (numThreads workers : Nat) (s : State) : Access → Option State
  | .jobsExecute handle task stack =>
      if s.caller.left = [] then
        some (s.raise handle 1 [⟨task, stack, handle, 0, 0, 1⟩])
      else none
  | .jobsDispatch handle jobCount groupSize task stack =>
      if s.caller.left = [] then
        if jobCount = 0 ∨ groupSize = 0 then some s
        else
          some (s.raise handle (jobsDispatchGroupCount jobCount.toNat groupSize.toNat)
            (jobsDispatchGroups handle jobCount.toNat groupSize.toNat task stack))
      else none
  | .fetchQueueIndex =>
      if s.caller.left ≠ [] ∧ s.caller.idx = none then
        let idx := s.nextQueueIndex % numThreads
        if idx < 2 ^ 31 then
          some { s with
            nextQueueIndex := u32 (s.nextQueueIndex + 1)
            caller.idx := some idx }
        else none
      else none
  | .pushBack =>
      match s.caller with
      | ⟨job :: left, some idx⟩ =>
          some { s with
            jobQueuePerThread := Function.update s.jobQueuePerThread idx
              (enqueue (s.jobQueuePerThread idx) job).2
            caller := ⟨left, none⟩ }
      | _ => none
  | .work w startingQueue =>
      if w < workers ∧ s.workers w = .idle then some (s.worker w (.searching startingQueue 0))
      else none
  | .popFront w =>
      match s.workers w with
      | .searching startingQueue i =>
          if w < workers then
            if i < numThreads then
              let idx := startingQueue % numThreads
              match dequeue (s.jobQueuePerThread idx) with
              | some (job, queue) =>
                  some { s.worker w (.running startingQueue i job job.groupJobOffset) with
                    jobQueuePerThread := Function.update s.jobQueuePerThread idx queue }
              | none => some (s.worker w (.searching (u32 (startingQueue + 1)) (i + 1)))
            else some (s.worker w .idle) -- `Work` returns
          else none
      | _ => none
  | .callTask w =>
      match s.workers w with
      | .running startingQueue i job j =>
          if w < workers ∧ j < job.groupJobEnd then
            some { s.worker w (.running startingQueue i job (j + 1)) with
              called := (job.task, job.args j) :: s.called }
          else none
      | _ => none
  | .lowerCounter w =>
      match s.workers w with
      | .running startingQueue i job j =>
          if w < workers ∧ ¬ j < job.groupJobEnd then
            some { s.worker w (.searching startingQueue i) with
              counter := Function.update s.counter job.handle (s.counter job.handle - 1)
              ran := job ::ₘ s.ran }
          else none
      | _ => none

/-- Nobody is in a call, nothing was dispatched, the queues are zeroed. -/
def create (memory : Nat → Nat → Job) : State :=
  { nextQueueIndex := 0
    jobQueuePerThread := fun q => ⟨0, 0, memory q⟩
    counter := fun _ => 0
    caller := ⟨[], none⟩
    workers := fun _ => .idle
    dispatched := 0
    ran := 0
    called := [] }

/-- The groups in the queues. -/
def queued (numThreads : Nat) (s : State) : Multiset Job :=
  pooled (fun queue => (items queue : Multiset Job)) numThreads s.jobQueuePerThread

/-- The groups being executed. -/
def executing (workers : Nat) (s : State) : Multiset Job :=
  pooled (fun worker => one worker.job) workers s.workers

end State

end ScalBase.Jobs
