/-
  Jobs/Progress.lean --- every call returns.

  `effort` is what is left to do: the groups to push, the posts, the turns of `Work`
  and the jobs.  Each move of a call or of a worker thread lowers it, but for a load of
  a counter in `JobHandleWait` that is still above zero.  Where that load is all that
  the calling thread can do, a worker thread can move.
-/
import ScalBase.Jobs.Wakeups
import ScalBase.Foundation.Ranking

set_option autoImplicit false

namespace ScalBase.Jobs

open Foundation Foundation.Slots Foundation.Ranking Queues

/-! ## What is left to do -/

/-- The jobs of a group, and the moves before and after them. -/
def Job.effort (job : Job) : Nat := job.groupJobEnd - job.groupJobOffset + 2

/-- The rest of the turns of `Work`, and of the group in hand. -/
def Worker.effort (numThreads : Nat) : Worker → Nat
  | .idle => 0
  | .searching _ i => numThreads + 1 - i
  | .running _ i job j => numThreads + 1 - i + (job.groupJobEnd - j) + 1

/-- A thread that is awake calls `Work`. -/
def ThreadPoint.effort (numThreads : Nat) : ThreadPoint → Nat
  | .loading => numThreads + 2
  | .inWork | .waiting | .exited => 0

/-- A post lets its thread load and call `Work` once more. -/
def postEffort (numThreads : Nat) : Nat := numThreads + 3

/-- A group that is still to be pushed is then in a queue, with a post. -/
def Job.pushEffort (numThreads : Nat) (job : Job) : Nat := job.effort + postEffort numThreads + 3

/-- The caller has to fetch an index before it pushes. -/
def fetchEffort : Option Nat → Nat
  | none => 1
  | some _ => 0

def CallerPoint.effort (numThreads : Nat) : CallerPoint → Nat
  | .free | .pushing | .closed => 0
  | .posting _ => postEffort numThreads + 1
  | .waking _ threadId => (numThreads - threadId) * (postEffort numThreads + 1) + (numThreads + 3)
  | .helping _ => 1

namespace System

variable {numThreads : Nat} {s t : System}

/-- What is left to do. -/
def effort (numThreads : Nat) (s : System) : Nat :=
  ((s.jobs.queued numThreads).map Job.effort).sum +
    total (Worker.effort numThreads) s.jobs.workers (numThreads + 1) +
    total (ThreadPoint.effort numThreads) s.threads numThreads +
    total (postEffort numThreads * ·) s.semaphore numThreads +
    (s.jobs.caller.left.map (Job.pushEffort numThreads)).sum +
    fetchEffort s.jobs.caller.idx + s.main.effort numThreads

/-! ## What the moves lower -/

/-- A post costs what its thread does with it. -/
theorem total_signal (s : System) {r : Nat} (hr : r < numThreads) :
    total (postEffort numThreads * ·) (s.signal r).semaphore numThreads =
      total (postEffort numThreads * ·) s.semaphore numThreads + postEffort numThreads := by
  have h := total_update (postEffort numThreads * ·) s.semaphore hr (s.semaphore r + 1)
  simp only [Nat.mul_add, Nat.mul_one] at h
  simp only [signal]
  omega

/-- A worker that goes to another point. -/
theorem total_workers (s : System) {w : Nat} (hw : w ≤ numThreads) (point : Worker) :
    total (Worker.effort numThreads) (Function.update s.jobs.workers w point) (numThreads + 1) +
        (s.jobs.workers w).effort numThreads =
      total (Worker.effort numThreads) s.jobs.workers (numThreads + 1) + point.effort numThreads :=
  total_update _ _ (Nat.lt_succ_iff.mpr hw) point

theorem effort_next (s : System) (numThreads : Nat) : s.next.main.effort numThreads = 0 := by
  simp only [next]
  split_ifs <;> rfl

/-- A group that comes into a queue, and one that leaves it. -/
theorem sum_queued_cons {queues queues' : Nat → QueueThreaded Job} {job : Job}
    (h : pooled (fun queue => (items queue : Multiset Job)) numThreads queues =
      job ::ₘ pooled (fun queue => (items queue : Multiset Job)) numThreads queues') :
    ((pooled (fun queue => (items queue : Multiset Job)) numThreads queues).map Job.effort).sum =
      job.effort +
        ((pooled (fun queue => (items queue : Multiset Job)) numThreads queues').map
          Job.effort).sum := by
  rw [h, Multiset.map_cons, Multiset.sum_cons]

/-- While the caller is in a call or the job system is closed, a move that is no load
in the loop of `JobHandleWait` leaves less to do. -/
theorem effort_lower (h : s.Inv numThreads) (hpos : 0 < numThreads) (hcall : s.main ≠ .free)
    {move : Move} (hmove : move ≠ .spin) (hfits : s.Fits numThreads move)
    (heffect : Effect numThreads s move t) : t.effort numThreads < s.effort numThreads := by
  cases heffect with
  | execute _ _ _ hfree | dispatch _ _ _ _ _ hfree | nothing _ _ _ _ _ hfree | ask _ hfree
  | shutdown hfree =>
    exact absurd hfree hcall
  | spin => exact absurd rfl hmove
  | fetch hmain hcaller =>
    simp only [effort, State.queued, hcaller.2, fetchEffort]
    omega
  | push job left idx hmain hcaller =>
    have hidx : idx < numThreads := h.jobs.idx idx (by rw [hcaller])
    have hroom : HasRoom (s.jobs.jobQueuePerThread idx) := hfits idx (by rw [hcaller]; rfl)
    have hitems : (items (enqueue (s.jobs.jobQueuePerThread idx) job).2 : Multiset Job) =
        job ::ₘ (items (s.jobs.jobQueuePerThread idx) : Multiset Job) := by
      rw [items_enqueue (h.jobs.bounded idx hidx) hroom, ← Multiset.coe_add, add_comm]
      rfl
    have hqueued := sum_queued_cons (pooled_gain (fun queue => (items queue : Multiset Job))
      s.jobs.jobQueuePerThread hidx hitems)
    simp only [effort, State.queued, hcaller, hmain, fetchEffort, CallerPoint.effort,
      Job.pushEffort, List.map_cons, List.sum_cons, hqueued]
    omega
  | post idx hmain =>
    have hsignal := total_signal s (h.points.posting idx hmain)
    unfold effort
    rw [effort_next, hmain]
    simp only [next, hsignal]
    simp only [signal, CallerPoint.effort]
    omega
  | wake handle threadId hmain hlt =>
    have hsignal := total_signal s hlt
    have hleft : numThreads - threadId = numThreads - (threadId + 1) + 1 := by omega
    simp only [effort, State.queued, hmain, CallerPoint.effort, hsignal, hleft, Nat.add_mul,
      Nat.one_mul]
    simp only [signal]
    omega
  | help handle threadId hmain hge hidle =>
    have hworkers := total_workers s (Nat.le_refl numThreads)
      (.searching (s.jobs.nextQueueIndex % numThreads) 0)
    simp only [hidle, Worker.effort] at hworkers
    simp only [effort, State.queued, State.worker, hmain, CallerPoint.effort]
    omega
  | load w startingQueue hw hpoint halive hidle =>
    have hworkers := total_workers s hw.le (.searching startingQueue 0)
    have hthreads := total_update (ThreadPoint.effort numThreads) s.threads hw .inWork
    simp only [hidle, Worker.effort] at hworkers
    simp only [hpoint, ThreadPoint.effort] at hthreads
    simp only [effort, State.queued, State.worker]
    omega
  | exit w startingQueue hw hpoint hdead =>
    have hthreads := total_update (ThreadPoint.effort numThreads) s.threads hw .exited
    simp only [hpoint, ThreadPoint.effort] at hthreads
    simp only [effort]
    omega
  | take w startingQueue i job queue hw hpoint hi hdeq =>
    obtain ⟨hitems, -⟩ := items_dequeue (h.jobs.bounded _ (Nat.mod_lt _ hpos)) hdeq
    have hqueued := sum_queued_cons (pooled_lose (fun queue => (items queue : Multiset Job))
      s.jobs.jobQueuePerThread (Nat.mod_lt startingQueue hpos) (x := queue) (e := job)
      (by rw [hitems]; rfl))
    have hworkers := total_workers s hw (.running startingQueue i job job.groupJobOffset)
    simp only [hpoint, Worker.effort] at hworkers
    simp only [effort, State.queued, State.worker, hqueued, Job.effort]
    omega
  | pass w startingQueue i hw hpoint hi hdeq =>
    have hworkers := total_workers s hw (.searching (u32 (startingQueue + 1)) (i + 1))
    simp only [hpoint, Worker.effort] at hworkers
    simp only [effort, State.queued, State.worker]
    omega
  | leave w startingQueue i hw hpoint hi =>
    have hrange := h.points.inRange w hw
    rw [hpoint] at hrange
    obtain ⟨hle, -⟩ := hrange
    have hworkers := total_workers s hw .idle
    simp only [hpoint, Worker.effort] at hworkers
    have hthreads : total (ThreadPoint.effort numThreads)
        (if w < numThreads then Function.update s.threads w .waiting else s.threads) numThreads =
          total (ThreadPoint.effort numThreads) s.threads numThreads := by
      split_ifs with hlt
      · have hwaiting := total_update (ThreadPoint.effort numThreads) s.threads hlt .waiting
        have hin := (h.points.inWork w hlt).mpr (by simp [hpoint])
        simpa only [hin, ThreadPoint.effort, Nat.add_zero] using hwaiting
      · rfl
    simp only [effort, State.queued, State.worker, hthreads]
    omega
  | task w startingQueue i job j hw hpoint hj =>
    have hworkers := total_workers s hw (.running startingQueue i job (j + 1))
    simp only [hpoint, Worker.effort] at hworkers
    simp only [effort, State.queued, State.worker]
    omega
  | lower w startingQueue i job j hw hpoint hj =>
    have hworkers := total_workers s hw (.searching startingQueue i)
    simp only [hpoint, Worker.effort] at hworkers
    simp only [effort, State.queued, State.worker]
    omega
  | wait w hw hpoint hpost =>
    have hthreads := total_update (ThreadPoint.effort numThreads) s.threads hw .loading
    have hposts := total_update (postEffort numThreads * ·) s.semaphore hw (s.semaphore w - 1)
    have hone : postEffort numThreads * s.semaphore w =
        postEffort numThreads * (s.semaphore w - 1) + postEffort numThreads := by
      rw [← Nat.mul_succ, Nat.succ_eq_add_one, Nat.sub_add_cancel hpost]
    have hcost : postEffort numThreads = numThreads + 3 := rfl
    simp only [hpoint, ThreadPoint.effort] at hthreads
    simp only [effort]
    omega

/-- While the caller is in a call, no move leaves more to do. -/
theorem effort_le (h : s.Inv numThreads) (hpos : 0 < numThreads) (hcall : s.main ≠ .free)
    {move : Move} (hfits : s.Fits numThreads move) (hstep : s.step numThreads move = some t) :
    t.effort numThreads ≤ s.effort numThreads := by
  have heffect := step_effect hstep
  by_cases hmove : move = .spin
  · subst hmove
    cases heffect with
    | spin handle hmain hidle =>
      simp only [effort, hmain]
      split_ifs <;> simp [CallerPoint.effort]
  · exact (effort_lower h hpos hcall hmove hfits heffect).le

/-! ## Where the calling thread waits -/

/-- A move other than a load in the loop of `JobHandleWait` is possible. -/
def CanMove (numThreads : Nat) (s : System) : Prop :=
  ∃ move, move ≠ .spin ∧ s.Fits numThreads move ∧ (s.step numThreads move).isSome

/-- A worker in `Work` can move. -/
theorem canMove_of_worker {w : Nat} (hw : w ≤ numThreads) (hwork : s.jobs.workers w ≠ .idle) :
    s.CanMove numThreads := by
  have hlt : w < numThreads + 1 := Nat.lt_succ_iff.mpr hw
  cases hpoint : s.jobs.workers w with
  | idle => exact absurd hpoint hwork
  | searching startingQueue i =>
    refine ⟨.popFront w, by simp, trivial, ?_⟩
    simp only [step, access, State.step, hpoint, hlt, if_true, Option.isSome_map]
    split_ifs
    · split <;> rfl
    · rfl
  | running startingQueue i job j =>
    by_cases hj : j < job.groupJobEnd
    · refine ⟨.callTask w, by simp, trivial, ?_⟩
      simp [step, access, State.step, hpoint, hlt, hj]
    · refine ⟨.lowerCounter w, by simp, trivial, ?_⟩
      simp [step, access, State.step, hpoint, hlt, hj]

/-- While the job system is alive, a thread that is not asleep can move. -/
theorem canMove_of_awake (h : s.Inv numThreads) (hbound : numThreads ≤ 2 ^ 31) (halive : s.isAlive)
    {w : Nat} (hw : w < numThreads) (hawake : ¬ (s.threads w = .waiting ∧ s.semaphore w = 0)) :
    s.CanMove numThreads := by
  cases hpoint : s.threads w with
  | loading =>
    have hidle := h.points.worker_idle hw (by simp [hpoint])
    refine ⟨.load w 0, by simp, ?_, ?_⟩
    · show 0 + numThreads ≤ 2 ^ 32
      omega
    · simp [step, access, State.step, hw, hpoint, halive, hidle, Nat.lt_succ_of_lt hw]
  | inWork => exact canMove_of_worker hw.le ((h.points.inWork w hw).mp hpoint)
  | waiting =>
    refine ⟨.wait w, by simp, trivial, ?_⟩
    have hpost : 0 < s.semaphore w := Nat.pos_of_ne_zero fun hzero => hawake ⟨hpoint, hzero⟩
    simp [step, hw, hpoint, hpost]
  | exited => exact absurd hpoint (h.points.exited halive w hw)

/-- Where the calling thread loads a counter that is above zero, a worker thread can move. -/
theorem canMove_of_busy (h : s.Inv numThreads) (hbound : numThreads ≤ 2 ^ 31) {handle : Nat}
    (hmain : s.main = .helping handle) (hidle : s.jobs.workers numThreads = .idle)
    (hbusy : s.jobHandleIsBusy handle) : s.CanMove numThreads := by
  by_cases hasleep : s.Asleep numThreads
  · have hcounter := (h.finished_of_asleep ⟨hidle, .inr ⟨handle, hmain⟩⟩ hasleep).counter handle
    simp [jobHandleIsBusy, hcounter] at hbusy
  · unfold Asleep at hasleep
    push Not at hasleep
    obtain ⟨w, hw, hawake⟩ := hasleep
    exact canMove_of_awake h hbound (h.points.alive (by simp [hmain])) hw fun hand =>
      hawake hand.1 hand.2

end System

/-- In every run without end of atomic queues, where the calling thread does not load a counter
forever while another move is possible, every call returns. -/
theorem calls_return {numThreads : Nat} (hpos : 0 < numThreads) (hbound : numThreads ≤ 2 ^ 31)
    (memory : Nat → Nat → Job) (semaphore : Nat → Nat) {states : Nat → System} {moves : Nat → Move}
    (hrun : Forever (System.step numThreads) (System.Fits numThreads) states moves)
    (hstart : states 0 = System.create memory semaphore)
    (hfair : ∀ n, (states n).CanMove numThreads → ∃ m, n ≤ m ∧ moves m ≠ .spin) (n : Nat) :
    ∃ m, n ≤ m ∧ (states m).main = .free := by
  have hinv : ∀ m, (states m).Inv numThreads :=
    hrun.invariant (hstart ▸ System.inv_create memory semaphore)
      fun _ _ _ h hfits hstep => h.step hpos hbound hfits hstep
  by_contra hnever
  push Not at hnever
  -- Otherwise the effort comes to rest, and from then on the calling thread only loads.
  have hranks : Ranks (System.step numThreads) (System.Fits numThreads)
      (fun s => s.Inv numThreads ∧ s.main ≠ .free) (· ≠ .spin) (System.effort numThreads) :=
    ⟨fun s a t h hfits hstep hmove =>
        System.effort_lower h.1 hpos h.2 hmove hfits (System.step_effect hstep),
      fun s a t h hfits hstep => System.effort_le h.1 hpos h.2 hfits hstep⟩
  obtain ⟨k, hk⟩ := hranks.eventually (hrun.drop n) fun m =>
    ⟨hinv (n + m), hnever (n + m) (Nat.le_add_right n m)⟩
  have hspin : moves (n + k) = .spin := not_not.mp (hk k le_rfl)
  have heffect := System.step_effect (hrun.step (n + k))
  rw [hspin] at heffect
  have hafter := hnever (n + k + 1) (by omega)
  generalize hnext : states (n + k + 1) = next at heffect hafter
  cases heffect with
  | spin handle hmain hidle =>
    have hbusy : (states (n + k)).jobHandleIsBusy handle := by
      by_contra hbusy
      simp [hbusy] at hafter
    obtain ⟨m, hm, hmove⟩ :=
      hfair (n + k) (System.canMove_of_busy (hinv _) hbound hmain hidle hbusy)
    have hrest := hk (m - n) (by omega)
    rw [Nat.add_sub_cancel' (by omega : n ≤ m)] at hrest
    exact hrest hmove

/-- The schedule `waitOne` up to the return of `JobHandleWait`, and then more calls of it. -/
theorem calls_return_one :
    ∃ states moves, Forever (System.step 1) (System.Fits 1) states moves ∧
      states 0 = System.create (fun _ _ => ⟨0, 0, 0, 0, 0, 0⟩) (fun _ => 0) ∧
      ∀ n, ∃ m, n ≤ m ∧ (states m).main = .free := by
  have hfits : AtEach (System.step 1) (System.Fits 1)
      (System.create (fun _ _ => ⟨0, 0, 0, 0, 0, 0⟩) fun _ => 0) (waitOne ++ [.spin]) := by
    decide +kernel
  have hpoints : (exec (System.step 1)
      (System.create (fun _ _ => ⟨0, 0, 0, 0, 0, 0⟩) fun _ => 0) (waitOne ++ [.spin])).map
        (fun s => (s.main, s.jobHandleIsBusy 7)) = some (.free, false) := by
    decide +kernel
  obtain ⟨u, hu, hpoint⟩ := Option.map_eq_some_iff.mp hpoints
  simp only [Prod.mk.injEq] at hpoint
  obtain ⟨hmain, hbusy⟩ := hpoint
  have hfixed : u.step 1 (.jobHandleWait 7) = some u := by
    rw [System.step, if_pos hmain, hbusy, ← hmain]
    rfl
  have hwait : u.Fits 1 (.jobHandleWait 7) := trivial
  obtain ⟨states, moves, hforever, hstart, k, hk⟩ := Run.forever (hfits.run hu) hwait hfixed
  refine ⟨states, moves, hforever, hstart,
    calls_return (by decide) (by decide) _ _ hforever hstart fun n _ => ?_⟩
  refine ⟨max n k, le_max_left n k, ?_⟩
  rw [(hk _ (le_max_right n k)).2]
  simp

end ScalBase.Jobs
