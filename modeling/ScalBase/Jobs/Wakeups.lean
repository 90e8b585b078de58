/-
  Jobs/Wakeups.lean --- no wake-up of a worker thread is lost.

  A post may come at any time: while the thread of the queue is in `Work` and past its
  own queue, between its `Work` and its wait, or while it waits.  A queue that is not
  empty is attended: the caller is about to post for it, its thread has a post to
  take, its thread is about to call `Work`, or its thread is in `Work` and has the queue
  still ahead.  So when all threads sleep nothing is left in any queue.

  The queues are those whose `Enqueue` and `Dequeue` are atomic.
-/
import ScalBase.Jobs.Threads

set_option autoImplicit false

namespace ScalBase.Jobs

open Foundation Foundation.Slots Queues

/-! ## The queues -/

theorem items_of_dequeue_eq_none {T : Type*} {queue : QueueThreaded T} (h : Bounded queue)
    (hdeq : dequeue queue = none) : items queue = [] := by
  obtain ⟨hfirst, -⟩ := h
  simp only [dequeue, ite_eq_right_iff, reduceCtorEq, imp_false, not_not] at hdeq
  unfold items
  rw [← hdeq, Nat.add_sub_cancel' hfirst.le, Nat.mod_self]
  rfl

/-! ## Where the threads stand -/

/-- `Work` has not left the loop over the queues, and its 32-bit sums do not wrap. -/
def Worker.InRange (numThreads : Nat) : Worker → Prop
  | .idle => True
  | .searching startingQueue i | .running startingQueue i _ _ =>
      i ≤ numThreads ∧ startingQueue + (numThreads - i) ≤ 2 ^ 32

/-- `Work` comes to queue `q` in this turn of its loop or in a later one. -/
def Worker.Ahead (numThreads q : Nat) : Worker → Prop
  | .idle => False
  | .searching startingQueue i | .running startingQueue i _ _ =>
      ∃ k, i + k < numThreads ∧ (startingQueue + k) % numThreads = q

theorem Worker.ahead_start {numThreads q : Nat} (hq : q < numThreads) (startingQueue : Nat) :
    (Worker.searching startingQueue 0).Ahead numThreads q := by
  refine ⟨(q + (numThreads - startingQueue % numThreads)) % numThreads, ?_, ?_⟩
  · rw [Nat.zero_add]
    exact Nat.mod_lt _ (by omega)
  · have hlt := Nat.mod_lt startingQueue (by omega : 0 < numThreads)
    rw [Nat.add_mod_mod, ← Nat.mod_add_mod, show startingQueue % numThreads +
      (q + (numThreads - startingQueue % numThreads)) = q + numThreads by omega,
      Nat.add_mod_right, Nat.mod_eq_of_lt hq]

/-- The next turn leaves out the queue of this one at most. -/
theorem Worker.ahead_next {numThreads q startingQueue i : Nat}
    (hrange : (Worker.searching startingQueue i).InRange numThreads)
    (h : (Worker.searching startingQueue i).Ahead numThreads q)
    (hq : startingQueue % numThreads ≠ q) :
    (Worker.searching (u32 (startingQueue + 1)) (i + 1)).Ahead numThreads q := by
  obtain ⟨k, hk, hmod⟩ := h
  obtain ⟨-, hword⟩ := hrange
  cases k with
  | zero => exact absurd hmod hq
  | succ k =>
    refine ⟨k, by omega, ?_⟩
    have hsmall : u32 (startingQueue + 1) = startingQueue + 1 := Nat.mod_eq_of_lt (by omega)
    rw [hsmall, show startingQueue + 1 + k = startingQueue + (k + 1) by omega, hmod]

theorem Worker.inRange_next {numThreads startingQueue i : Nat} (hi : i < numThreads)
    (h : (Worker.searching startingQueue i).InRange numThreads) :
    (Worker.searching (u32 (startingQueue + 1)) (i + 1)).InRange numThreads := by
  have hle : u32 (startingQueue + 1) ≤ startingQueue + 1 := Nat.mod_le _ _
  obtain ⟨-, hword⟩ := h
  exact ⟨hi, by omega⟩

namespace System

variable {numThreads : Nat} {s t : System}

/-- What the points of the threads say of each other. -/
structure Points (numThreads : Nat) (s : System) : Prop where
  inWork : ∀ t < numThreads, s.threads t = .inWork ↔ s.jobs.workers t ≠ .idle
  helping : s.jobs.workers numThreads ≠ .idle → ∃ handle, s.main = .helping handle
  left : s.jobs.caller.left ≠ [] → s.main = .pushing ∨ ∃ idx, s.main = .posting idx
  pushing : s.main = .pushing → s.jobs.caller.left ≠ []
  posting : ∀ idx, s.main = .posting idx → idx < numThreads
  alive : s.main ≠ .closed → s.isAlive
  exited : s.isAlive → ∀ t < numThreads, s.threads t ≠ .exited
  inRange : ∀ w ≤ numThreads, (s.jobs.workers w).InRange numThreads

/-- Somebody will look into queue `q`. -/
def Attended (numThreads : Nat) (s : System) (q : Nat) : Prop :=
  s.main = .posting q ∨ 0 < s.semaphore q ∨ s.threads q = .loading ∨
    (s.jobs.workers q).Ahead numThreads q

/-- Every queue that holds a group is attended. -/
def Watched (numThreads : Nat) (s : System) : Prop :=
  ∀ q < numThreads, items (s.jobs.jobQueuePerThread q) ≠ [] → s.Attended numThreads q

/-! ## What the moves keep -/

/-- The moves keep the balance of the counters. -/
theorem jobs_step (h : s.jobs.Inv numThreads (numThreads + 1)) (hpos : 0 < numThreads) {move : Move}
    (hfits : s.Fits numThreads move) (hstep : s.step numThreads move = some t) :
    t.jobs.Inv numThreads (numThreads + 1) := by
  have haccess : ∀ {u : System} {a : Access}, s.access numThreads a = some u → s.jobs.Fits a →
      u.jobs.Inv numThreads (numThreads + 1) := by
    intro u a hu ha
    obtain ⟨jobs, hjobs, rfl⟩ := access_eq_some hu
    exact h.step hpos ha hjobs
  cases move with
  | jobsExecute handle task stack =>
    simp only [step] at hstep
    split_ifs at hstep
    obtain ⟨u, hu, rfl⟩ := Option.map_eq_some_iff.mp hstep
    have hinv : u.jobs.Inv numThreads (numThreads + 1) := haccess hu hfits
    exact hinv
  | jobsDispatch handle jobCount groupSize task stack =>
    simp only [step] at hstep
    split_ifs at hstep
    obtain ⟨u, hu, rfl⟩ := Option.map_eq_some_iff.mp hstep
    have hinv : u.jobs.Inv numThreads (numThreads + 1) := haccess hu hfits
    exact hinv
  | fetchQueueIndex =>
    simp only [step] at hstep
    split_ifs at hstep
    exact haccess hstep trivial
  | pushBack =>
    simp only [step] at hstep
    split at hstep
    · obtain ⟨u, hu, rfl⟩ := Option.map_eq_some_iff.mp hstep
      have hinv : u.jobs.Inv numThreads (numThreads + 1) := haccess hu hfits
      exact hinv
    · cases hstep
  | popFront w =>
    obtain ⟨u, hu, rfl⟩ := Option.map_eq_some_iff.mp hstep
    have hjobs : (u.returned numThreads w).jobs = u.jobs := by
      unfold returned
      split_ifs <;> rfl
    rw [hjobs]
    exact haccess hu trivial
  | callTask w => exact haccess hstep trivial
  | lowerCounter w => exact haccess hstep trivial
  | help =>
    cases step_effect hstep with
    | help handle threadId hmain hge hidle =>
      -- The queue index that is fetched is no part of the balance.
      have hindex : State.Inv numThreads (numThreads + 1)
          { s.jobs with nextQueueIndex := u32 (s.jobs.nextQueueIndex + 1) } :=
        h.keep h.bounded h.idx rfl ⟨rfl, rfl, rfl⟩ (fun _ hmem => hmem) h.running
      exact hindex.move (Nat.lt_succ_self numThreads) (congrArg Worker.job hidle) rfl
  | load w startingQueue =>
    cases step_effect hstep with
    | load _ _ hw hpoint halive hidle =>
      exact h.move (Nat.lt_succ_of_lt hw) (congrArg Worker.job hidle) rfl
    | exit => exact h
  | post | jobHandleWait | wake | spin | shutdown | wait =>
    cases step_effect hstep
    exact h

/-- The head of the loop over the groups of a call. -/
theorem points_next (hinWork : ∀ w < numThreads, s.threads w = .inWork ↔ s.jobs.workers w ≠ .idle)
    (hidle : s.jobs.workers numThreads = .idle) (halive : s.isAlive)
    (hexited : s.isAlive → ∀ t < numThreads, s.threads t ≠ .exited)
    (hinRange : ∀ w ≤ numThreads, (s.jobs.workers w).InRange numThreads) :
    s.next.Points numThreads := by
  refine ⟨hinWork, fun hne => absurd hidle hne, fun hleft => .inl ?_, fun hmain => ?_,
    fun idx hmain => ?_, fun _ => halive, hexited, hinRange⟩
  · exact if_neg hleft
  · intro hleft
    rw [show s.next.main = .free from if_pos hleft] at hmain
    cases hmain
  · simp only [next] at hmain
    split_ifs at hmain

/-- Worker `w` goes to a point of its loop. -/
theorem Points.worker_inRange (h : s.Points numThreads) (w : Nat) (point : Worker)
    (hpoint : point.InRange numThreads) :
    ∀ v ≤ numThreads, (Function.update s.jobs.workers w point v).InRange numThreads := by
  intro v hv
  by_cases heq : v = w
  · rw [heq, Function.update_self]
    exact hpoint
  · rw [Function.update_of_ne heq]
    exact h.inRange v hv

/-- Worker `w` stays in `Work`. -/
theorem Points.worker (h : s.Points numThreads) {w : Nat} {point : Worker} {jobs : State}
    (hworkers : jobs.workers = Function.update s.jobs.workers w point)
    (hcaller : jobs.caller = s.jobs.caller) (hfrom : s.jobs.workers w ≠ .idle)
    (hto : point ≠ .idle) (hpoint : point.InRange numThreads) :
    ({ s with jobs := jobs } : System).Points numThreads := by
  have hsame : ∀ v, jobs.workers v ≠ .idle ↔ s.jobs.workers v ≠ .idle := by
    intro v
    rw [hworkers]
    by_cases heq : v = w
    · simp [heq, hfrom, hto]
    · rw [Function.update_of_ne heq]
  refine ⟨fun v hv => (h.inWork v hv).trans (hsame v).symm, fun hne => h.helping ((hsame _).mp hne),
    ?_, ?_, h.posting, h.alive, h.exited, ?_⟩
  · simp only [hcaller]
    exact h.left
  · simp only [hcaller]
    exact h.pushing
  · simp only [hworkers]
    exact h.worker_inRange w point hpoint

/-- A thread that is not in `Work` goes to another such point. -/
theorem Points.thread (h : s.Points numThreads) {w : Nat} (hfrom : s.threads w ≠ .inWork)
    {point : ThreadPoint} (hto : point ≠ .inWork) (v : Nat) (hv : v < numThreads) :
    Function.update s.threads w point v = .inWork ↔ s.jobs.workers v ≠ .idle := by
  rw [← h.inWork v hv]
  by_cases heq : v = w
  · simp [heq, hfrom, hto]
  · rw [Function.update_of_ne heq]

/-- No thread exits while the job system is alive. -/
theorem Points.thread_exited (h : s.Points numThreads) {w : Nat} {point : ThreadPoint}
    (hto : point ≠ .exited) (halive : s.isAlive) (v : Nat) (hv : v < numThreads) :
    Function.update s.threads w point v ≠ .exited := by
  by_cases heq : v = w
  · simpa [heq] using hto
  · rw [Function.update_of_ne heq]
    exact h.exited halive v hv

/-- A thread goes into `Work` or comes out of it. -/
theorem Points.thread_worker (h : s.Points numThreads) {w : Nat} {point : ThreadPoint}
    {worker : Worker} (hboth : point = .inWork ↔ worker ≠ .idle) (v : Nat) (hv : v < numThreads) :
    Function.update s.threads w point v = .inWork ↔
      Function.update s.jobs.workers w worker v ≠ .idle := by
  by_cases heq : v = w
  · simpa [heq] using hboth
  · rw [Function.update_of_ne heq, Function.update_of_ne heq]
    exact h.inWork v hv

theorem Points.idle_of_main (h : s.Points numThreads) (hmain : ∀ handle, s.main ≠ .helping handle) :
    s.jobs.workers numThreads = .idle := by
  by_contra hne
  obtain ⟨handle, hhandle⟩ := h.helping hne
  exact hmain handle hhandle

theorem Points.worker_idle (h : s.Points numThreads) {w : Nat} (hw : w < numThreads)
    (hpoint : s.threads w ≠ .inWork) : s.jobs.workers w = .idle := by
  by_contra hne
  exact hpoint ((h.inWork w hw).mpr hne)

theorem Points.left_nil (h : s.Points numThreads) (hpushing : s.main ≠ .pushing)
    (hposting : ∀ idx, s.main ≠ .posting idx) : s.jobs.caller.left = [] := by
  by_contra hne
  rcases h.left hne with hmain | ⟨idx, hmain⟩
  · exact hpushing hmain
  · exact hposting idx hmain

theorem Points.step (h : s.Points numThreads) (hjobs : s.jobs.Inv numThreads (numThreads + 1))
    (hpos : 0 < numThreads) (hbound : numThreads ≤ 2 ^ 31) {move : Move}
    (hfits : s.Fits numThreads move) (heffect : Effect numThreads s move t) :
    t.Points numThreads := by
  cases heffect with
  | execute _ _ _ hfree | dispatch _ _ _ _ _ hfree | nothing _ _ _ _ _ hfree =>
    exact points_next h.inWork (h.idle_of_main (by simp [hfree])) (h.alive (by simp [hfree]))
      h.exited h.inRange
  | post idx hmain =>
    exact points_next h.inWork (h.idle_of_main (by simp [hmain])) (h.alive (by simp [hmain]))
      h.exited h.inRange
  | fetch hmain hcaller =>
    exact ⟨h.inWork, h.helping, h.left, h.pushing, h.posting, h.alive, h.exited, h.inRange⟩
  | push job left idx hmain hcaller =>
    have hidle := h.idle_of_main (by simp [hmain])
    refine ⟨h.inWork, fun hne => absurd hidle hne, fun _ => .inr ⟨idx, rfl⟩, by simp,
      fun _ heq => ?_, fun _ => h.alive (by simp [hmain]), h.exited, h.inRange⟩
    cases heq
    exact hjobs.idx idx (by rw [hcaller])
  | ask handle hfree =>
    have hidle := h.idle_of_main (by simp [hfree])
    have hleft := h.left_nil (by simp [hfree]) (by simp [hfree])
    refine ⟨h.inWork, fun hne => absurd hidle hne, fun hne => absurd hleft hne, fun hmain => ?_,
      fun idx hmain => ?_, fun _ => h.alive (by simp [hfree]), h.exited, h.inRange⟩
    · simp only at hmain
      split_ifs at hmain
    · simp only at hmain
      split_ifs at hmain
  | spin handle hmain hidle =>
    have hleft := h.left_nil (by simp [hmain]) (by simp [hmain])
    refine ⟨h.inWork, fun hne => absurd hidle hne, fun hne => absurd hleft hne, fun hpoint => ?_,
      fun idx hpoint => ?_, fun _ => h.alive (by simp [hmain]), h.exited, h.inRange⟩
    · simp only at hpoint
      split_ifs at hpoint
    · simp only at hpoint
      split_ifs at hpoint
  | wake handle threadId hmain hlt =>
    have hidle := h.idle_of_main (by simp [hmain])
    have hleft := h.left_nil (by simp [hmain]) (by simp [hmain])
    exact ⟨h.inWork, fun hne => absurd hidle hne, fun hne => absurd hleft hne, by simp, by simp,
      fun _ => h.alive (by simp [hmain]), h.exited, h.inRange⟩
  | help handle threadId hmain hge hidle =>
    have hleft := h.left_nil (by simp [hmain]) (by simp [hmain])
    refine ⟨fun v hv => ?_, fun _ => ⟨handle, rfl⟩, fun hne => absurd hleft hne, by simp, by simp,
      fun _ => h.alive (by simp [hmain]), h.exited, h.worker_inRange numThreads _ ?_⟩
    · rw [h.inWork v hv]
      simp only [State.worker]
      rw [Function.update_of_ne hv.ne]
    · have hmod := Nat.mod_lt s.jobs.nextQueueIndex hpos
      exact ⟨Nat.zero_le _, by omega⟩
  | shutdown hfree =>
    have hidle := h.idle_of_main (by simp [hfree])
    have hleft := h.left_nil (by simp [hfree]) (by simp [hfree])
    exact ⟨h.inWork, fun hne => absurd hidle hne, fun hne => absurd hleft hne, by simp, by simp,
      fun hopen => absurd rfl hopen, by simp, h.inRange⟩
  | load w startingQueue hw hpoint halive hidle =>
    refine ⟨h.thread_worker (by simp), fun hne => h.helping ?_, h.left, h.pushing, h.posting,
      h.alive, fun hlive => h.thread_exited (by simp) hlive,
      h.worker_inRange w (.searching startingQueue 0) ⟨Nat.zero_le _, hfits⟩⟩
    simpa only [State.worker, Function.update_of_ne hw.ne'] using hne
  | exit w startingQueue hw hpoint hdead =>
    exact ⟨h.thread (by simp [hpoint]) (by simp), h.helping, h.left, h.pushing, h.posting, h.alive,
      fun hlive => absurd hlive (by simp [hdead]), h.inRange⟩
  | take w startingQueue i job queue hw hpoint hi hdeq =>
    have hrange := h.inRange w hw
    rw [hpoint] at hrange
    exact h.worker rfl rfl (by simp [hpoint]) (by simp) hrange
  | pass w startingQueue i hw hpoint hi hdeq =>
    have hrange := h.inRange w hw
    rw [hpoint] at hrange
    exact h.worker rfl rfl (by simp [hpoint]) (by simp) (Worker.inRange_next hi hrange)
  | leave w startingQueue i hw hpoint hi =>
    refine ⟨fun v hv => ?_, fun hne => h.helping ?_, h.left, h.pushing, h.posting, h.alive,
      fun hlive v hv => ?_, h.worker_inRange w .idle trivial⟩
    · by_cases hlt : w < numThreads
      · rw [if_pos hlt]
        exact h.thread_worker (by simp) v hv
      · rw [if_neg hlt, h.inWork v hv]
        simp only [State.worker]
        rw [Function.update_of_ne (by omega)]
    · intro hidle
      simp only [State.worker] at hne
      by_cases heq : numThreads = w
      · rw [← heq, Function.update_self] at hne
        exact hne rfl
      · rw [Function.update_of_ne heq] at hne
        exact hne hidle
    · simp only
      split_ifs
      · exact h.thread_exited (by simp) hlive v hv
      · exact h.exited hlive v hv
  | task w startingQueue i job j hw hpoint hj =>
    have hrange := h.inRange w hw
    rw [hpoint] at hrange
    exact h.worker rfl rfl (by simp [hpoint]) (by simp) hrange
  | lower w startingQueue i job j hw hpoint hj =>
    have hrange := h.inRange w hw
    rw [hpoint] at hrange
    exact h.worker rfl rfl (by simp [hpoint]) (by simp) hrange
  | wait w hw hpoint hpost =>
    exact ⟨h.thread (by simp [hpoint]) (by simp), h.helping, h.left, h.pushing, h.posting, h.alive,
      h.thread_exited (by simp), h.inRange⟩

/-- Queues that lose groups stay watched where no attention is lost. -/
theorem Watched.keep (h : s.Watched numThreads)
    (hitems : ∀ q < numThreads, items (t.jobs.jobQueuePerThread q) ≠ [] →
      items (s.jobs.jobQueuePerThread q) ≠ [])
    (hattended : ∀ q < numThreads, items (t.jobs.jobQueuePerThread q) ≠ [] →
      s.Attended numThreads q → t.Attended numThreads q) : t.Watched numThreads :=
  fun q hq hne => hattended q hq hne (h q hq (hitems q hq hne))

/-- The caller moves on, to a point or from one where it was not about to post. -/
theorem Watched.main (h : s.Watched numThreads) (hmain : ∀ q, s.main ≠ .posting q)
    (hqueues : t.jobs.jobQueuePerThread = s.jobs.jobQueuePerThread)
    (hworkers : ∀ q < numThreads, t.jobs.workers q = s.jobs.workers q)
    (hsemaphore : t.semaphore = s.semaphore) (hthreads : t.threads = s.threads) :
    t.Watched numThreads := by
  refine h.keep (fun q _ hne => by rwa [hqueues] at hne) fun q hq _ hattended => ?_
  unfold Attended
  rw [hworkers q hq, hsemaphore, hthreads]
  exact .inr (hattended.resolve_left (hmain q))

theorem signal_semaphore_pos {s : System} {q r : Nat} (h : 0 < s.semaphore q) :
    0 < (s.signal r).semaphore q := by
  simp only [signal]
  by_cases heq : q = r
  · rw [heq, Function.update_self]
    omega
  · rwa [Function.update_of_ne heq]

/-- The caller posts. -/
theorem Watched.signal (h : s.Watched numThreads) {r : Nat}
    (hmain : ∀ q, s.main = .posting q → q = r) (main : CallerPoint) :
    ({ s.signal r with main := main } : System).Watched numThreads := by
  refine h.keep (fun _ _ hne => hne) fun q _ _ hattended => ?_
  rcases hattended with hpost | hsemaphore | hrest
  · obtain rfl := hmain q hpost
    refine .inr (.inl ?_)
    simp [System.signal]
  · exact .inr (.inl (signal_semaphore_pos hsemaphore))
  · exact .inr (.inr hrest)

/-- Worker `w` moves on in `Work`, and keeps ahead what is not empty. -/
theorem Watched.worker (h : s.Watched numThreads) {w : Nat} {point : Worker} {jobs : State}
    (hworkers : jobs.workers = Function.update s.jobs.workers w point)
    (hitems : ∀ q < numThreads, items (jobs.jobQueuePerThread q) ≠ [] →
      items (s.jobs.jobQueuePerThread q) ≠ [])
    (hahead : ∀ q < numThreads, items (jobs.jobQueuePerThread q) ≠ [] →
      (s.jobs.workers w).Ahead numThreads q → point.Ahead numThreads q) :
    ({ s with jobs := jobs } : System).Watched numThreads := by
  refine h.keep hitems fun q hq hne hattended => ?_
  rcases hattended with hpost | hsemaphore | hloading | hworker
  · exact .inl hpost
  · exact .inr (.inl hsemaphore)
  · exact .inr (.inr (.inl hloading))
  · refine .inr (.inr (.inr ?_))
    simp only [hworkers]
    by_cases heq : q = w
    · subst heq
      rw [Function.update_self]
      exact hahead q hq hne hworker
    · rwa [Function.update_of_ne heq]

/-- While the job system is alive the moves keep the queues watched. -/
theorem Watched.step (h : s.Watched numThreads) (hjobs : s.jobs.Inv numThreads (numThreads + 1))
    (hpos : 0 < numThreads) (hpoints : s.Points numThreads) {move : Move}
    (heffect : Effect numThreads s move t) (halive : t.isAlive) : t.Watched numThreads := by
  cases heffect with
  | execute _ _ _ hfree | dispatch _ _ _ _ _ hfree | nothing _ _ _ _ _ hfree | ask _ hfree
  | shutdown hfree =>
    exact h.main (by simp [hfree]) rfl (fun _ _ => rfl) rfl rfl
  | fetch hmain hcaller | spin _ hmain =>
    exact h.main (by simp [hmain]) rfl (fun _ _ => rfl) rfl rfl
  | help handle threadId hmain hge hidle =>
    refine h.main (by simp [hmain]) rfl (fun q hq => ?_) rfl rfl
    exact Function.update_of_ne hq.ne ..
  | push job left idx hmain hcaller =>
    intro q hq hne
    by_cases heq : q = idx
    · subst heq
      exact .inl rfl
    · simp only [Function.update_of_ne heq] at hne
      exact .inr ((h q hq hne).resolve_left (by simp [hmain]))
  | post idx hmain =>
    refine h.signal (fun q hq => ?_) _
    rw [hmain] at hq
    cases hq
    rfl
  | wake handle threadId hmain hlt => exact h.signal (by simp [hmain]) _
  | load w startingQueue hw hpoint halive' hidle =>
    refine h.keep (fun _ _ hne => hne) fun q hq _ hattended => ?_
    by_cases heq : q = w
    · subst heq
      refine .inr (.inr (.inr ?_))
      simp only [State.worker, Function.update_self]
      exact Worker.ahead_start hq startingQueue
    · unfold Attended State.worker
      simp only [Function.update_of_ne heq]
      exact hattended
  | exit w startingQueue hw hpoint hdead =>
    rw [show s.isAlive = true from halive] at hdead
    cases hdead
  | take w startingQueue i job queue hw hpoint hi hdeq =>
    obtain ⟨hitems, -⟩ := items_dequeue (hjobs.bounded _ (Nat.mod_lt _ hpos)) hdeq
    refine h.worker rfl (fun q _ hne => ?_) fun q _ _ hahead => ?_
    · by_cases heq : q = startingQueue % numThreads
      · rw [heq, hitems]
        exact List.cons_ne_nil _ _
      · simpa only [Function.update_of_ne heq] using hne
    · rw [hpoint] at hahead
      exact hahead
  | pass w startingQueue i hw hpoint hi hdeq =>
    refine h.worker rfl (fun _ _ hne => hne) fun q _ hne hahead => ?_
    have hrange := hpoints.inRange w hw
    rw [hpoint] at hahead hrange
    refine Worker.ahead_next hrange hahead fun heq => hne ?_
    exact items_of_dequeue_eq_none (hjobs.bounded _ (heq ▸ Nat.mod_lt _ hpos)) (heq ▸ hdeq)
  | leave w startingQueue i hw hpoint hi =>
    refine h.keep (fun _ _ hne => hne) fun q hq _ hattended => ?_
    -- The thread of queue `w` has nothing ahead, and is not loading.
    rcases hattended with hpost | hsemaphore | hloading | hahead
    · exact .inl hpost
    · exact .inr (.inl hsemaphore)
    · have hne : q ≠ w := by
        rintro rfl
        have hwork := (hpoints.inWork q hq).mpr (by simp [hpoint])
        rw [hloading] at hwork
        cases hwork
      refine .inr (.inr (.inl ?_))
      simp only
      split_ifs
      · rwa [Function.update_of_ne hne]
      · exact hloading
    · have hne : q ≠ w := by
        rintro rfl
        rw [hpoint] at hahead
        obtain ⟨k, hk, -⟩ := hahead
        omega
      refine .inr (.inr (.inr ?_))
      simp only [State.worker]
      rwa [Function.update_of_ne hne]
  | task w startingQueue i job j hw hpoint hj =>
    refine h.worker rfl (fun _ _ hne => hne) fun q _ _ hahead => ?_
    rw [hpoint] at hahead
    exact hahead
  | lower w startingQueue i job j hw hpoint hj =>
    refine h.worker rfl (fun _ _ hne => hne) fun q _ _ hahead => ?_
    rw [hpoint] at hahead
    exact hahead
  | wait w hw hpoint hpost =>
    refine h.keep (fun _ _ hne => hne) fun q hq _ hattended => ?_
    by_cases heq : q = w
    · exact .inr (.inr (.inl (by simp [heq])))
    · unfold Attended
      simp only [Function.update_of_ne heq]
      exact hattended

/-! ## Whole runs -/

/-- What the moves keep. -/
structure Inv (numThreads : Nat) (s : System) : Prop where
  jobs : s.jobs.Inv numThreads (numThreads + 1)
  points : s.Points numThreads
  watched : s.isAlive → s.Watched numThreads

theorem inv_create (memory : Nat → Nat → Job) (semaphore : Nat → Nat) :
    (create memory semaphore).Inv numThreads := by
  refine ⟨State.inv_create memory, ⟨fun _ _ => ?_, ?_, ?_, nofun, nofun, fun _ => rfl, nofun,
    fun _ _ => ?_⟩, fun _ q _ hne => ?_⟩
  · simp [create, State.create]
  · exact fun hne => absurd rfl hne
  · exact fun hne => absurd rfl hne
  · trivial
  · exact absurd (items_zero (memory q)) hne

/-- No move revives the job system. -/
theorem Effect.alive {move : Move} (heffect : Effect numThreads s move t) (halive : t.isAlive) :
    s.isAlive := by
  cases heffect with
  | shutdown => cases halive
  | _ => exact halive

theorem Inv.step (h : s.Inv numThreads) (hpos : 0 < numThreads) (hbound : numThreads ≤ 2 ^ 31)
    {move : Move} (hfits : s.Fits numThreads move) (hstep : s.step numThreads move = some t) :
    t.Inv numThreads := by
  have heffect := step_effect hstep
  exact ⟨jobs_step h.jobs hpos hfits hstep, h.points.step h.jobs hpos hbound hfits heffect,
    fun halive => (h.watched (heffect.alive halive)).step h.jobs hpos h.points heffect halive⟩

theorem inv_of_run {memory : Nat → Nat → Job} {semaphore : Nat → Nat} (hpos : 0 < numThreads)
    (hbound : numThreads ≤ 2 ^ 31) {moves : List Move}
    (hrun : Run (step numThreads) (Fits numThreads) (create memory semaphore) moves s) :
    s.Inv numThreads :=
  hrun.invariant (Inv numThreads) (fun _ _ _ h hfits hstep => h.step hpos hbound hfits hstep)
    (inv_create memory semaphore)

/-- Every thread waits on its semaphore, and none has a post to take. -/
def Asleep (numThreads : Nat) (s : System) : Prop :=
  ∀ t < numThreads, s.threads t = .waiting ∧ s.semaphore t = 0

/-- The calling thread is between calls, or in the loop of `JobHandleWait` after `Work`. -/
def Settled (numThreads : Nat) (s : System) : Prop :=
  s.jobs.workers numThreads = .idle ∧
    (s.main = .free ∨ ∃ handle, s.main = .helping handle)

/-- Every group that was dispatched has run, with a call for each of its jobs, and every
counter is back at zero. -/
structure Finished (s : System) : Prop where
  ran : s.jobs.dispatched = s.jobs.ran
  counter : ∀ handle, s.jobs.counter handle = 0
  called : ∀ job ∈ s.jobs.dispatched, s.jobs.Called job job.groupJobEnd

/-- Where nothing is pending everything has run. -/
theorem Inv.finished (h : s.Inv numThreads)
    (hpending : s.jobs.pending numThreads (numThreads + 1) = 0) : s.Finished := by
  have hran : s.jobs.dispatched = s.jobs.ran := by
    rw [h.jobs.dispatched, hpending, zero_add]
  refine ⟨hran, fun handle => ?_, fun job hmem => h.jobs.ran job (hran ▸ hmem)⟩
  have hcount := h.jobs.counter handle
  rw [hpending, Multiset.countP_zero] at hcount
  exact BitVec.toNat_inj.mp hcount

theorem Inv.left_nil (h : s.Inv numThreads) (hsettled : s.Settled numThreads) :
    s.jobs.caller.left = [] := by
  obtain ⟨-, hfree | ⟨handle, hmain⟩⟩ := hsettled
  · exact h.points.left_nil (by simp [hfree]) (by simp [hfree])
  · exact h.points.left_nil (by simp [hmain]) (by simp [hmain])

/-- Where all threads sleep the queues are empty. -/
theorem Inv.items_nil (h : s.Inv numThreads) (hsettled : s.Settled numThreads)
    (hasleep : s.Asleep numThreads) {q : Nat} (hq : q < numThreads) :
    items (s.jobs.jobQueuePerThread q) = [] := by
  obtain ⟨hwaiting, hsemaphore⟩ := hasleep q hq
  by_contra hne
  have halive : s.isAlive := by
    refine h.points.alive ?_
    obtain ⟨-, hfree | ⟨handle, hmain⟩⟩ := hsettled
    · simp [hfree]
    · simp [hmain]
  rcases h.watched halive q hq hne with hpost | hpositive | hloading | hahead
  · obtain ⟨-, hfree | ⟨handle, hmain⟩⟩ := hsettled
    · simp [hfree] at hpost
    · simp [hmain] at hpost
  · omega
  · rw [hwaiting] at hloading
    cases hloading
  · rw [h.points.worker_idle hq (by simp [hwaiting])] at hahead
    exact hahead

theorem Inv.finished_of_asleep (h : s.Inv numThreads) (hsettled : s.Settled numThreads)
    (hasleep : s.Asleep numThreads) : s.Finished := by
  refine h.finished ?_
  have hqueued : s.jobs.queued numThreads = 0 := pooled_eq_zero _ _ fun q hq => by
    rw [h.items_nil hsettled hasleep hq]
    rfl
  have hexecuting : s.jobs.executing (numThreads + 1) = 0 := pooled_eq_zero _ _ fun w hw => by
    rcases Nat.lt_succ_iff_lt_or_eq.mp hw with hlt | rfl
    · rw [h.points.worker_idle hlt (by simp [(hasleep w hlt).1])]
      rfl
    · rw [hsettled.1]
      rfl
  rw [State.pending, hqueued, hexecuting, h.left_nil hsettled]
  rfl

end System

/-! ### Schedules -/

/-- One queue and one thread, which finds nothing and goes to sleep.  `JobsExecute` wakes it
up. -/
def executeOne : List Move :=
  [.load 0 0, .popFront 0, .popFront 0, .jobsExecute 7 1 0, .fetchQueueIndex, .pushBack, .post,
    .wait 0, .load 0 0, .popFront 0, .callTask 0, .lowerCounter 0, .popFront 0, .popFront 0]

/-- The same with a thread that is slow: the calling thread runs the job itself. -/
def waitOne : List Move :=
  [.jobsExecute 7 1 0, .fetchQueueIndex, .pushBack, .post, .jobHandleWait 7, .wake, .help,
    .popFront 1, .callTask 1, .lowerCounter 1, .popFront 1, .popFront 1]

/-! ### What holds in every run -/

/-- In every run with atomic queues, where the calling thread is between calls or waits and all
worker threads sleep, no group is left: all have run. -/
theorem asleep_finished {numThreads : Nat} (hpos : 0 < numThreads) (hbound : numThreads ≤ 2 ^ 31)
    (memory : Nat → Nat → Job) (semaphore : Nat → Nat) {moves : List Move} {s : System}
    (hrun : Run (System.step numThreads) (System.Fits numThreads) (System.create memory semaphore)
      moves s)
    (hsettled : s.Settled numThreads) (hasleep : s.Asleep numThreads) : s.Finished :=
  (System.inv_of_run hpos hbound hrun).finished_of_asleep hsettled hasleep

theorem asleep_finished_one :
    ∃ s, exec (System.step 1) (System.create (fun _ _ => ⟨0, 0, 0, 0, 0, 0⟩) fun _ => 0)
        executeOne = some s ∧ s.Finished := by
  have hfits : AtEach (System.step 1) (System.Fits 1)
      (System.create (fun _ _ => ⟨0, 0, 0, 0, 0, 0⟩) fun _ => 0) executeOne := by
    decide +kernel
  have hpoints : (exec (System.step 1)
      (System.create (fun _ _ => ⟨0, 0, 0, 0, 0, 0⟩) fun _ => 0) executeOne).map
        (fun s => (s.jobs.workers 1, s.main, s.threads 0, s.semaphore 0)) =
      some (.idle, .free, .waiting, 0) := by
    decide +kernel
  obtain ⟨s, hs, hpoint⟩ := Option.map_eq_some_iff.mp hpoints
  simp only [Prod.mk.injEq] at hpoint
  obtain ⟨hidle, hmain, hwaiting, hsemaphore⟩ := hpoint
  have hasleep : s.Asleep 1 := by
    intro t ht
    obtain rfl : t = 0 := by omega
    exact ⟨hwaiting, hsemaphore⟩
  exact ⟨s, hs,
    asleep_finished (by decide) (by decide) _ _ (hfits.run hs) ⟨hidle, .inl hmain⟩ hasleep⟩

/-- In every run with atomic queues, `JobHandleWait` returns only where every group of its handle
has run. -/
theorem wait_returns_after_groups {numThreads : Nat} (hpos : 0 < numThreads)
    (hbound : numThreads ≤ 2 ^ 31) (memory : Nat → Nat → Job) (semaphore : Nat → Nat)
    {moves : List Move} {s t : System} {move : Move} {handle : Nat}
    (hrun : Run (System.step numThreads) (System.Fits numThreads) (System.create memory semaphore)
      moves s)
    (hwait : move = .jobHandleWait handle ∨ move = .spin ∧ s.main = .helping handle)
    (hstep : s.step numThreads move = some t) (hfree : t.main = .free) :
    t.jobs.dispatched.filter (·.handle = handle) = t.jobs.ran.filter (·.handle = handle) ∧
      ∀ job ∈ t.jobs.dispatched, job.handle = handle → t.jobs.Called job job.groupJobEnd := by
  have hinv := System.inv_of_run hpos hbound hrun
  -- The counter was loaded and was not above zero.
  have hload : t.jobs = s.jobs ∧ s.jobHandleIsBusy handle = false ∧ s.jobs.caller.left = [] := by
    rcases hwait with rfl | ⟨rfl, hmain⟩
    · cases System.step_effect hstep with
      | ask _ hbefore =>
        simp only at hfree
        split_ifs at hfree with hbusy
        exact ⟨rfl, by simpa using hbusy,
          hinv.points.left_nil (by simp [hbefore]) (by simp [hbefore])⟩
    · cases System.step_effect hstep with
      | spin other hother hidle =>
        rw [hmain] at hother
        cases hother
        simp only at hfree
        split_ifs at hfree with hbusy
        exact ⟨rfl, by simpa using hbusy, hinv.points.left_nil (by simp [hmain]) (by simp [hmain])⟩
  obtain ⟨hjobs, hbusy, hleft⟩ := hload
  have haccounted := hinv.jobs.accounted hleft
  have hzero : s.jobs.counter handle = 0 := by
    have hle : (s.jobs.counter handle).toInt ≤ 0 := by
      simpa [System.jobHandleIsBusy] using hbusy
    rw [haccounted.counter] at hle
    have hcount := haccounted.counter handle
    rw [show (Multiset.countP _ _ : Nat) = 0 by omega] at hcount
    exact BitVec.toInt_inj.mp hcount
  have hfilter := (haccounted.zero_iff handle).mp hzero
  rw [hjobs]
  refine ⟨hfilter, fun job hmem hhandle => haccounted.called job ?_⟩
  exact Multiset.mem_of_mem_filter (hfilter ▸ Multiset.mem_filter.mpr ⟨hmem, hhandle⟩)

theorem wait_returns_after_groups_one :
    ∃ s t, exec (System.step 1) (System.create (fun _ _ => ⟨0, 0, 0, 0, 0, 0⟩) fun _ => 0)
        waitOne = some s ∧ s.step 1 .spin = some t ∧
      t.jobs.dispatched.filter (·.handle = 7) = t.jobs.ran.filter (·.handle = 7) := by
  have hfits : AtEach (System.step 1) (System.Fits 1)
      (System.create (fun _ _ => ⟨0, 0, 0, 0, 0, 0⟩) fun _ => 0) waitOne := by
    decide +kernel
  have hpoints : (exec (System.step 1)
      (System.create (fun _ _ => ⟨0, 0, 0, 0, 0, 0⟩) fun _ => 0) waitOne).map
        (fun s => (s.main, (s.step 1 .spin).map (·.main))) = some (.helping 7, some .free) := by
    decide +kernel
  obtain ⟨s, hs, hpoint⟩ := Option.map_eq_some_iff.mp hpoints
  simp only [Prod.mk.injEq] at hpoint
  obtain ⟨hmain, hspin⟩ := hpoint
  obtain ⟨t, ht, hfree⟩ := Option.map_eq_some_iff.mp hspin
  exact ⟨s, t, hs, ht, (wait_returns_after_groups (by decide) (by decide) _ _ (hfits.run hs)
    (.inr ⟨rfl, hmain⟩) ht hfree).1⟩

end ScalBase.Jobs
