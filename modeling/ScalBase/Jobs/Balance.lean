/-
  Jobs/Balance.lean --- the counter of a handle and its groups.

  A call raises the counter before it pushes, and `PushBack` drops a job that its
  queue has no room for.  While every push finds room, each dispatched group is at
  one place: still to be pushed, in a queue, being executed, or it has run.  The
  first three make up `pending`, and the counter of a handle is the number of its
  pending groups.
-/
import ScalBase.Jobs.Model
import ScalBase.Foundation.Run

set_option autoImplicit false

namespace ScalBase.Jobs

open Foundation Foundation.Slots Queues

/-! ## The queue of one thread -/

section Queue

variable {T : Type*} {queue : QueueThreaded T}

/-- `First` and `Last` are indexes. -/
def Bounded (queue : QueueThreaded T) : Prop :=
  queue.first < jobQueueSize ∧ queue.last < jobQueueSize

/-- The queue is not full. -/
def HasRoom (queue : QueueThreaded T) : Prop := (queue.last + 1) % jobQueueSize ≠ queue.first

instance (queue : QueueThreaded T) : Decidable (HasRoom queue) :=
  inferInstanceAs (Decidable (_ ≠ _))

theorem items_zero (memory : Nat → T) : items ⟨0, 0, memory⟩ = [] := by
  simp [items, jobQueueSize]

theorem Bounded.enqueue (h : Bounded queue) (value : T) : Bounded (enqueue queue value).2 := by
  simp only [Jobs.enqueue]
  split_ifs
  · exact ⟨h.1, Nat.mod_lt _ (by decide)⟩
  · exact h

/-- Where there is room a value goes to the end. -/
theorem items_enqueue (h : Bounded queue) (hroom : HasRoom queue) (value : T) :
    items (enqueue queue value).2 = items queue ++ [value] := by
  obtain ⟨hfirst, hlast⟩ := h
  unfold HasRoom at hroom
  rw [Jobs.enqueue, if_pos hroom]
  unfold items
  simp only [jobQueueSize] at *
  have hsucc : ((queue.last + 1) % 256 + (256 - queue.first)) % 256 =
      (queue.last + (256 - queue.first)) % 256 + 1 := by omega
  rw [hsucc, List.range_succ, List.map_append, List.map_singleton]
  congr 1
  · refine List.map_congr_left fun k hk => ?_
    have hlt := List.mem_range.mp hk
    exact Function.update_of_ne (by omega) ..
  · have hend : (queue.first + (queue.last + (256 - queue.first)) % 256) % 256 = queue.last := by
      omega
    rw [hend, Function.update_self]

/-- A value that is dequeued was the first. -/
theorem items_dequeue (h : Bounded queue) {value : T} {queue' : QueueThreaded T}
    (hdeq : dequeue queue = some (value, queue')) :
    items queue = value :: items queue' ∧ Bounded queue' := by
  obtain ⟨hfirst, hlast⟩ := h
  simp only [dequeue] at hdeq
  split_ifs at hdeq with hne
  obtain ⟨rfl, rfl⟩ := Prod.mk.inj (Option.some.inj hdeq)
  refine ⟨?_, Nat.mod_lt _ (by decide), hlast⟩
  unfold items
  simp only [jobQueueSize] at *
  have hsucc : (queue.last + (256 - queue.first)) % 256 =
      (queue.last + (256 - (queue.first + 1) % 256)) % 256 + 1 := by omega
  rw [hsucc, List.range_succ_eq_map, List.map_cons, List.map_map, Nat.add_zero,
    Nat.mod_eq_of_lt hfirst]
  congr 1
  refine List.map_congr_left fun k _ => ?_
  have hshift : (queue.first + (k + 1)) % 256 = ((queue.first + 1) % 256 + k) % 256 := by omega
  exact congrArg queue.memory hshift

end Queue

/-! ## The invariant -/

namespace State

/-- The groups that were dispatched and have not run. -/
def pending (numThreads workers : Nat) (s : State) : Multiset Job :=
  s.queued numThreads + s.executing workers + (s.caller.left : Multiset Job)

/-- The task was called for the jobs of a group before job `j`. -/
def Called (s : State) (job : Job) (j : Nat) : Prop :=
  ∀ k, job.groupJobOffset ≤ k → k < j → (job.task, job.args k) ∈ s.called

/-- What the accesses keep. -/
structure Inv (numThreads workers : Nat) (s : State) : Prop where
  bounded : ∀ q < numThreads, Bounded (s.jobQueuePerThread q)
  idx : ∀ idx, s.caller.idx = some idx → idx < numThreads
  dispatched : s.dispatched = s.pending numThreads workers + s.ran
  counter : ∀ h, (s.counter h).toNat = (s.pending numThreads workers).countP (·.handle = h)
  signed : ∀ h, (s.counter h).toNat < 2 ^ 31
  ran : ∀ job ∈ s.ran, s.Called job job.groupJobEnd
  running : ∀ w < workers, ∀ q i job j, s.workers w = .running q i job j → s.Called job j

/-- A push finds its queue not full, and no counter leaves its signed 32 bits. -/
def Fits (s : State) : Access → Prop
  | .jobsExecute handle _ _ => (s.counter handle).toNat + 1 < 2 ^ 31
  | .jobsDispatch handle jobCount groupSize _ _ =>
      (s.counter handle).toNat + jobsDispatchGroupCount jobCount.toNat groupSize.toNat < 2 ^ 31
  | .pushBack => ∀ idx ∈ s.caller.idx, HasRoom (s.jobQueuePerThread idx)
  | _ => True

instance (s : State) (access : Access) : Decidable (s.Fits access) :=
  match access with
  | .jobsExecute .. | .jobsDispatch .. => inferInstanceAs (Decidable (_ < _))
  | .pushBack =>
      inferInstanceAs (Decidable (∀ idx ∈ s.caller.idx, HasRoom (s.jobQueuePerThread idx)))
  | .fetchQueueIndex | .work .. | .popFront _ | .callTask _ | .lowerCounter _ => isTrue trivial

variable {numThreads workers : Nat} {s : State}

theorem inv_create (memory : Nat → Nat → Job) : (create memory).Inv numThreads workers := by
  have hqueued : (create memory).queued numThreads = 0 := pooled_eq_zero _ _ fun q _ =>
    congrArg _ (items_zero (memory q))
  have hexecuting : (create memory).executing workers = 0 := pooled_eq_zero _ _ fun _ _ => rfl
  have hpending : (create memory).pending numThreads workers = 0 := by
    rw [pending, hqueued, hexecuting]
    rfl
  have hsize : 0 < jobQueueSize := by decide
  refine ⟨fun _ _ => ⟨hsize, hsize⟩, nofun, ?_, fun h => ?_, fun _ => Nat.two_pow_pos 31, ?_, nofun⟩
  · rw [hpending]
    rfl
  · rw [hpending]
    rfl
  · intro job hmem
    exact absurd hmem (Multiset.notMem_zero job)

/-! ## The caller -/

/-- The groups of one call are all groups of its handle. -/
theorem countP_handle {groups : List Job} {handle : Nat}
    (hhandle : ∀ job ∈ groups, job.handle = handle) (other : Nat) :
    (groups : Multiset Job).countP (·.handle = other) =
      if other = handle then groups.length else 0 := by
  rw [Multiset.coe_countP]
  split_ifs with heq
  · exact List.countP_eq_length.mpr fun job hmem => by simp [heq, hhandle job hmem]
  · exact List.countP_eq_zero.mpr fun job hmem => by simp [hhandle job hmem, Ne.symm heq]

/-- The counters after a call, where the one that it raises does not wrap. -/
theorem raise_counter {handle : Nat} {groups : List Job}
    (hfits : (s.counter handle).toNat + groups.length < 2 ^ 31) (other : Nat) :
    ((s.raise handle groups.length groups).counter other).toNat =
      (s.counter other).toNat + if other = handle then groups.length else 0 := by
  simp only [State.raise]
  split_ifs with heq
  · subst heq
    rw [Function.update_self, BitVec.toNat_add, BitVec.toNat_ofNat]
    omega
  · rw [Function.update_of_ne heq, add_zero]

/-- A call raises the counter by the number of groups it is going to push. -/
theorem Inv.raise (h : s.Inv numThreads workers) (hidle : s.caller.left = []) {handle : Nat}
    {groups : List Job} (hhandle : ∀ job ∈ groups, job.handle = handle)
    (hfits : (s.counter handle).toNat + groups.length < 2 ^ 31) :
    (s.raise handle groups.length groups).Inv numThreads workers := by
  have hpending : (s.raise handle groups.length groups).pending numThreads workers =
      s.pending numThreads workers + groups := by
    have hleft : (s.caller.left : Multiset Job) = 0 := by rw [hidle]; rfl
    rw [pending, pending, hleft, add_zero]
    rfl
  refine ⟨h.bounded, nofun, ?_, fun other => ?_, fun other => ?_, h.ran, h.running⟩
  · rw [hpending]
    show s.dispatched + groups = _
    rw [h.dispatched, add_right_comm]
    rfl
  · rw [hpending, Multiset.countP_add, countP_handle hhandle, raise_counter hfits, h.counter]
  · rw [raise_counter hfits]
    have hsigned := h.signed other
    split_ifs with heq
    · rw [heq]
      exact hfits
    · rw [add_zero]
      exact hsigned

theorem jobsDispatchGroups_handle {handle jobCount groupSize task stack : Nat} :
    ∀ job ∈ jobsDispatchGroups handle jobCount groupSize task stack, job.handle = handle := by
  intro job hmem
  obtain ⟨groupId, -, rfl⟩ := List.mem_map.mp hmem
  rfl

theorem length_jobsDispatchGroups (handle jobCount groupSize task stack : Nat) :
    (jobsDispatchGroups handle jobCount groupSize task stack).length =
      jobsDispatchGroupCount jobCount groupSize := by
  simp [jobsDispatchGroups]

/-- The accounts do not change when the pending groups stay the same. -/
theorem Inv.keep (h : s.Inv numThreads workers) {t : State}
    (hbounded : ∀ q < numThreads, Bounded (t.jobQueuePerThread q))
    (hidx : ∀ idx, t.caller.idx = some idx → idx < numThreads)
    (hpending : t.pending numThreads workers = s.pending numThreads workers)
    (hsame : t.dispatched = s.dispatched ∧ t.ran = s.ran ∧ t.counter = s.counter)
    (hcalled : ∀ call ∈ s.called, call ∈ t.called)
    (hrunning : ∀ w < workers, ∀ q i job j, t.workers w = .running q i job j → t.Called job j) :
    t.Inv numThreads workers := by
  obtain ⟨hdispatched, hran, hcounter⟩ := hsame
  refine ⟨hbounded, hidx, ?_, fun other => ?_, fun other => ?_, fun job hmem => ?_, hrunning⟩
  · rw [hdispatched, hpending, hran, h.dispatched]
  · rw [hcounter, hpending, h.counter]
  · rw [hcounter]
    exact h.signed other
  · rw [hran] at hmem
    exact fun k hk hlt => hcalled _ (h.ran job hmem k hk hlt)

/-- A group that is pushed where there is room goes from the caller to a queue. -/
theorem Inv.pushBack (h : s.Inv numThreads workers) {job : Job} {left : List Job} {idx : Nat}
    (hcaller : s.caller = ⟨job :: left, some idx⟩) (hroom : HasRoom (s.jobQueuePerThread idx)) :
    Inv numThreads workers { s with
      jobQueuePerThread := Function.update s.jobQueuePerThread idx
        (enqueue (s.jobQueuePerThread idx) job).2
      caller := ⟨left, none⟩ } := by
  have hidx : idx < numThreads := h.idx idx (by rw [hcaller])
  refine h.keep (fun q hq => ?_) nofun ?_ ⟨rfl, rfl, rfl⟩ (fun _ hmem => hmem) h.running
  · by_cases heq : q = idx
    · subst heq
      simp only [Function.update_self]
      exact (h.bounded q hq).enqueue job
    · simp only [Function.update_of_ne heq]
      exact h.bounded q hq
  · have hitems : (items (enqueue (s.jobQueuePerThread idx) job).2 : Multiset Job) =
        job ::ₘ (items (s.jobQueuePerThread idx) : Multiset Job) := by
      rw [items_enqueue (h.bounded idx hidx) hroom, ← Multiset.coe_add, add_comm]
      rfl
    have hqueued := pooled_gain (fun queue => (items queue : Multiset Job)) s.jobQueuePerThread
      hidx hitems
    unfold pending queued
    rw [hqueued, hcaller, Multiset.cons_add, Multiset.cons_add, ← Multiset.cons_coe,
      Multiset.add_cons]
    rfl

/-! ## The workers -/

/-- A worker that goes from one point to another leaves the others where they are. -/
theorem Inv.worker_running (h : s.Inv numThreads workers) {w : Nat} {point : Worker}
    (hpoint : ∀ q i job j, point = .running q i job j → s.Called job j) :
    ∀ v < workers, ∀ q i job j, Function.update s.workers w point v = .running q i job j →
      s.Called job j := by
  intro v hv q i job j hrun
  by_cases heq : v = w
  · subst heq
    rw [Function.update_self] at hrun
    exact hpoint q i job j hrun
  · rw [Function.update_of_ne heq] at hrun
    exact h.running v hv q i job j hrun

/-- A worker without a group goes to a point without one. -/
theorem Inv.move (h : s.Inv numThreads workers) {w : Nat} (hw : w < workers) {point : Worker}
    (hfrom : (s.workers w).job = none) (hto : point.job = none) :
    (s.worker w point).Inv numThreads workers := by
  refine h.keep h.bounded h.idx ?_ ⟨rfl, rfl, rfl⟩ (fun _ hmem => hmem)
    (h.worker_running fun q i job j hpoint => ?_)
  · have hexecuting := pooled_keep (fun worker : Worker => one worker.job) s.workers hw
      (show one point.job = one (s.workers w).job by rw [hfrom, hto])
    unfold pending executing
    exact congrArg (fun m => s.queued numThreads + m + _) hexecuting
  · rw [hpoint] at hto
    cases hto

/-- A worker takes the first group of a queue. -/
theorem Inv.popFront (h : s.Inv numThreads workers) {w : Nat} (hw : w < workers)
    (hfrom : (s.workers w).job = none) {idx : Nat} (hidx : idx < numThreads) {job : Job}
    {queue : QueueThreaded Job} (hdeq : dequeue (s.jobQueuePerThread idx) = some (job, queue))
    (startingQueue i : Nat) :
    Inv numThreads workers { s.worker w (.running startingQueue i job job.groupJobOffset) with
      jobQueuePerThread := Function.update s.jobQueuePerThread idx queue } := by
  obtain ⟨hitems, hbounded⟩ := items_dequeue (h.bounded idx hidx) hdeq
  refine h.keep (fun q hq => ?_) h.idx ?_ ⟨rfl, rfl, rfl⟩ (fun _ hmem => hmem)
    (h.worker_running fun q' i' job' j hpoint k hk hlt => ?_)
  · by_cases heq : q = idx
    · subst heq
      simp only [Function.update_self]
      exact hbounded
    · simp only [Function.update_of_ne heq]
      exact h.bounded q hq
  · have hqueued := pooled_lose (fun queue => (items queue : Multiset Job)) s.jobQueuePerThread
      hidx (x := queue) (e := job) (by rw [hitems]; rfl)
    have hexecuting := pooled_gain (fun worker : Worker => one worker.job) s.workers hw
      (x := .running startingQueue i job job.groupJobOffset) (e := job) (by rw [hfrom]; rfl)
    unfold pending queued executing
    simp only [State.worker]
    rw [hqueued, hexecuting, Multiset.add_cons, ← Multiset.cons_add]
  · -- Before its first job nothing was called.
    cases hpoint
    omega

/-- A worker calls the task for one job of its group. -/
theorem Inv.callTask (h : s.Inv numThreads workers) {w : Nat} (hw : w < workers)
    {startingQueue i : Nat} {job : Job} {j : Nat}
    (hrun : s.workers w = .running startingQueue i job j) :
    Inv numThreads workers { s.worker w (.running startingQueue i job (j + 1)) with
      called := (job.task, job.args j) :: s.called } := by
  refine h.keep h.bounded h.idx ?_ ⟨rfl, rfl, rfl⟩ (fun _ hmem => List.mem_cons_of_mem _ hmem) ?_
  · have hexecuting := pooled_keep (fun worker : Worker => one worker.job) s.workers hw
      (show one (Worker.running startingQueue i job (j + 1)).job = one (s.workers w).job by
        rw [hrun]
        rfl)
    unfold pending executing
    exact congrArg (fun m => s.queued numThreads + m + _) hexecuting
  · intro v hv q' i' job' j' hpoint k hk hlt
    by_cases hvw : v = w
    · subst hvw
      simp only [State.worker, Function.update_self] at hpoint
      cases hpoint
      rcases Nat.lt_succ_iff_lt_or_eq.mp hlt with hlt | rfl
      · exact List.mem_cons_of_mem _ (h.running v hv _ _ _ _ hrun k hk hlt)
      · exact List.mem_cons_self ..
    · simp only [State.worker, Function.update_of_ne hvw] at hpoint
      exact List.mem_cons_of_mem _ (h.running v hv _ _ _ _ hpoint k hk hlt)

/-- The counter of a handle with a pending group can be lowered by one. -/
theorem Inv.lowered (h : s.Inv numThreads workers) {job : Job} {rest : Multiset Job}
    (hpending : s.pending numThreads workers = job ::ₘ rest) (other : Nat) :
    (s.counter other).toNat =
      (Function.update s.counter job.handle (s.counter job.handle - 1) other).toNat +
        if job.handle = other then 1 else 0 := by
  have hcount := h.counter other
  rw [hpending, Multiset.countP_cons] at hcount
  by_cases heq : job.handle = other
  · subst heq
    simp only [Function.update_self, if_true] at hcount ⊢
    rw [BitVec.toNat_sub_of_le (by rw [BitVec.le_def]; show 1 ≤ _; omega)]
    show _ = _ - 1 + 1
    omega
  · simp only [if_neg heq, Function.update_of_ne (Ne.symm heq), add_zero]

/-- A worker that has called the task for every job of its group lowers the counter. -/
theorem Inv.lowerCounter (h : s.Inv numThreads workers) {w : Nat} (hw : w < workers)
    {startingQueue i : Nat} {job : Job} {j : Nat}
    (hrun : s.workers w = .running startingQueue i job j) (hend : ¬ j < job.groupJobEnd) :
    Inv numThreads workers { s.worker w (.searching startingQueue i) with
      counter := Function.update s.counter job.handle (s.counter job.handle - 1)
      ran := job ::ₘ s.ran } := by
  have hexecuting := pooled_lose (fun worker : Worker => one worker.job) s.workers hw
    (x := .searching startingQueue i) (e := job) (by rw [hrun]; rfl)
  -- `t` is the state after the access.
  generalize ht : ({ s.worker w (.searching startingQueue i) with
      counter := Function.update s.counter job.handle (s.counter job.handle - 1)
      ran := job ::ₘ s.ran } : State) = t
  have hpending : s.pending numThreads workers = job ::ₘ t.pending numThreads workers := by
    subst ht
    unfold pending executing
    rw [hexecuting, Multiset.add_cons, Multiset.cons_add]
    rfl
  have hword : ∀ other, (s.counter other).toNat =
      (t.counter other).toNat + if job.handle = other then 1 else 0 := by
    intro other
    rw [h.lowered hpending other]
    subst ht
    rfl
  refine ⟨?_, ?_, ?_, fun other => ?_, fun other => ?_, ?_, ?_⟩
  · subst ht
    exact h.bounded
  · subst ht
    exact h.idx
  · have hran : t.ran = job ::ₘ s.ran ∧ t.dispatched = s.dispatched := by
      subst ht
      exact ⟨rfl, rfl⟩
    rw [hran.1, hran.2, h.dispatched, hpending, Multiset.cons_add, Multiset.add_cons]
  · have hcount := h.counter other
    rw [hpending, Multiset.countP_cons, hword] at hcount
    omega
  · have hsigned := h.signed other
    rw [hword] at hsigned
    omega
  · subst ht
    intro done hmem
    rcases Multiset.mem_cons.mp hmem with rfl | hmem
    · exact fun k hk hlt => h.running w hw _ _ _ _ hrun k hk (by omega)
    · exact h.ran done hmem
  · subst ht
    exact h.worker_running nofun

/-! ## Whole runs -/

/-- An access that fits keeps the invariant. -/
theorem Inv.step (h : s.Inv numThreads workers) (hpos : 0 < numThreads) {access : Access}
    (hfits : s.Fits access) {t : State} (hstep : s.step numThreads workers access = some t) :
    t.Inv numThreads workers := by
  cases access with
  | jobsExecute handle task stack =>
    simp only [State.step] at hstep
    split_ifs at hstep with hidle
    cases hstep
    have hhandle : ∀ job ∈ [(⟨task, stack, handle, 0, 0, 1⟩ : Job)], job.handle = handle := by
      simp
    exact h.raise hidle hhandle hfits
  | jobsDispatch handle jobCount groupSize task stack =>
    simp only [State.step] at hstep
    split_ifs at hstep with hidle hnone
    · cases hstep
      exact h
    · cases hstep
      rw [← length_jobsDispatchGroups handle _ _ task stack]
      refine h.raise hidle jobsDispatchGroups_handle ?_
      rw [length_jobsDispatchGroups]
      exact hfits
  | fetchQueueIndex =>
    simp only [State.step] at hstep
    split_ifs at hstep
    cases hstep
    refine h.keep h.bounded (fun idx hidx => ?_) rfl ⟨rfl, rfl, rfl⟩ (fun _ hmem => hmem) h.running
    cases hidx
    exact Nat.mod_lt _ hpos
  | pushBack =>
    simp only [State.step] at hstep
    split at hstep
    · rename_i job left idx hcaller
      cases hstep
      exact h.pushBack hcaller (hfits idx (by rw [hcaller]; rfl))
    · cases hstep
  | work w startingQueue =>
    simp only [State.step] at hstep
    split_ifs at hstep with hw
    cases hstep
    exact h.move hw.1 (by rw [hw.2]; rfl) rfl
  | popFront w =>
    simp only [State.step] at hstep
    split at hstep
    · rename_i startingQueue i hpoint
      have hfrom : (s.workers w).job = none := by rw [hpoint]; rfl
      split_ifs at hstep with hw hi
      · split at hstep
        · rename_i job queue hdeq
          cases hstep
          exact h.popFront hw hfrom (Nat.mod_lt _ hpos) hdeq startingQueue i
        · cases hstep
          exact h.move hw hfrom rfl
      · cases hstep
        exact h.move hw hfrom rfl
    · cases hstep
  | callTask w =>
    simp only [State.step] at hstep
    split at hstep
    · rename_i startingQueue i job j hrun
      split_ifs at hstep with hw
      cases hstep
      exact h.callTask hw.1 hrun
    · cases hstep
  | lowerCounter w =>
    simp only [State.step] at hstep
    split at hstep
    · rename_i startingQueue i job j hrun
      split_ifs at hstep with hw
      cases hstep
      exact h.lowerCounter hw.1 hrun hw.2
    · cases hstep

/-- The counter of every handle is the number of its groups that are queued or being
executed, and is zero when all that were dispatched have run and only then; a group that
has run has had its task called for each of its jobs. -/
structure Accounted (numThreads workers : Nat) (s : State) : Prop where
  counter : ∀ h, (s.counter h).toInt =
    ((s.queued numThreads + s.executing workers).countP (·.handle = h) : Nat)
  zero_iff : ∀ h, s.counter h = 0 ↔
    s.dispatched.filter (·.handle = h) = s.ran.filter (·.handle = h)
  called : ∀ job ∈ s.ran, s.Called job job.groupJobEnd

theorem Inv.accounted (h : s.Inv numThreads workers) (hbetween : s.caller.left = []) :
    s.Accounted numThreads workers := by
  have hpending : s.pending numThreads workers = s.queued numThreads + s.executing workers := by
    rw [pending, hbetween]
    exact add_zero _
  refine ⟨fun handle => ?_, fun handle => ?_, h.ran⟩
  · have hsigned := h.signed handle
    rw [← hpending, ← h.counter, BitVec.toInt_eq_toNat_of_lt (by omega)]
  · have hword : s.counter handle = 0 ↔ (s.counter handle).toNat = 0 := BitVec.toNat_inj.symm
    rw [hword, h.counter, h.dispatched, Multiset.filter_add, Multiset.countP_eq_card_filter,
      Multiset.card_eq_zero]
    exact ⟨fun hzero => by rw [hzero, zero_add], fun heq => by simpa using heq⟩

end State

/-- In every run whose accesses fit, in every state between calls, the counters are the
numbers of groups queued or being executed, and no group is lost. -/
theorem counter_eq_pending {numThreads workers : Nat} (hpos : 0 < numThreads)
    (memory : Nat → Nat → Job) {accesses : List Access} {s : State}
    (hrun : Run (State.step numThreads workers) State.Fits (State.create memory) accesses s)
    (hbetween : s.caller.left = []) : s.Accounted numThreads workers := by
  have hinv := hrun.invariant (State.Inv numThreads workers)
    (fun _ _ _ h hfits hstep => h.step hpos hfits hstep) (State.inv_create memory)
  exact hinv.accounted hbetween

/-! ### Schedules -/

/-- The loop in `JobsDispatch` pushes `n` groups. -/
def pushes (n : Nat) : List Access := (List.replicate n [.fetchQueueIndex, .pushBack]).flatten

/-- Three jobs in groups of two, over two queues; a worker has run the first group. -/
def dispatchThree : List Access :=
  .jobsDispatch 7 3 2 1 0 :: pushes 2 ++
    [.work 0 0, .popFront 0, .callTask 0, .callTask 0, .lowerCounter 0]

theorem counter_eq_pending_three :
    ∃ s, exec (State.step 2 1) (State.create fun _ _ => ⟨0, 0, 0, 0, 0, 0⟩) dispatchThree = some s ∧
      s.Accounted 2 1 := by
  have hfits : AtEach (State.step 2 1) State.Fits (State.create fun _ _ => ⟨0, 0, 0, 0, 0, 0⟩)
      dispatchThree := by
    decide +kernel
  have hleft : (exec (State.step 2 1) (State.create fun _ _ => ⟨0, 0, 0, 0, 0, 0⟩)
      dispatchThree).map (fun s => s.caller.left) = some [] := by
    decide +kernel
  obtain ⟨s, hs, hbetween⟩ := Option.map_eq_some_iff.mp hleft
  exact ⟨s, hs, counter_eq_pending (by decide) _ (hfits.run hs) hbetween⟩

/-- One queue, 256 groups, and no worker that takes one: the last push finds the queue
full. -/
theorem pushBack_loses_group :
    ∃ s, exec (State.step 1 1) (State.create fun _ _ => ⟨0, 0, 0, 0, 0, 0⟩)
        (.jobsDispatch 7 256 1 1 0 :: pushes 256) = some s ∧
      s.caller.left = [] ∧ (s.counter 7).toInt = 256 ∧
      (s.queued 1 + s.executing 1).countP (·.handle = 7) = 255 := by
  have hrun : (exec (State.step 1 1) (State.create fun _ _ => ⟨0, 0, 0, 0, 0, 0⟩)
      (.jobsDispatch 7 256 1 1 0 :: pushes 256)).map (fun s => (s.caller.left,
        (s.counter 7).toInt, (s.queued 1 + s.executing 1).countP (·.handle = 7))) =
          some ([], 256, 255) := by
    decide +kernel
  obtain ⟨s, hs, heq⟩ := Option.map_eq_some_iff.mp hrun
  simp only [Prod.mk.injEq] at heq
  exact ⟨s, hs, heq⟩

end ScalBase.Jobs
