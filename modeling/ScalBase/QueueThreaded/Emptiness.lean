/-
  QueueThreaded/Emptiness.lean --- what a `Dequeue` that returns false has seen.

  `Dequeue` returns false when `Last` is the value of `First` that it loaded, and also
  when its compare-exchange finds another value in `First`.  The second says that some
  other consumer took a value, and not that none is left.

  A call starts with its load of `First`.  While `First` stays as loaded, a call that
  returns false does so on an empty queue (`Fresh.endsFalse`).  `Unraced` excludes the
  compare-exchange that moves `First` past what another call has loaded and leaves a
  value in the queue; without it every call that returns false has seen the queue empty.
-/
import ScalBase.QueueThreaded

set_option autoImplicit false

namespace ScalBase.Queues

open ScalBase.Foundation

variable {ι T : Type*} [DecidableEq ι] {capacity : Nat} {s t : State ι T} {i : ι}

/-- `First` equals `Last`. -/
def State.Empty (s : State ι T) : Prop := s.queue.first = s.queue.last

/-- The access ends the call of consumer `i`, which returns false. -/
def EndsFalse (s : State ι T) (i : ι) : Access ι T → Prop
  | .dequeueLoadLast j => j = i ∧ s.consumers i = .loadedFirst s.queue.last
  | .dequeueCompareExchange j =>
      j = i ∧ ∃ originalFirst, s.consumers i = .notEmpty originalFirst ∧
        s.queue.first ≠ originalFirst
  | _ => False

/-- Every `Dequeue` call of the run that returns false has seen the queue empty: before its
first access or after one of those before its last. -/
def ReportsEmpty (capacity : Nat) (s₀ : State ι T) (accesses : List (Access ι T)) :
    Prop :=
  ∀ i before call a s, before ++ (.dequeueLoadFirst i :: call) ++ [a] <+: accesses →
    .dequeueLoadFirst i ∉ call →
    exec (step capacity) s₀ (before ++ .dequeueLoadFirst i :: call) = some s → EndsFalse s i a →
    ∃ part t, part <+: .dequeueLoadFirst i :: call ∧
      exec (step capacity) s₀ (before ++ part) = some t ∧ t.Empty

/-- The access does not move `First` past the value that another consumer has loaded and
leave a value in the queue. -/
def Unraced (capacity : Nat) (s : State ι T) : Access ι T → Prop
  | .dequeueCompareExchange j =>
      s.consumers j = .notEmpty s.queue.first → (s.queue.first + 1) % capacity = s.queue.last ∨
        ∀ i, i ≠ j → s.consumers i ≠ .loadedFirst s.queue.first ∧
          s.consumers i ≠ .notEmpty s.queue.first
  | _ => True

/-- A consumer at this point has loaded `First` and not yet compared it. -/
def Dequeue.Loaded (d : Dequeue) (originalFirst : Nat) : Prop :=
  d = .loadedFirst originalFirst ∨ d = .notEmpty originalFirst

/-! ## What an access does to `First` -/

/-- A consumer that goes to a point at which it has loaded what it had, or `First`. -/
theorem State.loaded_consumer (s : State ι T) (j : ι) {point : Dequeue}
    (hpoint : ∀ f, point.Loaded f → f = s.queue.first ∨ (s.consumers j).Loaded f) (i : ι) (f : Nat)
    (hi : ((s.consumer j point).consumers i).Loaded f) :
    f = s.queue.first ∨ (s.consumers i).Loaded f := by
  rcases eq_or_ne i j with rfl | hne
  · rw [State.consumers_consumer_self] at hi
    exact hpoint f hi
  · rw [State.consumers_consumer_of_ne s hne] at hi
    exact Or.inr hi

theorem not_loaded_idle (f : Nat) : ¬ Dequeue.Loaded .idle f := by
  rintro (h | h) <;> cases h

/-- An access leaves `First` as it is, and then what is loaded was loaded before or is in
`First`; or it is a compare-exchange that moves it. -/
theorem step_cases {a : Access ι T} (hstep : step capacity s a = some t) :
    (t.queue.first = s.queue.first ∧
      ∀ i f, (t.consumers i).Loaded f → f = s.queue.first ∨ (s.consumers i).Loaded f) ∨
    ∃ j, a = .dequeueCompareExchange j ∧ s.consumers j = .notEmpty s.queue.first ∧
      t.queue.first = (s.queue.first + 1) % capacity ∧ t.queue.last = s.queue.last ∧
      t.consumers = Function.update s.consumers j (.claimed s.queue.first) := by
  cases Stepped.of_step hstep with
  | enqueueLoadLast | enqueueLoadFirst | enqueueFull => exact Or.inl ⟨rfl, fun _ _ => Or.inr⟩
  | enqueueStoreSlot | enqueueStoreLast => exact Or.inl ⟨rfl, fun _ _ => Or.inr⟩
  | dequeueLoadFirst =>
    refine Or.inl ⟨rfl, s.loaded_consumer _ fun f hf => Or.inl ?_⟩
    rcases hf with hf | hf
    · exact (Dequeue.loadedFirst.inj hf).symm
    · cases hf
  | dequeueLoadLast hi =>
    refine Or.inl ⟨rfl, s.loaded_consumer _ fun f hf => Or.inr (Or.inl ?_)⟩
    rcases hf with hf | hf
    · cases hf
    · rw [hi, Dequeue.notEmpty.inj hf]
  | dequeueClaim hi => exact Or.inr ⟨_, rfl, hi, rfl, rfl, rfl⟩
  | dequeueEmpty | dequeueLost | dequeueCopy =>
    exact Or.inl ⟨rfl, s.loaded_consumer _ fun f hf => absurd hf (not_loaded_idle f)⟩

/-! ## While `First` is as loaded -/

/-- What consumer `i` has loaded is still in `First`. -/
def Fresh (s : State ι T) (i : ι) : Prop := ∀ f, (s.consumers i).Loaded f → f = s.queue.first

omit [DecidableEq ι] in
/-- The access after which a call returns false, on a queue that is empty. -/
theorem Fresh.endsFalse (h : Fresh s i) {a : Access ι T} (ha : EndsFalse s i a) : s.Empty := by
  cases a with
  | dequeueLoadLast j => exact (h _ (Or.inl ha.2)).symm
  | dequeueCompareExchange j =>
    obtain ⟨-, originalFirst, hi, hne⟩ := ha
    exact absurd (h originalFirst (Or.inr hi)).symm hne
  | enqueueLoadLast | enqueueLoadFirst | enqueueStoreSlot | enqueueStoreLast => exact ha.elim
  | dequeueLoadFirst | dequeueCopy => exact ha.elim

/-- An access without a race leaves what is loaded in `First`, or the queue empty. -/
theorem Fresh.step (h : Fresh s i) {a : Access ι T} (hok : Unraced capacity s a)
    (hstep : Queues.step capacity s a = some t) : t.Empty ∨ Fresh t i := by
  rcases step_cases hstep with ⟨hfirst, hloaded⟩ | ⟨j, rfl, hj, hfirst, hlast, hconsumers⟩
  · right
    intro f hf
    rw [hfirst]
    exact (hloaded i f hf).elim id (h f)
  · rcases hok hj with hempty | hothers
    · left
      rw [State.Empty, hfirst, hlast]
      exact hempty
    · right
      intro f hf
      rw [hconsumers] at hf
      rcases eq_or_ne i j with rfl | hne
      · rw [Function.update_self] at hf
        rcases hf with hf | hf <;> cases hf
      · rw [Function.update_of_ne hne] at hf
        -- Another consumer that has loaded `First` would be raced.
        obtain ⟨hnotLoaded, hnotEmpty⟩ := hothers i hne
        rw [h f hf] at hf
        exact hf.elim (absurd · hnotLoaded) (absurd · hnotEmpty)

/-- After its load of `First` a consumer has what is in it. -/
theorem fresh_dequeueLoadFirst (hstep : step capacity s (.dequeueLoadFirst i) = some t) :
    Fresh t i := by
  cases Stepped.of_step hstep with
  | dequeueLoadFirst =>
    intro f hf
    rw [State.consumers_consumer_self] at hf
    rcases hf with hf | hf
    · exact (Dequeue.loadedFirst.inj hf).symm
    · cases hf

/-! ## Runs -/

/-- From its load of `First` on, a call has seen the queue empty or has what is in `First`. -/
theorem call_sees {s₀ : State ι T} {before : List (Access ι T)} : ∀ {call : List (Access ι T)},
    AtEach (step capacity) (Unraced capacity) s₀ (before ++ .dequeueLoadFirst i :: call) →
    exec (step capacity) s₀ (before ++ .dequeueLoadFirst i :: call) = some s →
    (∃ part t, part <+: .dequeueLoadFirst i :: call ∧
      exec (step capacity) s₀ (before ++ part) = some t ∧ t.Empty) ∨ Fresh s i := by
  intro call
  -- Induction on the accesses since the load, with the last one taken off.
  induction call using List.reverseRecOn generalizing s with
  | nil =>
    intro _ hexec
    rw [exec_append] at hexec
    obtain ⟨r, -, hr⟩ := Option.bind_eq_some_iff.mp hexec
    obtain ⟨u, hu, hnil⟩ := Option.bind_eq_some_iff.mp hr
    cases hnil
    exact Or.inr (fresh_dequeueLoadFirst hu)
  | append_singleton call b ih =>
    intro hok hexec
    have hassoc : before ++ .dequeueLoadFirst i :: (call ++ [b]) =
        (before ++ .dequeueLoadFirst i :: call) ++ [b] := by simp
    rw [hassoc] at hok
    rw [hassoc, exec_concat] at hexec
    obtain ⟨r, hr, hstep⟩ := Option.bind_eq_some_iff.mp hexec
    have hprefix : .dequeueLoadFirst i :: call <+: .dequeueLoadFirst i :: (call ++ [b]) :=
      List.cons_prefix_cons.mpr ⟨rfl, List.prefix_append call [b]⟩
    rcases ih (hok.of_prefix (List.prefix_append _ [b])) hr with ⟨part, t, hpart, ht⟩ | hfresh
    · exact Or.inl ⟨part, t, hpart.trans hprefix, ht⟩
    · rcases hfresh.step (hok _ b r (List.prefix_refl _) hr) hstep with hempty | hfresh
      · refine Or.inl ⟨.dequeueLoadFirst i :: (call ++ [b]), s, List.prefix_refl _, ?_, hempty⟩
        rw [hassoc, exec_concat, hr, Option.bind_some, hstep]
      · exact Or.inr hfresh

/-- In every run without a race, every `Dequeue` call that returns false has seen the queue
empty. -/
theorem dequeue_reports_empty (memory : Nat → T) {accesses : List (Access ι T)}
    (hok : AtEach (step capacity) (Unraced capacity) (State.create memory) accesses) :
    ReportsEmpty capacity (State.create memory) accesses := by
  intro i before call a s hprefix _ hexec hends
  have hcall := (List.prefix_append _ [a]).trans hprefix
  rcases call_sees (hok.of_prefix hcall) hexec with hseen | hfresh
  · exact hseen
  · exact ⟨_, s, List.prefix_refl _, hexec, hfresh.endsFalse hends⟩

/-! ### Schedules -/

deriving instance DecidableEq for Dequeue

instance [Fintype ι] (s : State ι T) (a : Access ι T) : Decidable (Unraced capacity s a) :=
  match a with
  | .dequeueCompareExchange j =>
      inferInstanceAs (Decidable (s.consumers j = .notEmpty s.queue.first →
        (s.queue.first + 1) % capacity = s.queue.last ∨
          ∀ i, i ≠ j → s.consumers i ≠ .loadedFirst s.queue.first ∧
            s.consumers i ≠ .notEmpty s.queue.first))
  | .enqueueLoadLast _ | .enqueueLoadFirst | .enqueueStoreSlot | .enqueueStoreLast => isTrue trivial
  | .dequeueLoadFirst _ | .dequeueLoadLast _ | .dequeueCopy _ => isTrue trivial

/-- Consumer `true` takes the only value while consumer `false` has loaded `First`, whose
compare-exchange then fails on an empty queue. -/
def lastTaken : List (Access Bool Nat) :=
  enqueueAccesses 10 ++ [.dequeueLoadFirst false, .dequeueLoadLast false] ++ claimAccesses true ++
    [.dequeueCompareExchange false]

theorem dequeue_reports_empty_lastTaken : ReportsEmpty 4 (State.create fun _ => 0) lastTaken :=
  dequeue_reports_empty _ (by decide +kernel)

/-- Two values are in the queue when consumer `true` loads `First` and `Last`; consumer `false`
takes the first of them. -/
def beforeLosing : List (Access Bool Nat) := enqueueAccesses 10 ++ enqueueAccesses 20

def losing : List (Access Bool Nat) := .dequeueLoadLast true :: claimAccesses false

/-- The call of `true` ends with false, and the other value was there throughout. -/
theorem dequeue_reports_lost_race :
    ¬ ReportsEmpty 4 (State.create fun _ => 0)
      (beforeLosing ++ .dequeueLoadFirst true :: losing ++ [.dequeueCompareExchange true]) := by
  have hend : (exec (step 4) (State.create fun _ => 0)
      (beforeLosing ++ .dequeueLoadFirst true :: losing)).map
        (fun s => (s.consumers true, s.queue.first)) = some (.notEmpty 0, 1) := by
    decide +kernel
  have hnever : ∀ part ∈ (.dequeueLoadFirst true :: losing).inits,
      (exec (step 4) (State.create fun _ => 0) (beforeLosing ++ part)).map
        (fun s => decide (s.queue.first = s.queue.last)) = some false := by
    decide +kernel
  obtain ⟨s, hs, heq⟩ := Option.map_eq_some_iff.mp hend
  obtain ⟨hconsumer, hfirst⟩ := Prod.mk.inj heq
  intro h
  obtain ⟨part, t, hpart, ht, hempty⟩ := h true beforeLosing losing (.dequeueCompareExchange true) s
    (List.prefix_refl _) (by simp [losing, claimAccesses]) hs
    ⟨rfl, 0, hconsumer, by rw [hfirst]; decide⟩
  have hfalse := hnever part ((List.mem_inits _ _).mpr hpart)
  rw [ht, Option.map_some, Option.some.injEq, decide_eq_false_iff_not] at hfalse
  exact hfalse hempty

end ScalBase.Queues
