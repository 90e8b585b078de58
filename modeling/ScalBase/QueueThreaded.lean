/-
  QueueThreaded.lean --- the single-producer queue of `Lib/QueueThreaded.h`.

  `First`, `Last` and `Memory` are shared; the producer and each consumer are at
  one point of their call, with the locals they have read so far.  A step is one
  atomic access by one party, and a run is any sequence of steps.  The history
  (`Foundation.Delivery`) is moved by the accesses at which a call takes effect:
  the store of `Last`, the compare-exchange that succeeds, and the copy out of the
  slot.  `SAssert`s are compiled out.

  A consumer moves `First` past a slot before it copies the slot, and compares
  `First` with a value it loaded earlier.  So the producer may overwrite a slot
  that was claimed and not copied, and a compare-exchange may succeed on an empty
  queue; `Undisturbed` excludes these two steps, and without them every value is
  delivered exactly once.
-/
import ScalBase.Foundation.Cyclic
import ScalBase.Foundation.Delivery
import ScalBase.Foundation.Run

set_option autoImplicit false

namespace ScalBase.Queues

open ScalBase.Foundation

/-! ## The queue and its parties -/

/-- The shared fields. -/
structure QueueThreaded (T : Type*) where
  first : Nat
  last : Nat
  memory : Nat → T

/-- Where the producer stands in `Enqueue(value)`. -/
inductive Enqueue (T : Type*) where
  | idle
  | loadedLast (value : T) (originalLast : Nat)
  | notFull (value : T) (originalLast : Nat)
  | stored (value : T) (originalLast : Nat)

/-- Where a consumer stands in `Dequeue`. -/
inductive Dequeue where
  | idle
  | loadedFirst (originalFirst : Nat)
  | notEmpty (originalFirst : Nat)
  | claimed (index : Nat)

/-- The queue, its parties, and what has happened. -/
structure State (ι T : Type*) where
  queue : QueueThreaded T
  producer : Enqueue T
  consumers : ι → Dequeue
  history : Delivery ι T

/-- One atomic access. -/
inductive Access (ι T : Type*) where
  /-- `Enqueue(value)` is called and loads `Last`. -/
  | enqueueLoadLast (value : T)
  | enqueueLoadFirst
  | enqueueStoreSlot
  | enqueueStoreLast
  /-- `Dequeue` is called by a consumer and loads `First`. -/
  | dequeueLoadFirst (i : ι)
  | dequeueLoadLast (i : ι)
  | dequeueCompareExchange (i : ι)
  | dequeueCopy (i : ι)

/-- A zeroed queue with nobody in a call. -/
def State.create {ι T : Type*} (memory : Nat → T) : State ι T :=
  ⟨⟨0, 0, memory⟩, .idle, fun _ => .idle, .start⟩

section

variable {ι T : Type*} [DecidableEq ι]

/-- Consumer `i` goes to another point of its call. -/
def State.consumer (s : State ι T) (i : ι) (point : Dequeue) : State ι T :=
  { s with consumers := Function.update s.consumers i point }

/-- The effect of an access, `none` where the party is not about to make it. -/
def step (capacity : Nat) (s : State ι T) : Access ι T → Option (State ι T)
  | .enqueueLoadLast value =>
      match s.producer with
      | .idle => some { s with producer := .loadedLast value s.queue.last }
      | _ => none
  | .enqueueLoadFirst =>
      match s.producer with
      | .loadedLast value originalLast =>
          let newLast := (originalLast + 1) % capacity
          if newLast ≠ s.queue.first then some { s with producer := .notFull value originalLast }
          else some { s with producer := .idle } -- `return false`
      | _ => none
  | .enqueueStoreSlot =>
      match s.producer with
      | .notFull value originalLast =>
          some { s with
            queue.memory := Function.update s.queue.memory originalLast value
            producer := .stored value originalLast }
      | _ => none
  | .enqueueStoreLast =>
      match s.producer with
      | .stored value originalLast =>
          let newLast := (originalLast + 1) % capacity
          some { s with
            queue.last := newLast
            producer := .idle
            history := s.history.enqueue value }
      | _ => none
  | .dequeueLoadFirst i =>
      match s.consumers i with
      | .idle => some (s.consumer i (.loadedFirst s.queue.first))
      | _ => none
  | .dequeueLoadLast i =>
      match s.consumers i with
      | .loadedFirst originalFirst =>
          if originalFirst ≠ s.queue.last then some (s.consumer i (.notEmpty originalFirst))
          else some (s.consumer i .idle) -- `return false`
      | _ => none
  | .dequeueCompareExchange i =>
      match s.consumers i with
      | .notEmpty originalFirst =>
          let newFirst := (originalFirst + 1) % capacity
          if s.queue.first = originalFirst then
            some { s.consumer i (.claimed originalFirst) with
              queue.first := newFirst
              history := s.history.claim i }
          else some (s.consumer i .idle) -- `return false`
      | _ => none
  | .dequeueCopy i =>
      match s.consumers i with
      | .claimed index =>
          some { s.consumer i .idle with
            history := s.history.deliver i (s.queue.memory index) }
      | _ => none

/-- An access has been made: one case for each way in which it can go. -/
inductive Stepped (capacity : Nat) (s : State ι T) : Access ι T → State ι T → Prop where
  | enqueueLoadLast (value : T) :
      Stepped capacity s (.enqueueLoadLast value)
        { s with producer := .loadedLast value s.queue.last }
  | enqueueLoadFirst {value : T} {originalLast : Nat}
      (hp : s.producer = .loadedLast value originalLast)
      (hne : (originalLast + 1) % capacity ≠ s.queue.first) :
      Stepped capacity s .enqueueLoadFirst { s with producer := .notFull value originalLast }
  | enqueueFull : Stepped capacity s .enqueueLoadFirst { s with producer := .idle }
  | enqueueStoreSlot {value : T} {originalLast : Nat}
      (hp : s.producer = .notFull value originalLast) :
      Stepped capacity s .enqueueStoreSlot { s with
        queue.memory := Function.update s.queue.memory originalLast value
        producer := .stored value originalLast }
  | enqueueStoreLast {value : T} {originalLast : Nat}
      (hp : s.producer = .stored value originalLast) :
      Stepped capacity s .enqueueStoreLast { s with
        queue.last := (originalLast + 1) % capacity
        producer := .idle
        history := s.history.enqueue value }
  | dequeueLoadFirst {i : ι} (hi : s.consumers i = .idle) :
      Stepped capacity s (.dequeueLoadFirst i) (s.consumer i (.loadedFirst s.queue.first))
  | dequeueLoadLast {i : ι} {originalFirst : Nat}
      (hi : s.consumers i = .loadedFirst originalFirst) :
      Stepped capacity s (.dequeueLoadLast i) (s.consumer i (.notEmpty originalFirst))
  | dequeueEmpty {i : ι} {originalFirst : Nat} (hi : s.consumers i = .loadedFirst originalFirst) :
      Stepped capacity s (.dequeueLoadLast i) (s.consumer i .idle)
  | dequeueClaim {i : ι} (hi : s.consumers i = .notEmpty s.queue.first) :
      Stepped capacity s (.dequeueCompareExchange i)
        { s.consumer i (.claimed s.queue.first) with
          queue.first := (s.queue.first + 1) % capacity
          history := s.history.claim i }
  | dequeueLost {i : ι} {originalFirst : Nat} (hi : s.consumers i = .notEmpty originalFirst) :
      Stepped capacity s (.dequeueCompareExchange i) (s.consumer i .idle)
  | dequeueCopy {i : ι} {index : Nat} (hi : s.consumers i = .claimed index) :
      Stepped capacity s (.dequeueCopy i) { s.consumer i .idle with
        history := s.history.deliver i (s.queue.memory index) }

/-- An access that has an effect goes in one of its ways. -/
theorem Stepped.of_step {capacity : Nat} {s t : State ι T} {a : Access ι T}
    (hstep : step capacity s a = some t) : Stepped capacity s a t := by
  cases a with
  | enqueueLoadLast value =>
    simp only [step] at hstep
    split at hstep
    · cases hstep
      exact .enqueueLoadLast value
    · cases hstep
  | enqueueLoadFirst =>
    simp only [step] at hstep
    split at hstep
    · rename_i value originalLast hp
      split at hstep
      · rename_i hne
        cases hstep
        exact .enqueueLoadFirst hp hne
      · cases hstep
        exact .enqueueFull
    · cases hstep
  | enqueueStoreSlot =>
    simp only [step] at hstep
    split at hstep
    · rename_i hp
      cases hstep
      exact .enqueueStoreSlot hp
    · cases hstep
  | enqueueStoreLast =>
    simp only [step] at hstep
    split at hstep
    · rename_i hp
      cases hstep
      exact .enqueueStoreLast hp
    · cases hstep
  | dequeueLoadFirst i =>
    simp only [step] at hstep
    split at hstep
    · rename_i hi
      cases hstep
      exact .dequeueLoadFirst hi
    · cases hstep
  | dequeueLoadLast i =>
    simp only [step] at hstep
    split at hstep
    · rename_i hi
      split at hstep <;> cases hstep
      · exact .dequeueLoadLast hi
      · exact .dequeueEmpty hi
    · cases hstep
  | dequeueCompareExchange i =>
    simp only [step] at hstep
    split at hstep
    · rename_i originalFirst hi
      split at hstep
      · rename_i heq
        subst heq
        cases hstep
        exact .dequeueClaim hi
      · cases hstep
        exact .dequeueLost hi
    · cases hstep
  | dequeueCopy i =>
    simp only [step] at hstep
    split at hstep
    · rename_i hi
      cases hstep
      exact .dequeueCopy hi
    · cases hstep

end

variable {ι T : Type*}

/-- The access does not take a claimed slot away from its consumer, nor claim a slot of
an empty queue. -/
def Undisturbed (s : State ι T) : Access ι T → Prop
  | .enqueueStoreSlot =>
      ∀ value originalLast, s.producer = .notFull value originalLast →
        ∀ i, s.consumers i ≠ .claimed originalLast
  | .dequeueCompareExchange i =>
      s.consumers i = .notEmpty s.queue.first → s.queue.first ≠ s.queue.last
  | _ => True

/-! ## What holds between accesses -/

/-- The slots from `First` up to `Last` hold the values enqueued and not claimed. -/
structure QueueThreaded.Holds (q : QueueThreaded T) (capacity : Nat) (h : Delivery ι T) : Prop where
  first_eq : q.first = h.claims % capacity
  last_eq : q.last = h.enqueued.length % capacity
  room : h.enqueued.length < h.claims + capacity
  slots : ∀ p, h.claims ≤ p → p < h.enqueued.length →
    h.enqueued[p]? = some (q.memory (p % capacity))

/-- What the producer has read is still so. -/
def Enqueue.Current (e : Enqueue T) (capacity : Nat) (q : QueueThreaded T) (h : Delivery ι T) :
    Prop :=
  match e with
  | .idle => True
  | .loadedLast _ originalLast => originalLast = q.last
  | .notFull _ originalLast =>
      originalLast = q.last ∧ h.enqueued.length + 1 < h.claims + capacity
  | .stored value originalLast =>
      originalLast = q.last ∧ h.enqueued.length + 1 < h.claims + capacity ∧
        q.memory originalLast = value

/-- A consumer has a position pending exactly while it has claimed its slot, and the
slot holds the value. -/
def Dequeue.Current (d : Dequeue) (capacity : Nat) (q : QueueThreaded T) (h : Delivery ι T)
    (i : ι) : Prop :=
  match d with
  | .claimed index => ∃ p, h.pending i = some p ∧ index = p % capacity ∧
      h.enqueued[p]? = some (q.memory index)
  | _ => h.pending i = none

/-- The invariant. -/
structure Inv (capacity : Nat) (s : State ι T) : Prop where
  exact : s.history.Exact
  holds : s.queue.Holds capacity s.history
  producer : s.producer.Current capacity s.queue s.history
  consumers : ∀ i, (s.consumers i).Current capacity s.queue s.history i

theorem inv_create {capacity : Nat} (hcap : 2 ≤ capacity) (memory : Nat → T) :
    Inv capacity (State.create memory : State ι T) where
  exact := Delivery.exact_start
  holds :=
    { first_eq := (Nat.zero_mod _).symm
      last_eq := (Nat.zero_mod _).symm
      room := by
        have hpos : 0 < capacity := by omega
        simpa [State.create, Delivery.start] using hpos
      slots := fun p _ hp => absurd hp (Nat.not_lt_zero p) }
  producer := trivial
  consumers _ := rfl

/-! ### Frames -/

section

variable {capacity : Nat} {q q' : QueueThreaded T} {h h' : Delivery ι T} {i : ι}

/-- A consumer's view survives whatever leaves its slot, its position and the values
enqueued alone. -/
theorem Dequeue.Current.frame {d : Dequeue} (hd : d.Current capacity q h i)
    (hpending : h'.pending i = h.pending i)
    (hkept : ∀ (p : Nat) (v : T), h.enqueued[p]? = some v → h'.enqueued[p]? = some v)
    (hslot : ∀ index, d = .claimed index → q'.memory index = q.memory index) :
    d.Current capacity q' h' i := by
  cases d with
  | claimed index =>
    obtain ⟨p, hp, hindex, hvalue⟩ := hd
    exact ⟨p, by rw [hpending, hp], hindex, by rw [hslot index rfl]; exact hkept p _ hvalue⟩
  | idle => exact hpending.trans hd
  | loadedFirst => exact hpending.trans hd
  | notEmpty => exact hpending.trans hd

/-- A consumer that holds no slot has no position pending. -/
theorem Dequeue.Current.pending_none {d : Dequeue} (hd : d.Current capacity q h i)
    (hfree : ∀ index, d ≠ .claimed index) : h.pending i = none := by
  cases d with
  | claimed index => exact absurd rfl (hfree index)
  | idle => exact hd
  | loadedFirst => exact hd
  | notEmpty => exact hd

/-- The producer's view survives a claim. -/
theorem Enqueue.Current.claim [DecidableEq ι] {e : Enqueue T} (he : e.Current capacity q h)
    (i : ι) (first : Nat) : e.Current capacity { q with first := first } (h.claim i) := by
  cases e with
  | idle => trivial
  | loadedLast => exact he
  | notFull => exact ⟨he.1, Nat.lt_of_lt_of_le he.2 (Nat.add_le_add_right (Nat.le_succ _) _)⟩
  | stored =>
    exact ⟨he.1, Nat.lt_of_lt_of_le he.2.1 (Nat.add_le_add_right (Nat.le_succ _) _), he.2.2⟩

end

/-! ### The producer's accesses -/

section

variable {capacity : Nat} {s : State ι T}

theorem Inv.enqueueLoadLast (h : Inv capacity s) (value : T) :
    Inv capacity { s with producer := .loadedLast value s.queue.last } :=
  ⟨h.exact, h.holds, rfl, h.consumers⟩

/-- `newLast` differs from `First` only while there is room for one more. -/
theorem Inv.enqueueLoadFirst (h : Inv capacity s) {value : T} {originalLast : Nat}
    (hp : s.producer = .loadedLast value originalLast)
    (hne : (originalLast + 1) % capacity ≠ s.queue.first) :
    Inv capacity { s with producer := .notFull value originalLast } := by
  have hlast : originalLast = s.queue.last := by
    have hcur := h.producer
    rwa [hp] at hcur
  have hroom := h.holds.room
  refine ⟨h.exact, h.holds, ⟨hlast, Nat.lt_of_le_of_ne hroom ?_⟩, h.consumers⟩
  intro hfull
  apply hne
  rw [hlast, h.holds.last_eq, Nat.mod_add_mod, hfull, Nat.add_mod_right, h.holds.first_eq]

/-- The store overwrites no slot that is still to be read. -/
theorem Inv.enqueueStoreSlot (h : Inv capacity s) {value : T} {originalLast : Nat}
    (hp : s.producer = .notFull value originalLast)
    (hfree : ∀ i, s.consumers i ≠ .claimed originalLast) :
    Inv capacity { s with
      queue.memory := Function.update s.queue.memory originalLast value
      producer := .stored value originalLast } := by
  have hcur := h.producer
  rw [hp] at hcur
  obtain ⟨hlast, hroom⟩ := hcur
  refine ⟨h.exact, ⟨h.holds.first_eq, h.holds.last_eq, h.holds.room, ?_⟩,
    ⟨hlast, hroom, Function.update_self ..⟩, ?_⟩
  · intro p (hle : s.history.claims ≤ p) (hlt : p < s.history.enqueued.length)
    have hne : p % capacity ≠ originalLast := by
      rw [hlast, h.holds.last_eq]
      exact Cyclic.mod_ne_of_lt hlt (by omega)
    rw [h.holds.slots p hle hlt]
    exact congrArg some (Function.update_of_ne hne ..).symm
  · intro i
    refine (h.consumers i).frame rfl (fun _ _ => id) ?_
    intro index hindex
    refine Function.update_of_ne ?_ ..
    rintro rfl
    exact hfree i hindex

/-- The store of `Last` makes the stored value the last one of the queue. -/
theorem Inv.enqueueStoreLast (h : Inv capacity s) {value : T} {originalLast : Nat}
    (hp : s.producer = .stored value originalLast) :
    Inv capacity { s with
      queue.last := (originalLast + 1) % capacity
      producer := .idle
      history := s.history.enqueue value } := by
  have hcur := h.producer
  rw [hp] at hcur
  obtain ⟨hlast, hroom, hstored⟩ := hcur
  have hlength := Delivery.length_enqueue s.history value
  refine ⟨h.exact.enqueue value, ⟨h.holds.first_eq, ?_, ?_, ?_⟩, trivial, ?_⟩
  · rw [hlength, hlast, h.holds.last_eq, Nat.mod_add_mod]
  · rw [hlength]
    exact hroom
  · intro p hle hlt
    rw [hlength] at hlt
    rcases Nat.lt_succ_iff_lt_or_eq.mp hlt with hlt | rfl
    · exact Delivery.getElem?_enqueue (h.holds.slots p hle hlt) value
    · have hnew : (s.history.enqueue value).enqueued[s.history.enqueued.length]? = some value :=
        List.getElem?_concat_length
      rw [hnew, ← hstored, hlast, h.holds.last_eq]
  · intro i
    exact (h.consumers i).frame rfl (fun _ _ hv => Delivery.getElem?_enqueue hv value)
      (fun _ _ => rfl)

end

/-! ### The consumers' accesses -/

section

variable [DecidableEq ι] {capacity : Nat} {s : State ι T}

@[simp] theorem State.consumers_consumer_self (s : State ι T) (i : ι) (point : Dequeue) :
    (s.consumer i point).consumers i = point := Function.update_self ..

theorem State.consumers_consumer_of_ne (s : State ι T) {i j : ι} (hji : j ≠ i) (point : Dequeue) :
    (s.consumer i point).consumers j = s.consumers j := Function.update_of_ne hji ..

/-- A consumer that holds no slot may go to any point at which it holds none. -/
theorem Inv.consumer (h : Inv capacity s) {i : ι} {point : Dequeue}
    (hfree : ∀ index, s.consumers i ≠ .claimed index)
    (hpoint : s.history.pending i = none → point.Current capacity s.queue s.history i) :
    Inv capacity (s.consumer i point) := by
  refine ⟨h.exact, h.holds, h.producer, ?_⟩
  intro j
  by_cases hji : j = i
  · subst hji
    rw [State.consumers_consumer_self]
    exact hpoint ((h.consumers j).pending_none hfree)
  · rw [State.consumers_consumer_of_ne s hji]
    exact h.consumers j

/-- A compare-exchange that succeeds on a queue that is not empty claims the first
value. -/
theorem Inv.compareExchange (h : Inv capacity s) {i : ι}
    (hi : s.consumers i = .notEmpty s.queue.first) (hne : s.queue.first ≠ s.queue.last) :
    Inv capacity { s.consumer i (.claimed s.queue.first) with
      queue.first := (s.queue.first + 1) % capacity
      history := s.history.claim i } := by
  have hfirst := h.holds.first_eq
  have hidle : s.history.pending i = none := by
    refine (h.consumers i).pending_none ?_
    rw [hi]
    nofun
  have hlt : s.history.claims < s.history.enqueued.length := by
    refine Nat.lt_of_le_of_ne h.exact.claims_le ?_
    intro heq
    exact hne (by rw [hfirst, h.holds.last_eq, heq])
  have hroom := h.holds.room
  refine ⟨h.exact.claim hidle hlt, ⟨?_, h.holds.last_eq, ?_, ?_⟩, h.producer.claim i _, ?_⟩
  · show (s.queue.first + 1) % capacity = (s.history.claims + 1) % capacity
    rw [hfirst, Nat.mod_add_mod]
  · show s.history.enqueued.length < s.history.claims + 1 + capacity
    omega
  · intro p hle hp
    exact h.holds.slots p (Nat.le_of_succ_le hle) hp
  · intro j
    by_cases hji : j = i
    · subst hji
      refine (State.consumers_consumer_self s j _).symm ▸
        ⟨s.history.claims, Delivery.pending_claim .., hfirst, ?_⟩
      rw [hfirst]
      exact h.holds.slots _ (Nat.le_refl _) hlt
    · show ((s.consumer i _).consumers j).Current _ _ _ j
      rw [State.consumers_consumer_of_ne s hji]
      exact (h.consumers j).frame (Delivery.pending_claim_of_ne _ hji) (fun _ _ => id)
        (fun _ _ => rfl)

/-- The copy hands over the value of the claimed position. -/
theorem Inv.copy (h : Inv capacity s) {i : ι} {index : Nat} (hi : s.consumers i = .claimed index) :
    Inv capacity { s.consumer i .idle with
      history := s.history.deliver i (s.queue.memory index) } := by
  have hcur := h.consumers i
  rw [hi] at hcur
  obtain ⟨p, hp, -, hvalue⟩ := hcur
  have heq := Delivery.deliver_eq hp (s.queue.memory index)
  have hexact := h.exact.deliver hp hvalue
  rw [heq] at hexact ⊢
  refine ⟨hexact, ⟨h.holds.first_eq, h.holds.last_eq, h.holds.room, h.holds.slots⟩, ?_, ?_⟩
  · have hprod := h.producer
    show s.producer.Current _ _ _
    cases hs : s.producer <;> rw [hs] at hprod <;> exact hprod
  · intro j
    by_cases hji : j = i
    · subst hji
      exact (State.consumers_consumer_self s j _).symm ▸ Function.update_self ..
    · show ((s.consumer i _).consumers j).Current _ _ _ j
      rw [State.consumers_consumer_of_ne s hji]
      exact (h.consumers j).frame (Function.update_of_ne hji ..) (fun _ _ => id) (fun _ _ => rfl)

/-! ## Runs -/

/-- An undisturbed access keeps the invariant. -/
theorem Inv.step (h : Inv capacity s) {a : Access ι T} (hok : Undisturbed s a) {t : State ι T}
    (hstep : step capacity s a = some t) : Inv capacity t := by
  cases Stepped.of_step hstep with
  | enqueueLoadLast value => exact h.enqueueLoadLast value
  | enqueueLoadFirst hp hne => exact h.enqueueLoadFirst hp hne
  | enqueueFull => exact ⟨h.exact, h.holds, trivial, h.consumers⟩
  | enqueueStoreSlot hp => exact h.enqueueStoreSlot hp (hok _ _ hp)
  | enqueueStoreLast hp => exact h.enqueueStoreLast hp
  | dequeueLoadFirst hi => exact h.consumer (by rw [hi]; nofun) id
  | dequeueLoadLast hi => exact h.consumer (by rw [hi]; nofun) id
  | dequeueEmpty hi => exact h.consumer (by rw [hi]; nofun) id
  | dequeueClaim hi => exact h.compareExchange hi (hok hi)
  | dequeueLost hi => exact h.consumer (by rw [hi]; nofun) id
  | dequeueCopy hi => exact h.copy hi

/-- In every undisturbed run the values are delivered exactly once and in order, and
those not claimed are in the queue. -/
theorem queueThreaded_delivers_once (hcap : 2 ≤ capacity) (memory : Nat → T)
    {accesses : List (Access ι T)}
    (hrun : Run (Queues.step capacity) Undisturbed (State.create memory) accesses s) :
    s.history.Exact ∧ s.queue.Holds capacity s.history := by
  have hinv : Inv capacity s :=
    hrun.invariant (Inv capacity) (fun _ _ _ h hok hstep => h.step hok hstep)
      (inv_create hcap memory)
  exact ⟨hinv.exact, hinv.holds⟩

end

/-! ### Schedules -/

/-- `Enqueue(value)`, where there is room. -/
def enqueueAccesses {ι T : Type*} (value : T) : List (Access ι T) :=
  [.enqueueLoadLast value, .enqueueLoadFirst, .enqueueStoreSlot, .enqueueStoreLast]

/-- `Dequeue` up to the compare-exchange. -/
def claimAccesses {ι T : Type*} (i : ι) : List (Access ι T) :=
  [.dequeueLoadFirst i, .dequeueLoadLast i, .dequeueCompareExchange i]

/-- Two values are enqueued.  Both consumers load `First` and `Last`, `true` claims 7, and
`false` loses the compare-exchange, claims 8 and copies it before `true` copies 7. -/
def crossing : List (Access Bool Nat) :=
  enqueueAccesses 7 ++ enqueueAccesses 8 ++ [.dequeueLoadFirst true, .dequeueLoadFirst false,
    .dequeueLoadLast true, .dequeueLoadLast false, .dequeueCompareExchange true,
    .dequeueCompareExchange false] ++ claimAccesses false ++
    [.dequeueCopy false, .dequeueCopy true]

theorem queueThreaded_delivers_once_two :
    ∃ s, Run (step 3) Undisturbed (State.create fun _ => 0) crossing s ∧
      s.history.Exact ∧ s.queue.Holds 3 s.history := by
  have hrun : ∃ s, Run (step 3) Undisturbed (State.create fun _ => 0) crossing s := by
    refine ⟨_, .cons trivial rfl <| .cons trivial rfl <| .cons ?_ rfl <| .cons trivial rfl <|
      .cons trivial rfl <| .cons trivial rfl <| .cons ?_ rfl <| .cons trivial rfl <|
      .cons trivial rfl <| .cons trivial rfl <| .cons trivial rfl <| .cons trivial rfl <|
      .cons ?_ rfl <| .cons ?_ rfl <| .cons trivial rfl <| .cons trivial rfl <| .cons ?_ rfl <|
      .cons trivial rfl <| .cons trivial rfl <| .nil _⟩
    -- Nothing is claimed while the producer stores.
    iterate 2
      · intro _ _ _ _
        nofun
    -- The queue is not empty at the compare-exchanges.
    all_goals
      intro _
      decide
  obtain ⟨s, hs⟩ := hrun
  exact ⟨s, hs, queueThreaded_delivers_once (by decide) (fun _ => 0) hs⟩

/-- In a queue of two, consumer `true` claims the slot of 10 and copies it after
consumer `false` has taken 20 and the producer has stored 30 there. -/
def overwriting : List (Access Bool Nat) :=
  enqueueAccesses 10 ++ claimAccesses true ++ enqueueAccesses 20 ++ claimAccesses false ++
    [.dequeueCopy false] ++ enqueueAccesses 30 ++ [.dequeueCopy true]

/-- In a queue of two, consumer `true` loads `First` and `Last`, consumer `false` takes
10 and 20, and `First` is back where it was for the compare-exchange of `true`. -/
def comingRound : List (Access Bool Nat) :=
  enqueueAccesses 10 ++ [.dequeueLoadFirst true, .dequeueLoadLast true] ++ claimAccesses false ++
    [.dequeueCopy false] ++ enqueueAccesses 20 ++ claimAccesses false ++ [.dequeueCopy false] ++
    [.dequeueCompareExchange true, .dequeueCopy true]

/-- The first schedule returns 30 for the position of 10, which is lost; the second
returns 10 again for a position that was never enqueued. -/
theorem dequeue_returns_other_value :
    (∃ s, exec (step 2) (State.create fun _ => 0) overwriting = some s ∧
      s.history.enqueued = [10, 20, 30] ∧ s.history.returned = [(0, 30), (1, 20)]) ∧
    (∃ s, exec (step 2) (State.create fun _ => 0) comingRound = some s ∧
      s.history.enqueued = [10, 20] ∧ s.history.returned = [(2, 10), (1, 20), (0, 10)]) := by
  have hoverwriting : (exec (step 2) (State.create fun _ => 0) overwriting).map
      (fun s => (s.history.enqueued, s.history.returned)) =
        some ([10, 20, 30], [(0, 30), (1, 20)]) := by
    decide +kernel
  have hcomingRound : (exec (step 2) (State.create fun _ => 0) comingRound).map
      (fun s => (s.history.enqueued, s.history.returned)) =
        some ([10, 20], [(2, 10), (1, 20), (0, 10)]) := by
    decide +kernel
  obtain ⟨s, hs, heq⟩ := Option.map_eq_some_iff.mp hoverwriting
  obtain ⟨t, ht, heq'⟩ := Option.map_eq_some_iff.mp hcomingRound
  exact ⟨⟨s, hs, Prod.mk.inj heq⟩, ⟨t, ht, Prod.mk.inj heq'⟩⟩

end ScalBase.Queues
