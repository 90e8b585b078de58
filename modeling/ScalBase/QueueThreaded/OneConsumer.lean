/-
  QueueThreaded/OneConsumer.lean --- the queue with one consumer.

  The ring never holds more than `Capacity - 1` values, so one slot is always free.
  With one consumer that slot is enough: while the consumer has moved `First` and not
  copied yet, the producer may store into the free slot, but not into the claimed one.
  Nobody else moves `First`, so what the consumer has loaded is still in it.  Hence all
  accesses are undisturbed (`Alone.undisturbed`), and the values come out in the order
  in which they went in.
-/
import ScalBase.QueueThreaded.Emptiness

set_option autoImplicit false

namespace ScalBase.Queues

open ScalBase.Foundation

variable {T : Type*} {capacity : Nat} {s t : State Unit T}

/-- The position that is claimed and not copied. -/
def Dequeue.debt : Dequeue → Nat
  | .claimed _ => 1
  | .idle | .loadedFirst _ | .notEmpty _ => 0

/-- What holds of the only consumer. -/
structure Alone (capacity : Nat) (s : State Unit T) : Prop where
  inv : Inv capacity s
  fresh : Fresh s ()
  /-- It has seen `Last` ahead of `First`. -/
  notEmpty : ∀ f, s.consumers () = .notEmpty f → s.history.claims < s.history.enqueued.length
  /-- It copies a position before it claims the next. -/
  claims : s.history.claims = s.history.delivered.length + (s.consumers ()).debt
  order : s.history.delivered = (List.range s.history.delivered.length).reverse

/-- The claimed position is the last one. -/
theorem Alone.pending (h : Alone capacity s) {index : Nat} (hi : s.consumers () = .claimed index) :
    ∃ p, s.history.pending () = some p ∧ index = p % capacity ∧
      s.history.claims = p + 1 ∧ p = s.history.delivered.length := by
  have hcur := h.inv.consumers ()
  rw [hi] at hcur
  obtain ⟨p, hp, hindex, -⟩ := hcur
  have hclaims := h.claims
  rw [hi] at hclaims
  simp only [Dequeue.debt] at hclaims
  have hlt := h.inv.exact.pending_lt hp
  have hfree := h.inv.exact.not_delivered () p hp
  rw [h.order, List.mem_reverse, List.mem_range] at hfree
  exact ⟨p, hp, hindex, by omega, by omega⟩

/-- With one consumer the free slot is not the claimed one, and the queue from which it
claims is not empty. -/
theorem Alone.undisturbed (h : Alone capacity s) (a : Access Unit T) : Undisturbed s a := by
  cases a with
  | enqueueStoreSlot =>
    intro value originalLast hp i hi
    obtain ⟨p, -, hindex, hclaims, -⟩ := h.pending hi
    have hcur := h.inv.producer
    rw [hp] at hcur
    obtain ⟨hlast, hroom⟩ := hcur
    have hle := h.inv.exact.claims_le
    rw [hlast, h.inv.holds.last_eq] at hindex
    exact Cyclic.mod_ne_of_lt (by omega) (by omega) hindex.symm
  | dequeueCompareExchange i =>
    intro hi heq
    have hlt := h.notEmpty _ hi
    have hroom := h.inv.holds.room
    rw [h.inv.holds.first_eq, h.inv.holds.last_eq] at heq
    exact Cyclic.mod_ne_of_lt hlt (by omega) heq
  | enqueueLoadLast | enqueueLoadFirst | enqueueStoreLast => trivial
  | dequeueLoadFirst | dequeueLoadLast | dequeueCopy => trivial

/-! ## Runs -/

theorem alone_create (hcap : 2 ≤ capacity) (memory : Nat → T) :
    Alone capacity (State.create memory : State Unit T) :=
  ⟨inv_create hcap memory, fun f hf => absurd hf (not_loaded_idle f), nofun, rfl, rfl⟩

/-- The consumer goes to a point at which it has claimed nothing. -/
theorem Alone.consumer (h : Alone capacity s) {point : Dequeue}
    (hinv : Inv capacity (s.consumer () point)) (hfrom : (s.consumers ()).debt = 0)
    (hto : point.debt = 0) (hfresh : ∀ f, point.Loaded f → f = s.queue.first)
    (hnotEmpty : ∀ f, point = .notEmpty f → s.history.claims < s.history.enqueued.length) :
    Alone capacity (s.consumer () point) := by
  refine ⟨hinv, fun f hf => ?_, fun f hf => ?_, ?_, h.order⟩
  · rw [State.consumers_consumer_self] at hf
    exact hfresh f hf
  · rw [State.consumers_consumer_self] at hf
    exact hnotEmpty f hf
  · rw [State.consumers_consumer_self, hto, ← hfrom]
    exact h.claims

/-- What is loaded while `Last` is ahead was loaded from a queue that is not empty. -/
theorem Alone.claims_lt (h : Alone capacity s) {f : Nat} (hi : s.consumers () = .loadedFirst f)
    (hne : f ≠ s.queue.last) : s.history.claims < s.history.enqueued.length := by
  refine Nat.lt_of_le_of_ne h.inv.exact.claims_le fun heq => hne ?_
  rw [h.fresh f (Or.inl hi), h.inv.holds.first_eq, h.inv.holds.last_eq, heq]

/-- Every access keeps it. -/
theorem Alone.step (h : Alone capacity s) {a : Access Unit T}
    (hstep : Queues.step capacity s a = some t) : Alone capacity t := by
  have hinv := h.inv.step (h.undisturbed a) hstep
  have hcase := Stepped.of_step hstep
  cases hcase with
  | enqueueLoadLast | enqueueLoadFirst | enqueueFull | enqueueStoreSlot =>
    exact ⟨hinv, h.fresh, h.notEmpty, h.claims, h.order⟩
  | enqueueStoreLast hp =>
    refine ⟨hinv, h.fresh, fun f hf => ?_, h.claims, h.order⟩
    have hlt := h.notEmpty f hf
    rw [Delivery.length_enqueue]
    exact Nat.lt_succ_of_lt hlt
  | dequeueLoadFirst hi =>
    refine h.consumer hinv (by rw [hi]; rfl) rfl (fun f hf => ?_) (by simp)
    rcases hf with hf | hf
    · exact (Dequeue.loadedFirst.inj hf).symm
    · cases hf
  | dequeueLoadLast hi =>
    refine h.consumer hinv (by rw [hi]; rfl) rfl (fun f hf => ?_) fun f hf => ?_
    · rcases hf with hf | hf
      · cases hf
      · exact h.fresh f (Or.inl (hi.trans (congrArg _ (Dequeue.notEmpty.inj hf))))
    · refine h.claims_lt hi fun heq => ?_
      simp only [Queues.step, hi, heq, ne_eq, not_true_eq_false, if_false] at hstep
      have hpoint := congrArg (fun s => s.consumers ()) (Option.some.inj hstep)
      simp at hpoint
  | dequeueEmpty hi | dequeueLost hi =>
    exact h.consumer hinv (by rw [hi]; rfl) rfl (fun f hf => absurd hf (not_loaded_idle f))
      (by simp)
  | dequeueClaim hi =>
    refine ⟨hinv, fun f hf => ?_, fun f hf => ?_, ?_, h.order⟩
    · rcases hf with hf | hf <;> simp at hf
    · simp at hf
    · have hclaims := h.claims
      rw [hi] at hclaims
      show s.history.claims + 1 = s.history.delivered.length + 1
      rw [hclaims]
      rfl
  | @dequeueCopy i index hi =>
    obtain ⟨p, hp, -, hclaims, hlast⟩ := h.pending hi
    have hdelivered := Delivery.delivered_deliver hp (s.queue.memory index)
    have hsame : (s.history.deliver () (s.queue.memory index)).claims = s.history.claims := by
      rw [Delivery.deliver_eq hp]
    refine ⟨hinv, fun f hf => ?_, fun f hf => ?_, ?_, ?_⟩
    · simp only [State.consumers_consumer_self] at hf
      exact absurd hf (not_loaded_idle f)
    · simp at hf
    · simp only [State.consumers_consumer_self, Dequeue.debt, hsame, hdelivered, List.length_cons]
      omega
    · simp only [hdelivered, List.length_cons, List.range_succ, List.reverse_append,
        List.reverse_singleton, List.singleton_append, ← h.order, hlast]

/-- What is handed over in the order of the positions is a prefix of what went in. -/
theorem Alone.returned (h : Alone capacity s) :
    s.history.returned.reverse.map Prod.snd =
      s.history.enqueued.take s.history.returned.length := by
  have hle : s.history.returned.length ≤ s.history.enqueued.length := by
    have hclaims := h.claims
    rw [Delivery.delivered, List.length_map] at hclaims
    have hle := h.inv.exact.claims_le
    omega
  refine List.ext_getElem (by simp [hle]) fun k hk hk' => ?_
  have hlen : k < s.history.returned.reverse.length := by simpa using hk
  have hmem := List.mem_reverse.mp (List.getElem_mem hlen)
  -- The position of the `k`-th value handed over is `k`.
  have hposition : (s.history.returned.reverse[k]).1 = k := by
    have horder := congrArg List.reverse h.order
    rw [List.reverse_reverse, Delivery.delivered, ← List.map_reverse] at horder
    have hget := List.getElem_of_eq horder (i := k) (by simpa using hk)
    simpa using hget
  have hvalue := h.inv.exact.valued (s.history.returned.reverse[k]).1 _ hmem
  rw [hposition] at hvalue
  obtain ⟨hlt, hget⟩ := List.getElem?_eq_some_iff.mp hvalue
  rw [List.getElem_map, List.getElem_take, hget]
  rfl

/-- With one consumer, in every run the values come out in the order in which they went in,
those not claimed are in the queue, and a compare-exchange never fails. -/
theorem one_consumer_fifo (hcap : 2 ≤ capacity) (memory : Nat → T) {accesses : List (Access Unit T)}
    (hexec : exec (Queues.step capacity) (State.create memory) accesses = some s) :
    s.history.returned.reverse.map Prod.snd = s.history.enqueued.take s.history.returned.length ∧
      s.queue.Holds capacity s.history ∧
      ∀ t, Queues.step capacity s (.dequeueCompareExchange ()) = some t →
        t.consumers () = .claimed s.queue.first := by
  have halone : Alone capacity s := by
    have hrun : Run (Queues.step capacity) (fun _ _ => True) (State.create memory) accesses s :=
      AtEach.run (fun _ _ _ _ _ => trivial) hexec
    exact hrun.invariant (Alone capacity) (fun _ _ _ h _ hstep => h.step hstep)
      (alone_create hcap memory)
  refine ⟨halone.returned, halone.inv.holds, fun t ht => ?_⟩
  simp only [Queues.step] at ht
  split at ht
  · rename_i originalFirst hi
    have hfirst := halone.fresh originalFirst (Or.inr hi)
    rw [if_pos hfirst.symm] at ht
    cases ht
    rw [hfirst]
    exact State.consumers_consumer_self s () _
  · cases ht

/-- In a queue of two the producer stores 20 while 10 is claimed and not copied. -/
def storing : List (Access Unit Nat) :=
  enqueueAccesses 10 ++ claimAccesses () ++ enqueueAccesses 20 ++ [.dequeueCopy ()]

theorem one_consumer_fifo_storing :
    ∃ s, exec (step 2) (State.create fun _ => 0) storing = some s ∧
      s.history.returned.reverse.map Prod.snd =
        s.history.enqueued.take s.history.returned.length ∧
      s.queue.Holds 2 s.history ∧
      ∀ t, step 2 s (.dequeueCompareExchange ()) = some t →
        t.consumers () = .claimed s.queue.first := by
  have hexec : (exec (step 2) (State.create fun _ => 0) storing).isSome := by decide +kernel
  obtain ⟨s, hs⟩ := Option.isSome_iff_exists.mp hexec
  exact ⟨s, hs, one_consumer_fifo (Nat.le_refl 2) (fun _ => 0) hs⟩

end ScalBase.Queues
