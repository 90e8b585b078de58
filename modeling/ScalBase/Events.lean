/-
  Events.lean --- the event manager of `Lib/Events.h`.

  An event has a list of listeners for each priority.  `EventsRegisterListener`
  appends to one of them while it has room, and `EventsTrigger` calls the
  listeners of one list after another.  The file defines `EventsRegisterListener`
  twice, with the same text.

  The condition of the outer loop of `EventsTrigger` is `0 < EVENT_PRIO_MAX`,
  without the loop variable: it never fails, so after the last list the loop goes
  on to the priority `EVENT_PRIO_MAX`, which the array does not have.  The model
  ends there with the outcome `outOfRange`.
-/
import ScalBase.Foundation.Loop

set_option autoImplicit false

namespace ScalBase.EventManagers

open ScalBase.Foundation

/-! ## The event manager -/

inductive EventResult where
  | ok
  | fail
  | cancel
  deriving DecidableEq

inductive Events where
  | appStart
  deriving DecidableEq

/-- `EVENT_PRIO_MAX`. -/
def eventPrioMax : Nat := 5

/-- The five priorities, highest first. -/
abbrev EventPriorties := Fin eventPrioMax

/-- `EVENT_MAX_LISTENERS`. -/
def eventMaxListeners : Nat := 64

/-- A `StaticList` by the elements before `Count`, of which there are no more than the
capacity. -/
structure StaticList (T : Type*) (capacity : Nat) where
  data : List T
  fits : data.length ≤ capacity

variable {T : Type*} {capacity : Nat}

def StaticList.count (l : StaticList T capacity) : Nat := l.data.length

/-- `StaticList::Push`, where there is room. -/
def StaticList.push (l : StaticList T capacity) (val : T) (h : l.count < capacity) :
    StaticList T capacity :=
  ⟨l.data ++ [val], by rw [List.length_append]; exact h⟩

structure Listener (C U : Type*) where
  callback : C
  userData : U
  deriving DecidableEq

structure Event (C U : Type*) where
  priorieties : EventPriorties → StaticList (Listener C U) eventMaxListeners

/-- `g_EventManager`. -/
structure EventManager (C U : Type*) where
  events : Events → Event C U

section Manager

variable {C U : Type*}

/-- The global before any call: all counts are zero. -/
def initial : EventManager C U := ⟨fun _ => ⟨fun _ => ⟨[], Nat.zero_le _⟩⟩⟩

/-- `EventsRegisterListener`. -/
def eventsRegisterListener (m : EventManager C U) (eventType : Events) (prio : EventPriorties)
    (listener : Listener C U) : EventManager C U :=
  let event := m.events eventType
  if h : (event.priorieties prio).count < eventMaxListeners then
    let list := (event.priorieties prio).push listener h
    let event' : Event C U := ⟨Function.update event.priorieties prio list⟩
    ⟨Function.update m.events eventType event'⟩
  else m

/-- `event->Priorieties.At(prio)`, where the array has it. -/
def Event.atPrio (event : Event C U) (prio : Nat) :
    Option (StaticList (Listener C U) eventMaxListeners) :=
  if h : prio < eventPrioMax then some (event.priorieties ⟨prio, h⟩) else none

/-- The calls that have been made, and `result`, which nothing sets before the first. -/
structure Progress (C U : Type*) where
  invoked : List (Listener C U)
  result : Option EventResult

/-- Where the two loops are. -/
inductive Cursor where
  /-- At the condition of the outer loop. -/
  | outer (prio : Nat)
  /-- At the condition of the inner loop. -/
  | inner (prio listenerIdx : Nat)

/-- How a call of `EventsTrigger` ends. -/
inductive Outcome (C U : Type*) where
  | returned (progress : Progress C U)
  /-- The array of priorities is read at an index that it does not have. -/
  | outOfRange (prio : Nat) (progress : Progress C U)

variable {D : Type*}

/-- What the callbacks return, given the data of the event and that of the listener. -/
abbrev Call (C U D : Type*) := C → D → U → EventResult

def triggerTurn (call : Call C U D) (event : Event C U) (eventData : D) :
    Cursor × Progress C U → Turn (Cursor × Progress C U) (Outcome C U)
  | (.outer prio, progress) =>
      if 0 < eventPrioMax then .again (.inner prio 0, progress) else .done (.returned progress)
  | (.inner prio listenerIdx, progress) =>
      match event.atPrio prio with
      | none => .done (.outOfRange prio progress)
      | some list =>
          if h : listenerIdx < list.count then
            let listener := list.data.get ⟨listenerIdx, h⟩
            .again (.inner prio (listenerIdx + 1),
              { invoked := progress.invoked ++ [listener]
                result := some (call listener.callback eventData listener.userData) })
          else .again (.outer (prio + 1), progress)

/-- `EventsTrigger`. -/
def eventsTrigger (call : Call C U D) (fuel : Nat) (m : EventManager C U) (eventType : Events)
    (eventData : D) : Option (Outcome C U) :=
  Loop.run (triggerTurn call (m.events eventType) eventData) fuel (.outer 0, ⟨[], none⟩)

/-! ## What a trigger is for -/

/-- Make a sequence of registrations for one event. -/
def registerAll (eventType : Events) (regs : List (EventPriorties × Listener C U)) :
    EventManager C U :=
  regs.foldl (fun m r => eventsRegisterListener m eventType r.1 r.2) initial

/-- The listeners stored at a priority: the first ones registered, as many as fit. -/
def stored (regs : List (EventPriorties × Listener C U)) (prio : EventPriorties) :
    List (Listener C U) :=
  ((regs.filter fun r => r.1 = prio).map Prod.snd).take eventMaxListeners

/-- All stored listeners, by priority and then in the order of registration. -/
def expected (regs : List (EventPriorties × Listener C U)) : List (Listener C U) :=
  (List.finRange eventPrioMax).flatMap (stored regs)

/-- A trigger after the registrations ends, having called the stored listeners once each
and in order, without reading a priority that does not exist. -/
def Delivers (call : Call C U D) (eventType : Events) (eventData : D)
    (regs : List (EventPriorties × Listener C U)) : Prop :=
  ∃ fuel progress, eventsTrigger call fuel (registerAll eventType regs) eventType eventData =
    some (.returned progress) ∧ progress.invoked = expected regs

/-! ## Registration -/

theorem register_data (m : EventManager C U) (eventType : Events) (prio p : EventPriorties)
    (listener : Listener C U) :
    (((eventsRegisterListener m eventType prio listener).events eventType).priorieties p).data =
      if p = prio ∧ ((m.events eventType).priorieties prio).count < eventMaxListeners then
        ((m.events eventType).priorieties p).data ++ [listener]
      else ((m.events eventType).priorieties p).data := by
  unfold eventsRegisterListener
  by_cases hroom : ((m.events eventType).priorieties prio).count < eventMaxListeners
  · rcases eq_or_ne p prio with rfl | hne
    · simp [hroom, StaticList.push]
    · simp [hroom, hne]
  · simp [hroom]

theorem stored_concat (regs : List (EventPriorties × Listener C U))
    (r : EventPriorties × Listener C U) (p : EventPriorties) :
    stored (regs ++ [r]) p =
      if p = r.1 ∧ (stored regs p).length < eventMaxListeners then stored regs p ++ [r.2]
      else stored regs p := by
  rw [stored, stored, List.filter_append, List.map_append]
  generalize (regs.filter fun r => r.1 = p).map Prod.snd = xs
  rcases eq_or_ne p r.1 with rfl | hne
  · rw [List.length_take, List.take_append]
    by_cases hroom : xs.length < eventMaxListeners
    · have hone : eventMaxListeners - xs.length =
          (eventMaxListeners - xs.length - 1) + 1 := by omega
      rw [if_pos ⟨rfl, by omega⟩, hone]
      simp
    · have hzero : eventMaxListeners - xs.length = 0 := by omega
      rw [if_neg (by omega), hzero]
      simp
  · simp [hne, Ne.symm hne]

/-- A list keeps what was registered at its priority while it had room. -/
theorem registerAll_data (eventType : Events) : ∀ (regs : List (EventPriorties × Listener C U))
    (prio : EventPriorties),
    (((registerAll eventType regs).events eventType).priorieties prio).data = stored regs prio := by
  intro regs
  induction regs using List.reverseRecOn with
  | nil => intro prio; rfl
  | append_singleton regs r ih =>
    intro prio
    rw [registerAll, List.foldl_concat, ← registerAll, register_data, stored_concat, ih]
    rcases eq_or_ne prio r.1 with rfl | hne
    · rw [StaticList.count, ih]
    · simp [hne]

/-! ## The loops of a trigger -/

section Trigger

variable (call : Call C U D) (event : Event C U) (eventData : D)

/-- The listeners at an index of the array, none past its end. -/
def Event.listenersAt (event : Event C U) (prio : Nat) : List (Listener C U) :=
  (event.atPrio prio).elim [] StaticList.data

/-- The listeners of the priorities below `prio`. -/
def Event.below (event : Event C U) (prio : Nat) : List (Listener C U) :=
  (List.range prio).flatMap event.listenersAt

theorem Event.below_succ (prio : Nat) :
    event.below (prio + 1) = event.below prio ++ event.listenersAt prio := by
  simp [Event.below, List.range_succ]

/-- What has been called when the loops are at a cursor. -/
def Reached (event : Event C U) : Cursor × Progress C U → Prop
  | (.outer prio, progress) => prio ≤ eventPrioMax ∧ progress.invoked = event.below prio
  | (.inner prio listenerIdx, progress) =>
      prio ≤ eventPrioMax ∧ listenerIdx ≤ (event.listenersAt prio).length ∧
        progress.invoked = event.below prio ++ (event.listenersAt prio).take listenerIdx

/-- The turns that are left, at most. -/
def remaining : Cursor × Progress C U → Nat
  | (.outer prio, _) => 70 * (6 - prio)
  | (.inner prio listenerIdx, _) => 70 * (6 - prio) - 1 - listenerIdx

/-- One turn keeps what has been called, and leaves only for a priority out of range. -/
theorem triggerTurn_spec (c : Cursor × Progress C U) (hc : Reached event c) :
    (∃ o, triggerTurn call event eventData c = .done o ∧
        ∃ result, o = .outOfRange eventPrioMax ⟨event.below eventPrioMax, result⟩) ∨
      ∃ c', triggerTurn call event eventData c = .again c' ∧ Reached event c' ∧
        remaining c' < remaining c := by
  obtain ⟨cursor, progress⟩ := c
  cases cursor with
  | outer prio =>
    obtain ⟨hprio, hinv⟩ := hc
    have hprio' : prio ≤ 5 := hprio
    refine Or.inr ⟨(.inner prio 0, progress), rfl, ⟨hprio, Nat.zero_le _, by simpa using hinv⟩, ?_⟩
    simp only [remaining]
    omega
  | inner prio listenerIdx =>
    obtain ⟨hprio, hidx, hinv⟩ := hc
    cases hat : event.atPrio prio with
    | none =>
      -- The array ends at `EVENT_PRIO_MAX`, and no listener was called since.
      have hend : prio = eventPrioMax := by
        rw [Event.atPrio] at hat
        split at hat
        · cases hat
        · omega
      have hnone : event.listenersAt prio = [] := by rw [Event.listenersAt, hat]; rfl
      rw [hnone, List.take_nil, List.append_nil] at hinv
      subst hend
      refine Or.inl ⟨.outOfRange eventPrioMax progress, by simp only [triggerTurn, hat],
        progress.result, ?_⟩
      rw [← hinv]
    | some list =>
      have hlist : event.listenersAt prio = list.data := by rw [Event.listenersAt, hat]; rfl
      have hlt : prio < 5 := by
        rw [Event.atPrio] at hat
        split at hat
        · assumption
        · cases hat
      have hcap : list.data.length ≤ 64 := list.fits
      rw [hlist] at hidx hinv
      right
      by_cases hmore : listenerIdx < list.data.length
      · refine ⟨_, by rw [triggerTurn, hat]; exact dif_pos hmore, ?_⟩
        refine ⟨⟨hprio, by rw [hlist]; exact hmore, ?_⟩, ?_⟩
        · rw [hlist, List.take_succ_eq_append_getElem hmore, ← List.append_assoc, ← hinv]
          rfl
        · simp only [remaining]
          omega
      · refine ⟨(.outer (prio + 1), progress), by rw [triggerTurn, hat]; exact dif_neg hmore, ?_⟩
        refine ⟨⟨hlt, ?_⟩, ?_⟩
        · rw [hinv, event.below_succ, hlist, List.take_of_length_le (Nat.le_of_not_lt hmore)]
        · simp only [remaining]
          omega

theorem reached_start : Reached event (.outer 0, ⟨[], none⟩) := ⟨Nat.zero_le _, rfl⟩

/-- A trigger calls every listener once, by priority and then in order, and goes on to
read the priority after the last one. -/
theorem eventsTrigger_spec (m : EventManager C U) (eventType : Events) {fuel : Nat}
    (hfuel : 420 < fuel) : ∃ result, eventsTrigger call fuel m eventType eventData =
      some (.outOfRange eventPrioMax ⟨(m.events eventType).below eventPrioMax, result⟩) := by
  obtain ⟨o, ho, result, rfl⟩ := Loop.run_total (Reached (m.events eventType)) remaining _
    (triggerTurn_spec call (m.events eventType) eventData) (reached_start _) hfuel
  exact ⟨result, ho⟩

/-- No call of `EventsTrigger` returns. -/
theorem eventsTrigger_not_returned (m : EventManager C U) (eventType : Events) (fuel : Nat)
    (progress : Progress C U) :
    eventsTrigger call fuel m eventType eventData ≠ some (.returned progress) := by
  intro h
  refine Loop.run_result (Reached (m.events eventType)) (fun o => ∀ pr, o ≠ .returned pr) ?_
    (reached_start _) h progress rfl
  intro c hc
  rcases triggerTurn_spec call _ eventData c hc with ⟨o, hb, result, rfl⟩ | ⟨c', hb, hc', -⟩
  · exact Or.inl ⟨_, hb, fun pr h => by cases h⟩
  · exact Or.inr ⟨c', hb, hc'⟩

end Trigger

/-- After any registrations the listeners called before that are the stored ones. -/
theorem below_registerAll (eventType : Events) (regs : List (EventPriorties × Listener C U)) :
    ((registerAll eventType regs).events eventType).below eventPrioMax = expected regs := by
  rw [Event.below, expected, ← List.map_coe_finRange_eq_range, List.flatMap_map]
  refine List.flatMap_congr fun p _ => ?_
  rw [← registerAll_data eventType, Event.listenersAt, Event.atPrio, dif_pos p.isLt]
  rfl

/-- Whatever has been registered, a trigger calls the stored listeners in order and then
reads a priority that does not exist; it does not end with them. -/
theorem trigger_never_delivers (call : Call C U D) (eventType : Events) (eventData : D)
    (regs : List (EventPriorties × Listener C U)) :
    ¬ Delivers call eventType eventData regs ∧
      ∃ fuel result, eventsTrigger call fuel (registerAll eventType regs) eventType eventData =
        some (.outOfRange eventPrioMax ⟨expected regs, result⟩) := by
  constructor
  · rintro ⟨fuel, progress, h, -⟩
    exact eventsTrigger_not_returned call eventData _ eventType fuel progress h
  · obtain ⟨result, h⟩ := eventsTrigger_spec call eventData (registerAll eventType regs) eventType
      (Nat.lt_succ_self 420)
    rw [below_registerAll] at h
    exact ⟨421, result, h⟩

/-- One listener at the highest priority. -/
theorem trigger_one_listener : ¬ Delivers (fun (_ : Unit) (_ : Unit) (_ : Unit) => EventResult.ok)
    .appStart () [(⟨0, by decide⟩, ⟨(), ()⟩)] := by
  rintro ⟨fuel, progress, h, -⟩
  exact eventsTrigger_not_returned _ _ _ _ fuel progress h

end Manager

end ScalBase.EventManagers
