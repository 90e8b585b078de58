/-
  SinglyLinked/Lists.lean --- many lists over the same nodes.

  The macros link a node through a field of its own, so a node is in one list at a time and
  may move from one to another.  Here any number of queues and stacks use the same field.
  Each call works on one of them.  It writes links of the nodes of that list only, so all
  the others stay as they are (`lists_stay_apart`).

  `SLQueuePushFront` closes a parenthesis more than it opens, so no use of it compiles.  It
  is read with the missing one in front of `(f) = (l) = (n), (n)->Next = 0`.
-/
import ScalBase.SinglyLinked

set_option autoImplicit false

namespace ScalBase.SinglyLinked

open ScalBase.Foundation

variable {A : Type*} [Zero A] [DecidableEq A]

/-! ## The other macros -/

/-- `SLQueuePushFront`. -/
def slQueuePushFront (s : SLQueue A) (n : A) : Option (SLQueue A) :=
  if s.f = 0 then (store s.next n 0).map fun next => { s with f := n, l := n, next }
  else (store s.next n s.f).map fun next => { s with f := n, next }

/-- The argument `f` of the stack macros, and the link of all nodes. -/
structure SLStack (A : Type*) where
  f : A
  next : A → A

/-- `SLStackPush`. -/
def slStackPush (s : SLStack A) (n : A) : Option (SLStack A) :=
  (store s.next n s.f).map fun next => ⟨n, next⟩

/-- `SLStackPop`. -/
def slStackPop (s : SLStack A) : Option (SLStack A) :=
  if s.f = 0 then some s else (load s.next s.f).map fun f => { s with f }

/-! ## Queues and stacks over one field -/

/-- The first and the last pointer of each queue, the first pointer of each stack, and the link
of all nodes. -/
structure Lists (ι κ A : Type*) where
  queues : ι → A × A
  tops : κ → A
  next : A → A

variable {ι κ : Type*} [DecidableEq ι] [DecidableEq κ]

namespace Lists

def queue (s : Lists ι κ A) (q : ι) : SLQueue A := ⟨(s.queues q).1, (s.queues q).2, s.next⟩

def stack (s : Lists ι κ A) (k : κ) : SLStack A := ⟨s.tops k, s.next⟩

/-- The lists after a macro on a queue. -/
def setQueue (s : Lists ι κ A) (q : ι) (t : SLQueue A) : Lists ι κ A :=
  { s with queues := Function.update s.queues q (t.f, t.l), next := t.next }

/-- The lists after a macro on a stack. -/
def setStack (s : Lists ι κ A) (k : κ) (t : SLStack A) : Lists ι κ A :=
  { s with tops := Function.update s.tops k t.f, next := t.next }

end Lists

/-- A use of a macro on one of the lists. -/
inductive ListsCall (ι κ A : Type*) where
  | queuePush (q : ι) (n : A)
  | queuePushFront (q : ι) (n : A)
  | queuePop (q : ι)
  | stackPush (k : κ) (n : A)
  | stackPop (k : κ)

namespace ListsCall

def step (s : Lists ι κ A) : ListsCall ι κ A → Option (Lists ι κ A)
  | queuePush q n => (slQueuePush (s.queue q) n).map (s.setQueue q)
  | queuePushFront q n => (slQueuePushFront (s.queue q) n).map (s.setQueue q)
  | queuePop q => (slQueuePop (s.queue q)).map (s.setQueue q)
  | stackPush k n => (slStackPush (s.stack k) n).map (s.setStack k)
  | stackPop k => (slStackPop (s.stack k)).map (s.setStack k)

/-- What the nodes of each list are, the first one first. -/
def onContents (c : ι ⊕ κ → List A) : ListsCall ι κ A → ι ⊕ κ → List A
  | queuePush q n => Function.update c (.inl q) (c (.inl q) ++ [n])
  | queuePushFront q n => Function.update c (.inl q) (n :: c (.inl q))
  | queuePop q => Function.update c (.inl q) (c (.inl q)).tail
  | stackPush k n => Function.update c (.inr k) (n :: c (.inr k))
  | stackPop k => Function.update c (.inr k) (c (.inr k)).tail

/-- A node that is pushed is in no list. -/
def Valid (c : ι ⊕ κ → List A) : ListsCall ι κ A → Prop
  | queuePush _ n => n ≠ 0 ∧ ∀ x, n ∉ c x
  | queuePushFront _ n => n ≠ 0 ∧ ∀ x, n ∉ c x
  | stackPush _ n => n ≠ 0 ∧ ∀ x, n ∉ c x
  | _ => True

end ListsCall

/-- `Next` from `f` lists the stack. -/
structure Piled (s : SLStack A) (ns : List A) : Prop where
  ne_zero : 0 ∉ ns
  nodup : ns.Nodup
  next : Path s.next ns 0
  first : s.f = ns.headD 0

/-- A list of the family has the nodes `ns`. -/
def Lists.Holds (s : Lists ι κ A) : ι ⊕ κ → List A → Prop
  | .inl q, ns => Queued (s.queue q) ns
  | .inr k, ns => Piled (s.stack k) ns

/-- Every list has its nodes, and no two have one in common. -/
structure Lists.Apart (s : Lists ι κ A) (c : ι ⊕ κ → List A) : Prop where
  holds : ∀ x, s.Holds x (c x)
  disjoint : ∀ x y, x ≠ y → List.Disjoint (c x) (c y)

/-! ## What a macro writes -/

section Macros

variable {ns : List A} {n : A}

/-- `SLQueuePush` writes links of the nodes of the queue. -/
theorem Queued.push_frame {s : SLQueue A} (h : Queued s ns) (hn : n ≠ 0) (hnew : n ∉ ns) :
    ∃ t, slQueuePush s n = some t ∧ Queued t (ns ++ [n]) ∧
      ∀ w ∉ ns ++ [n], t.next w = s.next w := by
  obtain ⟨t, ht, hqueued⟩ := h.push hn hnew
  refine ⟨t, ht, hqueued, fun w hw => ?_⟩
  rw [List.mem_append, List.mem_singleton, not_or] at hw
  cases (h.push_eq hn).symm.trans ht
  exact (Function.update_of_ne hw.2 ..).trans (bridge_neighbour (lastD_mem_or ns) hw.1)

/-- `SLQueuePushFront` puts the node before the others. -/
theorem Queued.pushFront {s : SLQueue A} (h : Queued s ns) (hn : n ≠ 0) (hnew : n ∉ ns) :
    ∃ t, slQueuePushFront s n = some t ∧ Queued t (n :: ns) ∧
      ∀ w ∉ n :: ns, t.next w = s.next w := by
  have hzero : 0 ∉ n :: ns := List.not_mem_cons_of_ne_of_not_mem hn.symm h.ne_zero
  have hnodup : (n :: ns).Nodup := List.nodup_cons.mpr ⟨hnew, h.nodup⟩
  have hpath : ∀ v, v = ns.headD 0 → Path (Function.update s.next n v) (n :: ns) 0 := by
    rintro v rfl
    refine ⟨Function.update_self .., h.next.congr fun w hw => Function.update_of_ne ?_ ..⟩
    rintro rfl
    exact hnew hw
  have hframe : ∀ v, ∀ w ∉ n :: ns, Function.update s.next n v w = s.next w :=
    fun v w hw => Function.update_of_ne (List.ne_of_not_mem_cons hw) ..
  cases ns with
  | nil =>
    have hf : s.f = 0 := h.first
    have hpush : slQueuePushFront s n = some ⟨n, n, Function.update s.next n 0⟩ := by
      rw [slQueuePushFront, if_pos hf, store, if_neg hn]
      rfl
    exact ⟨_, hpush, .of_path hzero hnodup (hpath 0 rfl) rfl rfl, hframe 0⟩
  | cons x xs =>
    have hf : s.f ≠ 0 := fun hf => List.cons_ne_nil x xs (h.first_null.mp hf)
    have hpush : slQueuePushFront s n = some ⟨n, s.l, Function.update s.next n s.f⟩ := by
      rw [slQueuePushFront, if_neg hf, store, if_neg hn]
      rfl
    have hlast : s.l = lastD (n :: x :: xs) := by
      obtain ⟨ys, y, hys⟩ := (List.eq_nil_or_concat (x :: xs)).resolve_left (List.cons_ne_nil x xs)
      rw [List.concat_eq_append] at hys
      rw [h.last, hys, ← List.cons_append, lastD_concat, lastD_concat]
    exact ⟨_, hpush, .of_path hzero hnodup (hpath s.f h.first) rfl hlast, hframe s.f⟩

/-- `SLQueuePop` writes no link. -/
theorem Queued.pop_frame {s : SLQueue A} (h : Queued s ns) :
    ∃ t, slQueuePop s = some t ∧ Queued t ns.tail ∧ t.next = s.next := by
  obtain ⟨t, ht, hqueued⟩ := h.pop
  refine ⟨t, ht, hqueued, ?_⟩
  rw [slQueuePop] at ht
  split at ht
  · cases ht
    rfl
  · obtain ⟨f, -, rfl⟩ := Option.map_eq_some_iff.mp ht
    rfl

theorem Piled.push {s : SLStack A} (h : Piled s ns) (hn : n ≠ 0) (hnew : n ∉ ns) :
    ∃ t, slStackPush s n = some t ∧ Piled t (n :: ns) ∧ ∀ w ∉ n :: ns, t.next w = s.next w := by
  refine ⟨⟨n, Function.update s.next n s.f⟩, by rw [slStackPush, store, if_neg hn]; rfl,
    ⟨List.not_mem_cons_of_ne_of_not_mem hn.symm h.ne_zero, List.nodup_cons.mpr ⟨hnew, h.nodup⟩,
      ⟨(Function.update_self ..).trans h.first, h.next.congr fun w hw => ?_⟩, rfl⟩, fun w hw => ?_⟩
  · refine Function.update_of_ne ?_ ..
    rintro rfl
    exact hnew hw
  · exact Function.update_of_ne (List.ne_of_not_mem_cons hw) ..

theorem Piled.pop {s : SLStack A} (h : Piled s ns) :
    ∃ t, slStackPop s = some t ∧ Piled t ns.tail ∧ t.next = s.next := by
  cases ns with
  | nil => exact ⟨s, if_pos h.first, h, rfl⟩
  | cons x xs =>
    have hx : x ≠ 0 := fun hx => h.ne_zero (hx ▸ List.mem_cons_self ..)
    have hf : s.f = x := h.first
    refine ⟨⟨xs.headD 0, s.next⟩, ?_, ⟨fun h0 => h.ne_zero (List.mem_cons_of_mem x h0),
      (List.nodup_cons.mp h.nodup).2, h.next.2, rfl⟩, rfl⟩
    rw [slStackPop, hf, if_neg hx, load, if_neg hx, h.next.1]
    rfl

end Macros

/-! ## All lists -/

section Family

variable {s t : Lists ι κ A} {c : ι ⊕ κ → List A}

omit [DecidableEq A] [DecidableEq ι] [DecidableEq κ] in
/-- A list depends on its own pointers and on the links of its nodes. -/
theorem Lists.Holds.congr {x : ι ⊕ κ} {ns : List A} (h : s.Holds x ns)
    (hqueues : ∀ q, x = .inl q → t.queues q = s.queues q)
    (htops : ∀ k, x = .inr k → t.tops k = s.tops k) (hnext : ∀ w ∈ ns, t.next w = s.next w) :
    t.Holds x ns := by
  cases x with
  | inl q =>
    have hq := hqueues q rfl
    obtain ⟨hzero, hnodup, hpath, hf, hl, -, -⟩ := h
    exact .of_path hzero hnodup (hpath.congr hnext) ((congrArg Prod.fst hq).trans hf)
      ((congrArg Prod.snd hq).trans hl)
  | inr k =>
    exact ⟨h.ne_zero, h.nodup, h.next.congr hnext, (htops k rfl).trans h.first⟩

omit [DecidableEq A] in
/-- A macro on the list `x` that writes links of its nodes only leaves all others alone. -/
theorem Lists.Apart.update (h : s.Apart c) {x : ι ⊕ κ} {ns : List A} (hx : t.Holds x ns)
    (hqueues : ∀ q, x ≠ .inl q → t.queues q = s.queues q)
    (htops : ∀ k, x ≠ .inr k → t.tops k = s.tops k)
    (hnext : ∀ w ∉ ns, w ∉ c x → t.next w = s.next w)
    (hnew : ∀ w ∈ ns, w ∈ c x ∨ ∀ y, w ∉ c y) : t.Apart (Function.update c x ns) := by
  have hother : ∀ y, y ≠ x → List.Disjoint ns (c y) := by
    intro y hy w hw hwy
    rcases hnew w hw with hold | hfresh
    · exact h.disjoint x y hy.symm hold hwy
    · exact hfresh y hwy
  constructor
  · intro y
    rcases eq_or_ne y x with rfl | hy
    · rwa [Function.update_self]
    · rw [Function.update_of_ne hy]
      refine (h.holds y).congr (fun q hq => hqueues q (hq ▸ hy.symm))
        (fun k hk => htops k (hk ▸ hy.symm)) fun w hw => ?_
      exact hnext w (fun hns => hother y hy hns hw) fun hold => h.disjoint x y hy.symm hold hw
  · intro y z hyz
    rcases eq_or_ne y x with rfl | hy
    · rw [Function.update_self, Function.update_of_ne hyz.symm]
      exact hother z hyz.symm
    · rw [Function.update_of_ne hy]
      rcases eq_or_ne z x with rfl | hz
      · rw [Function.update_self]
        exact (hother y hy).symm
      · rw [Function.update_of_ne hz]
        exact h.disjoint y z hyz

omit [DecidableEq A] in
theorem Lists.Apart.setQueue (h : s.Apart c) {q : ι} {u : SLQueue A} {ns : List A}
    (hu : Queued u ns) (hnext : ∀ w ∉ ns, w ∉ c (.inl q) → u.next w = s.next w)
    (hnew : ∀ w ∈ ns, w ∈ c (.inl q) ∨ ∀ y, w ∉ c y) :
    (s.setQueue q u).Apart (Function.update c (.inl q) ns) := by
  refine h.update ?_
    (fun q' hq' => Function.update_of_ne (fun hqq => hq' (congrArg Sum.inl hqq.symm)) ..)
    (fun _ _ => rfl) hnext hnew
  have hqueue : (s.setQueue q u).queue q = u := by
    simp only [Lists.queue, Lists.setQueue, Function.update_self]
  rwa [Lists.Holds, hqueue]

omit [DecidableEq A] in
theorem Lists.Apart.setStack (h : s.Apart c) {k : κ} {u : SLStack A} {ns : List A} (hu : Piled u ns)
    (hnext : ∀ w ∉ ns, w ∉ c (.inr k) → u.next w = s.next w)
    (hnew : ∀ w ∈ ns, w ∈ c (.inr k) ∨ ∀ y, w ∉ c y) :
    (s.setStack k u).Apart (Function.update c (.inr k) ns) := by
  refine h.update ?_ (fun _ _ => rfl)
    (fun k' hk' => Function.update_of_ne (fun hkk => hk' (congrArg Sum.inr hkk.symm)) ..) hnext hnew
  have hstack : (s.setStack k u).stack k = u := by
    simp only [Lists.stack, Lists.setStack, Function.update_self]
  rwa [Lists.Holds, hstack]

theorem Lists.Apart.step (h : s.Apart c) {call : ListsCall ι κ A} (hvalid : call.Valid c) :
    ∃ t, call.step s = some t ∧ t.Apart (call.onContents c) := by
  cases call with
  | queuePush q n =>
    obtain ⟨u, hu, hqueued, hframe⟩ := (h.holds (.inl q)).push_frame hvalid.1 (hvalid.2 _)
    refine ⟨s.setQueue q u, by rw [ListsCall.step, hu]; rfl,
      h.setQueue hqueued (fun w hw _ => hframe w hw) fun w hw => ?_⟩
    rcases List.mem_append.mp hw with hold | hnew
    · exact Or.inl hold
    · exact Or.inr (List.mem_singleton.mp hnew ▸ hvalid.2)
  | queuePushFront q n =>
    obtain ⟨u, hu, hqueued, hframe⟩ := (h.holds (.inl q)).pushFront hvalid.1 (hvalid.2 _)
    refine ⟨s.setQueue q u, by rw [ListsCall.step, hu]; rfl,
      h.setQueue hqueued (fun w hw _ => hframe w hw) fun w hw => ?_⟩
    rcases List.mem_cons.mp hw with rfl | hold
    · exact Or.inr hvalid.2
    · exact Or.inl hold
  | queuePop q =>
    obtain ⟨u, hu, hqueued, hnext⟩ := (h.holds (.inl q)).pop_frame
    exact ⟨s.setQueue q u, by rw [ListsCall.step, hu]; rfl,
      h.setQueue hqueued (fun w _ _ => congrFun hnext w) fun w hw =>
        Or.inl (List.mem_of_mem_tail hw)⟩
  | stackPush k n =>
    obtain ⟨u, hu, hpiled, hframe⟩ := (h.holds (.inr k)).push hvalid.1 (hvalid.2 _)
    refine ⟨s.setStack k u, by rw [ListsCall.step, hu]; rfl,
      h.setStack hpiled (fun w hw _ => hframe w hw) fun w hw => ?_⟩
    rcases List.mem_cons.mp hw with rfl | hold
    · exact Or.inr hvalid.2
    · exact Or.inl hold
  | stackPop k =>
    obtain ⟨u, hu, hpiled, hnext⟩ := (h.holds (.inr k)).pop
    exact ⟨s.setStack k u, by rw [ListsCall.step, hu]; rfl,
      h.setStack hpiled (fun w _ _ => congrFun hnext w) fun w hw =>
        Or.inl (List.mem_of_mem_tail hw)⟩

end Family

/-- Over every sequence of the macros on any number of queues and stacks that share the link of
their nodes, each pushed node being in no list, no null pointer is dereferenced, and every
list has exactly the nodes pushed to it and not yet popped, in its order. -/
theorem lists_stay_apart (next : A → A) (calls : List (ListsCall ι κ A))
    (hvalid : AtEach (fun c call => some (ListsCall.onContents c call)) ListsCall.Valid
      (fun _ => []) calls) :
    ∃ s, exec ListsCall.step ⟨fun _ => (0, 0), fun _ => 0, next⟩ calls = some s ∧
      s.Apart (calls.foldl ListsCall.onContents fun _ => []) := by
  have hempty : Lists.Apart (⟨fun _ => (0, 0), fun _ => 0, next⟩ : Lists ι κ A) fun _ => [] := by
    refine ⟨fun x => ?_, fun _ _ _ => List.disjoint_nil_left _⟩
    cases x with
    | inl q => exact Queued.empty next
    | inr k => exact ⟨List.not_mem_nil, List.nodup_nil, trivial, rfl⟩
  apply AtEach.exec_refines Lists.Apart ?_ hempty hvalid
  intro s c call h hv
  exact h.step hv

/-- A node that goes from a queue to a stack and back to the front of the queue. -/
theorem lists_stay_apart_moved :
    ∃ s, exec ListsCall.step ⟨fun _ => (0, 0), fun _ => 0, fun _ => 0⟩
        [.queuePush () 1, .queuePush () 2, .queuePop (), .stackPush () 1, .stackPop (),
          .queuePushFront () (1 : Nat)] = some s ∧
      s.Apart (List.foldl ListsCall.onContents (fun _ => []) [.queuePush () 1, .queuePush () 2,
        .queuePop (), .stackPush () 1, .stackPop (), .queuePushFront () (1 : Nat)]) := by
  refine lists_stay_apart (fun _ => 0) _ (.cons ⟨by decide, by decide⟩ ?_)
  rintro s ⟨⟩
  refine .cons ⟨by decide, by decide⟩ ?_
  rintro s ⟨⟩
  refine .cons trivial ?_
  rintro s ⟨⟩
  refine .cons ⟨by decide, by decide⟩ ?_
  rintro s ⟨⟩
  refine .cons trivial ?_
  rintro s ⟨⟩
  refine .cons ⟨by decide, by decide⟩ ?_
  intro _ _
  exact .nil

end ScalBase.SinglyLinked
