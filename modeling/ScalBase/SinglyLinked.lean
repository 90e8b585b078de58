/-
  SinglyLinked.lean --- the intrusive queue macros of `Base.h`.

  `SLQueuePush` and `SLQueuePop` work on a first pointer, a last pointer and the one
  link of the nodes.  A store or a load through a null pointer is the outcome `none`.

  A node that is popped keeps its link.  That does no harm: a push writes the link of
  the node it puts in, after it has written that of the node before.
-/
import ScalBase.Foundation.LinkedList
import ScalBase.Foundation.Run

set_option autoImplicit false

namespace ScalBase.SinglyLinked

open ScalBase.Foundation

variable {A : Type*} [Zero A] [DecidableEq A]

/-! ## The macros -/

/-- The arguments `f` and `l` of the macros, and the link of all nodes. -/
structure SLQueue (A : Type*) where
  f : A
  l : A
  next : A → A

/-- `p->Next = v`. -/
def store (next : A → A) (p v : A) : Option (A → A) :=
  if p = 0 then none else some (Function.update next p v)

/-- `p->Next`. -/
def load (next : A → A) (p : A) : Option A := if p = 0 then none else some (next p)

/-- `SLQueuePush`. -/
def slQueuePush (s : SLQueue A) (n : A) : Option (SLQueue A) := do
  let s ← if s.f = 0 then some { s with f := n, l := n }
    else (store s.next s.l n).map fun next => { s with l := n, next }
  let next ← store s.next n 0
  return { s with next }

/-- `SLQueuePop`. -/
def slQueuePop (s : SLQueue A) : Option (SLQueue A) :=
  if s.f = s.l then some { s with f := 0, l := 0 }
  else (load s.next s.f).map fun f => { s with f }

/-- A use of one of the macros. -/
inductive Call (A : Type*) where
  | push (n : A)
  | pop

def step (s : SLQueue A) : Call A → Option (SLQueue A)
  | .push n => slQueuePush s n
  | .pop => slQueuePop s

/-! ## What the macros are for -/

/-- The nodes pushed and not yet popped, in the order they were pushed in. -/
def reference (ns : List A) : Call A → List A
  | .push n => ns ++ [n]
  | .pop => ns.tail

/-- A node that is pushed is not in the queue. -/
def Valid (ns : List A) : Call A → Prop
  | .push n => n ≠ 0 ∧ n ∉ ns
  | .pop => True

/-- `Next` from `f` lists the queue, `l` is its last node, and both are null for the
empty one only. -/
structure Queued (s : SLQueue A) (ns : List A) : Prop where
  ne_zero : 0 ∉ ns
  nodup : ns.Nodup
  next : Path s.next ns 0
  first : s.f = ns.headD 0
  last : s.l = lastD ns
  first_null : s.f = 0 ↔ ns = []
  last_null : s.l = 0 ↔ ns = []

namespace Queued

variable {s : SLQueue A} {ns : List A} {n : A}

omit [DecidableEq A] in
theorem of_path (hzero : 0 ∉ ns) (hnodup : ns.Nodup) (hnext : Path s.next ns 0)
    (hf : s.f = ns.headD 0) (hl : s.l = lastD ns) : Queued s ns :=
  ⟨hzero, hnodup, hnext, hf, hl, by rw [hf]; exact headD_eq_zero hzero,
    by rw [hl]; exact lastD_eq_zero hzero⟩

omit [DecidableEq A] in
theorem empty (next : A → A) : Queued ⟨0, 0, next⟩ [] :=
  of_path List.not_mem_nil List.nodup_nil trivial rfl rfl

/-- The new node goes behind the last one, or becomes the only one. -/
theorem push_eq (h : Queued s ns) (hn : n ≠ 0) : slQueuePush s n =
    some ⟨ns.headD n, n, Function.update (bridge s.next (lastD ns) n) n 0⟩ := by
  cases ns with
  | nil =>
    have hf : s.f = 0 := h.first
    simp [slQueuePush, hf, store, hn]
  | cons x xs =>
    have hx : x ≠ 0 := fun hx => h.ne_zero (by simp [hx])
    have hf : s.f = x := h.first
    have hl : lastD (x :: xs) ≠ 0 := by
      rw [← h.last]
      exact fun hl => List.cons_ne_nil x xs (h.last_null.mp hl)
    simp [slQueuePush, hf, hx, h.last, store, hl, hn, bridge_of_ne]

theorem push (h : Queued s ns) (hn : n ≠ 0) (hnew : n ∉ ns) :
    ∃ t, slQueuePush s n = some t ∧ Queued t (ns ++ [n]) := by
  have hpath : Path s.next (ns ++ []) 0 := by rw [List.append_nil]; exact h.next
  have hinsert := @Path.insert A _ _ s.next ns [] n 0 hpath (by rw [List.append_nil]; exact h.nodup)
    (by rw [List.append_nil]; exact h.ne_zero) (by rwa [List.append_nil])
  refine ⟨_, h.push_eq hn, of_path ?_ ?_ hinsert ?_ (lastD_concat ns n).symm⟩
  · rw [List.mem_append, List.mem_singleton, not_or]
    exact ⟨h.ne_zero, hn.symm⟩
  · rw [List.nodup_append_comm]
    exact List.nodup_cons.mpr ⟨hnew, h.nodup⟩
  · cases ns <;> rfl

/-- The first node goes, and with the only node also the last pointer. -/
theorem pop (h : Queued s ns) : ∃ t, slQueuePop s = some t ∧ Queued t ns.tail := by
  rcases ns with _ | ⟨x, _ | ⟨y, ys⟩⟩
  · have hsame : s.f = s.l := h.first.trans h.last.symm
    exact ⟨_, if_pos hsame, empty s.next⟩
  · have hsame : s.f = s.l := h.first.trans h.last.symm
    exact ⟨_, if_pos hsame, empty s.next⟩
  · have hx : x ≠ 0 := fun hx => h.ne_zero (by simp [hx])
    have hf : s.f = x := h.first
    obtain ⟨zs, z, hzs⟩ := (List.eq_nil_or_concat (y :: ys)).resolve_left (List.cons_ne_nil y ys)
    rw [List.concat_eq_append] at hzs
    have hl : s.l = lastD (y :: ys) := by
      rw [h.last, hzs, ← List.cons_append, lastD_concat, lastD_concat]
    have hmem : s.l ∈ y :: ys := by
      rw [hl]
      apply (lastD_mem_or (y :: ys)).resolve_left
      rw [← hl]
      exact fun hl => List.cons_ne_nil x (y :: ys) (h.last_null.mp hl)
    have hne : s.f ≠ s.l := by
      rw [hf]
      rintro rfl
      exact (List.nodup_cons.mp h.nodup).1 hmem
    refine ⟨{ s with f := y }, ?_, of_path ?_ (List.nodup_cons.mp h.nodup).2 h.next.2 rfl hl⟩
    · rw [slQueuePop, if_neg hne, load, hf, if_neg hx, h.next.1]
      rfl
    · exact fun h0 => h.ne_zero (List.mem_cons_of_mem x h0)

theorem step (h : Queued s ns) {call : Call A} (hvalid : Valid ns call) :
    ∃ t, step s call = some t ∧ Queued t (reference ns call) := by
  cases call with
  | push n => exact h.push hvalid.1 hvalid.2
  | pop => exact h.pop

end Queued

/-! ## Sequences of calls -/

/-- The macros are first in, first out: after any sequence the queue lists the nodes
pushed and not yet popped in push order, and no null pointer has been dereferenced. -/
theorem slQueue_is_fifo (next : A → A) (calls : List (Call A))
    (hvalid : AtEach (fun ns call => some (reference ns call)) Valid [] calls) :
    ∃ s, exec step ⟨0, 0, next⟩ calls = some s ∧ Queued s (calls.foldl reference []) := by
  apply AtEach.exec_refines Queued ?_ (Queued.empty next) hvalid
  intro s ns call h hv
  exact h.step hv

instance Valid.decidable : ∀ (ns : List A) (call : Call A), Decidable (Valid ns call)
  | ns, .push n => inferInstanceAs (Decidable (n ≠ 0 ∧ n ∉ ns))
  | _, .pop => isTrue trivial

/-- A node that is popped and pushed again, behind another one. -/
theorem slQueue_is_fifo_reused : ∃ s, exec step ⟨0, 0, fun _ => 0⟩
    [.push 1, .push 2, .pop, .push (1 : Nat)] = some s ∧ Queued s [2, 1] :=
  slQueue_is_fifo (fun _ => 0) [.push 1, .push 2, .pop, .push (1 : Nat)] (by decide)

end ScalBase.SinglyLinked
