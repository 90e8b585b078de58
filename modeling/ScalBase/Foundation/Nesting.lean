/-
  Foundation/Nesting.lean --- scopes that open and close in nested order.

  A bracket opens a scope or closes the innermost one that is open.  A `Nest` is
  a sequence of scopes each of which holds a sequence of scopes, and its
  `brackets` are the order in which they open and close.  `exists_nest` is the
  converse: brackets that close everything they open are those of some nest.

  `activations` lists the scopes of a nest, each with the scopes directly in it
  and with the scopes around it, innermost first.
-/
import Mathlib.Tactic

set_option autoImplicit false

namespace ScalBase.Foundation

variable {α β : Type*}

/-- Open a scope with `a`, or close the innermost open scope with `b`. -/
inductive Delimiter (α β : Type*) where
  | enter (a : α)
  | leave (b : β)
  deriving DecidableEq

/-- A sequence of scopes: each is opened with `a`, closed with `b`, and holds the
sequence `inner`. -/
inductive Nest (α β : Type*) where
  | nil
  | scope (a : α) (inner : Nest α β) (b : β) (rest : Nest α β)

/-- A scope of a nest: what it was opened and closed with, what it holds, and what the
scopes around it were opened with, innermost first. -/
structure Activation (α β : Type*) where
  outer : List α
  enter : α
  inner : Nest α β
  leave : β

/-- The same scope with more scopes around it. -/
def Activation.within (outer : List α) (x : Activation α β) : Activation α β :=
  { x with outer := x.outer ++ outer }

namespace Nest

/-- The order in which the scopes open and close. -/
def brackets : Nest α β → List (Delimiter α β)
  | nil => []
  | scope a inner b rest => .enter a :: (inner.brackets ++ .leave b :: rest.brackets)

/-- What the scopes of the sequence itself were opened and closed with. -/
def roots : Nest α β → List (α × β)
  | nil => []
  | scope a _ b rest => (a, b) :: rest.roots

/-- All scopes, those around the nest being `outer`. -/
def activations (outer : List α) : Nest α β → List (Activation α β)
  | nil => []
  | scope a inner b rest =>
      ⟨outer, a, inner, b⟩ :: (inner.activations (a :: outer) ++ rest.activations outer)

@[simp] theorem brackets_nil : (nil : Nest α β).brackets = [] := rfl

@[simp] theorem brackets_scope (a : α) (inner : Nest α β) (b : β) (rest : Nest α β) :
    (scope a inner b rest).brackets = .enter a :: (inner.brackets ++ .leave b :: rest.brackets) :=
  rfl

@[simp] theorem roots_nil : (nil : Nest α β).roots = [] := rfl

@[simp] theorem roots_scope (a : α) (inner : Nest α β) (b : β) (rest : Nest α β) :
    (scope a inner b rest).roots = (a, b) :: rest.roots := rfl

@[simp] theorem activations_nil (outer : List α) :
    (nil : Nest α β).activations outer = [] := rfl

@[simp] theorem activations_scope (outer : List α) (a : α) (inner : Nest α β) (b : β)
    (rest : Nest α β) : (scope a inner b rest).activations outer =
      ⟨outer, a, inner, b⟩ :: (inner.activations (a :: outer) ++ rest.activations outer) := rfl

/-- The scopes around a nest are around each of its scopes. -/
theorem activations_append (outer : List α) : ∀ (f : Nest α β) (xs : List α),
    f.activations (xs ++ outer) = (f.activations xs).map (Activation.within outer) := by
  intro f
  induction f with
  | nil => intro xs; rfl
  | scope a inner b rest ihInner ihRest =>
    intro xs
    have hin := ihInner (a :: xs)
    rw [List.cons_append] at hin
    rw [activations_scope, activations_scope, ihRest, hin, List.map_cons, List.map_append]
    rfl

end Nest

/-- How many scopes are open after the brackets, of `n` before them; `none` when one
closes a scope and none is open. -/
def openAfter : Nat → List (Delimiter α β) → Option Nat
  | n, [] => some n
  | n, .enter _ :: l => openAfter (n + 1) l
  | 0, .leave _ :: _ => none
  | n + 1, .leave _ :: l => openAfter n l

/-- Brackets that close `n` scopes more than they open are a nest, then `n` times a
closing bracket and a nest. -/
theorem exists_nests : ∀ (l : List (Delimiter α β)) (n : Nat), openAfter n l = some 0 →
    ∃ (f : Nest α β) (gs : List (β × Nest α β)), gs.length = n ∧
      l = f.brackets ++ gs.flatMap fun g => .leave g.1 :: g.2.brackets := by
  intro l
  induction l with
  | nil =>
    intro n h
    obtain rfl : n = 0 := by simpa [openAfter] using h
    exact ⟨.nil, [], rfl, rfl⟩
  | cons x l ih =>
    intro n h
    cases x with
    | enter a =>
      obtain ⟨f, gs, hlen, rfl⟩ := ih (n + 1) h
      cases gs with
      | nil => simp at hlen
      | cons g gs =>
        -- The scope opened here is closed by the first closing bracket of the rest.
        refine ⟨.scope a f g.1 g.2, gs, by simpa using hlen, ?_⟩
        simp
    | leave b =>
      cases n with
      | zero => simp [openAfter] at h
      | succ n =>
        obtain ⟨f, gs, hlen, rfl⟩ := ih n h
        exact ⟨.nil, (b, f) :: gs, by simp [hlen], by simp⟩

/-- Brackets that close every scope they open, and no other, are those of a nest. -/
theorem exists_nest {l : List (Delimiter α β)} (h : openAfter 0 l = some 0) :
    ∃ f : Nest α β, f.brackets = l := by
  obtain ⟨f, gs, hlen, rfl⟩ := exists_nests l 0 h
  obtain rfl := List.length_eq_zero_iff.mp hlen
  exact ⟨f, by simp⟩

end ScalBase.Foundation
