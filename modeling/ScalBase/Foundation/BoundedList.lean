/-
  Foundation/BoundedList.lean --- lists with room for a bounded number of elements.

  This is what a growable array or a list of fixed capacity stands for.  The bound is a
  field, and an edit whose result there is no room for changes nothing.

  `insertSwap` and `eraseSwap` are the two edits at an index that move one element only.
-/
import Mathlib.Tactic

set_option autoImplicit false

namespace ScalBase.Foundation

variable {T : Type*}

/-- A list of at most `capacity` elements. -/
structure BoundedList (T : Type*) where
  capacity : Nat
  elems : List T
  fits : elems.length ≤ capacity

namespace BoundedList

/-- The empty list. -/
def empty (capacity : Nat) : BoundedList T := ⟨capacity, [], Nat.zero_le _⟩

/-- The elements become `l`, if there is room for it. -/
def edit (b : BoundedList T) (l : List T) : BoundedList T :=
  if h : l.length ≤ b.capacity then { b with elems := l, fits := h } else b

/-- Room for at least `capacity` elements. -/
def grow (b : BoundedList T) (capacity : Nat) : BoundedList T :=
  ⟨max b.capacity capacity, b.elems, b.fits.trans (Nat.le_max_left ..)⟩

variable {b : BoundedList T} {l : List T}

theorem edit_fits (h : l.length ≤ b.capacity) : (b.edit l).elems = l := by
  rw [edit, dif_pos h]

theorem edit_full (h : b.capacity < l.length) : b.edit l = b :=
  dif_neg (Nat.not_le.mpr h)

@[simp] theorem edit_capacity : (b.edit l).capacity = b.capacity := by
  rw [edit]
  split <;> rfl

end BoundedList

/-! ## Edits that move one element -/

/-- `v` is put at `i`, and the element that was there at the end. -/
def insertSwap (l : List T) (i : Nat) (v : T) : List T := l.set i v ++ l[i]?.toList

/-- The last element is put at `i` instead of the one there. -/
def eraseSwap (l : List T) (i : Nat) : List T :=
  match l.getLast? with
  | none => []
  | some x => (l.set i x).dropLast

/-- What stands at the cut of a list is exchanged. -/
theorem set_cut (xs ys : List T) (y v : T) : (xs ++ y :: ys).set xs.length v = xs ++ v :: ys := by
  induction xs with
  | nil => rfl
  | cons x xs ih =>
    rw [List.cons_append, List.length_cons, List.set_cons_succ, ih, List.cons_append]

theorem insertSwap_cut (xs ys : List T) (y v : T) :
    insertSwap (xs ++ y :: ys) xs.length v = xs ++ v :: ys ++ [y] := by
  rw [insertSwap, set_cut, List.getElem?_append_right (Nat.le_refl _), Nat.sub_self]
  rfl

theorem eraseSwap_last (xs : List T) (y : T) : eraseSwap (xs ++ [y]) xs.length = xs := by
  rw [eraseSwap, List.getLast?_concat]
  simp only [set_cut, List.dropLast_concat]

theorem eraseSwap_inner (xs ys : List T) (y z : T) :
    eraseSwap (xs ++ y :: ys ++ [z]) xs.length = xs ++ z :: ys := by
  rw [eraseSwap, List.getLast?_concat]
  simp only [List.append_assoc, List.cons_append, set_cut]
  rw [← List.cons_append, ← List.append_assoc, List.dropLast_concat]

theorem length_insertSwap {l : List T} {i : Nat} (hi : i < l.length) (v : T) :
    (insertSwap l i v).length = l.length + 1 := by
  rw [insertSwap, List.length_append, List.length_set, List.getElem?_eq_getElem hi]
  rfl

theorem length_eraseSwap {l : List T} {i : Nat} (hi : i < l.length) :
    (eraseSwap l i).length = l.length - 1 := by
  rw [eraseSwap, List.getLast?_eq_getElem?, List.getElem?_eq_getElem (by omega)]
  simp only [List.length_dropLast, List.length_set]

end ScalBase.Foundation
