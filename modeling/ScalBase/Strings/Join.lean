/-
  Strings/Join.lean --- `StringJoin`.

  The parts and the glue between them are appended one after another, each where it
  fits: `StringAppendLength` returns the string as it is when it does not, which
  `StringJoin` does not notice.  So the pieces that fit at their turn are appended, and
  the others are left out (`exec_pieces`).  That is the joined text if all of it fits,
  and nothing if no piece fits that has a character.

  Parts and glue are C strings, without their NUL, and not part of the string.  `str` is
  not null.
-/
import ScalBase.Strings.Fixed

set_option autoImplicit false

namespace ScalBase.Strings

open Foundation Foundation.Block

namespace String

/-- `StringAppend`, of a C string. -/
def stringAppend (s : String) (other : List UInt8) : Option String :=
  s.stringAppendLength (other.take (u32 other.length))

/-- `StringJoin`. -/
def stringJoin (s : String) (glue : List UInt8) : List (List UInt8) → Option String
  | [] => some s
  | part :: parts => do
    let s ← s.stringAppend part
    let s ← if parts ≠ [] then s.stringAppend glue else some s
    stringJoin s glue parts

/-- The sum of the lengths does not wrap when a piece is appended. -/
def NoWrapPiece (s : String) (piece : List UInt8) : Prop := s.length + piece.length < 2 ^ 32

instance (s : String) (piece : List UInt8) : Decidable (s.NoWrapPiece piece) :=
  inferInstanceAs (Decidable (_ < _))

end String

/-! ## Pieces that fit -/

section Pieces

variable {capacity : Nat}

/-- What is there is kept. -/
theorem prefix_foldl_appendText (pieces : List (List UInt8)) (text : List UInt8) :
    text <+: pieces.foldl (appendText capacity) text := by
  induction pieces generalizing text with
  | nil => exact List.prefix_refl text
  | cons piece pieces ih =>
    have hpiece : text <+: appendText capacity text piece := by
      rw [appendText]
      split
      · exact List.prefix_append text piece
      · exact List.prefix_refl text
    exact hpiece.trans (ih _)

/-- Pieces that fit together are appended. -/
theorem foldl_appendText_of_fits {pieces : List (List UInt8)} {text : List UInt8}
    (hfits : text.length + pieces.flatten.length ≤ capacity) :
    pieces.foldl (appendText capacity) text = text ++ pieces.flatten := by
  induction pieces generalizing text with
  | nil => rw [List.flatten_nil, List.append_nil, List.foldl_nil]
  | cons piece pieces ih =>
    rw [List.flatten_cons, List.length_append] at hfits
    have happend : appendText capacity text piece = text ++ piece := if_pos (by omega)
    rw [List.foldl_cons, happend, ih (by rw [List.length_append]; omega), List.flatten_cons,
      List.append_assoc]

/-- Nothing is appended exactly when each piece is empty or does not fit behind the text. -/
theorem foldl_appendText_eq_self_iff {pieces : List (List UInt8)} {text : List UInt8} :
    pieces.foldl (appendText capacity) text = text ↔
      ∀ piece ∈ pieces, piece = [] ∨ capacity < text.length + piece.length := by
  induction pieces with
  | nil => exact iff_of_true rfl nofun
  | cons piece pieces ih =>
    rw [List.foldl_cons, List.forall_mem_cons]
    rcases Nat.lt_or_ge capacity (text.length + piece.length) with hlong | hfits
    · have hsame : appendText capacity text piece = text := if_neg (Nat.not_le.mpr hlong)
      rw [hsame, ih, and_iff_right (Or.inr hlong)]
    · have happend : appendText capacity text piece = text ++ piece := if_pos hfits
      rcases List.eq_nil_or_concat piece with rfl | ⟨init, last, hpiece⟩
      · rw [happend, List.append_nil, ih, and_iff_right (Or.inl rfl)]
      · -- The text is longer from here on.
        have hlonger := (@prefix_foldl_appendText capacity pieces (text ++ piece)).length_le
        rw [List.length_append] at hlonger
        have hpos : 0 < piece.length := by
          rw [hpiece, List.length_concat]
          exact Nat.succ_pos _
        rw [happend]
        refine iff_of_false (fun heq => ?_) fun hall => ?_
        · rw [heq] at hlonger
          omega
        · rcases hall.1 with hnil | hlong
          · rw [hnil] at hpos
            exact Nat.lt_irrefl 0 hpos
          · omega

end Pieces

section Join

variable {s : String} {text glue : List UInt8} {parts : List (List UInt8)}

/-- A join appends the parts with the glue between them. -/
theorem stringJoin_eq_exec (s : String) (glue : List UInt8) (parts : List (List UInt8)) :
    s.stringJoin glue parts = exec String.stringAppend s (parts.intersperse glue) := by
  induction parts generalizing s with
  | nil => rfl
  | cons part parts ih =>
    cases parts with
    | nil =>
      rw [String.stringJoin, List.intersperse_singleton]
      cases hpart : s.stringAppend part with
      | none => simp [exec, hpart]
      | some t => simp [exec, hpart, String.stringJoin]
    | cons next parts =>
      rw [String.stringJoin, List.intersperse_cons_cons]
      cases hpart : s.stringAppend part with
      | none => simp [exec, hpart]
      | some t =>
        cases hglue : t.stringAppend glue with
        | none => simp [exec, hpart, hglue]
        | some u => simp only [exec, hpart, hglue, ih, ne_eq, reduceCtorEq, not_false_eq_true,
            if_true, Option.bind_eq_bind, Option.bind_some]

theorem String.Holds.stringAppend (h : s.Holds text) {other : List UInt8}
    (hword : s.NoWrapPiece other) :
    ∃ t, s.stringAppend other = some t ∧ t.Holds (appendText s.capacity text other) ∧
      t.capacity = s.capacity := by
  have hlength : u32 other.length = other.length := u32_eq (Nat.lt_of_le_of_lt (by omega) hword)
  obtain ⟨t, ht, hsame, hholds⟩ := h.stringAppendLength hword
  refine ⟨t, ?_, hholds, hsame.1⟩
  rw [String.stringAppend, hlength, List.take_length, ht]

/-- A join appends each piece that fits at its turn. -/
theorem String.Holds.stringJoin (h : s.Holds text)
    (hsums : AtEach String.stringAppend String.NoWrapPiece s (parts.intersperse glue)) :
    ∃ t, s.stringJoin glue parts = some t ∧ t.capacity = s.capacity ∧
      t.Holds ((parts.intersperse glue).foldl (appendText s.capacity) text) := by
  have hkeep : ∀ (t : String) (x piece : List UInt8), t.Holds x ∧ t.capacity = s.capacity →
      t.NoWrapPiece piece → ∃ u, t.stringAppend piece = some u ∧
        u.Holds (appendText s.capacity x piece) ∧ u.capacity = s.capacity := by
    intro t x piece ht hword
    obtain ⟨u, hu, hholds, hcap⟩ := ht.1.stringAppend hword
    rw [ht.2] at hholds hcap
    exact ⟨u, hu, hholds, hcap⟩
  obtain ⟨t, ht, hholds, hcap⟩ := hsums.exec_simulates
    (fun t x => t.Holds x ∧ t.capacity = s.capacity) hkeep ⟨h, rfl⟩
  rw [stringJoin_eq_exec]
  exact ⟨t, ht, hcap, hholds⟩

/-- A string holds one text. -/
theorem String.Holds.unique {x y : List UInt8} (hx : s.Holds x) (hy : s.Holds y) : x = y :=
  hx.take.symm.trans hy.take

/-- On every string, for all parts and every glue, a join is all or nothing exactly when all of the
joined text fits, or none of its pieces does that has a character. -/
theorem stringJoin_allOrNothing_iff (h : s.Holds text)
    (hsums : AtEach String.stringAppend String.NoWrapPiece s (parts.intersperse glue)) :
    (∃ t, s.stringJoin glue parts = some t ∧
        t.Holds (if text.length + (glue.intercalate parts).length ≤ s.capacity
          then text ++ glue.intercalate parts else text)) ↔
      text.length + (glue.intercalate parts).length ≤ s.capacity ∨
        ∀ piece ∈ parts.intersperse glue,
          piece = [] ∨ s.capacity < text.length + piece.length := by
  have hjoined : glue.intercalate parts = (parts.intersperse glue).flatten := rfl
  obtain ⟨t, ht, -, hholds⟩ := h.stringJoin hsums
  rw [hjoined]
  split_ifs with hfits
  · rw [foldl_appendText_of_fits hfits] at hholds
    exact iff_of_true ⟨t, ht, hholds⟩ (Or.inl hfits)
  · rw [or_iff_right hfits, ← foldl_appendText_eq_self_iff]
    constructor
    · rintro ⟨t', ht', hsame⟩
      cases ht.symm.trans ht'
      exact hholds.unique hsame
    · intro hsame
      rw [hsame] at hholds
      exact ⟨t, ht, hholds⟩

end Join

/-- `"a"` and `"b"` with `","` between them, into a string of capacity 3. -/
theorem stringJoin_allOrNothing_iff_three :
    (∃ t, (⟨0, 3, [0, 0, 0, 0]⟩ : String).stringJoin [44] [[97], [98]] = some t ∧
        t.Holds (if 0 + ([44].intercalate [[97], [98]] : List UInt8).length ≤ 3
          then [] ++ [44].intercalate [[97], [98]] else [])) ↔
      0 + ([44].intercalate [[97], [98]] : List UInt8).length ≤ 3 ∨
        ∀ piece ∈ ([[97], [98]] : List (List UInt8)).intersperse [44],
          piece = [] ∨ 3 < 0 + piece.length := by
  have hholds : (⟨0, 3, [0, 0, 0, 0]⟩ : String).Holds [] :=
    ⟨rfl, by decide, by decide, [0, 0, 0], rfl⟩
  exact stringJoin_allOrNothing_iff hholds (by decide)

/-- `"aaaa"` and `"b"` with `","` between them, into a string of capacity 3: `",b"`. -/
theorem stringJoin_leaves_part_out :
    (⟨0, 3, [0, 0, 0, 0]⟩ : String).Holds [] ∧
      AtEach String.stringAppend String.NoWrapPiece (⟨0, 3, [0, 0, 0, 0]⟩ : String)
        (([[97, 97, 97, 97], [98]] : List (List UInt8)).intersperse [44]) ∧
      3 < 0 + ([44].intercalate [[97, 97, 97, 97], [98]] : List UInt8).length ∧
      ∃ t, (⟨0, 3, [0, 0, 0, 0]⟩ : String).stringJoin [44] [[97, 97, 97, 97], [98]] = some t ∧
        t.Holds [44, 98] ∧ ¬ t.Holds [] :=
  ⟨⟨rfl, by decide, by decide, [0, 0, 0], rfl⟩, by decide, by decide,
    ⟨2, 3, [44, 98, 0, 0]⟩, by decide, ⟨rfl, by decide, by decide, [0], rfl⟩,
    fun h => absurd h.length (by decide)⟩

end ScalBase.Strings
