/-
  Strings/Fixed.lean --- strings of a fixed capacity are bounded byte sequences.

  A string from `StringMakeReserve` or `StringMakeLength` keeps its capacity, and its
  block ends with the terminator of a full string.  Every sequence of edits whose
  lengths do not wrap is the same sequence of edits on a list of bytes, and no store
  leaves the block.
-/
import ScalBase.Strings.Text
import ScalBase.Foundation.Run

set_option autoImplicit false

namespace ScalBase.Strings

open Foundation Foundation.Block

/-! ## Making -/

/-- A call that makes a string of a fixed capacity. -/
inductive Making where
  | reserve (capacity : Nat)
  | length (initStr : Option (List UInt8)) (numBytes : Nat) (fresh : Nat → UInt8)

namespace Making

/-- The string that is made. -/
def make : Making → Option String
  | reserve capacity => stringMakeReserve capacity
  | length initStr numBytes fresh => stringMakeLength initStr numBytes fresh

/-- Its capacity. -/
def capacity : Making → Nat
  | reserve capacity => capacity
  | length _ numBytes _ => numBytes

/-- The bytes it begins with. -/
def text : Making → List UInt8
  | reserve _ => []
  | length (some init) numBytes _ => init.take numBytes
  | length none numBytes _ => List.replicate numBytes 0

/-- The size of the block does not wrap, and there are as many bytes at `initStr` as
are copied. -/
def Ok (m : Making) : Prop :=
  headerSize + m.capacity + 1 < 2 ^ 32 ∧
    match m with
    | length (some init) numBytes _ => numBytes ≤ init.length
    | _ => True

end Making

/-! ## Edits -/

/-- A call on a string.  The bytes that are appended or set are given by value: where they go,
they do not overlap the memory they are copied from. -/
inductive Edit where
  | appendLength (other : List UInt8)
  /-- `other` is none where the string is appended to itself. -/
  | appendString (other : Option (List UInt8))
  | set (cstr : List UInt8)
  | trim (cutSet : List UInt8)
  | clear
  deriving DecidableEq, Repr

/-- The string after a call. -/
def Edit.step (first : List UInt8 → UInt8 → Bool) (fuel : Nat) (s : String) : Edit → Option String
  | appendLength other => s.stringAppendLength other
  | appendString other => s.stringAppendString other
  | set cstr => s.stringSet cstr
  | trim cutSet => s.stringTrim first fuel cutSet
  | clear => s.stringClear

/-- The lengths that a call adds or converts fit 32 bits. -/
def Edit.NoWrap (s : String) : Edit → Prop
  | appendLength other => s.length + other.length < 2 ^ 32
  | appendString (some other) => s.length + other.length < 2 ^ 32
  | appendString none => s.length + s.length < 2 ^ 32
  | set cstr => cstr.length < 2 ^ 32
  | trim _ => True
  | clear => True

instance Edit.decidableNoWrap (s : String) (edit : Edit) : Decidable (edit.NoWrap s) :=
  match edit with
  | .appendLength _ | .appendString (some _) | .appendString none | .set _ =>
      inferInstanceAs (Decidable (_ < _))
  | .trim _ | .clear => isTrue trivial

/-- An append on bytes: whole when it fits, ignored otherwise. -/
def appendText (capacity : Nat) (text other : List UInt8) : List UInt8 :=
  if text.length + other.length ≤ capacity then text ++ other else text

/-- What a call does to the bytes. -/
def Edit.onText (capacity : Nat) (text : List UInt8) : Edit → List UInt8
  | appendLength other => appendText capacity text other
  | appendString other => appendText capacity text (other.getD text)
  | set cstr => cstr.take capacity
  | trim cutSet =>
      let cut := fun c => decide (c ∈ cutSet ∨ c = 0)
      (text.dropWhile cut).rdropWhile cut
  | clear => []

/-- The string is a sequence of bytes with a bound. -/
structure String.Refines (capacity : Nat) (s : String) (text : List UInt8) : Prop where
  same_capacity : s.capacity = capacity
  length : s.length ≤ s.capacity
  /-- The block ends behind `str[Capacity]`; a store past it has no result. -/
  block : s.bytes.length = capacity + 1
  terminator : s.bytes[s.length]? = some 0
  text : s.bytes.take s.length = text

/-- The string holds the text in a block of the capacity it was made with. -/
structure String.Bounded (capacity : Nat) (s : String) (text : List UInt8) : Prop where
  holds : s.Holds text
  same_capacity : s.capacity = capacity
  block : s.bytes.length = capacity + 1

variable {capacity : Nat} {s : String} {text : List UInt8}

theorem String.Bounded.refines (h : s.Bounded capacity text) : s.Refines capacity text :=
  ⟨h.same_capacity, h.holds.length ▸ h.holds.fits, h.block, h.holds.terminator, h.holds.take⟩

theorem String.Bounded.of_sameBlock (h : s.Bounded capacity text) {t : String} {text' : List UInt8}
    (hsame : s.SameBlock t) (hholds : t.Holds text') : t.Bounded capacity text' :=
  ⟨hholds, hsame.1.trans h.same_capacity, hsame.2.trans h.block⟩

/-! ## Each call -/

/-- The terminator behind the last byte of a zeroed block. -/
theorem store_zeroBytes {size : Nat} (hword : headerSize + size + 1 < 2 ^ 32) :
    store (zeroBytes (u32 (headerSize + size + 1))) size [0] =
      some (List.replicate size 0 ++ [0]) := by
  have hu32 : u32 (headerSize + size + 1) = headerSize + size + 1 := Nat.mod_eq_of_lt hword
  have hsize : headerSize + size + 1 - headerSize = size + 1 := by omega
  have hstore := @store_append UInt8 (List.replicate size 0) [0] [0] (Nat.le_refl 1)
  rw [List.length_replicate] at hstore
  rw [zeroBytes, hu32, hsize, List.replicate_succ', hstore]
  exact congrArg some (List.append_nil _)

theorem stringMakeReserve_bounded {capacity : Nat} (hword : headerSize + capacity + 1 < 2 ^ 32) :
    ∃ s, stringMakeReserve capacity = some s ∧ s.Bounded capacity [] := by
  have hstore := store_zeroBytes hword
  refine ⟨⟨0, capacity, List.replicate capacity 0 ++ [0]⟩, ?_, ⟨rfl, Nat.zero_le _, ?_, ?_⟩,
    rfl, ?_⟩
  · simp only [stringMakeReserve, hstore, Option.bind_eq_bind, Option.bind_some]
  · simp
  · exact ⟨List.replicate capacity 0, (List.replicate_succ' ..).symm⟩
  · simp

theorem stringMakeLength_zeroed {numBytes : Nat} (hword : headerSize + numBytes + 1 < 2 ^ 32)
    (fresh : Nat → UInt8) :
    ∃ s, stringMakeLength none numBytes fresh = some s ∧
      s.Bounded numBytes (List.replicate numBytes 0) := by
  have hstore := store_zeroBytes hword
  refine ⟨⟨numBytes, numBytes, List.replicate numBytes 0 ++ [0]⟩, ?_,
    ⟨by simp, by simp, by simp, [], rfl⟩, rfl, by simp⟩
  simp only [stringMakeLength, hstore, Option.bind_eq_bind, Option.bind_some, Option.isNone_none,
    if_true]

theorem stringMakeLength_copied {init : List UInt8} {numBytes : Nat}
    (hword : headerSize + numBytes + 1 < 2 ^ 32) (hinit : numBytes ≤ init.length)
    (fresh : Nat → UInt8) :
    ∃ s, stringMakeLength (some init) numBytes fresh = some s ∧
      s.Bounded numBytes (init.take numBytes) := by
  have hlength : (init.take numBytes).length = numBytes := by
    rw [List.length_take]
    exact Nat.min_eq_left hinit
  have hu32 : u32 (headerSize + numBytes + 1) = headerSize + numBytes + 1 := Nat.mod_eq_of_lt hword
  have hfresh : (freshBytes (u32 (headerSize + numBytes + 1)) fresh).length = numBytes + 1 := by
    rw [hu32, length_freshBytes]
    omega
  obtain ⟨bytes, hstore, hend⟩ := @store_terminated []
    (freshBytes (u32 (headerSize + numBytes + 1)) fresh) (init.take numBytes) (by omega)
  rw [List.nil_append, List.length_nil] at hstore
  rw [List.length_nil, Nat.zero_add, List.nil_append, hlength] at hend
  have hsize : (init.take numBytes ++ 0 :: (freshBytes (u32 (headerSize + numBytes + 1)) fresh).drop
      (numBytes + 1)).length = numBytes + 1 := by
    rw [List.length_append, List.length_cons, List.length_drop, hlength, hfresh]
    omega
  refine ⟨⟨numBytes, numBytes, _⟩, ?_,
    ⟨hlength.symm, Nat.le_of_eq hlength, Nat.le_of_eq hsize.symm, _, rfl⟩, rfl, hsize⟩
  simp only [stringMakeLength, Option.isNone_some, hstore, hend, Option.bind_eq_bind,
    Option.bind_some, Bool.false_eq_true, if_false]

/-- A string is made with the bytes it is to begin with. -/
theorem Making.make_bounded {m : Making} (hm : m.Ok) :
    ∃ s, m.make = some s ∧ s.Bounded m.capacity m.text := by
  obtain ⟨hword, hinit⟩ := hm
  cases m with
  | reserve capacity => exact stringMakeReserve_bounded hword
  | length initStr numBytes fresh =>
    cases initStr with
    | none => exact stringMakeLength_zeroed hword fresh
    | some init => exact stringMakeLength_copied hword hinit fresh

section Step

variable {first : List UInt8 → UInt8 → Bool} {fuel : Nat}
  (hfirst : ∀ cutSet c, first cutSet c = true ↔ c ∈ cutSet ∨ c = 0)
include hfirst

/-- Every call does to the bytes what it should. -/
theorem String.Bounded.step (h : s.Bounded capacity text) (hfuel : 2 ^ 32 ≤ fuel)
    (hcapacity : capacity < 2 ^ 32) {edit : Edit} (hok : edit.NoWrap s) :
    ∃ t, edit.step first fuel s = some t ∧ t.Bounded capacity (edit.onText capacity text) := by
  have hcap := h.same_capacity
  have hlength := h.holds.length
  have hfits := h.holds.fits
  have happend : ∀ other, s.length + other.length < 2 ^ 32 → ∃ t,
      s.stringAppendLength other = some t ∧
        t.Bounded capacity (appendText capacity text other) := by
    intro other hword
    obtain ⟨t, ht, hsame, hholds⟩ := h.holds.stringAppendLength hword
    rw [hcap] at hholds
    exact ⟨t, ht, h.of_sameBlock hsame hholds⟩
  cases edit with
  | appendLength other => exact happend other hok
  | appendString other =>
    cases other with
    | some other => exact happend other hok
    | none =>
      rw [Edit.step, stringAppendString, Option.getD_none, h.holds.take]
      exact happend text (hlength ▸ hok)
  | set cstr =>
    obtain ⟨t, ht, hsame, hholds⟩ := h.holds.stringSet hok
    rw [hcap] at hholds
    exact ⟨t, ht, h.of_sameBlock hsame hholds⟩
  | trim cutSet =>
    obtain ⟨t, ht, hsame, hholds⟩ :=
      @Holds.stringTrim s text first cutSet fuel h.holds (by omega)
    have hcut : first cutSet = fun c => decide (c ∈ cutSet ∨ c = 0) := by
      funext c
      rw [Bool.eq_iff_iff, hfirst, decide_eq_true_iff]
    rw [hcut] at hholds
    exact ⟨t, ht, h.of_sameBlock hsame hholds⟩
  | clear =>
    obtain ⟨t, ht, hsame, hholds⟩ := h.holds.stringClear
    exact ⟨t, ht, h.of_sameBlock hsame hholds⟩

/-- Every string that is made, and every sequence of calls on it whose lengths do not
wrap, is a bounded sequence of bytes. -/
theorem fixedString_refines (hfuel : 2 ^ 32 ≤ fuel) {m : Making} (hm : m.Ok) :
    ∃ s, m.make = some s ∧
      ∀ edits, AtEach (Edit.step first fuel) Edit.NoWrap s edits →
        ∃ t, exec (Edit.step first fuel) s edits = some t ∧
          t.Refines m.capacity (edits.foldl (Edit.onText m.capacity) m.text) := by
  obtain ⟨s, hs, hbounded⟩ := m.make_bounded hm
  have hcapacity : m.capacity < 2 ^ 32 := by
    have hword := hm.1
    omega
  have hkeep : ∀ s text edit, String.Bounded m.capacity s text → Edit.NoWrap s edit →
      ∃ t, Edit.step first fuel s edit = some t ∧
        t.Bounded m.capacity (Edit.onText m.capacity text edit) :=
    fun s text edit h hword => h.step hfirst hfuel hcapacity hword
  refine ⟨s, hs, fun edits hok => ?_⟩
  obtain ⟨t, ht, hend⟩ := hok.exec_simulates (String.Bounded m.capacity) hkeep hbounded
  exact ⟨t, ht, hend.refines⟩

end Step

/-- `zpl_char_first_occurence` as a search that stops at the NUL. -/
def firstOccurence (cutSet : List UInt8) (c : UInt8) : Bool := cutSet.contains c || c == 0

/-- A string of capacity 6: `" ab "` appended, the string appended to itself, which does
not fit, trimmed, and appended to itself. -/
theorem fixedString_refines_six :
    ∃ s, (Making.reserve 6).make = some s ∧
      ∃ t, exec (Edit.step firstOccurence (2 ^ 32)) s [.appendLength [32, 97, 98, 32],
          .appendString none, .trim [32], .appendString none] = some t ∧
        t.Refines 6 [97, 98, 97, 98] := by
  have hfirst : ∀ cutSet c, firstOccurence cutSet c = true ↔ c ∈ cutSet ∨ c = 0 := by
    simp [firstOccurence]
  obtain ⟨s, hs, hall⟩ := fixedString_refines hfirst (Nat.le_refl _)
    (show (Making.reserve 6).Ok from ⟨by decide, trivial⟩)
  refine ⟨s, hs, hall [.appendLength [32, 97, 98, 32], .appendString none, .trim [32],
    .appendString none] ?_⟩
  cases hs
  decide +kernel

end ScalBase.Strings
