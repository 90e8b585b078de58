/-
  Strings/Bounds.lean --- the bytes that `StringTrim` and `StringSprintf` touch.

  `upTo last` is a string whose block ends behind `str[last]`, so that an access past it
  has no result; what a function does there it does in the whole block, and the bytes
  behind stay.

  `StringSprintf` returns early where the capacity is greater than `num_bytes`, with
  the message that it was too small, and goes on where it is less.  Neither the format
  string nor its arguments are modelled: `format n` is what `zpl_snprintf_va` writes to
  `str` when it is given `n` bytes.  `str` is not null.
-/
import ScalBase.Strings.Fixed

set_option autoImplicit false

namespace ScalBase.Strings

open Foundation Foundation.Block

namespace String

/-- The string in a block that ends behind `str[last]`. -/
def upTo (s : String) (last : Nat) : String := { s with bytes := s.bytes.take (last + 1) }

/-- The string in a block with the bytes `rest` behind it. -/
def extend (s : String) (rest : List UInt8) : String := { s with bytes := s.bytes ++ rest }

variable {s : String} {text : List UInt8}

/-- A block that ends behind the character after `xs`. -/
theorem bytes_upTo {xs rest : List UInt8} {c : UInt8} {last : Nat}
    (hbytes : s.bytes = xs ++ c :: rest) (hlast : xs.length = last) :
    (s.upTo last).bytes = xs ++ [c] := by
  rw [upTo, hbytes, ← hlast, List.take_length_add_append, List.take_succ_cons, List.take_zero]

theorem withText_upTo {new : List UInt8} {last : Nat} (hfits : new.length ≤ last)
    (hroom : last < s.bytes.length) :
    ((s.upTo last).withText new).extend (s.bytes.drop (last + 1)) = s.withText new := by
  have hdrop : s.bytes.drop (new.length + 1) =
      (s.bytes.take (last + 1)).drop (new.length + 1) ++ s.bytes.drop (last + 1) := by
    rw [← List.drop_append_of_le_length (by rw [List.length_take]; omega),
      List.take_append_drop]
  simp only [extend, withText, upTo, hdrop, List.append_assoc, List.cons_append]

/-! ## Trimming -/

/-- The position is in the block. -/
def Inside (s : String) (pos : Int) : Prop := 0 ≤ pos ∧ pos < s.bytes.length

instance (s : String) (pos : Int) : Decidable (s.Inside pos) :=
  inferInstanceAs (Decidable (_ ∧ _))

/-- `if (str != start_pos) SMemMove(str, start_pos, len);`, of bytes in the block. -/
def moveChecked (s : String) (startPos : Int) (len : Nat) : Option (List UInt8) :=
  if startPos ≠ 0 then move s.bytes 0 startPos.toNat len else some s.bytes

/-- `StringTrim` where each character that is looked at, and each that is moved, has to be in
the block. -/
def stringTrimChecked (first : List UInt8 → UInt8 → Bool) (fuel : Nat) (s : String)
    (cutSet : List UInt8) : Option String := do
  let end_ : Int := s.length - 1
  let startPos ← (Loop.run (Loop.guard (fun pos => pos ≤ end_ → s.Inside pos)
    (startTurn first s cutSet end_)) fuel 0).join
  let endPos ← (Loop.run (Loop.guard (fun pos => pos > startPos → s.Inside pos)
    (endTurn first s cutSet startPos)) fuel end_).join
  let len := if startPos > endPos then 0 else (endPos - startPos + 1).toNat
  let bytes ← s.moveChecked startPos len
  let bytes ← store bytes len [0]
  some { s with bytes := bytes, length := len }

/-- `StringTrimSpace`, which trims the characters of `" \t\r\n\v\f"`. -/
def stringTrimSpace (first : List UInt8 → UInt8 → Bool) (fuel : Nat) (s : String) : Option String :=
  s.stringTrim first fuel [32, 9, 13, 10, 11, 12]

section Trim

variable {first : List UInt8 → UInt8 → Bool} {cutSet : List UInt8} {fuel : Nat}

/-- The first loop looks at positions from 0 on, up to the last character. -/
theorem startTurn_inside {pos : Int} (hsize : s.length ≤ s.bytes.length)
    (h : Loop.Visits (startTurn first s cutSet (s.length - 1)) 0 pos)
    (hlook : pos ≤ (s.length : Int) - 1) : s.Inside pos := by
  have hpos : 0 ≤ pos := by
    refine h.invariant (fun pos => 0 ≤ pos) (fun pos pos' hpos hturn => ?_) (Int.le_refl 0)
    rw [startTurn] at hturn
    split at hturn
    · cases hturn
      omega
    · cases hturn
  exact ⟨hpos, by omega⟩

/-- The second loop looks at positions behind where the first one stopped, from the last
character down. -/
theorem endTurn_inside {startPos pos : Int} (hstart : 0 ≤ startPos)
    (hsize : s.length ≤ s.bytes.length)
    (h : Loop.Visits (endTurn first s cutSet startPos) (s.length - 1) pos)
    (hlook : pos > startPos) : s.Inside pos := by
  have hpos : pos ≤ (s.length : Int) - 1 := by
    refine h.invariant (fun pos => pos ≤ (s.length : Int) - 1) (fun pos pos' hpos hturn => ?_)
      (Int.le_refl _)
    rw [endTurn] at hturn
    split at hturn
    · cases hturn
      omega
    · cases hturn
  exact ⟨by omega, by omega⟩

/-- The move puts what stays at the start, from inside the block. -/
theorem moveChecked_eq {before kept rest : List UInt8} (hbytes : s.bytes = before ++ kept ++ rest) :
    s.moveChecked before.length kept.length = store s.bytes 0 kept := by
  rw [moveChecked]
  split_ifs with hzero
  · rw [move, Int.toNat_natCast, hbytes, load_append, Option.bind_some]
  · -- What stays is at the start already.
    have hnil : before = [] := List.eq_nil_of_length_eq_zero (by omega)
    have hroom : kept.length ≤ (kept ++ rest).length := by
      rw [List.length_append]
      exact Nat.le_add_right _ _
    have hsame := @store_append UInt8 [] (kept ++ rest) kept hroom
    rw [List.nil_append, List.length_nil, List.nil_append, List.drop_left] at hsame
    rw [hbytes, hnil, List.nil_append, hsame]

/-- In a block that ends with the terminator, `StringTrim` makes no access outside. -/
theorem Holds.stringTrimChecked (h : s.Holds text) (hfuel : s.length < fuel) :
    (s.upTo s.length).stringTrimChecked first fuel cutSet =
      some ((s.upTo s.length).withText
        ((text.dropWhile (first cutSet)).rdropWhile (first cutSet))) := by
  obtain ⟨before, behind, rest, ht, hlength, hbytes⟩ := h.exists_trims (first cutSet)
  generalize (text.dropWhile (first cutSet)).rdropWhile (first cutSet) = kept at ht hlength hbytes ⊢
  have hcut : (s.upTo s.length).bytes = before ++ kept ++ behind ++ [0] :=
    bytes_upTo hbytes (by rw [List.length_append, List.length_append, hlength])
  -- From here on `u` is the string in the shorter block.
  generalize hu : s.upTo s.length = u at hcut ⊢
  have hlength' : u.length = before.length + kept.length + behind.length := by
    rw [← hu, ← hlength]
    rfl
  have hfuel' : u.length < fuel := by rw [← hu]; exact hfuel
  have hsize : u.bytes.length = u.length + 1 := by
    rw [hcut, hlength']
    simp only [List.length_append, List.length_singleton]
  have hstart := Loop.run_guard_eq (startTurn_run hfuel' ht hlength' hcut)
    (fun pos hpos => startTurn_inside (by omega) hpos)
  have hend := Loop.run_guard_eq (endTurn_run hfuel' ht hlength' hcut)
    (fun pos hpos => endTurn_inside (Int.natCast_nonneg _) (by omega) hpos)
  obtain ⟨bytes, hstore, hterminator⟩ := store_withText (show kept.length < u.bytes.length by omega)
  have hmove : u.moveChecked before.length kept.length = some bytes := by
    rw [List.append_assoc] at hcut
    rw [moveChecked_eq hcut, hstore]
  simp only [String.stringTrimChecked, hstart, hend, trimmed_length hlength', hmove, hterminator,
    Option.bind_eq_bind, Option.bind_some, String.withText]

end Trim

end String

/-- What a cut set leaves of a text: its longest prefix and then its longest suffix of characters
of the set, or NULs, are removed. -/
def trimText (cutSet text : List UInt8) : List UInt8 :=
  let cut := fun c => decide (c ∈ cutSet ∨ c = 0)
  (text.dropWhile cut).rdropWhile cut

theorem trimText_eq (cutSet text : List UInt8) :
    (text.dropWhile fun c => decide (c ∈ cutSet ∨ c = 0)).rdropWhile
      (fun c => decide (c ∈ cutSet ∨ c = 0)) = trimText cutSet text := rfl

theorem length_trimText_le (cutSet text : List UInt8) :
    (trimText cutSet text).length ≤ text.length :=
  (List.rdropWhile_prefix _ _).length_le.trans (List.dropWhile_suffix _).length_le

/-- Nothing is left to trim. -/
theorem trimText_trimText (cutSet text : List UInt8) :
    trimText cutSet (trimText cutSet text) = trimText cutSet text :=
  (String.trims_dropWhile _ text).2.again

section Trim

variable {first : List UInt8 → UInt8 → Bool} {fuel : Nat} {s : String} {text : List UInt8}

/-- `StringTrimSpace` leaves a text that neither begins nor ends with a space. -/
theorem String.Holds.stringTrimSpace (h : s.Holds text) (hfuel : s.length < fuel) :
    ∃ t kept, s.stringTrimSpace first fuel = some t ∧ t.Holds kept ∧
      (∀ hne : kept ≠ [], first [32, 9, 13, 10, 11, 12] (kept.head hne) = false ∧
        first [32, 9, 13, 10, 11, 12] (kept.getLast hne) = false) := by
  obtain ⟨t, ht, -, hholds⟩ :=
    @String.Holds.stringTrim s text first [32, 9, 13, 10, 11, 12] fuel h hfuel
  obtain ⟨-, htrims⟩ := String.trims_dropWhile (first [32, 9, 13, 10, 11, 12]) text
  exact ⟨t, _, ht, hholds, fun hne => ⟨htrims.head hne, htrims.last hne⟩⟩

/-- `StringTrim` removes exactly the ends, touches only the characters and the terminator, and
changes nothing the second time. -/
theorem stringTrim_removes_ends
    (hfirst : ∀ cutSet c, first cutSet c = true ↔ c ∈ cutSet ∨ c = 0) (h : s.Holds text)
    (hfuel : s.length < fuel) (cutSet : List UInt8) :
    ∃ t, s.stringTrim first fuel cutSet = some t ∧ t.Holds (trimText cutSet text) ∧
      t.capacity = s.capacity ∧
      (∃ u, (s.upTo s.length).stringTrimChecked first fuel cutSet = some u ∧
        u.extend (s.bytes.drop (s.length + 1)) = t) ∧
      t.stringTrim first fuel cutSet = some t := by
  have hcut : first cutSet = fun c => decide (c ∈ cutSet ∨ c = 0) := by
    funext c
    rw [Bool.eq_iff_iff, hfirst, decide_eq_true_iff]
  have hle := length_trimText_le cutSet text
  have hlength := h.length
  have hroom := h.room
  have hfits := h.fits
  have hrun := @String.Holds.stringTrim_eq s text first cutSet fuel h hfuel
  have hchecked := @String.Holds.stringTrimChecked s text first cutSet fuel h hfuel
  rw [hcut, trimText_eq] at hrun hchecked
  obtain ⟨⟨hcap, -⟩, hholds⟩ := h.withText (hle.trans hfits)
  refine ⟨_, hrun, hholds, hcap, ⟨_, hchecked, ?_⟩, ?_⟩
  · exact String.withText_upTo (by rw [hlength]; exact hle) (by omega)
  · have hagain := @String.Holds.stringTrim_eq _ _ first cutSet fuel hholds
      (Nat.lt_of_le_of_lt (hle.trans hlength.ge) hfuel)
    rw [hcut, trimText_eq, trimText_trimText, String.withText_withText] at hagain
    exact hagain

end Trim

/-- `" ab "` in a string of capacity 6. -/
theorem stringTrim_removes_ends_four :
    ∃ t, (⟨4, 6, [32, 97, 98, 32, 0, 7, 7]⟩ : String).stringTrim firstOccurence 5 [32] = some t ∧
      t.Holds (trimText [32] [32, 97, 98, 32]) ∧ t.capacity = 6 ∧
      (∃ u, (String.upTo ⟨4, 6, [32, 97, 98, 32, 0, 7, 7]⟩ 4).stringTrimChecked firstOccurence 5
          [32] = some u ∧ u.extend [7, 7] = t) ∧
      t.stringTrim firstOccurence 5 [32] = some t :=
  stringTrim_removes_ends (by simp [firstOccurence]) ⟨rfl, by decide, by decide, [7, 7], rfl⟩
    (by decide) [32]

/-! ## Formatting -/

namespace String

/-- `StringSprintf`, where `zpl_snprintf_va` writes the bytes `format n` when it is given `n`. -/
def stringSprintf (s : String) (numBytes : Nat) (format : Nat → List UInt8) : Option String :=
  if s.capacity > numBytes then do
    let bytes ← store s.bytes 0 (List.replicate numBytes 0)
    some { s with bytes := bytes }
  else do
    let bytes ← store s.bytes 0 (format numBytes)
    let bytes ← store bytes numBytes [0]
    some { s with bytes := bytes, length := numBytes }

/-- `StringSprintf` writes nothing behind `str[Capacity]`, leaves a terminated string of a
length that is no greater than the capacity, and formats into the string if `numBytes` is not
greater than the capacity. -/
def FormatsInside (s : String) (numBytes : Nat) (format : Nat → List UInt8) : Prop :=
  ∃ t, (s.upTo s.capacity).stringSprintf numBytes format = some t ∧
    s.stringSprintf numBytes format = some (t.extend (s.bytes.drop (s.capacity + 1))) ∧
    t.length ≤ t.capacity ∧ t.bytes[t.length]? = some 0 ∧
    (numBytes ≤ s.capacity →
      t.length = numBytes ∧ t.bytes.take (format numBytes).length = format numBytes)

/-- The bound is the capacity; or it is less, and the string that is cleared has the length and
the bytes that it would be given. -/
def SprintfFits (s : String) (numBytes : Nat) (format : Nat → List UInt8) : Prop :=
  numBytes = s.capacity ∨
    numBytes < s.capacity ∧ s.length = numBytes ∧ ∀ c ∈ format numBytes, c = 0

instance (s : String) (numBytes : Nat) (format : Nat → List UInt8) :
    Decidable (s.SprintfFits numBytes format) :=
  inferInstanceAs (Decidable (_ ∨ _ ∧ _ ∧ _))

variable {s : String} {text : List UInt8}

theorem extend_upTo (s : String) (last : Nat) :
    (s.upTo last).extend (s.bytes.drop (last + 1)) = s := by
  rw [extend, upTo, List.take_append_drop]

theorem Holds.upTo_capacity (h : s.Holds text) : (s.upTo s.capacity).Holds text := by
  obtain ⟨rest, hrest⟩ := h.text
  have hroom := h.room
  have hfits := h.fits
  have hsplit : s.capacity + 1 = text.length + (s.capacity - text.length + 1) := by omega
  refine ⟨h.length, hfits, ?_, rest.take (s.capacity - text.length), ?_⟩
  · rw [upTo, List.length_take]
    exact Nat.le_min.mpr ⟨Nat.le_refl _, hroom⟩
  · rw [upTo, hrest, hsplit, List.take_length_add_append, List.take_succ_cons]

section Sprintf

variable {numBytes : Nat} {format : Nat → List UInt8}

/-- What `StringSprintf` does in a block it does in a longer one. -/
theorem stringSprintf_extend {t : String} (h : s.stringSprintf numBytes format = some t)
    (rest : List UInt8) : (s.extend rest).stringSprintf numBytes format = some (t.extend rest) := by
  rw [stringSprintf] at h ⊢
  split at h
  · rename_i hsmall
    obtain ⟨bytes, hstore, hsome⟩ := Option.bind_eq_some_iff.mp h
    cases hsome
    have hsmall' : (s.extend rest).capacity > numBytes := hsmall
    rw [if_pos hsmall']
    simp only [extend, store_extend hstore, Option.bind_eq_bind, Option.bind_some]
  · rename_i hlarge
    obtain ⟨bytes, hstore, hrest⟩ := Option.bind_eq_some_iff.mp h
    obtain ⟨bytes', hstore', hsome⟩ := Option.bind_eq_some_iff.mp hrest
    cases hsome
    have hlarge' : ¬ (s.extend rest).capacity > numBytes := hlarge
    rw [if_neg hlarge']
    simp only [extend, store_extend hstore, store_extend hstore', Option.bind_eq_bind,
      Option.bind_some]

/-- Where the capacity is greater, the first `numBytes` bytes are cleared. -/
theorem Holds.stringSprintf_smaller (h : s.Holds text) (hless : numBytes < s.capacity) :
    ∃ t, s.stringSprintf numBytes format = some t ∧ t.length = s.length ∧ t.capacity = s.capacity ∧
      t.bytes[t.length]? = some 0 ∧
      t.bytes = List.replicate numBytes 0 ++ s.bytes.drop numBytes := by
  have hroom := h.room
  have hfits : (List.replicate numBytes (0 : UInt8)).length ≤ s.bytes.length := by
    rw [List.length_replicate]
    omega
  have hstore := @store_append UInt8 [] s.bytes _ hfits
  rw [List.nil_append, List.length_nil, List.nil_append, List.length_replicate] at hstore
  refine ⟨{ s with bytes := List.replicate numBytes 0 ++ s.bytes.drop numBytes }, ?_, rfl, rfl, ?_,
    rfl⟩
  · rw [stringSprintf, if_pos hless]
    simp only [hstore, Option.bind_eq_bind, Option.bind_some]
  · rcases Nat.lt_or_ge s.length numBytes with hlt | hge
    · rw [List.getElem?_append_left (by rwa [List.length_replicate]), List.getElem?_replicate,
        if_pos hlt]
    · rw [List.getElem?_append_right (by rwa [List.length_replicate]), List.length_replicate,
        List.getElem?_drop, Nat.add_sub_cancel' hge, h.terminator]

/-- Where the bound is the capacity, the string is formatted. -/
theorem Holds.stringSprintf_equal (h : s.Holds text)
    (hformat : (format s.capacity).length ≤ s.capacity) :
    ∃ t, s.stringSprintf s.capacity format = some t ∧ t.length = s.capacity ∧
      t.capacity = s.capacity ∧ t.bytes[t.length]? = some 0 ∧
      t.bytes.take (format s.capacity).length = format s.capacity := by
  have hroom := h.room
  generalize hout : format s.capacity = out at hformat
  have hstore := @store_append UInt8 [] s.bytes out (by omega)
  rw [List.nil_append, List.length_nil, List.nil_append] at hstore
  -- The terminator goes behind the output and what is left of the old bytes.
  have hinside : s.capacity < (out ++ s.bytes.drop out.length).length := by
    rw [List.length_append, List.length_drop]
    omega
  obtain ⟨xs, y, ys, hcut, hxs⟩ := exists_around hinside
  have hend := @store_cell UInt8 xs ys y 0
  rw [← hcut, hxs] at hend
  refine ⟨⟨s.capacity, s.capacity, xs ++ 0 :: ys⟩, ?_, rfl, rfl, ?_, ?_⟩
  · rw [stringSprintf, if_neg (Nat.lt_irrefl _)]
    simp only [hout, hstore, hend, Option.bind_eq_bind, Option.bind_some]
  · simp only [← hxs, List.getElem?_append_right (Nat.le_refl _), Nat.sub_self,
      List.getElem?_cons_zero]
  · have htake := congrArg (List.take out.length) hcut
    rw [List.take_left, List.take_append_of_le_length (by omega)] at htake
    rw [List.take_append_of_le_length (by omega), ← htake]

/-- Where the bound is greater than the capacity, the terminator is written behind it. -/
theorem stringSprintf_larger (hsize : s.bytes.length = s.capacity + 1)
    (hmore : s.capacity < numBytes) :
    s.stringSprintf numBytes format = none := by
  rw [stringSprintf, if_neg (Nat.lt_asymm hmore)]
  cases hstore : store s.bytes 0 (format numBytes) with
  | none => rfl
  | some bytes =>
    have hlength : bytes.length = s.bytes.length := by
      rw [store] at hstore
      split at hstore
      · cases hstore
        simp only [List.length_append, List.length_take, List.length_drop]
        omega
      · cases hstore
    have hend : store bytes numBytes [0] = none := by
      apply store_eq_none
      rw [List.length_singleton]
      omega
    simp only [Option.bind_eq_bind, Option.bind_some, hend, Option.bind_none]

/-- What `StringSprintf` does up to `str[Capacity]` it does in the whole block. -/
theorem stringSprintf_of_upTo {t : String}
    (h : (s.upTo s.capacity).stringSprintf numBytes format = some t) :
    s.stringSprintf numBytes format = some (t.extend (s.bytes.drop (s.capacity + 1))) := by
  have hextend := stringSprintf_extend h (s.bytes.drop (s.capacity + 1))
  rwa [extend_upTo] at hextend

/-- Where the capacity is greater, clearing the bytes has to have the effect of formatting. -/
theorem Holds.formatsInside_smaller_iff (h : s.Holds text) (hless : numBytes < s.capacity)
    (hformat : (format numBytes).length ≤ numBytes) :
    s.FormatsInside numBytes format ↔ s.length = numBytes ∧ ∀ c ∈ format numBytes, c = 0 := by
  have hlength : s.length ≤ s.capacity := h.length ▸ h.fits
  obtain ⟨t, ht, htlength, htcap, hend, hbytes⟩ :=
    @Holds.stringSprintf_smaller _ _ numBytes format h.upTo_capacity hless
  have hcleared : t.bytes.take (format numBytes).length =
      List.replicate (format numBytes).length 0 := by
    rw [hbytes, List.take_append_of_le_length (by rwa [List.length_replicate]),
      List.take_replicate, Nat.min_eq_left hformat]
  constructor
  · rintro ⟨t', ht', -, -, -, hformats⟩
    cases ht.symm.trans ht'
    obtain ⟨hnum, hout⟩ := hformats hless.le
    rw [hcleared] at hout
    refine ⟨htlength.symm.trans hnum, fun c hc => ?_⟩
    rw [← hout] at hc
    exact List.eq_of_mem_replicate hc
  · intro ⟨hnum, hzero⟩
    refine ⟨t, ht, stringSprintf_of_upTo ht, ?_, hend, fun _ => ⟨htlength.trans hnum, ?_⟩⟩
    · rw [htlength, htcap]
      exact hlength
    · rw [hcleared, eq_comm, List.eq_replicate_iff]
      exact ⟨rfl, hzero⟩

/-- Where the bound is the capacity, all is well. -/
theorem Holds.formatsInside_equal (h : s.Holds text)
    (hformat : (format s.capacity).length ≤ s.capacity) : s.FormatsInside s.capacity format := by
  obtain ⟨t, ht, htlength, htcap, hend, hout⟩ := h.upTo_capacity.stringSprintf_equal hformat
  refine ⟨t, ht, stringSprintf_of_upTo ht, ?_, hend, fun _ => ⟨htlength, hout⟩⟩
  rw [htlength, htcap]

/-- Where the bound is greater than the capacity, `StringSprintf` does not stay inside. -/
theorem Holds.not_formatsInside_larger (h : s.Holds text) (hmore : s.capacity < numBytes) :
    ¬ s.FormatsInside numBytes format := by
  have hsize : (s.upTo s.capacity).bytes.length = (s.upTo s.capacity).capacity + 1 := by
    rw [upTo, List.length_take]
    exact Nat.min_eq_left h.room
  intro ⟨t, ht, _⟩
  rw [stringSprintf_larger hsize hmore] at ht
  cases ht

end Sprintf

end String

/-- On every string, with every bound on the output and everything that is formatted,
`StringSprintf` stays inside and formats if there is room exactly when the bound is the capacity,
or is less and clearing that many bytes happens to have the same effect. -/
theorem stringSprintf_inside_iff {s : String} {text : List UInt8} (h : s.Holds text)
    (numBytes : Nat) {format : Nat → List UInt8} (hformat : ∀ n, (format n).length ≤ n) :
    s.FormatsInside numBytes format ↔ s.SprintfFits numBytes format := by
  rw [String.SprintfFits]
  rcases Nat.lt_trichotomy numBytes s.capacity with hless | rfl | hmore
  · rw [h.formatsInside_smaller_iff hless (hformat numBytes), or_iff_right hless.ne,
      and_iff_right hless]
  · exact iff_of_true (h.formatsInside_equal (hformat s.capacity)) (Or.inl rfl)
  · apply iff_of_false (h.not_formatsInside_larger hmore)
    rintro (heq | ⟨hless, -⟩)
    · exact hmore.ne heq.symm
    · exact Nat.lt_asymm hless hmore

/-- Two characters into a string of capacity 2. -/
theorem stringSprintf_inside_iff_two :
    (⟨0, 2, [0, 0, 0]⟩ : String).FormatsInside 2 (fun n => [104, 105].take n) ↔
      (⟨0, 2, [0, 0, 0]⟩ : String).SprintfFits 2 (fun n => [104, 105].take n) := by
  have hholds : (⟨0, 2, [0, 0, 0]⟩ : String).Holds [] := ⟨rfl, by decide, by decide, [0, 0], rfl⟩
  exact stringSprintf_inside_iff hholds 2 fun n => List.length_take_le n [104, 105]

/-- With a bound of 2, nothing is formatted into a string of capacity 4, and the terminator of a
string of capacity 1 is written at `str[2]`. -/
theorem stringSprintf_reversed :
    (⟨0, 4, [0, 0, 0, 0, 0]⟩ : String).Holds [] ∧ (⟨0, 1, [0, 0]⟩ : String).Holds [] ∧
      ¬ (⟨0, 4, [0, 0, 0, 0, 0]⟩ : String).FormatsInside 2 (fun n => [104, 105].take n) ∧
      ¬ (⟨0, 1, [0, 0]⟩ : String).FormatsInside 2 (fun n => [104, 105].take n) := by
  refine ⟨⟨rfl, by decide, by decide, [0, 0, 0, 0], rfl⟩,
    ⟨rfl, by decide, by decide, [0], rfl⟩, ?_, ?_⟩
  · rintro ⟨t, ht, -, -, -, hformats⟩
    have ht' : t = ⟨0, 4, [0, 0, 0, 0, 0]⟩ := Option.some.inj (ht.symm.trans (by decide))
    rw [ht'] at hformats
    exact absurd (hformats (by decide)).1 (by decide)
  · rintro ⟨t, ht, -⟩
    have hnone :
        String.stringSprintf (String.upTo ⟨0, 1, [0, 0]⟩ 1) 2 (fun n => [104, 105].take n) =
          none := by decide
    exact Option.some_ne_none t (ht.symm.trans hnone)

end ScalBase.Strings
