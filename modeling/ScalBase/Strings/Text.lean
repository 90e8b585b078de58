/-
  Strings/Text.lean --- what the string functions do to the text of a string.

  A string holds a text when the text is its first `Length` bytes and a NUL follows,
  with the capacity, the terminator included, inside the block.  Each function that
  works in place takes a string that holds a text to one in the same block that holds
  the text it should; `StringAppendAllocator` and `StringMakeSpaceFor` get another
  block.
-/
import ScalBase.Strings.Model
import Mathlib.Data.List.DropRight

set_option autoImplicit false

namespace ScalBase.Strings

open Foundation Foundation.Block

/-- The string holds `text`. -/
structure String.Holds (s : String) (text : List UInt8) : Prop where
  length : s.length = text.length
  fits : text.length ≤ s.capacity
  room : s.capacity + 1 ≤ s.bytes.length
  text : ∃ rest, s.bytes = text ++ 0 :: rest

/-- The same block, seen as a string of the same capacity. -/
def String.SameBlock (s t : String) : Prop :=
  t.capacity = s.capacity ∧ t.bytes.length = s.bytes.length

/-- A text and its terminator are stored after the prefix `xs`. -/
theorem store_terminated {xs rest src : List UInt8} (h : src.length < rest.length) :
    ∃ bytes, store (xs ++ rest) xs.length src = some bytes ∧
      store bytes (xs.length + src.length) [0] =
        some (xs ++ src ++ 0 :: rest.drop (src.length + 1)) := by
  refine ⟨_, store_append (Nat.le_of_lt h), ?_⟩
  have hroom : [(0 : UInt8)].length ≤ (rest.drop src.length).length := by
    rw [List.length_drop, List.length_singleton]
    omega
  have hstore := @store_append UInt8 (xs ++ src) _ _ hroom
  rw [List.length_append, List.drop_drop] at hstore
  rw [hstore, List.append_assoc (xs ++ src)]
  rfl

namespace String

variable {s : String} {text : List UInt8}

/-- The terminator. -/
theorem Holds.terminator (h : s.Holds text) : s.bytes[s.length]? = some 0 := by
  obtain ⟨rest, hrest⟩ := h.text
  rw [hrest, h.length, List.getElem?_append_right (Nat.le_refl _), Nat.sub_self]
  rfl

theorem Holds.take (h : s.Holds text) : s.bytes.take s.length = text := by
  obtain ⟨rest, hrest⟩ := h.text
  rw [hrest, h.length, List.take_left]

/-! ## Appending -/

/-- The end of the append functions, behind a text. -/
theorem appendBytes_spec {rest other : List UInt8} (hlength : s.length = text.length)
    (hbytes : s.bytes = text ++ rest) (hroom : other.length < rest.length)
    (hword : text.length + other.length < 2 ^ 32) :
    s.appendBytes other = some { s with
      bytes := text ++ other ++ 0 :: rest.drop (other.length + 1)
      length := text.length + other.length } := by
  obtain ⟨bytes, hstore, hend⟩ := @store_terminated text rest other hroom
  have hu32 : u32 (text.length + other.length) = text.length + other.length :=
    Nat.mod_eq_of_lt hword
  simp only [appendBytes, hlength, hbytes, hu32, hstore, hend, Option.bind_eq_bind,
    Option.bind_some]

/-- Where the block ends with the bytes that are appended, the terminator leaves it. -/
theorem appendBytes_short {rest other : List UInt8} (hlength : s.length = text.length)
    (hbytes : s.bytes = text ++ rest) (hshort : rest.length = other.length)
    (hword : text.length + other.length < 2 ^ 32) : s.appendBytes other = none := by
  have hstore := @store_append UInt8 text rest other (Nat.le_of_eq hshort.symm)
  have hend : store (text ++ other ++ rest.drop other.length) (text.length + other.length) [0] =
      none := by
    refine store_eq_none ?_
    simp only [List.length_append, List.length_drop, List.length_singleton]
    omega
  have hu32 : u32 (text.length + other.length) = text.length + other.length :=
    Nat.mod_eq_of_lt hword
  simp only [appendBytes, hlength, hbytes, hu32, hstore, hend, Option.bind_eq_bind,
    Option.bind_some, Option.bind_none]

/-- An append that fits. -/
theorem Holds.appendBytes (h : s.Holds text) {other : List UInt8}
    (hfits : text.length + other.length ≤ s.capacity)
    (hword : text.length + other.length < 2 ^ 32) :
    ∃ t, s.appendBytes other = some t ∧ s.SameBlock t ∧ t.Holds (text ++ other) := by
  have hroom := h.room
  obtain ⟨rest, hrest⟩ := h.text
  have hbytes := congrArg List.length hrest
  rw [List.length_append] at hbytes
  have hbehind : other.length < (0 :: rest).length := by omega
  have hsize : (text ++ other ++ 0 :: (0 :: rest).drop (other.length + 1)).length =
      s.bytes.length := by
    rw [List.length_append, List.length_append, List.length_cons, List.length_drop]
    omega
  exact ⟨_, appendBytes_spec h.length hrest hbehind hword, ⟨rfl, hsize⟩,
    List.length_append.symm, by rwa [List.length_append], hsize ▸ hroom, _, rfl⟩

/-- An append that fits is applied whole, and one that does not is ignored. -/
theorem Holds.stringAppendLength (h : s.Holds text) {other : List UInt8}
    (hword : s.length + other.length < 2 ^ 32) :
    ∃ t, s.stringAppendLength other = some t ∧ s.SameBlock t ∧
      t.Holds (if text.length + other.length ≤ s.capacity then text ++ other else text) := by
  have hlength := h.length
  have hu32 : u32 (s.length + other.length) = s.length + other.length := Nat.mod_eq_of_lt hword
  unfold String.stringAppendLength
  rw [hu32]
  split_ifs with hsome hlong hfits hfits hfits
  · omega
  · exact ⟨s, rfl, ⟨rfl, rfl⟩, h⟩
  · exact h.appendBytes hfits (hlength ▸ hword)
  · omega
  · have hnil : other = [] := List.eq_nil_of_length_eq_zero (by omega)
    rw [hnil, List.append_nil]
    exact ⟨s, rfl, ⟨rfl, rfl⟩, h⟩
  · exact ⟨s, rfl, ⟨rfl, rfl⟩, h⟩

/-! ## Setting and clearing -/

/-- The string with another text at the start of its block. -/
def withText (s : String) (new : List UInt8) : String :=
  { s with bytes := new ++ 0 :: s.bytes.drop (new.length + 1), length := new.length }

theorem store_withText {new : List UInt8} (hroom : new.length < s.bytes.length) :
    ∃ bytes, store s.bytes 0 new = some bytes ∧
      store bytes new.length [0] = some (s.withText new).bytes := by
  obtain ⟨bytes, hstore, hend⟩ := @store_terminated [] s.bytes new hroom
  rw [List.nil_append, List.length_nil] at hstore
  rw [List.length_nil, Nat.zero_add, List.nil_append] at hend
  exact ⟨bytes, hstore, hend⟩

theorem Holds.withText (h : s.Holds text) {new : List UInt8} (hfits : new.length ≤ s.capacity) :
    s.SameBlock (s.withText new) ∧ (s.withText new).Holds new := by
  have hroom := h.room
  have hsize : (new ++ 0 :: s.bytes.drop (new.length + 1)).length = s.bytes.length := by
    rw [List.length_append, List.length_cons, List.length_drop]
    omega
  exact ⟨⟨rfl, hsize⟩, rfl, hfits, hsize ▸ hroom, _, rfl⟩

theorem withText_withText (s : String) (new : List UInt8) :
    (s.withText new).withText new = s.withText new := by
  have hdrop : (new ++ 0 :: s.bytes.drop (new.length + 1)).drop (new.length + 1) =
      s.bytes.drop (new.length + 1) := by
    rw [← List.drop_drop, List.drop_left]
    rfl
  rw [withText, withText, hdrop]

/-- A text stored at the start of the block. -/
theorem Holds.put (h : s.Holds text) {new : List UInt8} (hfits : new.length ≤ s.capacity) :
    ∃ bytes bytes', store s.bytes 0 new = some bytes ∧ store bytes new.length [0] = some bytes' ∧
      String.SameBlock s { s with bytes := bytes', length := new.length } ∧
      String.Holds { s with bytes := bytes', length := new.length } new := by
  have hroom := h.room
  obtain ⟨bytes, hstore, hend⟩ := store_withText (show new.length < s.bytes.length by omega)
  exact ⟨bytes, _, hstore, hend, h.withText hfits⟩

/-- `StringSet` keeps the longest prefix that fits. -/
theorem Holds.stringSet (h : s.Holds text) {cstr : List UInt8} (hword : cstr.length < 2 ^ 32) :
    ∃ t, s.stringSet cstr = some t ∧ s.SameBlock t ∧ t.Holds (cstr.take s.capacity) := by
  have hu32 : u32 cstr.length = cstr.length := Nat.mod_eq_of_lt hword
  -- `len`, the lesser of the capacity and the length of the C string.
  generalize hlen : (if s.capacity < u32 cstr.length then s.capacity else cstr.length) = len
  have hmin : len = min s.capacity cstr.length := by
    rw [← hlen, hu32]
    split_ifs <;> omega
  have htake : cstr.take s.capacity = cstr.take len := by
    rw [hmin, ← List.take_take, List.take_of_length_le (Nat.le_refl cstr.length)]
  have hlength : (cstr.take len).length = len := by
    rw [List.length_take]
    omega
  have hu32' : u32 len = len := Nat.mod_eq_of_lt (by omega)
  obtain ⟨bytes, bytes', hstore, hend, hsame, hholds⟩ :=
    h.put (show (cstr.take len).length ≤ s.capacity by omega)
  rw [hlength] at hend hsame hholds
  rw [htake]
  refine ⟨_, ?_, hsame, hholds⟩
  simp only [String.stringSet, hlen, hu32', hstore, hend, Option.bind_eq_bind, Option.bind_some]

theorem Holds.stringClear (h : s.Holds text) :
    ∃ t, s.stringClear = some t ∧ s.SameBlock t ∧ t.Holds [] := by
  obtain ⟨bytes, bytes', hstore, hend, hsame, hholds⟩ := @Holds.put s text h [] (Nat.zero_le _)
  have hnone : store s.bytes 0 [] = some s.bytes :=
    @store_append UInt8 [] s.bytes [] (Nat.zero_le _)
  rw [hnone, Option.some.injEq] at hstore
  subst hstore
  rw [List.length_nil] at hend
  refine ⟨_, ?_, hsame, hholds⟩
  simp only [String.stringClear, hend, Option.bind_eq_bind, Option.bind_some, List.length_nil]

/-! ## Trimming -/

/-- The character `i` places behind the prefix `xs`. -/
theorem getD_behind {xs ys zs : List UInt8} {i : Nat} (hi : i < ys.length) :
    (xs ++ ys ++ zs).getD (xs.length + i) 0 = ys[i] := by
  rw [List.append_assoc, List.getD_eq_getElem?_getD, List.getElem?_append_right (by omega),
    Nat.add_sub_cancel_left, List.getElem?_append_left hi, List.getElem?_eq_getElem hi,
    Option.getD_some]

/-- A text that is about to be trimmed: what is dropped before and behind what stays. -/
structure Trims (cut : UInt8 → Bool) (before kept behind : List UInt8) : Prop where
  cut_before : ∀ c ∈ before, cut c = true
  cut_behind : ∀ c ∈ behind, cut c = true
  behind_nil : kept = [] → behind = []
  head : ∀ hne : kept ≠ [], cut (kept.head hne) = false
  last : ∀ hne : kept ≠ [], cut (kept.getLast hne) = false

/-- Dropping the longest prefix and then the longest suffix. -/
theorem trims_dropWhile (cut : UInt8 → Bool) (text : List UInt8) :
    text = text.takeWhile cut ++ (text.dropWhile cut).rdropWhile cut ++
      (text.dropWhile cut).rtakeWhile cut ∧
    Trims cut (text.takeWhile cut) ((text.dropWhile cut).rdropWhile cut)
      ((text.dropWhile cut).rtakeWhile cut) := by
  have hsplit := @List.rdropWhile_append_rtakeWhile _ cut (text.dropWhile cut)
  refine ⟨?_, ⟨fun c hc => List.mem_takeWhile_imp hc, fun c hc => List.mem_rtakeWhile_imp hc,
    fun hnil => ?_, fun hne => ?_, fun hne => ?_⟩⟩
  · rw [List.append_assoc, hsplit, List.takeWhile_append_dropWhile]
  · -- Were all that is left cut, the first loop would have gone on.
    have hall := List.rdropWhile_eq_nil_iff.mp hnil
    cases hleft : text.dropWhile cut with
    | nil => exact List.rtakeWhile_nil cut
    | cons c tail =>
      have hne : text.dropWhile cut ≠ [] := by
        rw [hleft]
        exact List.cons_ne_nil c tail
      have hcut := hall _ (List.head_mem hne)
      rw [List.head_dropWhile_not cut hne] at hcut
      cases hcut
  · have hne' : text.dropWhile cut ≠ [] := by
      rintro hnil
      rw [hnil, List.rdropWhile_nil] at hne
      exact hne rfl
    rw [← List.head_dropWhile_not cut hne']
    exact congrArg cut ((List.rdropWhile_prefix cut (text.dropWhile cut)).head hne)
  · exact Bool.eq_false_iff.mpr (List.rdropWhile_last_not cut _ hne)

/-- A text that was trimmed has nothing to trim. -/
theorem Trims.again {cut : UInt8 → Bool} {before kept behind : List UInt8}
    (ht : Trims cut before kept behind) : (kept.dropWhile cut).rdropWhile cut = kept := by
  have hdrop : kept.dropWhile cut = kept := by
    apply List.dropWhile_eq_self_iff.mpr
    intro hlength
    have hne := List.length_pos_iff.mp hlength
    rw [← List.head_eq_getElem_zero hne, ht.head hne]
    exact Bool.false_ne_true
  rw [hdrop]
  apply List.rdropWhile_eq_self_iff.mpr
  intro hne
  rw [ht.last hne]
  exact Bool.false_ne_true

section Trim

variable {first : List UInt8 → UInt8 → Bool} {cutSet : List UInt8} {fuel : Nat}
  {before kept behind rest : List UInt8}

/-- The first loop passes the prefix of characters in the cut set. -/
theorem startTurn_run (hfuel : s.length < fuel) (ht : Trims (first cutSet) before kept behind)
    (hlength : s.length = before.length + kept.length + behind.length)
    (hbytes : s.bytes = before ++ kept ++ behind ++ rest) :
    Loop.run (startTurn first s cutSet (s.length - 1)) fuel 0 = some (before.length : Int) := by
  have hagain : ∀ e < before.length, startTurn first s cutSet (s.length - 1) (e : Nat) =
      .again ((e + 1 : Nat) : Int) := by
    intro e he
    have hget : s.bytes.getD e 0 = before[e] := by
      have hbehind := @getD_behind [] before (kept ++ behind ++ rest) e he
      rw [List.nil_append, List.length_nil, Nat.zero_add] at hbehind
      rw [hbytes, List.append_assoc, List.append_assoc, ← List.append_assoc kept]
      exact hbehind
    rw [startTurn, if_pos]
    · push_cast
      rfl
    · rw [Int.toNat_natCast, hget]
      exact ⟨by omega, ht.cut_before _ (List.getElem_mem he)⟩
  have hdone : startTurn first s cutSet (s.length - 1) before.length = .done before.length := by
    rw [startTurn, if_neg]
    rintro ⟨hmore, hcut⟩
    have hne : kept ≠ [] := by
      intro hnil
      have hbehind := ht.behind_nil hnil
      rw [hnil, hbehind, List.length_nil] at hlength
      omega
    have hpos : 0 < kept.length := List.length_pos_iff.mpr hne
    have hget := @getD_behind before kept (behind ++ rest) 0 hpos
    rw [Nat.add_zero, ← List.head_eq_getElem_zero hne] at hget
    rw [Int.toNat_natCast, hbytes, List.append_assoc (before ++ kept), hget, ht.head hne] at hcut
    cases hcut
  exact Loop.run_path (fun e : Nat => (e : Int)) hagain hdone (by omega)

/-- The second loop passes the suffix of characters in the cut set. -/
theorem endTurn_run (hfuel : s.length < fuel) (ht : Trims (first cutSet) before kept behind)
    (hlength : s.length = before.length + kept.length + behind.length)
    (hbytes : s.bytes = before ++ kept ++ behind ++ rest) :
    Loop.run (endTurn first s cutSet before.length) fuel (s.length - 1) =
      some ((s.length : Int) - 1 - behind.length) := by
  have hagain : ∀ e < behind.length,
      endTurn first s cutSet before.length ((s.length : Int) - 1 - (e : Nat)) =
        .again ((s.length : Int) - 1 - (e + 1 : Nat)) := by
    intro e he
    have hpos : 0 < kept.length := by
      rw [List.length_pos_iff]
      intro hnil
      rw [ht.behind_nil hnil] at he
      exact absurd he (Nat.not_lt_zero e)
    have hindex : ((s.length : Int) - 1 - e).toNat =
        (before ++ kept).length + (behind.length - 1 - e) := by
      rw [List.length_append]
      omega
    have hlt : behind.length - 1 - e < behind.length := by omega
    rw [endTurn, if_pos]
    · push_cast
      ring_nf
    · rw [hindex, hbytes, getD_behind hlt]
      exact ⟨by omega, ht.cut_behind _ (List.getElem_mem hlt)⟩
  have hdone : endTurn first s cutSet before.length ((s.length : Int) - 1 - (behind.length : Nat)) =
      .done ((s.length : Int) - 1 - (behind.length : Nat)) := by
    rw [endTurn, if_neg]
    rintro ⟨hmore, hcut⟩
    have hpos : 0 < kept.length := by omega
    have hne : kept ≠ [] := List.length_pos_iff.mp hpos
    have hindex : ((s.length : Int) - 1 - (behind.length : Nat)).toNat =
        before.length + (kept.length - 1) := by omega
    have hget := @getD_behind before kept (behind ++ rest) (kept.length - 1) (by omega)
    rw [← List.getLast_eq_getElem hne] at hget
    rw [hindex, hbytes, List.append_assoc (before ++ kept), hget, ht.last hne] at hcut
    cases hcut
  have hrun := Loop.run_path (fun e : Nat => (s.length : Int) - 1 - (e : Nat)) hagain hdone
    (by omega : behind.length < fuel)
  simpa using hrun

/-- What is dropped before and behind the text that stays, and what is behind it all. -/
theorem Holds.exists_trims (h : s.Holds text) (cut : UInt8 → Bool) :
    ∃ before behind rest, Trims cut before ((text.dropWhile cut).rdropWhile cut) behind ∧
      s.length = before.length + ((text.dropWhile cut).rdropWhile cut).length + behind.length ∧
      s.bytes = before ++ (text.dropWhile cut).rdropWhile cut ++ behind ++ 0 :: rest := by
  obtain ⟨hsplit, ht⟩ := trims_dropWhile cut text
  obtain ⟨rest, hrest⟩ := h.text
  have hlength := congrArg List.length hsplit
  rw [List.length_append, List.length_append, ← h.length] at hlength
  refine ⟨_, _, rest, ht, hlength, ?_⟩
  rw [← hsplit, hrest]

/-- The length of what stays. -/
theorem trimmed_length (hlength : s.length = before.length + kept.length + behind.length) :
    (if (before.length : Int) > (s.length : Int) - 1 - behind.length then 0
      else ((s.length : Int) - 1 - behind.length - before.length + 1).toNat) = kept.length := by
  split_ifs <;> omega

/-- `StringTrim` drops the longest prefix of characters in the cut set, and then the
longest suffix. -/
theorem Holds.stringTrim_eq (h : s.Holds text) (hfuel : s.length < fuel) :
    s.stringTrim first fuel cutSet =
      some (s.withText ((text.dropWhile (first cutSet)).rdropWhile (first cutSet))) := by
  obtain ⟨before, behind, rest, ht, hlength, hbytes⟩ := h.exists_trims (first cutSet)
  generalize (text.dropWhile (first cutSet)).rdropWhile (first cutSet) = kept at ht hlength hbytes ⊢
  have hroom : kept.length < s.bytes.length := by
    rw [hbytes]
    simp only [List.length_append, List.length_cons]
    omega
  obtain ⟨bytes, hstore, hend⟩ := store_withText hroom
  have hmove : s.moveToStart before.length kept.length = some bytes := by
    rw [← hstore, moveToStart]
    split_ifs with hzero
    · rw [Int.toNat_natCast, hbytes, List.append_assoc, List.append_assoc, List.drop_left,
        List.take_left]
    · -- What stays is at the start already.
      have hnil : before = [] := List.eq_nil_of_length_eq_zero (by omega)
      have hstart := @store_append UInt8 [] s.bytes kept hroom.le
      rw [List.nil_append, List.length_nil, List.nil_append] at hstart
      rw [hstart, hbytes, hnil, List.nil_append, List.append_assoc, List.drop_left]
  simp only [String.stringTrim, startTurn_run hfuel ht hlength hbytes,
    endTurn_run hfuel ht hlength hbytes, trimmed_length hlength, hmove, hend,
    Option.bind_eq_bind, Option.bind_some, String.withText]

theorem Holds.stringTrim (h : s.Holds text) (hfuel : s.length < fuel) :
    ∃ t, s.stringTrim first fuel cutSet = some t ∧ s.SameBlock t ∧
      t.Holds ((text.dropWhile (first cutSet)).rdropWhile (first cutSet)) := by
  refine ⟨_, h.stringTrim_eq hfuel, h.withText ?_⟩
  obtain ⟨before, behind, rest, -, hlength, -⟩ := h.exists_trims (first cutSet)
  have hfits := h.fits
  have htext := h.length
  omega

end Trim

end String

end ScalBase.Strings
