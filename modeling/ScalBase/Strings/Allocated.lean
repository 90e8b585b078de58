/-
  Strings/Allocated.lean --- strings that grow in blocks from an allocator.

  `StringMakeAllocator` and `StringMakeSpaceFor` count the terminator in the size of
  the block they ask for, and `StringAppendAllocator` does not: it asks for
  `StringMemorySize`, which is the header and the capacity, and the bytes to append.
  That is enough when the old capacity was larger than the length, and one byte short
  when the string was full; the terminator is then stored behind the block.
-/
import ScalBase.Strings.Text
import ScalBase.Foundation.Run

set_option autoImplicit false

namespace ScalBase.Strings

open Foundation Foundation.Block

/-- A call on a string from an allocator. -/
inductive GrowEdit where
  | appendAllocator (other : List UInt8) (fresh : Nat → UInt8)
  | makeSpaceFor (addLen : Nat) (fresh : Nat → UInt8)
  | appendLength (other : List UInt8)
  | set (cstr : List UInt8)
  | trim (cutSet : List UInt8)
  | clear

/-- The string after a call. -/
def GrowEdit.step (first : List UInt8 → UInt8 → Bool) (fuel : Nat) (s : String) :
    GrowEdit → Option String
  | appendAllocator other fresh => s.stringAppendAllocator other fresh
  | makeSpaceFor addLen fresh => some (s.stringMakeSpaceFor addLen fresh)
  | appendLength other => s.stringAppendLength other
  | set cstr => s.stringSet cstr
  | trim cutSet => s.stringTrim first fuel cutSet
  | clear => s.stringClear

/-- The sums that a call makes fit 32 bits. -/
def GrowEdit.NoWrap (s : String) : GrowEdit → Prop
  | appendAllocator other _ => s.length + other.length < 2 ^ 32 ∧
      (s.capacity < s.length + other.length → headerSize + s.capacity + other.length < 2 ^ 32)
  | makeSpaceFor addLen _ =>
      s.stringAvailableSpace < addLen → headerSize + (s.length + addLen) + 1 < 2 ^ 32
  | appendLength other => s.length + other.length < 2 ^ 32
  | set cstr => cstr.length < 2 ^ 32
  | trim _ => True
  | clear => True

instance GrowEdit.decidableNoWrap (s : String) (edit : GrowEdit) : Decidable (edit.NoWrap s) :=
  match edit with
  | .appendAllocator .. => inferInstanceAs (Decidable (_ ∧ (_ → _)))
  | .makeSpaceFor .. => inferInstanceAs (Decidable (_ → _))
  | .appendLength _ | .set _ => inferInstanceAs (Decidable (_ < _))
  | .trim _ | .clear => isTrue trivial

/-- An append that has to grow the block is made on a string that is not full. -/
def GrowEdit.Slack (s : String) : GrowEdit → Prop
  | appendAllocator other _ =>
      0 < other.length → s.capacity < s.length + other.length → s.length < s.capacity
  | _ => True

instance GrowEdit.decidableSlack (s : String) (edit : GrowEdit) : Decidable (edit.Slack s) :=
  match edit with
  | .appendAllocator .. => inferInstanceAs (Decidable (_ → _ → _))
  | .makeSpaceFor .. | .appendLength _ | .set _ | .trim _ | .clear => isTrue trivial

/-- The representation of a string. -/
structure String.Sound (s : String) : Prop where
  length : s.length ≤ s.capacity
  terminator : s.bytes[s.length]? = some 0
  /-- The size of the block. -/
  block : headerSize + s.capacity + 1 ≤ headerSize + s.bytes.length

variable {s : String} {text : List UInt8}

theorem String.Holds.sound (h : s.Holds text) : s.Sound :=
  ⟨h.length ▸ h.fits, h.terminator, by have hroom := h.room; omega⟩

/-- The string holds some text, and its capacity is a `u32`. -/
structure String.Live (s : String) : Prop where
  holds : ∃ text, s.Holds text
  capacity : s.capacity < 2 ^ 32

theorem String.Live.sound (h : s.Live) : s.Sound := by
  obtain ⟨text, hholds⟩ := h.holds
  exact hholds.sound

/-! ## Growing -/

/-- `StringMakeAllocator` makes a string of what is at `initStr`. -/
theorem stringMakeAllocator_spec {initStr : Option (List UInt8)}
    (hword : (initStr.getD []).length < 2 ^ 32) (fresh : Nat → UInt8) :
    ∃ s, stringMakeAllocator initStr fresh = some s ∧ s.Live := by
  have hu32 : u32 (initStr.getD []).length = (initStr.getD []).length := Nat.mod_eq_of_lt hword
  generalize hblock : (if initStr.isNone then zeroBytes (headerSize + (initStr.getD []).length + 1)
    else freshBytes (headerSize + (initStr.getD []).length + 1) fresh) = block
  have hsize : block.length = (initStr.getD []).length + 1 := by
    rw [← hblock]
    split_ifs
    · rw [length_zeroBytes]
      omega
    · rw [length_freshBytes]
      omega
  obtain ⟨bytes, hstore, hend⟩ := @store_terminated [] block (initStr.getD []) (by omega)
  rw [List.nil_append, List.length_nil] at hstore
  rw [List.length_nil, Nat.zero_add, List.nil_append] at hend
  refine ⟨⟨_, _, initStr.getD [] ++ 0 :: block.drop ((initStr.getD []).length + 1)⟩, ?_,
    ⟨initStr.getD [], rfl, Nat.le_refl _, ?_, _, rfl⟩, hword⟩
  · simp only [stringMakeAllocator, hblock, hstore, hend, hu32, Option.bind_eq_bind,
      Option.bind_some]
  · simp only [List.length_append, List.length_cons]
    omega

/-- A string whose block grows to `size` bytes behind the header. -/
theorem String.Holds.realloc (h : s.Holds text) {size : Nat} (hle : text.length ≤ size)
    (newCapacity : Nat) (fresh : Nat → UInt8) :
    ∃ rest, (s.realloc (headerSize + size) newCapacity fresh).bytes = text ++ rest ∧
      text.length + rest.length = size := by
  obtain ⟨rest, hrest⟩ := h.text
  obtain ⟨rest', hgrown⟩ := @resize_append UInt8 text (0 :: rest) size hle fresh
  have hsize := length_resize (text ++ 0 :: rest) size fresh
  rw [hgrown, List.length_append] at hsize
  refine ⟨rest', ?_, hsize⟩
  rw [String.realloc, Nat.add_sub_cancel_left, hrest]
  exact hgrown

/-- `StringAppendAllocator` asks for the header, the capacity and the bytes to append. -/
theorem String.Holds.stringAppendAllocator_grows (h : s.Holds text) {other : List UInt8}
    {fresh : Nat → UInt8} (hword : GrowEdit.NoWrap s (.appendAllocator other fresh))
    (hlong : s.capacity < s.length + other.length) :
    s.stringAppendAllocator other fresh =
      (s.realloc (headerSize + (s.capacity + other.length)) (text.length + other.length)
        fresh).appendBytes other := by
  have hfits := h.fits
  have hlength := h.length
  have hu32 : u32 (text.length + other.length) = text.length + other.length :=
    Nat.mod_eq_of_lt (hlength ▸ hword.1)
  have hsum := hword.2 hlong
  have hmemory : s.stringMemorySize = headerSize + s.capacity := Nat.mod_eq_of_lt (by omega)
  have hsize : u32 (s.stringMemorySize + other.length) =
      headerSize + (s.capacity + other.length) := by
    rw [hmemory, ← Nat.add_assoc]
    exact Nat.mod_eq_of_lt hsum
  rw [String.stringAppendAllocator, if_pos (by omega), hlength, hu32, if_pos (by omega), hsize]

/-- An append to a string with slack. -/
theorem String.Live.stringAppendAllocator (h : s.Live) {other : List UInt8} {fresh : Nat → UInt8}
    (hword : GrowEdit.NoWrap s (.appendAllocator other fresh))
    (hslack : GrowEdit.Slack s (.appendAllocator other fresh)) :
    ∃ t, s.stringAppendAllocator other fresh = some t ∧ t.Live := by
  obtain ⟨⟨text, hholds⟩, hcapacity⟩ := h
  have hfits := hholds.fits
  have hlength := hholds.length
  have hlen := hword.1
  by_cases hlong : s.capacity < s.length + other.length
  · have hroom := hslack (by omega) hlong
    obtain ⟨rest, hbytes, hsize⟩ := hholds.realloc
      (show text.length ≤ s.capacity + other.length by omega) (text.length + other.length) fresh
    rw [hholds.stringAppendAllocator_grows hword hlong]
    refine ⟨_, appendBytes_spec hlength hbytes (by omega) (by omega),
      ⟨text ++ other, List.length_append.symm, ?_, ?_, _, rfl⟩, ?_⟩
    · rw [List.length_append]
      exact Nat.le_refl _
    · simp only [String.realloc, List.length_append, List.length_cons, List.length_drop]
      omega
    · exact hlength ▸ hlen
  · have hu32 : u32 (s.length + other.length) = s.length + other.length := Nat.mod_eq_of_lt hlen
    unfold String.stringAppendAllocator
    simp only [hu32]
    split_ifs
    · obtain ⟨t, ht, hsame, hholds'⟩ :=
        hholds.appendBytes (show text.length + other.length ≤ s.capacity by omega) (by omega)
      exact ⟨t, ht, ⟨_, hholds'⟩, hsame.1 ▸ hcapacity⟩
    · exact ⟨s, rfl, ⟨text, hholds⟩, hcapacity⟩

/-- An append that has to grow a full string writes the terminator behind the block. -/
theorem String.Holds.stringAppendAllocator_full (h : s.Holds text) {other : List UInt8}
    {fresh : Nat → UInt8} (hword : GrowEdit.NoWrap s (.appendAllocator other fresh))
    (hslack : ¬ GrowEdit.Slack s (.appendAllocator other fresh)) :
    s.stringAppendAllocator other fresh = none := by
  simp only [GrowEdit.Slack] at hslack
  push Not at hslack
  obtain ⟨-, hlong, hfull⟩ := hslack
  have hfits := h.fits
  have hlength := h.length
  have hlen := hword.1
  obtain ⟨rest, hbytes, hsize⟩ := h.realloc
    (show text.length ≤ s.capacity + other.length by omega) (text.length + other.length) fresh
  rw [h.stringAppendAllocator_grows hword hlong]
  exact appendBytes_short hlength hbytes (by omega) (by omega)

/-- `StringMakeSpaceFor` counts the terminator. -/
theorem String.Live.stringMakeSpaceFor (h : s.Live) {addLen : Nat} {fresh : Nat → UInt8}
    (hword : GrowEdit.NoWrap s (.makeSpaceFor addLen fresh)) :
    (s.stringMakeSpaceFor addLen fresh).Live := by
  obtain ⟨⟨text, h⟩, hcapacity⟩ := h
  unfold String.stringMakeSpaceFor
  split_ifs with henough
  · exact ⟨⟨text, h⟩, hcapacity⟩
  · have hlength := h.length
    have hfits := h.fits
    have hsum := hword (by omega)
    have hu32 : u32 (s.length + addLen) = s.length + addLen := Nat.mod_eq_of_lt (by omega)
    have hsize : u32 (headerSize + (s.length + addLen) + 1) =
        headerSize + (s.length + addLen + 1) :=
      Nat.mod_eq_of_lt hsum
    have hmore : s.capacity < s.length + addLen := by
      unfold String.stringAvailableSpace at henough
      split_ifs at henough <;> omega
    obtain ⟨rest, hrest⟩ := h.text
    have hsplit : s.bytes = (text ++ [0]) ++ rest := by
      rw [hrest, List.append_assoc]
      rfl
    have hkept : (text ++ [0]).length ≤ s.length + addLen + 1 := by
      rw [List.length_append, List.length_singleton]
      omega
    obtain ⟨rest', hgrown⟩ := @resize_append UInt8 (text ++ [0]) rest _ hkept fresh
    simp only [hu32, hsize]
    refine ⟨⟨text, hlength, ?_, ?_, rest', ?_⟩, show s.length + addLen < 2 ^ 32 by omega⟩
    · show text.length ≤ s.length + addLen
      omega
    · simp only [realloc, length_resize]
      omega
    · simp only [realloc, Nat.add_sub_cancel_left, hsplit, hgrown]
      rw [List.append_assoc]
      rfl

/-! ## Whole runs -/

section Runs

variable {first : List UInt8 → UInt8 → Bool} {fuel : Nat}

/-- A call that does not have to grow a full string for an append returns. -/
theorem String.Live.step (h : s.Live) (hfuel : 2 ^ 32 ≤ fuel) {edit : GrowEdit}
    (hword : edit.NoWrap s) (hslack : edit.Slack s) :
    ∃ t, edit.step first fuel s = some t ∧ t.Live := by
  obtain ⟨⟨text, hholds⟩, hcapacity⟩ := h
  have hplace : ∀ {t : String} {text' : List UInt8}, s.SameBlock t → t.Holds text' → t.Live :=
    fun hsame hholds' => ⟨⟨_, hholds'⟩, hsame.1 ▸ hcapacity⟩
  cases edit with
  | appendAllocator other fresh =>
    exact String.Live.stringAppendAllocator ⟨⟨text, hholds⟩, hcapacity⟩ hword hslack
  | makeSpaceFor addLen fresh =>
    exact ⟨_, rfl, String.Live.stringMakeSpaceFor ⟨⟨text, hholds⟩, hcapacity⟩ hword⟩
  | appendLength other =>
    obtain ⟨t, ht, hsame, hholds'⟩ := hholds.stringAppendLength hword
    exact ⟨t, ht, hplace hsame hholds'⟩
  | set cstr =>
    obtain ⟨t, ht, hsame, hholds'⟩ := hholds.stringSet hword
    exact ⟨t, ht, hplace hsame hholds'⟩
  | trim cutSet =>
    have hlength := hholds.sound.length
    obtain ⟨t, ht, hsame, hholds'⟩ :=
      @Holds.stringTrim s text first cutSet fuel hholds (by omega)
    exact ⟨t, ht, hplace hsame hholds'⟩
  | clear =>
    obtain ⟨t, ht, hsame, hholds'⟩ := hholds.stringClear
    exact ⟨t, ht, hplace hsame hholds'⟩

/-- A call is sound exactly when it does not have to grow a full string for an append. -/
theorem String.Live.sound_iff (h : s.Live) (hfuel : 2 ^ 32 ≤ fuel) {edit : GrowEdit}
    (hword : edit.NoWrap s) :
    (∃ t, edit.step first fuel s = some t ∧ t.Sound) ↔ edit.Slack s := by
  constructor
  · rintro ⟨t, ht, -⟩
    cases edit with
    | appendAllocator other fresh =>
      by_contra hslack
      obtain ⟨text, hholds⟩ := h.holds
      rw [GrowEdit.step, hholds.stringAppendAllocator_full hword hslack] at ht
      cases ht
    | makeSpaceFor _ _ => exact trivial
    | appendLength _ => exact trivial
    | set _ => exact trivial
    | trim _ => exact trivial
    | clear => exact trivial
  · intro hslack
    obtain ⟨t, ht, hlive⟩ := @String.Live.step s first fuel h hfuel edit hword hslack
    exact ⟨t, ht, hlive.sound⟩

/-- A string of one byte has no slack: an append writes its terminator behind the block. -/
theorem stringAppendAllocator_leaves_block :
    (stringMakeAllocator (some [97]) fun _ => 0).bind
      (fun s => s.stringAppendAllocator [98] fun _ => 0) = none := by
  decide

/-- Every string that is made is sound, and in every state of a sequence of calls it is,
and no call writes outside the block, exactly when no append has to grow a string that is
full. -/
theorem allocatorString_sound_iff (hfuel : 2 ^ 32 ≤ fuel) {initStr : Option (List UInt8)}
    (hword : (initStr.getD []).length < 2 ^ 32) (fresh : Nat → UInt8) :
    ∃ s, stringMakeAllocator initStr fresh = some s ∧
      ∀ edits, AtEach (GrowEdit.step first fuel) GrowEdit.NoWrap s edits →
        ((∀ done, done <+: edits →
            ∃ t, exec (GrowEdit.step first fuel) s done = some t ∧ t.Sound) ↔
          AtEach (GrowEdit.step first fuel) GrowEdit.Slack s edits) := by
  obtain ⟨s, hs, hlive⟩ := stringMakeAllocator_spec hword fresh
  refine ⟨s, hs, fun edits hok => ?_⟩
  rw [← atEach_returns_iff hlive.sound]
  exact atEach_iff String.Live (fun s edit h hword hslack => h.step hfuel hword hslack)
    (fun s edit h hword => h.sound_iff hfuel hword) hlive hok

end Runs

/-- A string of two bytes with space made for two more: an append of three grows it. -/
theorem allocatorString_sound_iff_grown :
    ∃ s, stringMakeAllocator (some [97, 98]) (fun _ => 0) = some s ∧
      ((∀ done, done <+: [.makeSpaceFor 2 fun _ => 7, .appendAllocator [99, 100, 101] fun _ => 7] →
          ∃ t, exec (GrowEdit.step (fun _ _ => false) (2 ^ 32)) s done = some t ∧ t.Sound) ↔
        AtEach (GrowEdit.step (fun _ _ => false) (2 ^ 32)) GrowEdit.Slack s
          [.makeSpaceFor 2 fun _ => 7, .appendAllocator [99, 100, 101] fun _ => 7]) := by
  obtain ⟨s, hs, hall⟩ := @allocatorString_sound_iff (fun _ _ => false) _ (Nat.le_refl (2 ^ 32))
    (some [97, 98]) (by decide) fun _ => 0
  refine ⟨s, hs, hall _ ?_⟩
  cases hs
  decide +kernel

end ScalBase.Strings
