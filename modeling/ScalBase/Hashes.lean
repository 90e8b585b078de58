/-
  Hashes.lean --- the two FNV hashes of `Base.h`.

  `FNVHash64` takes the number of bytes, `FNVHash64_CStr` stops at the NUL.  The
  first reads the bytes as `u8`, the second as `char`, which is signed on the
  targets of the library: a byte from 0x80 on is widened with 56 ones.  These stay
  out of the low byte of the hash but not of the bit above it, and as the prime is
  odd that bit is flipped in every hash that follows.  `low9_hashes` is the
  invariant: the hashes of one string differ in bit 8 exactly when the number of
  such bytes is odd.
-/
import ScalBase.Base

set_option autoImplicit false

namespace ScalBase.Hashes

/-! ## The hashes -/

/-- `OFFSET_BASIS`. -/
def offsetBasis : BitVec 64 := 0xcbf29ce484222325

/-- `PRIME`. -/
def prime : BitVec 64 := 0x100000001b3

/-- One turn of either loop: `val ^= word; val *= PRIME`. -/
def mix (val word : BitVec 64) : BitVec 64 := prime * (val ^^^ word)

/-- The loop of `FNVHash64`: `length` bytes are to come.  There is no result when a
byte behind the memory would be read. -/
def fnvHash64From : List (BitVec 8) → Nat → BitVec 64 → Option (BitVec 64)
  | _, 0, val => some val
  | [], _ + 1, _ => none
  | c :: castData, length + 1, val => fnvHash64From castData length (mix val (c.setWidth 64))

/-- `FNVHash64`. -/
def fnvHash64 (data : List (BitVec 8)) (length : Nat) : Option (BitVec 64) :=
  fnvHash64From data length offsetBasis

/-- The loop of `FNVHash64_CStr`. -/
def fnvHash64CStrFrom : List (BitVec 8) → BitVec 64 → Option (BitVec 64)
  | [], _ => none
  | c :: name, val =>
      if c = 0 then some val else fnvHash64CStrFrom name (mix val (c.signExtend 64))

/-- `FNVHash64_CStr`. -/
def fnvHash64CStr (name : List (BitVec 8)) : Option (BitVec 64) :=
  fnvHash64CStrFrom name offsetBasis

/-- `strlen`. -/
def strlen : List (BitVec 8) → Option Nat
  | [] => none
  | c :: name => if c = 0 then some 0 else (strlen name).map (· + 1)

/-- A NUL-terminated string: the bytes before the NUL. -/
structure CStr where
  bytes : List (BitVec 8)
  noNul : ∀ c ∈ bytes, c ≠ 0

/-- The memory that a pointer to the string points to. -/
def CStr.memory (s : CStr) : List (BitVec 8) := s.bytes ++ [0]

/-- The string cut off after `n` bytes. -/
def CStr.take (s : CStr) (n : Nat) : CStr :=
  ⟨s.bytes.take n, fun c hc => s.noNul c (List.mem_of_mem_take hc)⟩

/-- Both hashes of a string have a value, and it is the same. -/
def Agree (s : CStr) : Prop :=
  ∃ length val, strlen s.memory = some length ∧ fnvHash64 s.memory length = some val ∧
    fnvHash64CStr s.memory = some val

/-- The number of bytes that a signed `char` shows as negative. -/
def CStr.negatives (s : CStr) : Nat := s.bytes.countP BitVec.msb

/-! ## The values of the hashes -/

/-- The two loops over the bytes of a string. -/
def foldU8 (bytes : List (BitVec 8)) (val : BitVec 64) : BitVec 64 :=
  bytes.foldl (fun val c => mix val (c.setWidth 64)) val

@[inherit_doc foldU8]
def foldChar (bytes : List (BitVec 8)) (val : BitVec 64) : BitVec 64 :=
  bytes.foldl (fun val c => mix val (c.signExtend 64)) val

theorem foldU8_cons (c : BitVec 8) (bytes : List (BitVec 8)) (val : BitVec 64) :
    foldU8 (c :: bytes) val = foldU8 bytes (mix val (c.setWidth 64)) := by
  rw [foldU8, List.foldl_cons, foldU8]

theorem foldChar_cons (c : BitVec 8) (bytes : List (BitVec 8)) (val : BitVec 64) :
    foldChar (c :: bytes) val = foldChar bytes (mix val (c.signExtend 64)) := by
  rw [foldChar, List.foldl_cons, foldChar]

theorem fnvHash64From_eq (rest : List (BitVec 8)) : ∀ (bytes : List (BitVec 8)) (val : BitVec 64),
    fnvHash64From (bytes ++ rest) bytes.length val = some (foldU8 bytes val) := by
  intro bytes
  induction bytes with
  | nil => intro val; cases rest <;> rfl
  | cons c bytes ih =>
    intro val; rw [List.cons_append, List.length_cons, fnvHash64From, ih, foldU8_cons]

theorem fnvHash64CStrFrom_eq : ∀ {bytes : List (BitVec 8)} (val : BitVec 64), (∀ c ∈ bytes, c ≠ 0) →
    fnvHash64CStrFrom (bytes ++ [0]) val = some (foldChar bytes val) := by
  intro bytes
  induction bytes with
  | nil => intro val _; rfl
  | cons c bytes ih =>
    intro val h
    obtain ⟨hc, hbytes⟩ := List.forall_mem_cons.mp h
    rw [List.cons_append, fnvHash64CStrFrom, if_neg hc, ih _ hbytes, foldChar_cons]

theorem strlen_eq : ∀ {bytes : List (BitVec 8)}, (∀ c ∈ bytes, c ≠ 0) →
    strlen (bytes ++ [0]) = some bytes.length := by
  intro bytes
  induction bytes with
  | nil => intro _; rfl
  | cons c bytes ih =>
    intro h
    obtain ⟨hc, hbytes⟩ := List.forall_mem_cons.mp h
    rw [List.cons_append, strlen, if_neg hc, ih hbytes]
    rfl

theorem agree_iff (s : CStr) :
    Agree s ↔ foldU8 s.bytes offsetBasis = foldChar s.bytes offsetBasis := by
  have hlength : strlen s.memory = some s.bytes.length := strlen_eq s.noNul
  have hu8 : fnvHash64 s.memory s.bytes.length = some (foldU8 s.bytes offsetBasis) :=
    fnvHash64From_eq [0] s.bytes offsetBasis
  have hchar : fnvHash64CStr s.memory = some (foldChar s.bytes offsetBasis) :=
    fnvHash64CStrFrom_eq offsetBasis s.noNul
  constructor
  · rintro ⟨length, val, hlen, hval, hval'⟩
    rw [hlength] at hlen
    cases hlen
    rw [hu8] at hval
    rw [hchar, ← hval] at hval'
    exact (Option.some.inj hval').symm
  · intro h
    exact ⟨_, _, hlength, hu8, by rw [hchar, h]⟩

/-! ## Bytes below 0x80 -/

/-- Strings of bytes below 0x80 hash alike. -/
theorem foldU8_eq_foldChar : ∀ {bytes : List (BitVec 8)} (val : BitVec 64),
    (∀ c ∈ bytes, c.msb = false) → foldU8 bytes val = foldChar bytes val := by
  intro bytes
  induction bytes with
  | nil => intro val _; rfl
  | cons c bytes ih =>
    intro val h
    obtain ⟨hc, hbytes⟩ := List.forall_mem_cons.mp h
    rw [foldU8_cons, foldChar_cons, BitVec.signExtend_eq_setWidth_of_msb_false hc, ih _ hbytes]

/-! ## The low nine bits -/

/-- The low byte and the bit above it. -/
def low9 (val : BitVec 64) : BitVec 9 := val.setWidth 9

/-- The bits in which the two hashes differ after `n` bytes from 0x80 on. -/
def carried (n : Nat) : BitVec 9 := if n % 2 = 1 then 256#9 else 0#9

theorem carried_mul (n : Nat) (x : BitVec 9) :
    low9 prime * (x ^^^ carried n) = low9 prime * x ^^^ carried n := by
  have hodd : ∀ x : BitVec 9, low9 prime * (x ^^^ 256#9) = low9 prime * x ^^^ 256#9 := by
    decide +kernel
  rw [carried]
  split_ifs
  · exact hodd x
  · rw [BitVec.xor_zero, BitVec.xor_zero]

theorem low9_mix (val word : BitVec 64) :
    low9 (mix val word) = low9 prime * (low9 val ^^^ low9 word) := by
  rw [low9, mix, BitVec.setWidth_mul _ _ (by omega), BitVec.setWidth_xor]
  rfl

/-- A byte from 0x80 on differs in bit 8 from what it is as `u8`. -/
theorem low9_signExtend (c : BitVec 8) :
    low9 (c.signExtend 64) = low9 (c.setWidth 64) ^^^ carried c.msb.toNat := by
  revert c
  decide +kernel

theorem carried_add (m n : Nat) : carried m ^^^ carried n = carried (m + n) := by
  have hm := Nat.mod_two_eq_zero_or_one m
  have hn := Nat.mod_two_eq_zero_or_one n
  have hadd := Nat.add_mod m n 2
  unfold carried
  rcases hm with hm | hm <;> rcases hn with hn | hn <;>
    rw [hm, hn] at hadd <;> rw [hm, hn, hadd] <;> rfl

/-- Each byte from 0x80 on flips bit 8 of the one hash against the other. -/
theorem low9_hashes : ∀ (bytes : List (BitVec 8)) {val val' : BitVec 64} {n : Nat},
    low9 val' = low9 val ^^^ carried n →
      low9 (foldChar bytes val') =
        low9 (foldU8 bytes val) ^^^ carried (n + bytes.countP BitVec.msb) := by
  intro bytes
  induction bytes with
  | nil => intro val val' n h; exact h
  | cons c bytes ih =>
    intro val val' n h
    have hstep : low9 (mix val' (c.signExtend 64)) =
        low9 (mix val (c.setWidth 64)) ^^^ carried (n + c.msb.toNat) := by
      rw [low9_mix, low9_mix, low9_signExtend, h, ← carried_mul, ← carried_add]
      congr 1
      ac_rfl
    have hcount : n + c.msb.toNat + bytes.countP BitVec.msb =
        n + (c :: bytes).countP BitVec.msb := by
      rw [List.countP_cons]
      cases c.msb <;> simp only [Bool.toNat_false, Bool.toNat_true] <;> grind
    rw [← hcount, foldChar_cons, foldU8_cons, ih hstep]

/-- Strings with an odd number of bytes from 0x80 on never hash alike. -/
theorem not_agree_of_odd {s : CStr} (h : s.negatives % 2 = 1) : ¬ Agree s := by
  intro hagree
  have hlow := @low9_hashes s.bytes offsetBasis offsetBasis 0 (BitVec.xor_zero).symm
  have hcarried : carried (0 + s.bytes.countP BitVec.msb) = 256#9 := by
    rw [Nat.zero_add]
    exact if_pos h
  rw [← (agree_iff s).mp hagree, hcarried] at hlow
  have hflip : ∀ x : BitVec 9, x ≠ x ^^^ 256#9 := by decide +kernel
  exact hflip _ hlow

theorem agree_of_nonnegative {s : CStr} (h : ∀ c ∈ s.bytes, c.msb = false) : Agree s :=
  (agree_iff s).mpr (foldU8_eq_foldChar offsetBasis h)

/-- The beginning of a string that ends with its first byte from 0x80 on. -/
theorem exists_take_negatives {s : CStr} (h : ∃ c ∈ s.bytes, c.msb = true) :
    ∃ n, (s.take n).negatives = 1 := by
  have hlt : s.bytes.findIdx BitVec.msb < s.bytes.length := List.findIdx_lt_length.mpr h
  have hmsb : (s.bytes[s.bytes.findIdx BitVec.msb]).msb = true := List.findIdx_getElem
  have hbefore : (s.bytes.take (s.bytes.findIdx BitVec.msb)).countP BitVec.msb = 0 := by
    rw [List.countP_eq_zero]
    intro c hc
    obtain ⟨i, hi, rfl⟩ := List.mem_take_iff_getElem.mp hc
    exact Bool.not_eq_true _ ▸ List.not_of_lt_findIdx (lt_min_iff.mp hi).1
  refine ⟨s.bytes.findIdx BitVec.msb + 1, ?_⟩
  calc (s.bytes.take (s.bytes.findIdx BitVec.msb + 1)).countP BitVec.msb
      = (s.bytes.take (s.bytes.findIdx BitVec.msb)).countP BitVec.msb +
          [s.bytes[s.bytes.findIdx BitVec.msb]].countP BitVec.msb := by
        rw [← List.take_append_getElem hlt, List.countP_append]
    _ = 1 := by rw [hbefore, List.countP_singleton, if_pos hmsb]

theorem msb_eq_false_iff (c : BitVec 8) : c.msb = false ↔ c.toNat < 0x80 := by
  rw [BitVec.msb_eq_false_iff_two_mul_lt]
  omega

/-- The hashes agree on a string and all its beginnings exactly when its bytes are below
0x80.  One string alone can have a hash in common by chance, but not where the number of
bytes from 0x80 on is odd. -/
theorem hashes_agree_iff (s : CStr) :
    ((∀ n, Agree (s.take n)) ↔ ∀ c ∈ s.bytes, c.toNat < 0x80) ∧
      ((∀ c ∈ s.bytes, c.toNat < 0x80) → Agree s) ∧ (s.negatives % 2 = 1 → ¬ Agree s) := by
  have hall : (∀ c ∈ s.bytes, c.toNat < 0x80) ↔ ∀ c ∈ s.bytes, c.msb = false :=
    forall₂_congr fun c _ => (msb_eq_false_iff c).symm
  rw [hall]
  refine ⟨⟨fun h => ?_, fun h n => ?_⟩, agree_of_nonnegative, not_agree_of_odd⟩
  · intro c hc
    apply Bool.eq_false_of_not_eq_true
    intro hmsb
    obtain ⟨n, hn⟩ := exists_take_negatives ⟨c, hc, hmsb⟩
    exact not_agree_of_odd (by rw [hn]) (h n)
  · exact agree_of_nonnegative fun c hc => h c (List.mem_of_mem_take hc)

/-- The string of the one byte 0x80. -/
theorem not_agree_char : ¬ Agree ⟨[0x80], by decide⟩ := not_agree_of_odd rfl

example : Agree ⟨[0xa5, 0x80], by decide⟩ := (agree_iff _).mpr (by decide +kernel)

end ScalBase.Hashes
