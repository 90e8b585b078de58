/-
  BitMap.lean --- the fixed bit array of `BitMap.h`.

  `BitArray<SizeInBits>` has `CeilBitsToU64(SizeInBits)` words, and bit `n` is bit
  `n % 64` of word `n / 64`.  An access has no result where it would leave the
  words.  Where there is a word for every bit the array is a set of bits:
  `bitArray_is_set` follows it over any calls.  The number of words goes through a
  `float`, and `words_for_bits_iff` says for which sizes that loses the last word.
-/
import Mathlib.Algebra.Order.Floor.Semifield
import ScalBase.Vec2i
import ScalBase.Foundation.Run

set_option autoImplicit false

namespace ScalBase.BitMap

open Foundation Vectors

/-! ## Bits of a word -/

/-- `BitGet`. -/
def bitGet (state : BitVec 64) (bit : ℕ) : BitVec 64 := (state >>> bit) &&& 1

/-- `BitSet`. -/
def bitSet (state : BitVec 64) (bit : ℕ) : BitVec 64 := state ||| (1#64 <<< bit)

/-- `BitClear`. -/
def bitClear (state : BitVec 64) (bit : ℕ) : BitVec 64 := state &&& ~~~(1#64 <<< bit)

/-- `BitToggle`. -/
def bitToggle (state : BitVec 64) (bit : ℕ) : BitVec 64 := state ^^^ (1#64 <<< bit)

/-- An operation on one bit of a word that puts `g` of the bit in its place. -/
def Changes (f : BitVec 64 → ℕ → BitVec 64) (g : Bool → Bool) : Prop :=
  ∀ (state : BitVec 64) (bit : ℕ) {j : ℕ}, j < 64 →
    (f state bit).getLsbD j = if j = bit then g (state.getLsbD j) else state.getLsbD j

theorem bitGet_ne_zero (state : BitVec 64) (bit : ℕ) :
    (bitGet state bit != 0) = state.getLsbD bit := by
  have hbit : (state >>> bit).getLsbD 0 = state.getLsbD bit := by
    rw [BitVec.getLsbD_ushiftRight, Nat.add_zero]
  have hand : bitGet state bit = BitVec.setWidth 64 (BitVec.ofBool (state.getLsbD bit)) := by
    rw [← hbit]
    exact BitVec.and_one_eq_setWidth_ofBool_getLsbD
  rw [hand]
  cases state.getLsbD bit <;> rfl

theorem getLsbD_mask {bit j : ℕ} (hj : j < 64) :
    (1#64 <<< bit).getLsbD j = decide (j = bit) := by
  rw [BitVec.getLsbD_shiftLeft, BitVec.getLsbD_one]
  grind

theorem changes_bitSet : Changes bitSet fun _ => true := by
  intro state bit j hj
  rw [bitSet, BitVec.getLsbD_or, getLsbD_mask hj]
  split_ifs with h <;> simp [h]

theorem changes_bitClear : Changes bitClear fun _ => false := by
  intro state bit j hj
  rw [bitClear, BitVec.getLsbD_and, BitVec.getLsbD_not, getLsbD_mask hj]
  split_ifs with h <;> simp [h, hj]

theorem changes_bitToggle : Changes bitToggle (!·) := by
  intro state bit j hj
  rw [bitToggle, BitVec.getLsbD_xor, getLsbD_mask hj]
  split_ifs with h <;> simp [h]

/-! ## The array -/

/-- `CeilBitsToU64`: `num` is a `float`, the rest is exact. -/
def ceilBitsToU64 (v : ℕ) : ℕ :=
  let num : ℚ := roundToFloat v / 64
  if ⌊num⌋₊ = num then ⌊num⌋₊ else ⌊num⌋₊ + if num > 0 then 1 else 0

theorem ceilBitsToU64_eq (v : ℕ) : ceilBitsToU64 v = (roundToFloat v + 63) / 64 := by
  have hfloor : ⌊(roundToFloat v : ℚ) / 64⌋₊ = roundToFloat v / 64 := by
    rw [Nat.floor_div_ofNat, Nat.floor_natCast]
  have hexact : ((roundToFloat v / 64 : ℕ) : ℚ) = roundToFloat v / 64 ↔
      roundToFloat v / 64 * 64 = roundToFloat v := by
    rw [eq_div_iff (by norm_num)]
    exact_mod_cast Iff.rfl
  simp only [ceilBitsToU64, hfloor, hexact]
  split_ifs with h hpos
  · omega
  · omega
  · have hzero : roundToFloat v = 0 := by
      apply Nat.eq_zero_of_not_pos
      intro h0
      exact hpos (by positivity)
    rw [hzero] at h
    exact absurd rfl h

/-- `BitArray`, with its `ElementCount` words. -/
structure BitArray (sizeInBits : ℕ) where
  memory : List (BitVec 64)
  length_eq : memory.length = ceilBitsToU64 sizeInBits

namespace BitArray

variable {sizeInBits : ℕ}

/-- `Memory[index] = word`. -/
def write (a : BitArray sizeInBits) (index : ℕ) (word : BitVec 64) : BitArray sizeInBits :=
  ⟨a.memory.set index word, by rw [List.length_set, a.length_eq]⟩

/-- `Reset`. -/
def reset (a : BitArray sizeInBits) : BitArray sizeInBits :=
  (List.range (ceilBitsToU64 sizeInBits)).foldl (fun a i => a.write i 0) a

/-- `Get`. -/
def get (a : BitArray sizeInBits) (bit : ℕ) : Option Bool :=
  let index := bit / 64
  let indexBit := bit % 64
  a.memory[index]?.map fun word => bitGet word indexBit != 0

/-- The three calls that change a bit. -/
def update (f : BitVec 64 → ℕ → BitVec 64) (a : BitArray sizeInBits) (bit : ℕ) :
    Option (BitArray sizeInBits) :=
  let index := bit / 64
  let indexBit := bit % 64
  a.memory[index]?.map fun word => a.write index (f word indexBit)

/-- `Set`. -/
def set (a : BitArray sizeInBits) (bit : ℕ) : Option (BitArray sizeInBits) := a.update bitSet bit

/-- `Clear`. -/
def clear (a : BitArray sizeInBits) (bit : ℕ) : Option (BitArray sizeInBits) :=
  a.update bitClear bit

/-- `Toggle`. -/
def toggle (a : BitArray sizeInBits) (bit : ℕ) : Option (BitArray sizeInBits) :=
  a.update bitToggle bit

theorem get_eq (a : BitArray sizeInBits) (bit : ℕ) :
    a.get bit = a.memory[bit / 64]?.map fun word => word.getLsbD (bit % 64) := by
  rw [get]
  congr 1
  funext word
  exact bitGet_ne_zero word _

/-- A change of one bit leaves every other bit of the array as it is. -/
theorem get_update {f : BitVec 64 → ℕ → BitVec 64} {g : Bool → Bool} (hf : Changes f g)
    {a b : BitArray sizeInBits} {bit : ℕ} (h : a.update f bit = some b) (j : ℕ) :
    b.get j = if j = bit then (a.get j).map g else a.get j := by
  obtain ⟨word, hword, rfl⟩ := Option.map_eq_some_iff.mp h
  have hchange := @hf word (bit % 64) (j % 64) (Nat.mod_lt _ (by decide))
  rw [get_eq, get_eq, write, List.getElem?_set]
  by_cases hindex : bit / 64 = j / 64
  · -- In the same word the bits of the word tell the two apart.
    have hsame : j % 64 = bit % 64 ↔ j = bit := by omega
    rw [if_pos hindex, if_pos (List.getElem?_eq_some_iff.mp hword).1, ← hindex, hword]
    simp only [Option.map_some, hchange, hsame]
    split_ifs <;> rfl
  · have hne : j ≠ bit := by
      rintro rfl
      exact hindex rfl
    rw [if_neg hindex, if_neg hne]

theorem memory_foldl_write (n : ℕ) : ∀ a : BitArray sizeInBits, n ≤ a.memory.length →
    ((List.range n).foldl (fun a i => a.write i 0) a).memory =
      List.replicate n 0 ++ a.memory.drop n := by
  induction n with
  | zero => intro a _; rfl
  | succ n ih =>
    intro a h
    rw [List.range_succ, List.foldl_append, List.foldl_cons, List.foldl_nil, write]
    simp only
    rw [ih a (by omega), List.set_append_right _ _ (by rw [List.length_replicate]),
      List.length_replicate, Nat.sub_self, List.drop_eq_getElem_cons h, List.set_cons_zero,
      List.replicate_succ', List.append_assoc, List.singleton_append]

theorem memory_reset (a : BitArray sizeInBits) :
    a.reset.memory = List.replicate (ceilBitsToU64 sizeInBits) 0 := by
  rw [reset, memory_foldl_write _ _ (by rw [a.length_eq]),
    List.drop_eq_nil_of_le (by rw [a.length_eq]), List.append_nil]

/-! ## Sequences of calls -/

/-- The calls that change the array, with a bit below `SizeInBits`. -/
inductive Call (sizeInBits : ℕ) where
  | reset
  | set (bit : Fin sizeInBits)
  | clear (bit : Fin sizeInBits)
  | toggle (bit : Fin sizeInBits)

/-- Make a call. -/
def step (a : BitArray sizeInBits) : Call sizeInBits → Option (BitArray sizeInBits)
  | .reset => some a.reset
  | .set bit => a.set bit
  | .clear bit => a.clear bit
  | .toggle bit => a.toggle bit

/-- What a call is for: the array stands for the set of the bits that are set. -/
def Call.apply (bits : Finset ℕ) : Call sizeInBits → Finset ℕ
  | .reset => ∅
  | .set bit => insert bit.val bits
  | .clear bit => bits.erase bit
  | .toggle bit => symmDiff bits {bit.val}

/-- `Get` answers for every bit whether it is in the set. -/
def Holds (a : BitArray sizeInBits) (bits : Finset ℕ) : Prop :=
  ∀ j < sizeInBits, a.get j = some (decide (j ∈ bits))

/-- The set that the array starts from. -/
def bits (a : BitArray sizeInBits) : Finset ℕ :=
  (Finset.range sizeInBits).filter fun j => a.get j = some true

section Set

variable (hwords : (sizeInBits + 63) / 64 ≤ ceilBitsToU64 sizeInBits)

include hwords

theorem index_lt {a : BitArray sizeInBits} {bit : ℕ} (h : bit < sizeInBits) :
    bit / 64 < a.memory.length := by
  rw [a.length_eq]
  omega

theorem exists_update (f : BitVec 64 → ℕ → BitVec 64) (a : BitArray sizeInBits) {bit : ℕ}
    (h : bit < sizeInBits) : ∃ b, a.update f bit = some b := by
  rw [update, List.getElem?_eq_getElem (index_lt hwords h)]
  exact ⟨_, rfl⟩

theorem holds_bits (a : BitArray sizeInBits) : a.Holds a.bits := by
  intro j hj
  have hword : a.memory[j / 64]? = some _ := List.getElem?_eq_getElem (index_lt hwords hj)
  rw [bits, get_eq, hword]
  simp [hj, get_eq, hword]

/-- A change of one bit is the same change of the set. -/
theorem Holds.update {f : BitVec 64 → ℕ → BitVec 64} {g : Bool → Bool} (hf : Changes f g)
    {a : BitArray sizeInBits} {bits bits' : Finset ℕ} (h : a.Holds bits) (bit : Fin sizeInBits)
    (hbits : ∀ j, decide (j ∈ bits') =
      if j = bit then g (decide (j ∈ bits)) else decide (j ∈ bits)) :
    ∃ b, a.update f bit = some b ∧ b.Holds bits' := by
  obtain ⟨b, hb⟩ := exists_update hwords f a bit.isLt
  refine ⟨b, hb, fun j hj => ?_⟩
  rw [get_update hf hb, h j hj, hbits]
  split_ifs <;> rfl

theorem Holds.reset (a : BitArray sizeInBits) : a.reset.Holds ∅ := by
  intro j hj
  have hindex : j / 64 < ceilBitsToU64 sizeInBits := by omega
  rw [get_eq, memory_reset, List.getElem?_replicate, if_pos hindex]
  simp

/-- Every call does to the array what it does to the set. -/
theorem Holds.step {a : BitArray sizeInBits} {bits : Finset ℕ} (h : a.Holds bits)
    (call : Call sizeInBits) : ∃ b, a.step call = some b ∧ b.Holds (call.apply bits) := by
  cases call with
  | reset => exact ⟨_, rfl, Holds.reset hwords a⟩
  | set bit =>
    apply h.update hwords changes_bitSet
    intro j
    by_cases hj : j = bit <;> simp [Call.apply, hj]
  | clear bit =>
    apply h.update hwords changes_bitClear
    intro j
    by_cases hj : j = bit <;> simp [Call.apply, hj]
  | toggle bit =>
    apply h.update hwords changes_bitToggle
    intro j
    by_cases hj : j = bit <;> simp [Call.apply, hj, Finset.mem_symmDiff]

/-- With a word for every bit the array is a set of bits, over any sequence of calls. -/
theorem bitArray_is_set (a : BitArray sizeInBits) (calls : List (Call sizeInBits)) :
    ∃ b, exec step a calls = some b ∧
      ∀ j < sizeInBits, b.get j = some (decide (j ∈ calls.foldl Call.apply a.bits)) := by
  apply exec_simulates Holds ?_ calls (holds_bits hwords a)
  intro a bits call h
  exact h.step hwords call

end Set

/-- Seventy bits in two words. -/
def seventy : BitArray 70 := ⟨[0, 1], by rw [ceilBitsToU64_eq]; decide⟩

/-- Calls on bits of both words. -/
theorem bitArray_is_set_seventy :
    ∃ b, exec step seventy [.set 69, .toggle 64, .clear 3] = some b ∧
      ∀ j < 70, b.get j =
        some (decide (j ∈ ([.set 69, .toggle 64, .clear 3] : List (Call 70)).foldl Call.apply
          seventy.bits)) :=
  bitArray_is_set (by rw [ceilBitsToU64_eq]; decide) seventy [.set 69, .toggle 64, .clear 3]

end BitArray

/-! ## The number of words -/

/-- The conversion to `float` rounds the size down, to a multiple of 64. -/
def DropsLastWord (sizeInBits : ℕ) : Prop :=
  let ulp := 2 ^ (sizeInBits.log2 - 23)
  let rest := sizeInBits % ulp
  0 < rest ∧ (2 * rest < ulp ∨ 2 * rest = ulp ∧ sizeInBits / ulp % 2 = 0) ∧ 64 ∣ sizeInBits - rest

instance (sizeInBits : ℕ) : Decidable (DropsLastWord sizeInBits) :=
  inferInstanceAs (Decidable (_ ∧ _ ∧ _))

/-- Every bit has a word, and no call leaves the memory. -/
def WordForEveryBit (sizeInBits : ℕ) : Prop :=
  ∀ bit < sizeInBits, bit / 64 < ceilBitsToU64 sizeInBits ∧
    ∀ a : BitArray sizeInBits, (a.get bit).isSome ∧ (a.set bit).isSome ∧ (a.clear bit).isSome ∧
      (a.toggle bit).isSome

theorem wordForEveryBit_iff {sizeInBits : ℕ} :
    WordForEveryBit sizeInBits ↔ sizeInBits ≤ 64 * ceilBitsToU64 sizeInBits := by
  constructor
  · intro h
    rcases Nat.eq_zero_or_pos sizeInBits with rfl | hpos
    · exact Nat.zero_le _
    · have hlast := (h (sizeInBits - 1) (by omega)).1
      omega
  · intro h bit hbit
    have hwords : (sizeInBits + 63) / 64 ≤ ceilBitsToU64 sizeInBits := by omega
    have hupdate : ∀ f (a : BitArray sizeInBits), (a.update f bit).isSome := by
      intro f a
      obtain ⟨b, hb⟩ := BitArray.exists_update hwords f a hbit
      rw [hb]
      rfl
    refine ⟨by omega, fun a => ⟨?_, hupdate bitSet a, hupdate bitClear a, hupdate bitToggle a⟩⟩
    rw [BitArray.get, List.getElem?_eq_getElem (BitArray.index_lt hwords hbit)]
    rfl

/-- Rounding takes a size to the multiple of `ulp` below it or to the one above. -/
theorem roundToFloat_cases (n : ℕ) :
    let ulp := 2 ^ (n.log2 - 23)
    (0 < n % ulp ∧ (2 * (n % ulp) < ulp ∨ 2 * (n % ulp) = ulp ∧ n / ulp % 2 = 0) ∧
      roundToFloat n = n - n % ulp) ∨
    (¬ (0 < n % ulp ∧ (2 * (n % ulp) < ulp ∨ 2 * (n % ulp) = ulp ∧ n / ulp % 2 = 0)) ∧
      n ≤ roundToFloat n) := by
  intro ulp
  have hdiv := Nat.div_add_mod' n ulp
  have hlt : n % ulp < ulp := Nat.mod_lt _ (Nat.two_pow_pos _)
  have hround : roundToFloat n = (if 2 * (n % ulp) > ulp ∨ 2 * (n % ulp) = ulp ∧ n / ulp % 2 = 1
      then n / ulp + 1 else n / ulp) * ulp := rfl
  have hnext : (n / ulp + 1) * ulp = n / ulp * ulp + ulp := Nat.succ_mul _ _
  have hparity := Nat.mod_two_eq_zero_or_one (n / ulp)
  rw [hround]
  split_ifs with habove
  · refine Or.inr ⟨?_, by omega⟩
    omega
  · rcases Nat.eq_zero_or_pos (n % ulp) with hzero | hpos
    · exact Or.inr ⟨by omega, by omega⟩
    · exact Or.inl ⟨hpos, by omega, by omega⟩

/-- A multiple of 64 above a multiple of `2 ^ e` is a whole `2 ^ e` above it, if that is
no multiple of 64. -/
theorem add_two_pow_le_of_lt {e a q : ℕ} (ha : 2 ^ e ∣ a) (hnot : ¬ 64 ∣ a) (h : a < 64 * q) :
    a + 2 ^ e ≤ 64 * q := by
  have he : e ≤ 6 := by
    apply Nat.le_of_lt
    apply Nat.lt_of_not_le
    intro hle
    exact hnot ((pow_dvd_pow 2 hle).trans ha)
  have hq : 2 ^ e ∣ 64 * q := (pow_dvd_pow 2 he).mul_right q
  have hsub : 2 ^ e ∣ 64 * q - a := Nat.dvd_sub hq ha
  have hle := Nat.le_of_dvd (by omega) hsub
  omega

/-- There is a word for every bit exactly where the conversion to `float` does not round
the size down to a multiple of 64. -/
theorem words_for_bits_iff (sizeInBits : ℕ) :
    WordForEveryBit sizeInBits ↔ ¬ DropsLastWord sizeInBits := by
  rw [wordForEveryBit_iff, ceilBitsToU64_eq, DropsLastWord]
  rcases roundToFloat_cases sizeInBits with ⟨hpos, hdown, hround⟩ | ⟨hnot, hround⟩
  · rw [hround]
    have hle := Nat.mod_le sizeInBits (2 ^ (sizeInBits.log2 - 23))
    have hdvd : 2 ^ (sizeInBits.log2 - 23) ∣ sizeInBits - sizeInBits % 2 ^ (sizeInBits.log2 - 23) :=
      Nat.dvd_sub_mod sizeInBits
    constructor
    · rintro hwords ⟨-, -, hdrops⟩
      omega
    · intro hnot
      have h64 : ¬ 64 ∣ sizeInBits - sizeInBits % 2 ^ (sizeInBits.log2 - 23) :=
        fun h => hnot ⟨hpos, hdown, h⟩
      have hnext := @add_two_pow_le_of_lt _ _
        ((sizeInBits - sizeInBits % 2 ^ (sizeInBits.log2 - 23) + 63) / 64) hdvd h64 (by omega)
      omega
  · constructor
    · intro _ hdrops
      exact hnot ⟨hdrops.1, hdrops.2.1⟩
    · intro _
      omega

/-- The last of 2^24 + 1 bits. -/
theorem no_word_for_last_bit : ¬ WordForEveryBit (2 ^ 24 + 1) := by
  rw [wordForEveryBit_iff, ceilBitsToU64_eq]
  decide

end ScalBase.BitMap
