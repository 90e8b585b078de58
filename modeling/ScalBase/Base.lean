/-
  Base.lean --- machine words and the integer helpers of `Base.h`.

  Words are natural numbers; `u16`, `u32` and `u64` reduce to the width of the
  type where an operation of the source can leave it.  The helpers are the
  functions and macros of `Base.h` that the containers and allocators call:
  `AlignPowTwoCeil`, `AlignPowTwoCeil32`, `IsPowerOf2`, `AlignSize` and
  `FastModulo`, and `AlignPowTwo` beside them.
-/
import Mathlib.Tactic

set_option autoImplicit false

namespace ScalBase

/-! ## Word widths -/

/-- Reduce to an unsigned 16-bit word. -/
def u16 (n : Nat) : Nat := n % 2 ^ 16

/-- Reduce to an unsigned 32-bit word. -/
def u32 (n : Nat) : Nat := n % 2 ^ 32

/-- Reduce to an unsigned 64-bit word. -/
def u64 (n : Nat) : Nat := n % 2 ^ 64

/-- 32-bit subtraction, wrapping below zero. -/
def sub32 (a b : Nat) : Nat := (a + (2 ^ 32 - b)) % 2 ^ 32

/-- 64-bit subtraction, wrapping below zero. -/
def sub64 (a b : Nat) : Nat := (a + (2 ^ 64 - b)) % 2 ^ 64

theorem u16_eq {n : Nat} (h : n < 2 ^ 16) : u16 n = n := Nat.mod_eq_of_lt h

theorem u32_eq {n : Nat} (h : n < 2 ^ 32) : u32 n = n := Nat.mod_eq_of_lt h

theorem u64_eq {n : Nat} (h : n < 2 ^ 64) : u64 n = n := Nat.mod_eq_of_lt h

theorem sub32_eq {a b : Nat} (hab : b ≤ a) (ha : a < 2 ^ 32) : sub32 a b = a - b := by
  unfold sub32
  omega

theorem sub64_eq {a b : Nat} (hab : b ≤ a) (ha : a < 2 ^ 64) : sub64 a b = a - b := by
  unfold sub64
  omega

/-! ## Powers of two -/

/-- The loop of the `AlignPowTwo` family: shift `x` right until nothing is left,
shifting `power` left once for every bit that was.  A word of `w` bits is gone
after `w` turns, so `fuel = w` is exact. -/
def shiftLoop (w : Nat) : Nat → Nat → Nat → Nat
  | 0, _, power => power
  | fuel + 1, x, power =>
      if x >>> 1 ≠ 0 then shiftLoop w fuel (x >>> 1) ((power <<< 1) % 2 ^ w) else power

/-- `AlignPowTwo`: the greatest power of two that is at most `num`. -/
def alignPowTwo (num : Nat) : Nat := if num = 0 then 0 else shiftLoop 64 64 num 1

/-- `AlignPowTwoCeil`: the least power of two that is at least `x`. -/
def alignPowTwoCeil (x : Nat) : Nat :=
  if x ≤ 1 then 1 else shiftLoop 64 64 (x - 1) 2

/-- `AlignPowTwoCeil32`: the same over 32-bit words. -/
def alignPowTwoCeil32 (x : Nat) : Nat :=
  if x ≤ 1 then 1 else shiftLoop 32 32 (x - 1) 2

/-- `IsPowerOf2`. -/
def isPowerOf2 (num : Nat) : Bool := decide (num > 0) && (num &&& (num - 1)) == 0

theorem shiftLoop_eq (w : Nat) : ∀ (fuel x power : Nat), x ≠ 0 → x < 2 ^ fuel → power < 2 ^ w →
    shiftLoop w fuel x power = power * 2 ^ x.log2 % 2 ^ w := by
  intro fuel
  induction fuel with
  | zero => intro x power hx hlt; simp at hlt; omega
  | succ n ih =>
    intro x power hx hlt hp
    rw [shiftLoop, Nat.shiftRight_eq_div_pow, Nat.shiftLeft_eq, Nat.pow_one]
    by_cases h2 : x / 2 = 0
    · have h1 : x = 1 := by omega
      subst h1
      have hlog : Nat.log2 1 = 0 := by decide
      rw [if_neg (by decide), hlog, Nat.pow_zero, Nat.mul_one, Nat.mod_eq_of_lt hp]
    · have hw : 0 < 2 ^ w := Nat.two_pow_pos w
      have hlog : x.log2 = (x / 2).log2 + 1 := by
        rw [Nat.log2_def, if_pos (by omega)]
      have hmul : power * 2 ^ ((x / 2).log2 + 1) = power * 2 * 2 ^ (x / 2).log2 := by ring
      rw [if_pos h2, ih (x / 2) _ h2 (by rw [Nat.pow_succ] at hlt; omega) (Nat.mod_lt _ hw),
        hlog, hmul, Nat.mod_mul_mod]

theorem isPowerOf2_iff {n : Nat} : isPowerOf2 n = true ↔ ∃ k, n = 2 ^ k := by
  have h := Nat.ne_zero_and_sub_one_eq_zero_iff_isPowerOfTwo (n := n)
  simp only [isPowerOf2, Bool.and_eq_true, decide_eq_true_eq, beq_iff_eq, Nat.pos_iff_ne_zero]
  exact h

/-- What the decrement does to the logarithm: it matters at the powers of two. -/
theorem log_pred_succ {x : Nat} (hx : 1 < x) : Nat.log 2 (x - 1) + 1 = Nat.clog 2 x := by
  have hx0 : x - 1 ≠ 0 := by omega
  apply Nat.le_antisymm
  · refine (Nat.lt_clog_iff_pow_lt (by decide)).mpr ?_
    have hle := Nat.pow_log_le_self 2 hx0
    omega
  · refine (Nat.clog_le_iff_le_pow (by decide)).mpr ?_
    have hlt := Nat.lt_pow_succ_log_self (b := 2) (by decide) (x - 1)
    rw [Nat.succ_eq_add_one] at hlt
    omega

/-- The loop of the roundings up, over words of `w` bits. -/
theorem shiftLoop_pred {w x : Nat} (hw : 1 < w) (hx : 1 < x) (hle : x ≤ 2 ^ w) :
    shiftLoop w w (x - 1) 2 = 2 ^ Nat.clog 2 x % 2 ^ w := by
  have htwo : 2 < 2 ^ w := Nat.pow_lt_pow_right (a := 2) (m := 1) (by decide) hw
  rw [shiftLoop_eq w w (x - 1) 2 (by omega) (by omega) htwo, Nat.log2_eq_log_two,
    ← log_pred_succ hx, Nat.pow_succ, Nat.mul_comm]

theorem alignPowTwoCeil_eq_mod {x : Nat} (hle : x ≤ 2 ^ 64) :
    alignPowTwoCeil x = 2 ^ Nat.clog 2 x % 2 ^ 64 := by
  by_cases hx : x ≤ 1
  · rw [alignPowTwoCeil, if_pos hx, Nat.clog_of_right_le_one hx]
    rfl
  · rw [alignPowTwoCeil, if_neg hx, shiftLoop_pred (by decide) (Nat.lt_of_not_le hx) hle]

theorem alignPowTwoCeil32_eq_mod {x : Nat} (hle : x ≤ 2 ^ 32) :
    alignPowTwoCeil32 x = 2 ^ Nat.clog 2 x % 2 ^ 32 := by
  by_cases hx : x ≤ 1
  · rw [alignPowTwoCeil32, if_pos hx, Nat.clog_of_right_le_one hx]
    rfl
  · rw [alignPowTwoCeil32, if_neg hx, shiftLoop_pred (by decide) (Nat.lt_of_not_le hx) hle]

/-- A number up to half the words rounds up to a word. -/
theorem pow_clog_lt {n x : Nat} (hle : x ≤ 2 ^ n) : 2 ^ Nat.clog 2 x < 2 ^ (n + 1) :=
  Nat.pow_lt_pow_right (by decide) (Nat.lt_succ_of_le (Nat.clog_le_of_le_pow hle))

theorem alignPowTwoCeil_eq {x : Nat} (hle : x ≤ 2 ^ 63) : alignPowTwoCeil x = 2 ^ Nat.clog 2 x := by
  rw [alignPowTwoCeil_eq_mod (hle.trans (by decide)), Nat.mod_eq_of_lt (pow_clog_lt hle)]

/-- Rounding up to a power of two over 64-bit words, where the result fits. -/
theorem alignPowTwoCeil_spec {x : Nat} (hx : 1 < x) (hle : x ≤ 2 ^ 63) :
    ∃ k, alignPowTwoCeil x = 2 ^ k ∧ x ≤ 2 ^ k ∧ 2 ^ k < 2 * x := by
  refine ⟨Nat.clog 2 x, alignPowTwoCeil_eq hle, Nat.le_pow_clog (by decide) x, ?_⟩
  have hlo := Nat.pow_log_le_self 2 (show x - 1 ≠ 0 by omega)
  rw [← log_pred_succ hx, Nat.pow_succ]
  omega

/-- Rounding up to a power of two over 32-bit words: past `2 ^ 31` the last shift
drops the only bit and the result is zero. -/
theorem alignPowTwoCeil32_spec {x : Nat} (hlt : x < 2 ^ 32) :
    alignPowTwoCeil32 x = 0 ∨ ∃ k < 32, alignPowTwoCeil32 x = 2 ^ k ∧ x ≤ 2 ^ k := by
  have hle := Nat.clog_le_of_le_pow hlt.le
  rw [alignPowTwoCeil32_eq_mod hlt.le]
  rcases hle.eq_or_lt with heq | hclog
  · left
    rw [heq, Nat.mod_self]
  · right
    refine ⟨Nat.clog 2 x, hclog, ?_, Nat.le_pow_clog (by decide) x⟩
    exact Nat.mod_eq_of_lt (Nat.pow_lt_pow_right (by decide) hclog)

/-- A 32-bit word rounded up to a power of two, where it is none. -/
theorem roundUp32_spec {x : Nat} (hlt : x < 2 ^ 32) :
    (if isPowerOf2 x then x else alignPowTwoCeil32 x) = 0 ∨
      ∃ k < 32, (if isPowerOf2 x then x else alignPowTwoCeil32 x) = 2 ^ k ∧ x ≤ 2 ^ k := by
  split_ifs with hpow
  · obtain ⟨k, rfl⟩ := isPowerOf2_iff.mp hpow
    exact Or.inr ⟨k, (Nat.pow_lt_pow_iff_right (by decide)).mp hlt, rfl, Nat.le_refl _⟩
  · exact alignPowTwoCeil32_spec hlt

/-! ## Alignment -/

/-- `AlignSize`: round `size` up to a multiple of `alignment`, over 64-bit words. -/
def alignSize (size alignment : Nat) : Nat :=
  u64 (size + sub64 alignment 1) &&& (2 ^ 64 - 1 - sub64 alignment 1)

/-- Clearing the low `k` bits of a word rounds it down to a multiple of `2 ^ k`. -/
theorem and_not_low_bits {n k : Nat} (hn : n < 2 ^ 64) (hk : k < 64) :
    n &&& (2 ^ 64 - 1 - (2 ^ k - 1)) = n / 2 ^ k * 2 ^ k := by
  have hpow : 2 ^ k < 2 ^ 64 := Nat.pow_lt_pow_right (by decide) hk
  have hmask : 2 ^ 64 - 1 - (2 ^ k - 1) = 2 ^ 64 - ((2 ^ k - 1) + 1) := by omega
  apply Nat.eq_of_testBit_eq
  intro i
  rw [hmask, Nat.testBit_and, Nat.testBit_two_pow_sub_succ (by omega), Nat.testBit_two_pow_sub_one,
    ← Nat.shiftRight_eq_div_pow, ← Nat.shiftLeft_eq, Nat.testBit_shiftLeft, Nat.testBit_shiftRight]
  by_cases hi : i < 64
  · by_cases hik : i < k
    · simp [hi, hik]
    · have : k + (i - k) = i := by omega
      have hki : k ≤ i := by omega
      simp [hi, hki, this]
  · have hfalse : n.testBit i = false :=
      Nat.testBit_lt_two_pow (Nat.lt_of_lt_of_le hn (Nat.pow_le_pow_right (by decide) (by omega)))
    by_cases hik : i < k
    · simp [hfalse, hik]
    · have : k + (i - k) = i := by omega
      simp [hfalse, this]

theorem sub64_two_pow_one {k : Nat} (hk : k < 64) : sub64 (2 ^ k) 1 = 2 ^ k - 1 :=
  sub64_eq (Nat.two_pow_pos k) (Nat.pow_lt_pow_right (by decide) hk)

/-- `AlignSize` with a power of two is a multiple of it, also where the sum wraps. -/
theorem dvd_alignSize {k : Nat} (hk : k < 64) (size : Nat) : 2 ^ k ∣ alignSize size (2 ^ k) := by
  have hword : u64 (size + (2 ^ k - 1)) < 2 ^ 64 := Nat.mod_lt _ (Nat.two_pow_pos 64)
  rw [alignSize, sub64_two_pow_one hk, and_not_low_bits hword hk]
  exact Nat.dvd_mul_left _ _

/-- Where the sum does not wrap, `AlignSize` with a power of two is the least
multiple of the alignment that is at least `size`. -/
theorem alignSize_spec {size k : Nat} (hk : k < 64) (hsum : size + 2 ^ k ≤ 2 ^ 64) :
    2 ^ k ∣ alignSize size (2 ^ k) ∧ size ≤ alignSize size (2 ^ k) ∧
      alignSize size (2 ^ k) < size + 2 ^ k := by
  have hpos : 0 < 2 ^ k := Nat.two_pow_pos k
  have heq : alignSize size (2 ^ k) = (size + (2 ^ k - 1)) / 2 ^ k * 2 ^ k := by
    unfold alignSize
    rw [sub64_two_pow_one hk, u64_eq (by omega), and_not_low_bits (by omega) hk]
  have hdiv := Nat.div_add_mod (size + (2 ^ k - 1)) (2 ^ k)
  have hmod := Nat.mod_lt (size + (2 ^ k - 1)) hpos
  rw [Nat.mul_comm, ← heq] at hdiv
  exact ⟨dvd_alignSize hk size, by omega, by omega⟩

/-- Where the sum wraps, `AlignSize` with a power of two is zero. -/
theorem alignSize_wrap {size k : Nat} (hk : k < 64) (hsize : size < 2 ^ 64)
    (hsum : 2 ^ 64 < size + 2 ^ k) : alignSize size (2 ^ k) = 0 := by
  have hpow : 2 ^ k < 2 ^ 64 := Nat.pow_lt_pow_right (by decide) hk
  have hword : u64 (size + (2 ^ k - 1)) = size + (2 ^ k - 1) - 2 ^ 64 := by
    unfold u64
    omega
  have hlt : u64 (size + (2 ^ k - 1)) < 2 ^ k := by omega
  rw [alignSize, sub64_two_pow_one hk, and_not_low_bits (hlt.trans hpow) hk, Nat.div_eq_of_lt hlt,
    Nat.zero_mul]

/-- The rounding stays below every multiple of the alignment that `size` is below. -/
theorem alignSize_le {size bound k : Nat} (hk : k < 64) (hsum : size + 2 ^ k ≤ 2 ^ 64)
    (hdvd : 2 ^ k ∣ bound) (hle : size ≤ bound) : alignSize size (2 ^ k) ≤ bound := by
  obtain ⟨⟨a, ha⟩, -, hlt⟩ := alignSize_spec hk hsum
  obtain ⟨b, rfl⟩ := hdvd
  rw [ha] at hlt ⊢
  refine Nat.mul_le_mul_left _ (Nat.lt_succ_iff.mp (Nat.lt_of_mul_lt_mul_left (a := 2 ^ k) ?_))
  rw [Nat.mul_succ]
  omega

/-- A multiple of the alignment that is a word leaves room for the next one. -/
theorem add_two_pow_le {n k : Nat} (hk : k < 64) (hdvd : 2 ^ k ∣ n) (hlt : n < 2 ^ 64) :
    n + 2 ^ k ≤ 2 ^ 64 := by
  obtain ⟨a, rfl⟩ := hdvd
  have hpow : 2 ^ 64 = 2 ^ k * 2 ^ (64 - k) := by
    rw [← Nat.pow_add, Nat.add_sub_cancel' (Nat.le_of_lt hk)]
  rw [hpow] at hlt ⊢
  rw [← Nat.mul_succ]
  exact Nat.mul_le_mul_left _ (Nat.lt_of_mul_lt_mul_left hlt)

/-! ## Hash reduction -/

/-- `FastModulo` of a 64-bit value and a 32-bit capacity. -/
def fastModulo (value capacity : Nat) : Nat := value &&& u32 (capacity + (2 ^ 32 - 1))

theorem fastModulo_eq {value k : Nat} (hk : k < 32) :
    fastModulo value (2 ^ k) = value % 2 ^ k := by
  have hpos : 0 < 2 ^ k := Nat.two_pow_pos k
  have hlt : 2 ^ k < 2 ^ 32 := Nat.pow_lt_pow_right (by decide) hk
  have hmask : u32 (2 ^ k + (2 ^ 32 - 1)) = 2 ^ k - 1 := by
    unfold u32
    omega
  rw [fastModulo, hmask, Nat.and_two_pow_sub_one_eq_mod]

theorem fastModulo_lt {value k : Nat} (hk : k < 32) : fastModulo value (2 ^ k) < 2 ^ k := by
  rw [fastModulo_eq hk]
  exact Nat.mod_lt _ (Nat.two_pow_pos k)

end ScalBase
