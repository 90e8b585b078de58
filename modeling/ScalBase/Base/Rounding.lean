/-
  Base/Rounding.lean --- rounding to a power of two is exact.

  `AlignPowTwo` and `AlignPowTwoCeil` shift one word down and another one up.  What
  ties the two is the logarithm: `power * 2 ^ log2 x` is the same after every turn.  So
  the results are `2 ^ Nat.log 2 x` and `2 ^ Nat.clog 2 x`, as long as these are words;
  above `2 ^ 63` the second is not, and the loop shifts its only bit out.
-/
import ScalBase.Base

set_option autoImplicit false

namespace ScalBase

/-! ## The loop -/

/-- The loop of `shiftLoop` ends, and the reduction to the word changes `power` in none
of its turns. -/
def ShiftsFit (w : Nat) : Nat → Nat → Nat → Prop
  | 0, _, _ => False
  | fuel + 1, x, power =>
      x >>> 1 ≠ 0 →
        (power <<< 1) % 2 ^ w = power <<< 1 ∧ ShiftsFit w fuel (x >>> 1) ((power <<< 1) % 2 ^ w)

/-- A loop whose last `power` is a word shifts no bit out. -/
theorem shiftsFit_of_lt (w : Nat) : ∀ (fuel x power : Nat), x ≠ 0 → x < 2 ^ fuel →
    power * 2 ^ Nat.log 2 x < 2 ^ w → ShiftsFit w fuel x power := by
  intro fuel
  induction fuel with
  | zero =>
    intro x power hx hlt _
    rw [Nat.pow_zero] at hlt
    exact absurd (Nat.lt_one_iff.mp hlt) hx
  | succ n ih =>
    intro x power hx hlt hlast
    rw [ShiftsFit, Nat.shiftRight_eq_div_pow, Nat.shiftLeft_eq, Nat.pow_one]
    intro hhalf
    have hlog : Nat.log 2 x = Nat.log 2 (x / 2) + 1 :=
      Nat.log_of_one_lt_of_le (by decide) (by omega)
    have hmul : power * 2 ^ (Nat.log 2 (x / 2) + 1) = power * 2 * 2 ^ Nat.log 2 (x / 2) := by ring
    rw [hlog, hmul] at hlast
    have hle : power * 2 ≤ power * 2 * 2 ^ Nat.log 2 (x / 2) :=
      Nat.le_mul_of_pos_right _ (Nat.two_pow_pos _)
    have hword : power * 2 % 2 ^ w = power * 2 := Nat.mod_eq_of_lt (hle.trans_lt hlast)
    rw [Nat.pow_succ] at hlt
    rw [hword]
    exact ⟨rfl, ih (x / 2) _ hhalf (by omega) hlast⟩

/-! ## Powers -/

/-- The powers of `b` that are at least `x` begin with `b ^ Nat.clog b x`. -/
theorem isLeast_pow_clog {b : Nat} (hb : 1 < b) (x : Nat) :
    IsLeast {p | (∃ k, p = b ^ k) ∧ x ≤ p} (b ^ Nat.clog b x) := by
  refine ⟨⟨⟨_, rfl⟩, Nat.le_pow_clog hb x⟩, ?_⟩
  rintro p ⟨⟨k, rfl⟩, hle⟩
  exact Nat.pow_le_pow_right (Nat.zero_lt_of_lt hb) (Nat.clog_le_of_le_pow hle)

/-- Those that are at most `x` end with `b ^ Nat.log b x`. -/
theorem isGreatest_pow_log {b : Nat} (hb : 1 < b) {x : Nat} (hx : x ≠ 0) :
    IsGreatest {p | (∃ k, p = b ^ k) ∧ p ≤ x} (b ^ Nat.log b x) := by
  refine ⟨⟨⟨_, rfl⟩, Nat.pow_log_le_self b hx⟩, ?_⟩
  rintro p ⟨⟨k, rfl⟩, hle⟩
  exact Nat.pow_le_pow_right (Nat.zero_lt_of_lt hb) (Nat.le_log_of_pow_le hb hle)

/-- The two are the same for a power only. -/
theorem pow_clog_eq_pow_log_iff {b : Nat} (hb : 1 < b) {x : Nat} (hx : x ≠ 0) :
    b ^ Nat.clog b x = b ^ Nat.log b x ↔ ∃ k, x = b ^ k := by
  constructor
  · intro heq
    have hle := Nat.le_pow_clog hb x
    rw [heq] at hle
    exact ⟨_, hle.antisymm (Nat.pow_log_le_self b hx)⟩
  · rintro ⟨k, rfl⟩
    rw [Nat.clog_pow b k hb, Nat.log_pow hb]

/-! ## The roundings -/

theorem alignPowTwo_eq {x : Nat} (hx : x ≠ 0) (hlt : x < 2 ^ 64) :
    alignPowTwo x = 2 ^ Nat.log 2 x := by
  have hle := Nat.pow_log_le_self 2 hx
  rw [alignPowTwo, if_neg hx, shiftLoop_eq 64 64 x 1 hx hlt (by decide), Nat.log2_eq_log_two,
    Nat.one_mul, Nat.mod_eq_of_lt (hle.trans_lt hlt)]

theorem alignPowTwoCeil32_eq {x : Nat} (hle : x ≤ 2 ^ 31) :
    alignPowTwoCeil32 x = 2 ^ Nat.clog 2 x := by
  rw [alignPowTwoCeil32_eq_mod (hle.trans (by decide)), Nat.mod_eq_of_lt (pow_clog_lt hle)]

/-- The shifts of the roundings up, over words of `n + 1` bits. -/
theorem shiftsFit_pred {n x : Nat} (hx : 1 < x) (hle : x ≤ 2 ^ n) :
    ShiftsFit (n + 1) (n + 1) (x - 1) 2 := by
  have hlast := pow_clog_lt hle
  rw [← log_pred_succ hx, Nat.pow_succ, Nat.mul_comm] at hlast
  have hpow : 2 ^ (n + 1) = 2 ^ n * 2 := Nat.pow_succ 2 n
  exact shiftsFit_of_lt _ _ _ _ (by omega) (by omega) hlast

/-- What both roundings of a 64-bit word do. -/
structure RoundsExactly (x : Nat) : Prop where
  least : IsLeast {p | (∃ k, p = 2 ^ k) ∧ x ≤ p} (alignPowTwoCeil x)
  greatest : IsGreatest {p | (∃ k, p = 2 ^ k) ∧ p ≤ x} (alignPowTwo x)
  ceil_isPowerOf2 : isPowerOf2 (alignPowTwoCeil x) = true
  floor_isPowerOf2 : isPowerOf2 (alignPowTwo x) = true
  eq_iff : alignPowTwoCeil x = alignPowTwo x ↔ isPowerOf2 x = true
  ceil_fits : 1 < x → ShiftsFit 64 64 (x - 1) 2
  floor_fits : ShiftsFit 64 64 x 1

theorem roundsExactly {x : Nat} (hx : x ≠ 0) (hle : x ≤ 2 ^ 63) : RoundsExactly x := by
  have hlt : x < 2 ^ 64 := hle.trans_lt (by decide)
  have hceil := alignPowTwoCeil_eq hle
  have hfloor := alignPowTwo_eq hx hlt
  refine ⟨?_, ?_, ?_, ?_, ?_, fun h => shiftsFit_pred h hle, ?_⟩
  · rw [hceil]
    exact isLeast_pow_clog (by decide) x
  · rw [hfloor]
    exact isGreatest_pow_log (by decide) hx
  · exact isPowerOf2_iff.mpr ⟨_, hceil⟩
  · exact isPowerOf2_iff.mpr ⟨_, hfloor⟩
  · rw [hceil, hfloor, isPowerOf2_iff]
    exact pow_clog_eq_pow_log_iff (by decide) hx
  · refine shiftsFit_of_lt 64 64 x 1 hx hlt ?_
    rw [Nat.one_mul]
    exact (Nat.pow_log_le_self 2 hx).trans_lt hlt

/-- The roundings of the numbers from 1 to `2 ^ 63` are exact, `IsPowerOf2` holds of the
powers of two among the words, and the 32-bit rounding of the numbers from 1 to `2 ^ 31`
is the 64-bit one; no shift loses a bit. -/
theorem roundings_exact :
    (∀ x, 1 ≤ x → x ≤ 2 ^ 63 → RoundsExactly x) ∧
    (∀ n, n < 2 ^ 64 → (isPowerOf2 n = true ↔ ∃ k, n = 2 ^ k)) ∧
    (∀ y, 1 ≤ y → y ≤ 2 ^ 31 → alignPowTwoCeil32 y = alignPowTwoCeil y ∧
      (1 < y → ShiftsFit 32 32 (y - 1) 2)) := by
  refine ⟨fun x hpos hle => roundsExactly (Nat.ne_of_gt hpos) hle, fun n _ => isPowerOf2_iff, ?_⟩
  intro y _ hle
  refine ⟨?_, fun h => shiftsFit_pred h hle⟩
  rw [alignPowTwoCeil32_eq hle, alignPowTwoCeil_eq (hle.trans (by decide))]

end ScalBase
