/-
  Foundation/Records.lean --- records of a fixed width in a memory of bytes.

  A `Codec` reads a record from the bytes at an address and gives the bytes to be
  stored for one.  `Codec.lay` stores the records that a function from addresses
  to records has changed.  Where the changed records do not overlap, each address
  reads as that function says (`Codec.read_lay`) and the bytes outside the changed
  records are as they were (`Codec.lay_outside`).

  `word` and `byte` are the little-endian encoding of numbers.
-/
import Mathlib.Tactic

set_option autoImplicit false

namespace ScalBase.Foundation

/-! ## Words -/

/-- The number whose `n` lowest bytes are given, the lowest first. -/
def word (f : Nat → UInt8) : Nat → Nat
  | 0 => 0
  | n + 1 => (f 0).toNat + 256 * word (fun i => f (i + 1)) n

/-- A byte of a number. -/
def byte (v i : Nat) : UInt8 := UInt8.ofNat (v / 256 ^ i)

theorem word_congr : ∀ (n : Nat) {f g : Nat → UInt8},
    (∀ i < n, f i = g i) → word f n = word g n := by
  intro n
  induction n with
  | zero => intro f g _; rfl
  | succ n ih =>
    intro f g h
    rw [word, word, h 0 (Nat.zero_lt_succ n), ih fun i hi => h (i + 1) (Nat.succ_lt_succ hi)]

theorem byte_succ (v i : Nat) : byte v (i + 1) = byte (v / 256) i := by
  rw [byte, byte, Nat.div_div_eq_div_mul, Nat.pow_succ, Nat.mul_comm]

/-- The bytes of a number are those of a word that fits. -/
theorem word_byte (n : Nat) : ∀ v, word (byte v) n = v % 256 ^ n := by
  induction n with
  | zero => intro v; rw [word, Nat.pow_zero, Nat.mod_one]
  | succ n ih =>
    intro v
    have hrest : (fun i => byte v (i + 1)) = byte (v / 256) := funext (byte_succ v)
    have hlow : (byte v 0).toNat = v % 256 := by
      rw [byte, Nat.pow_zero, Nat.div_one, UInt8.toNat_ofNat']
    rw [word, hrest, ih, hlow, Nat.pow_succ, Nat.mul_comm (256 ^ n), Nat.mod_mul]

/-! ## Records -/

/-- Records of type `R` that take `width` bytes. -/
structure Codec (R : Type*) where
  width : Nat
  encode : R → Nat → UInt8
  decode : (Nat → UInt8) → R
  decode_congr : ∀ {f g : Nat → UInt8}, (∀ i < width, f i = g i) → decode f = decode g

/-- Records that start at two of the addresses do not overlap. -/
def Spaced (width : Nat) (H : Nat → Prop) : Prop :=
  ∀ x y, H x → H y → x ≠ y → x + width ≤ y ∨ y + width ≤ x

namespace Codec

variable {R : Type*} (c : Codec R) {bytes bytes' : Nat → UInt8} {m : Nat → R} {H : Nat → Prop}

/-- The record at an address. -/
def read (bytes : Nat → UInt8) (x : Nat) : R := c.decode fun i => bytes (x + i)

/-- The record is read back after it is stored. -/
def Storable (r : R) : Prop := c.decode (c.encode r) = r

theorem read_congr {x : Nat} (h : ∀ a, x ≤ a → a < x + c.width → bytes' a = bytes a) :
    c.read bytes' x = c.read bytes x :=
  c.decode_congr fun i hi => h (x + i) (Nat.le_add_right x i) (Nat.add_lt_add_left hi x)

variable [DecidableEq R]

/-- Store the records that `m` has changed. -/
def lay (bytes : Nat → UInt8) (m : Nat → R) : Nat → UInt8 := fun a =>
  match (List.range c.width).find? fun i => decide (i ≤ a ∧ m (a - i) ≠ c.read bytes (a - i)) with
  | none => bytes a
  | some i => c.encode (m (a - i)) i

/-- A byte is as it was, or is stored for a changed record that it lies in. -/
theorem lay_cases (bytes : Nat → UInt8) (m : Nat → R) (a : Nat) :
    (∀ x, x ≤ a → a < x + c.width → m x = c.read bytes x) ∧ c.lay bytes m a = bytes a ∨
      ∃ x i, a = x + i ∧ i < c.width ∧ m x ≠ c.read bytes x ∧
        c.lay bytes m a = c.encode (m x) i := by
  unfold lay
  generalize hfind : (List.range c.width).find?
    (fun i => decide (i ≤ a ∧ m (a - i) ≠ c.read bytes (a - i))) = o
  cases o with
  | none =>
    left
    refine ⟨fun x hx hlt => ?_, rfl⟩
    have hnone := List.find?_eq_none.mp hfind (a - x) (List.mem_range.mpr (by omega))
    simp only [decide_eq_true_eq, not_and, not_not, Nat.sub_sub_self hx] at hnone
    exact hnone (Nat.sub_le a x)
  | some i =>
    right
    have hi := List.mem_range.mp (List.mem_of_find?_eq_some hfind)
    have hchanged := List.find?_some hfind
    simp only [decide_eq_true_eq] at hchanged
    exact ⟨a - i, i, (Nat.sub_add_cancel hchanged.1).symm, hi, hchanged.2, rfl⟩

/-- Bytes outside the records that may have changed are as they were. -/
theorem lay_outside (hchanged : ∀ x, m x ≠ c.read bytes x → H x) {a : Nat}
    (hout : ∀ x, H x → a < x ∨ x + c.width ≤ a) : c.lay bytes m a = bytes a := by
  rcases c.lay_cases bytes m a with ⟨-, hsame⟩ | ⟨x, i, rfl, hi, hx, -⟩
  · exact hsame
  · have hx' := hout x (hchanged x hx)
    omega

/-- Nothing is stored where nothing has changed. -/
theorem lay_read (bytes : Nat → UInt8) : c.lay bytes (c.read bytes) = bytes :=
  funext fun _ => c.lay_outside (fun _ h => h rfl) (fun _ hx => False.elim hx)

/-- Records that do not overlap are read back. -/
theorem read_lay (hchanged : ∀ x, m x ≠ c.read bytes x → H x) (hspaced : Spaced c.width H) {x : Nat}
    (hx : H x) (hstore : c.Storable (m x)) : c.read (c.lay bytes m) x = m x := by
  -- A changed record that a byte of this one lies in is this one.
  have hbyte : ∀ i < c.width, m x = c.read bytes x ∧ c.lay bytes m (x + i) = bytes (x + i) ∨
      m x ≠ c.read bytes x ∧ c.lay bytes m (x + i) = c.encode (m x) i := by
    intro i hi
    rcases c.lay_cases bytes m (x + i) with ⟨hsame, hkept⟩ | ⟨y, j, hy, hj, hych, hlay⟩
    · exact Or.inl ⟨hsame x (Nat.le_add_right x i) (Nat.add_lt_add_left hi x), hkept⟩
    · right
      have heq : x = y := by
        by_contra hne
        have hapart := hspaced x y hx (hchanged y hych) hne
        omega
      subst heq
      obtain rfl : i = j := by omega
      exact ⟨hych, hlay⟩
  by_cases hsame : m x = c.read bytes x
  · rw [hsame]
    exact c.decode_congr fun i hi => (hbyte i hi).elim And.right fun h => absurd hsame h.1
  · rw [← hstore]
    exact c.decode_congr fun i hi => (hbyte i hi).elim (fun h => absurd h.1 hsame) And.right

end Codec

end ScalBase.Foundation
