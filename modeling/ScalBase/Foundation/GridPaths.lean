/-
  Foundation/GridPaths.lean --- cheapest paths on the square grid.

  A path is a list of moves to neighbours, straight ones at cost `c` and diagonal ones
  at cost `d`.  Where `c ≤ d ≤ 2 * c`, the cheapest path to a point goes diagonally as
  far as it can.  Its cost is `octile`, a maximum of two sums of absolute values, so it
  is subadditive; that is the lower bound, one move at a time.
-/
import Mathlib.Tactic

set_option autoImplicit false

namespace ScalBase.Foundation.GridPaths

/-- A step to one of the eight neighbours. -/
def IsMove (m : ℤ × ℤ) : Prop := |m.1| ≤ 1 ∧ |m.2| ≤ 1 ∧ m ≠ 0

variable (c d : ℤ)

/-- The cost of a move: `d` where both coordinates change. -/
def moveCost (m : ℤ × ℤ) : ℤ := if m.1 = 0 ∨ m.2 = 0 then c else d

def pathCost (path : List (ℤ × ℤ)) : ℤ := (path.map (moveCost c d)).sum

/-- The moves lead to `v`. -/
def LeadsTo (path : List (ℤ × ℤ)) (v : ℤ × ℤ) : Prop := (∀ m ∈ path, IsMove m) ∧ path.sum = v

/-- The cost of going diagonally until one coordinate is reached. -/
def octile (v : ℤ × ℤ) : ℤ :=
  max (c * |v.1| + (d - c) * |v.2|) ((d - c) * |v.1| + c * |v.2|)

variable {c d}

theorem octile_zero : octile c d 0 = 0 := by simp [octile]

theorem octile_eq (hcd : d ≤ 2 * c) (v : ℤ × ℤ) :
    octile c d v = c * (|v.1| + |v.2|) + (d - 2 * c) * min |v.1| |v.2| := by
  have hc : 0 ≤ 2 * c - d := by omega
  unfold octile
  rcases le_total |v.1| |v.2| with h | h
  · have hle := mul_le_mul_of_nonneg_left h hc
    rw [min_eq_left h, max_eq_right (by linarith)]
    ring
  · have hle := mul_le_mul_of_nonneg_left h hc
    rw [min_eq_right h, max_eq_left (by linarith)]
    ring

/-- One of the two sums is subadditive. -/
theorem weighted_add_le {a b : ℤ} (ha : 0 ≤ a) (hb : 0 ≤ b) (v w : ℤ × ℤ) :
    a * |(v + w).1| + b * |(v + w).2| ≤ (a * |v.1| + b * |v.2|) + (a * |w.1| + b * |w.2|) := by
  have hx := mul_le_mul_of_nonneg_left (abs_add_le v.1 w.1) ha
  have hy := mul_le_mul_of_nonneg_left (abs_add_le v.2 w.2) hb
  rw [Prod.fst_add, Prod.snd_add]
  linarith

theorem octile_add_le (hc : 0 ≤ c) (hd : c ≤ d) (v w : ℤ × ℤ) :
    octile c d (v + w) ≤ octile c d v + octile c d w := by
  have hdc : 0 ≤ d - c := by omega
  unfold octile
  apply max_le
  · exact (weighted_add_le hc hdc v w).trans (add_le_add (le_max_left _ _) (le_max_left _ _))
  · exact (weighted_add_le hdc hc v w).trans (add_le_add (le_max_right _ _) (le_max_right _ _))

/-- A move costs what it advances. -/
theorem octile_move (hcd : d ≤ 2 * c) {m : ℤ × ℤ} (hm : IsMove m) :
    octile c d m = moveCost c d m := by
  obtain ⟨hx, hy, hne⟩ := hm
  have hx' : |m.1| = if m.1 = 0 then 0 else 1 := by
    split_ifs with h
    · rw [h, abs_zero]
    · exact le_antisymm hx (Int.one_le_abs h)
  have hy' : |m.2| = if m.2 = 0 then 0 else 1 := by
    split_ifs with h
    · rw [h, abs_zero]
    · exact le_antisymm hy (Int.one_le_abs h)
  rw [octile_eq hcd, moveCost, hx', hy']
  by_cases h1 : m.1 = 0
  · have h2 : m.2 ≠ 0 := fun h2 => hne (Prod.ext h1 h2)
    simp [h1, h2]
  · by_cases h2 : m.2 = 0
    · simp [h1, h2]
    · simp only [h1, h2, or_self, if_false, min_self]
      ring

/-- No path is cheaper. -/
theorem octile_le_pathCost (hc : 0 ≤ c) (hd : c ≤ d) (hcd : d ≤ 2 * c) :
    ∀ {path : List (ℤ × ℤ)}, (∀ m ∈ path, IsMove m) → octile c d path.sum ≤ pathCost c d path := by
  intro path
  induction path with
  | nil => exact fun _ => octile_zero.le
  | cons m path ih =>
    intro hmoves
    have hrest := ih fun n hn => hmoves n (List.mem_cons_of_mem m hn)
    have hmove := octile_move hcd (hmoves m (List.mem_cons_self ..))
    rw [List.sum_cons, pathCost, List.map_cons, List.sum_cons]
    calc octile c d (m + path.sum) ≤ octile c d m + octile c d path.sum := octile_add_le hc hd _ _
      _ ≤ moveCost c d m + pathCost c d path := add_le_add hmove.le hrest

/-! ## A cheapest path -/

/-- As many moves as it takes, first diagonal, then straight along the longer side. -/
def diagonalFirst (v : ℤ × ℤ) : List (ℤ × ℤ) :=
  List.replicate (min v.1.natAbs v.2.natAbs) (v.1.sign, v.2.sign) ++
    List.replicate (v.1.natAbs - v.2.natAbs) (v.1.sign, 0) ++
    List.replicate (v.2.natAbs - v.1.natAbs) (0, v.2.sign)

theorem isMove_sign {x y : ℤ} (h : (x, y) ≠ 0) : IsMove (x.sign, y.sign) := by
  have habs : ∀ z : ℤ, |z.sign| ≤ 1 := by
    intro z
    rcases Int.sign_trichotomy z with hz | hz | hz <;> rw [hz] <;> decide
  refine ⟨habs x, habs y, fun hzero => h ?_⟩
  obtain ⟨hx, hy⟩ := Prod.mk.inj hzero
  exact Prod.ext (Int.sign_eq_zero_iff_zero.mp hx) (Int.sign_eq_zero_iff_zero.mp hy)

theorem leadsTo_diagonalFirst (v : ℤ × ℤ) : LeadsTo (diagonalFirst v) v := by
  constructor
  · intro m hm
    simp only [diagonalFirst, List.mem_append, List.mem_replicate, ne_eq] at hm
    rcases hm with (⟨hpos, rfl⟩ | ⟨hpos, rfl⟩) | ⟨hpos, rfl⟩
    · apply isMove_sign
      intro hzero
      have hx : v.1 = 0 := congrArg Prod.fst hzero
      rw [hx] at hpos
      exact hpos (Nat.zero_min _)
    · have hx : v.1 ≠ 0 := fun hx => hpos (by rw [hx]; exact Nat.zero_sub _)
      exact isMove_sign (show (v.1, (0 : ℤ)) ≠ 0 from fun hzero => hx (congrArg Prod.fst hzero))
    · have hy : v.2 ≠ 0 := fun hy => hpos (by rw [hy]; exact Nat.zero_sub _)
      exact isMove_sign (show ((0 : ℤ), v.2) ≠ 0 from fun hzero => hy (congrArg Prod.snd hzero))
  · have hsplit : ∀ a b : ℕ, min a b + (a - b) = a := by omega
    have hx :
        ((min v.1.natAbs v.2.natAbs + (v.1.natAbs - v.2.natAbs) : ℕ) : ℤ) * v.1.sign = v.1 := by
      rw [hsplit]
      exact (mul_comm _ _).trans (Int.sign_mul_natAbs v.1)
    have hy :
        ((min v.1.natAbs v.2.natAbs + (v.2.natAbs - v.1.natAbs) : ℕ) : ℤ) * v.2.sign = v.2 := by
      rw [min_comm, hsplit]
      exact (mul_comm _ _).trans (Int.sign_mul_natAbs v.2)
    rw [Nat.cast_add, add_mul] at hx hy
    rw [diagonalFirst, List.sum_append, List.sum_append, List.sum_replicate, List.sum_replicate,
      List.sum_replicate]
    refine Prod.ext ?_ ?_
    · simp only [Prod.fst_add, Prod.smul_fst, smul_zero, add_zero]
      rw [nsmul_eq_mul, nsmul_eq_mul, hx]
    · simp only [Prod.snd_add, Prod.smul_snd, smul_zero, add_zero]
      rw [nsmul_eq_mul, nsmul_eq_mul, hy]

theorem pathCost_replicate (n : ℕ) (m : ℤ × ℤ) :
    pathCost c d (List.replicate n m) = n * moveCost c d m := by
  rw [pathCost, List.map_replicate, List.sum_replicate, nsmul_eq_mul]

theorem pathCost_append (path path' : List (ℤ × ℤ)) :
    pathCost c d (path ++ path') = pathCost c d path + pathCost c d path' := by
  rw [pathCost, List.map_append, List.sum_append]
  rfl

/-- Where no diagonal move is made the cost of one does not matter. -/
theorem diagonal_cost (v : ℤ × ℤ) :
    ((min v.1.natAbs v.2.natAbs : ℕ) : ℤ) * moveCost c d (v.1.sign, v.2.sign) =
      (min v.1.natAbs v.2.natAbs : ℕ) * d := by
  by_cases h : v.1 = 0 ∨ v.2 = 0
  · have hzero : min v.1.natAbs v.2.natAbs = 0 := by omega
    rw [hzero, Nat.cast_zero, zero_mul, zero_mul]
  · have hsign : ¬ (v.1.sign = 0 ∨ v.2.sign = 0) := by
      rwa [Int.sign_eq_zero_iff_zero, Int.sign_eq_zero_iff_zero]
    rw [moveCost, if_neg hsign]

theorem pathCost_diagonalFirst (hcd : d ≤ 2 * c) (v : ℤ × ℤ) :
    pathCost c d (diagonalFirst v) = octile c d v := by
  have hstraight : ∀ s : ℤ, moveCost c d (s, 0) = c ∧ moveCost c d (0, s) = c :=
    fun s => ⟨if_pos (Or.inr rfl), if_pos (Or.inl rfl)⟩
  rw [diagonalFirst, pathCost_append, pathCost_append, pathCost_replicate, pathCost_replicate,
    pathCost_replicate, diagonal_cost, (hstraight _).1, (hstraight _).2, octile_eq hcd,
    Int.abs_eq_natAbs, Int.abs_eq_natAbs]
  rcases Nat.le_total v.1.natAbs v.2.natAbs with h | h
  · rw [min_eq_left h, min_eq_left (by exact_mod_cast h), Nat.sub_eq_zero_of_le h, Nat.cast_sub h]
    push_cast
    ring
  · rw [min_eq_right h, min_eq_right (by exact_mod_cast h), Nat.sub_eq_zero_of_le h, Nat.cast_sub h]
    push_cast
    ring

/-- The cost of a cheapest path. -/
theorem isLeast_octile (hc : 0 ≤ c) (hd : c ≤ d) (hcd : d ≤ 2 * c) (v : ℤ × ℤ) :
    IsLeast {cost | ∃ path, LeadsTo path v ∧ pathCost c d path = cost} (octile c d v) := by
  constructor
  · exact ⟨diagonalFirst v, leadsTo_diagonalFirst v, pathCost_diagonalFirst hcd v⟩
  · rintro cost ⟨path, ⟨hmoves, rfl⟩, rfl⟩
    exact octile_le_pathCost hc hd hcd hmoves

end ScalBase.Foundation.GridPaths
