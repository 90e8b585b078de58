/-
  Vec2i.lean --- the integer vectors of `Lib/Vec2i.h`.

  `int` is a 32-bit and `i64` a 64-bit word, and a shift of a negative one shifts its
  bits.  An `int` as a `float` is kept as the integer that it is rounded to.
  `zpl_abs` is not part of this library; it is the argument `zplAbs`.

  `Vec2iPackInt64` widens `y` with its sign and does not mask it, so the upper half of
  the result is that of `x` only for `y` from 0 on (`vec2iPackInt64_lossless_iff`).
  `ManhattanDistanceWithCosts` is the cost of a cheapest path on the grid.
  `ManhattanDistance` is the larger of the distances in `x` and `y`, and the cost that its
  comment names only where one of them is zero (`manhattanDistance_isLeast_iff`).
-/
import ScalBase.Foundation.GridPaths

set_option autoImplicit false

namespace ScalBase.Vectors

open Foundation.GridPaths

/-! ## Vectors -/

structure Vec2i where
  x : BitVec 32
  y : BitVec 32
  deriving DecidableEq, Repr

def Vec2i.up : Vec2i := ⟨0, -1⟩
def Vec2i.down : Vec2i := ⟨0, 1⟩
def Vec2i.left : Vec2i := ⟨-1, 0⟩
def Vec2i.right : Vec2i := ⟨1, 0⟩
def Vec2i.nw : Vec2i := ⟨-1, 1⟩
def Vec2i.ne : Vec2i := ⟨1, 1⟩
def Vec2i.sw : Vec2i := ⟨-1, -1⟩
def Vec2i.se : Vec2i := ⟨1, -1⟩

/-- `Vec2i_CARDINALS`. -/
def cardinals : List Vec2i := [.up, .right, .down, .left]

/-- `Vec2i_NEIGHTBORS`. -/
def neightbors : List Vec2i := [.nw, .up, .ne, .left, .right, .sw, .down, .se]

/-! ## Packing -/

/-- `Vec2iPackInt64`. -/
def vec2iPackInt64 (v : Vec2i) : BitVec 64 :=
  (v.x.signExtend 64 <<< 32) ||| v.y.signExtend 64

/-- `Vec2iUnpackInt64`. -/
def vec2iUnpackInt64 (packedI64 : BitVec 64) : Vec2i :=
  ⟨(packedI64.sshiftRight 32).setWidth 32, packedI64.setWidth 32⟩

/-- The lower half of a packed vector is `y`, and the upper one is `x` where `y` is not
negative. -/
theorem getLsbD_pack (v : Vec2i) {i : Nat} (hi : i < 32) :
    (vec2iPackInt64 v).getLsbD i = v.y.getLsbD i ∧
      (vec2iPackInt64 v).getLsbD (32 + i) = (v.x.getLsbD i || v.y.msb) := by
  have hlow : i < 64 := by omega
  have hhigh : 32 + i < 64 := by omega
  constructor
  · simp [vec2iPackInt64, BitVec.getElem_signExtend, hi, hlow]
  · simp [vec2iPackInt64, BitVec.getElem_signExtend, hi, hhigh]

theorem getLsbD_unpack (p : BitVec 64) {i : Nat} (hi : i < 32) :
    (vec2iUnpackInt64 p).x.getLsbD i = p.getLsbD (32 + i) ∧
      (vec2iUnpackInt64 p).y.getLsbD i = p.getLsbD i := by
  have hlow : i < 64 := by omega
  have hhigh : 32 + i < 64 := by omega
  constructor
  · simp [vec2iUnpackInt64, BitVec.getElem_sshiftRight, hi, hlow, hhigh]
  · simp [vec2iUnpackInt64, hi]

/-- What comes back: the sign of `y` is in every bit of `x`. -/
theorem unpack_pack (v : Vec2i) :
    vec2iUnpackInt64 (vec2iPackInt64 v) = ⟨if v.y.msb then -1 else v.x, v.y⟩ := by
  have hx : (vec2iUnpackInt64 (vec2iPackInt64 v)).x = if v.y.msb then -1 else v.x := by
    refine BitVec.eq_of_getLsbD_eq fun i hi => ?_
    rw [(getLsbD_unpack _ hi).1, (getLsbD_pack v hi).2]
    cases v.y.msb with
    | false => exact Bool.or_false _
    | true =>
      have hones : (-1 : BitVec 32) = BitVec.allOnes 32 := by decide
      rw [Bool.or_true, if_pos rfl, hones, BitVec.getLsbD_allOnes, decide_eq_true hi]
  have hy : (vec2iUnpackInt64 (vec2iPackInt64 v)).y = v.y := by
    refine BitVec.eq_of_getLsbD_eq fun i hi => ?_
    rw [(getLsbD_unpack _ hi).2, (getLsbD_pack v hi).1]
  rw [← hx, ← hy]

/-- A packed value is its two halves. -/
theorem unpack_injective : Function.Injective vec2iUnpackInt64 := by
  intro p q hpq
  refine BitVec.eq_of_getLsbD_eq fun i hi => ?_
  rcases Nat.lt_or_ge i 32 with hlow | hhigh
  · rw [← (getLsbD_unpack p hlow).2, ← (getLsbD_unpack q hlow).2, hpq]
  · obtain ⟨j, rfl⟩ := Nat.exists_eq_add_of_le hhigh
    have hj : j < 32 := by omega
    rw [← (getLsbD_unpack p hj).1, ← (getLsbD_unpack q hj).1, hpq]

/-- `y` is not negative, or the bits of `x` are those that its sign puts there. -/
theorem unpack_pack_iff (v : Vec2i) :
    vec2iUnpackInt64 (vec2iPackInt64 v) = v ↔ v.y.msb = false ∨ v.x = -1 := by
  obtain ⟨x, y⟩ := v
  rw [unpack_pack]
  cases hmsb : y.msb with
  | false => simp
  | true => simp [eq_comm]

theorem unpack_x (p : BitVec 64) : (vec2iUnpackInt64 p).x = p.extractLsb' 32 32 := by
  refine BitVec.eq_of_getLsbD_eq fun i hi => ?_
  rw [(getLsbD_unpack p hi).1, BitVec.getLsbD_extractLsb']
  simp [hi]

theorem unpack_y_msb (p : BitVec 64) : (vec2iUnpackInt64 p).y.msb = p.getLsbD 31 := by
  rw [BitVec.msb_eq_getLsbD_last]
  exact (getLsbD_unpack p (by decide)).2

theorem pack_unpack_iff (p : BitVec 64) :
    vec2iPackInt64 (vec2iUnpackInt64 p) = p ↔ p.getLsbD 31 = false ∨ p.extractLsb' 32 32 = -1 := by
  rw [← unpack_injective.eq_iff, unpack_pack_iff, unpack_y_msb, unpack_x]

/-- No other vector packs to the same value. -/
theorem pack_unique_iff (v : Vec2i) :
    (∀ w, vec2iPackInt64 w = vec2iPackInt64 v → w = v) ↔ v.y.msb = false := by
  constructor
  · intro h
    by_contra hmsb
    -- Flipping the bits of `x` changes nothing in the packed value.
    have hflip := h ⟨~~~v.x, v.y⟩ (unpack_injective (by simp [unpack_pack, hmsb]))
    have hx : ~~~v.x = v.x := congrArg Vec2i.x hflip
    have hbit := congrArg (BitVec.getLsbD · 0) hx
    simp at hbit
  · intro hmsb w hw
    have hunpack := congrArg vec2iUnpackInt64 hw
    rw [unpack_pack, unpack_pack, Vec2i.mk.injEq] at hunpack
    obtain ⟨hx, hy⟩ := hunpack
    rw [hy, hmsb] at hx
    obtain ⟨x, y⟩ := w
    obtain ⟨x', y'⟩ := v
    exact congrArg₂ Vec2i.mk hx hy

/-- A vector comes back from its packed value exactly when its `y` is not negative or its
`x` is -1, and a packed value from its vector exactly when bit 31 is clear or the upper
half is -1; no other vector packs to the same value exactly when `y` is not negative. -/
theorem vec2iPackInt64_lossless_iff (v : Vec2i) (p : BitVec 64) :
    (vec2iUnpackInt64 (vec2iPackInt64 v) = v ↔ 0 ≤ v.y.toInt ∨ v.x = -1) ∧
    (vec2iPackInt64 (vec2iUnpackInt64 p) = p ↔
      p.getLsbD 31 = false ∨ p.extractLsb' 32 32 = -1) ∧
    ((∀ w, vec2iPackInt64 w = vec2iPackInt64 v → w = v) ↔ 0 ≤ v.y.toInt) := by
  have hsign : 0 ≤ v.y.toInt ↔ v.y.msb = false := by
    rw [← Bool.not_eq_true, BitVec.msb_eq_toInt, decide_eq_true_iff, not_lt]
  rw [hsign]
  exact ⟨unpack_pack_iff v, pack_unpack_iff p, pack_unique_iff v⟩

/-- `Vec2i_UP` comes back as `Vec2i_SW`, and packs to the same value as `Vec2i_SE`. -/
theorem pack_up : vec2iUnpackInt64 (vec2iPackInt64 .up) = .sw ∧ Vec2i.sw ≠ .up ∧
    vec2iPackInt64 .up = vec2iPackInt64 .se ∧ Vec2i.up ≠ .se ∧
    vec2iPackInt64 (vec2iUnpackInt64 0xffffffff) ≠ 0xffffffff := by
  decide

/-! ## Distances -/

/-- `(float)n` of a non-negative `n`: a multiple of the last of 24 binary digits, the
nearest one and of two such the even one. -/
def roundToFloat (n : ℕ) : ℕ :=
  let ulp := 2 ^ (n.log2 - 23)
  let above := 2 * (n % ulp) > ulp ∨ 2 * (n % ulp) = ulp ∧ n / ulp % 2 = 1
  (if above then n / ulp + 1 else n / ulp) * ulp

/-- `(float)n`. -/
def toFloat (n : BitVec 32) : ℤ := n.toInt.sign * roundToFloat n.toInt.natAbs

/-- `(int)f`. -/
def ofFloat (f : ℤ) : BitVec 32 := BitVec.ofInt 32 f

/-- `Min`. -/
def minMacro (v0 v1 : ℤ) : ℤ := if v0 < v1 then v0 else v1

/-- `Max`. -/
def maxMacro (v0 v1 : BitVec 32) : BitVec 32 := if v1.slt v0 then v0 else v1

section Costs

variable (zplAbs : BitVec 32 → BitVec 32)

/-- `ManhattanDistance`. -/
def Vec2i.manhattanDistance (v o : Vec2i) : BitVec 32 :=
  let xLength := zplAbs (v.x - o.x)
  let yLength := zplAbs (v.y - o.y)
  maxMacro xLength yLength

/-- `ManhattanDistanceWithCosts`. -/
def Vec2i.manhattanDistanceWithCosts (v o : Vec2i) : BitVec 32 :=
  let moveCost : BitVec 32 := 10
  let diagonalCost : BitVec 32 := 14
  let xLength := zplAbs (v.x - o.x)
  let yLength := zplAbs (v.y - o.y)
  moveCost * (xLength + yLength) +
    (diagonalCost - 2 * moveCost) * ofFloat (minMacro (toFloat xLength) (toFloat yLength))

end Costs

theorem roundToFloat_eq {n : ℕ} (h : 2 ^ (n.log2 - 23) ∣ n) : roundToFloat n = n := by
  have hmod := Nat.mod_eq_zero_of_dvd h
  have hpos : 0 < 2 ^ (n.log2 - 23) := Nat.two_pow_pos _
  have hnot : ¬ (2 * (n % 2 ^ (n.log2 - 23)) > 2 ^ (n.log2 - 23) ∨
      2 * (n % 2 ^ (n.log2 - 23)) = 2 ^ (n.log2 - 23) ∧ n / 2 ^ (n.log2 - 23) % 2 = 1) := by
    rw [hmod]
    omega
  simp only [roundToFloat]
  rw [if_neg hnot]
  exact Nat.div_mul_cancel h

/-- Up to 2^24 an `int` is a `float`. -/
theorem roundToFloat_of_le {n : ℕ} (h : n ≤ 2 ^ 24) : roundToFloat n = n := by
  apply roundToFloat_eq
  rcases Nat.lt_or_eq_of_le h with hlt | rfl
  · have hlog : n.log2 - 23 = 0 := by
      rcases Nat.eq_zero_or_pos n with rfl | hpos
      · rfl
      · have := (Nat.log2_lt hpos.ne').mpr hlt
        omega
    rw [hlog]
    exact one_dvd n
  · decide

theorem toFloat_of_le {n : BitVec 32} (h : |n.toInt| ≤ 2 ^ 24) : toFloat n = n.toInt := by
  have hnat : n.toInt.natAbs ≤ 2 ^ 24 := by
    rw [Int.abs_eq_natAbs] at h
    exact_mod_cast h
  rw [toFloat, roundToFloat_of_le hnat, Int.sign_mul_natAbs]

theorem toInt_sub_of_le {a b : BitVec 32} (h : |a.toInt - b.toInt| ≤ 2 ^ 24) :
    (a - b).toInt = a.toInt - b.toInt := by
  obtain ⟨hlow, hhigh⟩ := abs_le.mp h
  rw [BitVec.toInt_sub]
  apply Int.bmod_eq_of_le <;> omega

/-- Where the vector stands on the grid. -/
def Vec2i.position (v : Vec2i) : ℤ × ℤ := (v.x.toInt, v.y.toInt)

/-- 10 for a cardinal and 14 for a diagonal move. -/
def neightborCost (v : Vec2i) : ℤ := if v ∈ cardinals then 10 else 14

/-- Moves that lead from `v` to `o`. -/
structure IsPath (v o : Vec2i) (path : List Vec2i) : Prop where
  moves : ∀ m ∈ path, m ∈ neightbors
  leads : v.position + (path.map Vec2i.position).sum = o.position

theorem neightbors_isMove : ∀ v ∈ neightbors, IsMove v.position ∧
    ∀ c d : ℤ, (if v ∈ cardinals then c else d) = moveCost c d v.position := by
  have hmem : ∀ v ∈ neightbors,
      v ∈ cardinals ↔ v.position.1 = 0 ∨ v.position.2 = 0 := by decide
  intro v hv
  refine ⟨?_, fun c d => if_congr (hmem v hv) rfl rfl⟩
  revert v
  simp only [neightbors, List.forall_mem_cons, List.not_mem_nil, false_imp_iff, implies_true,
    IsMove]
  decide

theorem exists_neightbor {m : ℤ × ℤ} (hm : IsMove m) : ∃ v ∈ neightbors, v.position = m := by
  obtain ⟨x, y⟩ := m
  obtain ⟨hx, hy, hne⟩ := hm
  obtain ⟨hx1, hx2⟩ := abs_le.mp hx
  obtain ⟨hy1, hy2⟩ := abs_le.mp hy
  simp only at hx1 hx2 hy1 hy2
  refine ⟨⟨BitVec.ofInt 32 x, BitVec.ofInt 32 y⟩, ?_⟩
  interval_cases x <;> interval_cases y <;> first | exact absurd rfl hne | decide

/-- The cost of a path for a cost of cardinal and one of diagonal moves. -/
def costOf (c d : ℤ) (path : List Vec2i) : ℤ :=
  (path.map fun v => if v ∈ cardinals then c else d).sum

theorem costOf_eq (c d : ℤ) {path : List Vec2i} (h : ∀ v ∈ path, v ∈ neightbors) :
    costOf c d path = pathCost c d (path.map Vec2i.position) := by
  rw [costOf, pathCost, List.map_map]
  exact congrArg List.sum (List.map_congr_left fun v hv => (neightbors_isMove v (h v hv)).2 c d)

/-- The paths between vectors are those between their positions. -/
theorem costs_eq (c d : ℤ) (v o : Vec2i) :
    {cost | ∃ path, IsPath v o path ∧ costOf c d path = cost} =
      {cost | ∃ path, LeadsTo path (o.position - v.position) ∧ pathCost c d path = cost} := by
  ext cost
  constructor
  · rintro ⟨path, ⟨hmoves, hleads⟩, rfl⟩
    refine ⟨path.map Vec2i.position, ⟨?_, eq_sub_of_add_eq' hleads⟩, (costOf_eq c d hmoves).symm⟩
    intro m hm
    obtain ⟨v, hv, rfl⟩ := List.mem_map.mp hm
    exact (neightbors_isMove v (hmoves v hv)).1
  · rintro ⟨path, ⟨hmoves, hsum⟩, rfl⟩
    obtain ⟨vs, hvs, rfl⟩ : ∃ vs : List Vec2i, (∀ v ∈ vs, v ∈ neightbors) ∧
        vs.map Vec2i.position = path := by
      clear hsum
      induction path with
      | nil => exact ⟨[], fun v hv => absurd hv List.not_mem_nil, rfl⟩
      | cons m path ih =>
        obtain ⟨vs, hvs, rfl⟩ := ih fun n hn => hmoves n (List.mem_cons_of_mem m hn)
        obtain ⟨v, hv, rfl⟩ := exists_neightbor (hmoves m (List.mem_cons_self ..))
        exact ⟨v :: vs, List.forall_mem_cons.mpr ⟨hv, hvs⟩, rfl⟩
    exact ⟨vs, ⟨hvs, by rw [hsum, add_sub_cancel]⟩, costOf_eq c d hvs⟩

section Distance

variable {zplAbs : BitVec 32 → BitVec 32}
  (hzplAbs : ∀ n, n ≠ BitVec.intMin 32 → (zplAbs n).toInt = |n.toInt|)

include hzplAbs

theorem zplAbs_sub {a b : BitVec 32} (h : |a.toInt - b.toInt| ≤ 2 ^ 24) :
    (zplAbs (a - b)).toInt = |a.toInt - b.toInt| := by
  have hsub := toInt_sub_of_le h
  rw [← hsub] at h ⊢
  apply hzplAbs
  intro hmin
  rw [hmin] at h
  exact absurd h (by decide)

/-- No step of the computation leaves the range of an `int`. -/
theorem manhattanDistanceWithCosts_eq {a b : Vec2i} (hx : |a.x.toInt - b.x.toInt| ≤ 2 ^ 24)
    (hy : |a.y.toInt - b.y.toInt| ≤ 2 ^ 24) :
    (a.manhattanDistanceWithCosts zplAbs b).toInt =
      10 * (|a.x.toInt - b.x.toInt| + |a.y.toInt - b.y.toInt|) +
        (14 - 2 * 10) * min |a.x.toInt - b.x.toInt| |a.y.toInt - b.y.toInt| := by
  have hX := zplAbs_sub hzplAbs hx
  have hY := zplAbs_sub hzplAbs hy
  have hx0 := abs_nonneg (a.x.toInt - b.x.toInt)
  have hy0 := abs_nonneg (a.y.toInt - b.y.toInt)
  have hfx := toFloat_of_le (n := zplAbs (a.x - b.x)) (by rwa [hX, abs_abs])
  have hfy := toFloat_of_le (n := zplAbs (a.y - b.y)) (by rwa [hY, abs_abs])
  rw [hX] at hfx
  rw [hY] at hfy
  have hxv : zplAbs (a.x - b.x) = BitVec.ofInt 32 |a.x.toInt - b.x.toInt| := by
    rw [← hX, BitVec.ofInt_toInt]
  have hyv : zplAbs (a.y - b.y) = BitVec.ofInt 32 |a.y.toInt - b.y.toInt| := by
    rw [← hY, BitVec.ofInt_toInt]
  generalize |a.x.toInt - b.x.toInt| = X at *
  generalize |a.y.toInt - b.y.toInt| = Y at *
  have hmin : minMacro X Y = min X Y := by
    rw [minMacro, min_def]
    split_ifs <;> omega
  have hsum : a.manhattanDistanceWithCosts zplAbs b =
      BitVec.ofInt 32 (10 * (X + Y) + (14 - 2 * 10) * min X Y) := by
    rw [Vec2i.manhattanDistanceWithCosts, hfx, hfy, hxv, hyv, hmin, ofFloat, BitVec.ofInt_add,
      BitVec.ofInt_mul, BitVec.ofInt_add, BitVec.ofInt_mul]
    rfl
  rw [hsum]
  apply BitVec.toInt_ofInt_eq_self <;> omega

/-- What `ManhattanDistanceWithCosts` returns is the least cost of a path. -/
theorem manhattanDistanceWithCosts_isLeast {a b : Vec2i} (hx : |a.x.toInt - b.x.toInt| ≤ 2 ^ 24)
    (hy : |a.y.toInt - b.y.toInt| ≤ 2 ^ 24) :
    IsLeast {cost | ∃ path, IsPath a b path ∧ (path.map neightborCost).sum = cost}
      (a.manhattanDistanceWithCosts zplAbs b).toInt := by
  have hoctile := octile_eq (c := 10) (d := 14) (by norm_num) (b.position - a.position)
  have hx' : |(b.position - a.position).1| = |a.x.toInt - b.x.toInt| := abs_sub_comm _ _
  have hy' : |(b.position - a.position).2| = |a.y.toInt - b.y.toInt| := abs_sub_comm _ _
  rw [hx', hy', ← manhattanDistanceWithCosts_eq hzplAbs hx hy] at hoctile
  have hcosts : {cost | ∃ path, IsPath a b path ∧ (path.map neightborCost).sum = cost} = _ :=
    costs_eq 10 14 a b
  rw [hcosts, ← hoctile]
  apply isLeast_octile <;> norm_num

omit hzplAbs in
/-- Three moves, two of them diagonal. -/
theorem manhattanDistanceWithCosts_three :
    IsLeast {cost | ∃ path, IsPath ⟨1, -1⟩ ⟨-1, 2⟩ path ∧ (path.map neightborCost).sum = cost}
      38 := by
  have hleast := @manhattanDistanceWithCosts_isLeast BitVec.abs (fun n hn => by
    rw [BitVec.toInt_abs_eq_natAbs, if_neg hn, Int.abs_eq_natAbs]) ⟨1, -1⟩ ⟨-1, 2⟩
    (by decide) (by decide)
  have hvalue : ((⟨1, -1⟩ : Vec2i).manhattanDistanceWithCosts BitVec.abs ⟨-1, 2⟩).toInt = 38 := by
    decide
  rwa [hvalue] at hleast

/-- What `ManhattanDistance` returns where no distance leaves the range of an `int`. -/
theorem manhattanDistance_eq {a b : Vec2i} (hx : ¬ BitVec.ssubOverflow a.x b.x)
    (hy : ¬ BitVec.ssubOverflow a.y b.y) (hxmin : a.x - b.x ≠ BitVec.intMin 32)
    (hymin : a.y - b.y ≠ BitVec.intMin 32) :
    (a.manhattanDistance zplAbs b).toInt =
      max |(b.position - a.position).1| |(b.position - a.position).2| := by
  have hX := hzplAbs _ hxmin
  have hY := hzplAbs _ hymin
  rw [BitVec.toInt_sub_of_not_ssubOverflow hx, abs_sub_comm] at hX
  rw [BitVec.toInt_sub_of_not_ssubOverflow hy, abs_sub_comm] at hY
  have hX' : (zplAbs (a.x - b.x)).toInt = |(b.position - a.position).1| := hX
  have hY' : (zplAbs (a.y - b.y)).toInt = |(b.position - a.position).2| := hY
  rw [← hX', ← hY', Vec2i.manhattanDistance, maxMacro, BitVec.slt_eq_decide]
  by_cases h : (zplAbs (a.y - b.y)).toInt < (zplAbs (a.x - b.x)).toInt
  · simp [h, max_eq_left h.le]
  · simp [h, max_eq_right (not_lt.mp h)]

omit hzplAbs in
/-- The distance from one coordinate to another, where it is the one that an `int` cannot
hold, is 2^31. -/
theorem abs_sub_intMin {x y : BitVec 32} (h : ¬ BitVec.ssubOverflow x y)
    (hmin : x - y = BitVec.intMin 32) : |y.toInt - x.toInt| = 2 ^ 31 := by
  rw [abs_sub_comm, ← BitVec.toInt_sub_of_not_ssubOverflow h, hmin]
  decide

omit hzplAbs in
theorem octile_one_two (v : ℤ × ℤ) : octile 1 2 v = |v.1| + |v.2| := by
  rw [octile_eq (by norm_num)]
  ring

omit hzplAbs in
theorem abs_sub_toInt_eq_zero {x y : BitVec 32} : |y.toInt - x.toInt| = 0 ↔ x = y := by
  rw [abs_eq_zero, sub_eq_zero, BitVec.toInt_inj, eq_comm]

omit hzplAbs in
theorem max_eq_add_iff {m n : ℤ} (hm : 0 ≤ m) (hn : 0 ≤ n) :
    max m n = m + n ↔ m = 0 ∨ n = 0 := by
  omega

/-- `ManhattanDistance` is the least cost, at 1 for a cardinal and 2 for a diagonal move,
exactly where the vectors have a coordinate in common and their distance is an `int`. -/
theorem manhattanDistance_isLeast_iff {a b : Vec2i} (hx : ¬ BitVec.ssubOverflow a.x b.x)
    (hy : ¬ BitVec.ssubOverflow a.y b.y) :
    IsLeast {cost | ∃ path, IsPath a b path ∧ costOf 1 2 path = cost}
        (a.manhattanDistance zplAbs b).toInt ↔
      (a.x = b.x ∨ a.y = b.y) ∧ a.x - b.x ≠ BitVec.intMin 32 ∧ a.y - b.y ≠ BitVec.intMin 32 := by
  have hleast : IsLeast {cost | ∃ path, IsPath a b path ∧ costOf 1 2 path = cost}
      (|(b.position - a.position).1| + |(b.position - a.position).2|) := by
    rw [costs_eq, ← octile_one_two]
    apply isLeast_octile <;> norm_num
  have hvalue : IsLeast {cost | ∃ path, IsPath a b path ∧ costOf 1 2 path = cost}
      (a.manhattanDistance zplAbs b).toInt ↔ (a.manhattanDistance zplAbs b).toInt =
        |(b.position - a.position).1| + |(b.position - a.position).2| :=
    ⟨fun h => h.unique hleast, fun h => h ▸ hleast⟩
  have hsame : max |(b.position - a.position).1| |(b.position - a.position).2| =
      |(b.position - a.position).1| + |(b.position - a.position).2| ↔ a.x = b.x ∨ a.y = b.y := by
    rw [max_eq_add_iff (abs_nonneg _) (abs_nonneg _)]
    exact or_congr abs_sub_toInt_eq_zero abs_sub_toInt_eq_zero
  have hx0 := abs_nonneg (b.position - a.position).1
  have hy0 := abs_nonneg (b.position - a.position).2
  have hlt := (a.manhattanDistance zplAbs b).toInt_lt
  rw [hvalue]
  constructor
  · intro heq
    have hxmin : a.x - b.x ≠ BitVec.intMin 32 := by
      intro hmin
      have h31 : |(b.position - a.position).1| = 2 ^ 31 := abs_sub_intMin hx hmin
      omega
    have hymin : a.y - b.y ≠ BitVec.intMin 32 := by
      intro hmin
      have h31 : |(b.position - a.position).2| = 2 ^ 31 := abs_sub_intMin hy hmin
      omega
    rw [manhattanDistance_eq hzplAbs hx hy hxmin hymin, hsame] at heq
    exact ⟨heq, hxmin, hymin⟩
  · rintro ⟨hcommon, hxmin, hymin⟩
    rw [manhattanDistance_eq hzplAbs hx hy hxmin hymin]
    exact hsame.mpr hcommon

omit hzplAbs in
/-- Two moves up. -/
theorem manhattanDistance_isLeast_up :
    IsLeast {cost | ∃ path, IsPath ⟨0, 2⟩ ⟨0, 0⟩ path ∧ costOf 1 2 path = cost}
      ((⟨0, 2⟩ : Vec2i).manhattanDistance BitVec.abs ⟨0, 0⟩).toInt :=
  (@manhattanDistance_isLeast_iff BitVec.abs (fun n hn => by
    rw [BitVec.toInt_abs_eq_natAbs, if_neg hn, Int.abs_eq_natAbs]) ⟨0, 2⟩ ⟨0, 0⟩
    (by decide) (by decide)).mpr (by decide)

omit hzplAbs in
/-- One diagonal move costs 2, and `ManhattanDistance` is 1. -/
theorem manhattanDistance_diagonal :
    ¬ IsLeast {cost | ∃ path, IsPath ⟨0, 0⟩ ⟨1, 1⟩ path ∧ costOf 1 2 path = cost}
      ((⟨0, 0⟩ : Vec2i).manhattanDistance BitVec.abs ⟨1, 1⟩).toInt := by
  have hvalue : ((⟨0, 0⟩ : Vec2i).manhattanDistance BitVec.abs ⟨1, 1⟩).toInt = 1 := by decide
  rw [hvalue, costs_eq]
  intro hleast
  have hoctile := isLeast_octile (c := 1) (d := 2) (by norm_num) (by norm_num) (by norm_num)
    ((⟨1, 1⟩ : Vec2i).position - (⟨0, 0⟩ : Vec2i).position)
  exact absurd (hleast.unique hoctile) (by rw [octile_one_two]; decide)

end Distance

end ScalBase.Vectors
