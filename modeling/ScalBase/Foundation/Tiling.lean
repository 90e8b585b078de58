/-
  Foundation/Tiling.lean --- blocks that tile an interval of addresses.

  A multiset of blocks tiles `[lo, hi)` when every address of the interval lies in
  exactly one of them and no other address lies in any.  Written as a count, the
  condition is additive in the blocks, so splitting, merging and moving the ends
  are sums over one or two blocks.
-/
import Mathlib.Tactic

set_option autoImplicit false

namespace ScalBase.Foundation

/-- The addresses `[start, start + size)`. -/
structure Block where
  start : Nat
  size : Nat
  deriving DecidableEq, Repr

namespace Block

/-- The address lies in the block. -/
def Covers (b : Block) (x : Nat) : Prop := b.start ≤ x ∧ x < b.start + b.size

instance (b : Block) : DecidablePred b.Covers := fun x =>
  inferInstanceAs (Decidable (b.start ≤ x ∧ x < b.start + b.size))

/-- The blocks have no address in common. -/
def Apart (b c : Block) : Prop := b.start + b.size ≤ c.start ∨ c.start + c.size ≤ b.start

end Block

/-- How many of the blocks the address lies in. -/
def cover (M : Multiset Block) (x : Nat) : Nat := M.countP fun b => b.Covers x

@[simp] theorem cover_zero (x : Nat) : cover 0 x = 0 := Multiset.countP_zero _

theorem cover_cons (b : Block) (M : Multiset Block) (x : Nat) :
    cover (b ::ₘ M) x = cover M x + if b.start ≤ x ∧ x < b.start + b.size then 1 else 0 :=
  Multiset.countP_cons _ b M

/-- The blocks tile `[lo, hi)`. -/
structure Tiles (lo hi : Nat) (M : Multiset Block) : Prop where
  le : lo ≤ hi
  pos : ∀ b ∈ M, 0 < b.size
  cover_eq : ∀ x, cover M x = if lo ≤ x ∧ x < hi then 1 else 0

namespace Tiles

variable {lo hi : Nat} {M : Multiset Block} {b c : Block}

theorem nil (lo : Nat) : Tiles lo lo 0 := by
  refine ⟨Nat.le_refl lo, fun b hb => absurd hb (Multiset.notMem_zero b), fun x => ?_⟩
  rw [cover_zero, if_neg (by omega)]

/-- Every block is inside the interval. -/
theorem bounds (h : Tiles lo hi M) (hb : b ∈ M) : lo ≤ b.start ∧ b.start + b.size ≤ hi := by
  obtain ⟨N, rfl⟩ := Multiset.exists_cons_of_mem hb
  have hpos := h.pos b hb
  have hcovered : ∀ x, b.start ≤ x ∧ x < b.start + b.size → lo ≤ x ∧ x < hi := by
    intro x hx
    by_contra hout
    have hx' := h.cover_eq x
    rw [cover_cons, if_pos hx, if_neg hout] at hx'
    omega
  have hfirst := hcovered b.start ⟨Nat.le_refl _, by omega⟩
  have hlast := hcovered (b.start + b.size - 1) ⟨by omega, by omega⟩
  omega

/-- Every address of the interval lies in a block. -/
theorem exists_covers (h : Tiles lo hi M) {x : Nat} (hlow : lo ≤ x) (hhigh : x < hi) :
    ∃ b ∈ M, b.Covers x := by
  have hcover := h.cover_eq x
  rw [if_pos ⟨hlow, hhigh⟩] at hcover
  apply Multiset.countP_pos.mp
  rw [cover] at hcover
  omega

/-- Two of the blocks have no address in common. -/
theorem apart_cons (h : Tiles lo hi (b ::ₘ c ::ₘ M)) : b.Apart c := by
  have hb := h.pos b (by simp)
  have hc := h.pos c (by simp)
  -- The larger of the two starts would lie in both.
  by_contra hmeet
  unfold Block.Apart at hmeet
  have hx := h.cover_eq (max b.start c.start)
  rw [cover_cons, cover_cons, if_pos (by omega), if_pos (by omega)] at hx
  split_ifs at hx
  omega

theorem apart (h : Tiles lo hi M) (hb : b ∈ M) (hc : c ∈ M) (hne : b ≠ c) : b.Apart c := by
  obtain ⟨N, rfl⟩ := Multiset.exists_cons_of_mem hb
  obtain ⟨N', rfl⟩ :=
    Multiset.exists_cons_of_mem ((Multiset.mem_cons.mp hc).resolve_left hne.symm)
  exact h.apart_cons

/-- An address lies in one block. -/
theorem eq_of_covers (h : Tiles lo hi M) {x : Nat} (hb : b ∈ M) (hc : c ∈ M) (hbx : b.Covers x)
    (hcx : c.Covers x) : b = c := by
  by_contra hne
  have hapart := h.apart hb hc hne
  unfold Block.Apart at hapart
  unfold Block.Covers at hbx hcx
  omega

/-- Blocks of two parts of a tiling have no address in common. -/
theorem apart_add {N : Multiset Block} (h : Tiles lo hi (M + N)) (hb : b ∈ M) (hc : c ∈ N) :
    b.Apart c := by
  obtain ⟨M', rfl⟩ := Multiset.exists_cons_of_mem hb
  obtain ⟨N', rfl⟩ := Multiset.exists_cons_of_mem hc
  rw [Multiset.cons_add, Multiset.add_cons] at h
  exact h.apart_cons

theorem start_ne {N : Multiset Block} (h : Tiles lo hi (M + N)) (hb : b ∈ M) (hc : c ∈ N) :
    b.start ≠ c.start := by
  have hpos := h.pos b (Multiset.mem_add.mpr (Or.inl hb))
  have hpos' := h.pos c (Multiset.mem_add.mpr (Or.inr hc))
  have hapart := h.apart_add hb hc
  unfold Block.Apart at hapart
  omega

/-- No block starts at an address inside a block. -/
theorem start_ne_inside {z : Nat} (h : Tiles lo hi M) (hb : b ∈ M) (hlow : b.start < z)
    (hhigh : z < b.start + b.size) : ∀ c ∈ M, c.start ≠ z := by
  intro c hc
  by_cases heq : c = b
  · rw [heq]
    exact hlow.ne
  · have hapart := h.apart hc hb heq
    have hpos := h.pos c hc
    simp only [Block.Apart] at hapart
    omega

/-- Where a block ends another one starts, or the interval ends. -/
theorem end_eq (h : Tiles lo hi M) (hb : b ∈ M) :
    b.start + b.size = hi ∨ ∃ c ∈ M, c.start = b.start + b.size := by
  have hbounds := h.bounds hb
  rcases hbounds.2.eq_or_lt with heq | hlt
  · exact Or.inl heq
  · right
    obtain ⟨c, hc, hcovers⟩ := h.exists_covers (hbounds.1.trans (Nat.le_add_right ..)) hlt
    have hne : c ≠ b := by
      rintro rfl
      exact absurd hcovers.2 (Nat.lt_irrefl _)
    have hapart := h.apart hc hb hne
    refine ⟨c, hc, hcovers.1.antisymm ?_⟩
    rcases hapart with hbelow | habove
    · exact absurd hcovers.2 (Nat.not_lt.mpr (hbelow.trans (Nat.le_add_right ..)))
    · exact habove

/-- A block whose size is a multiple of `d` starts at the residue of the end, if the other
blocks do. -/
theorem start_modEq {d : Nat} (h : Tiles lo hi M) (hb : b ∈ M) (hsize : d ∣ b.size)
    (hothers : ∀ c ∈ M, c.start ≠ b.start → c.start ≡ hi [MOD d]) : b.start ≡ hi [MOD d] := by
  have hend : b.start + b.size ≡ hi [MOD d] := by
    rcases h.end_eq hb with heq | ⟨c, hc, heq⟩
    · rw [heq]
    · have hpos := h.pos b hb
      rw [← heq]
      exact hothers c hc (by omega)
  exact (Nat.add_modEq_left_iff.mpr hsize).symm.trans hend

/-- The blocks of a list that is part of a tiling are pairwise apart. -/
theorem pairwise {bs : List Block} : ∀ {N : Multiset Block},
    Tiles lo hi ((bs : Multiset Block) + N) →
    bs.Pairwise Block.Apart := by
  induction bs with
  | nil => exact fun _ => List.Pairwise.nil
  | cons b bs ih =>
    intro N h
    rw [← Multiset.cons_coe, Multiset.cons_add, ← Multiset.singleton_add] at h
    refine List.pairwise_cons.mpr ⟨fun c hc => ?_, ?_⟩
    · exact h.apart_add (Multiset.mem_singleton_self b)
        (Multiset.mem_add.mpr (Or.inl (Multiset.mem_coe.mpr hc)))
    · rw [add_left_comm] at h
      exact ih h

/-- One more block below. -/
theorem extend {size : Nat} (h : Tiles (lo + size) hi M) (hsize : 0 < size) :
    Tiles lo hi (⟨lo, size⟩ ::ₘ M) := by
  have hle := h.le
  refine ⟨by omega, ?_, fun x => ?_⟩
  · intro b hb
    rcases Multiset.mem_cons.mp hb with rfl | hb
    · exact hsize
    · exact h.pos b hb
  · simp only [cover_cons, h.cover_eq]
    split_ifs <;> omega

/-- The lowest block goes. -/
theorem retract {size : Nat} (h : Tiles lo hi (⟨lo, size⟩ ::ₘ M)) : Tiles (lo + size) hi M := by
  have hbounds := h.bounds (Multiset.mem_cons_self _ _)
  refine ⟨hbounds.2, fun b hb => h.pos b (Multiset.mem_cons_of_mem hb), fun x => ?_⟩
  have hx := h.cover_eq x
  rw [cover_cons] at hx
  simp only at hx hbounds
  split_ifs at hx ⊢ <;> omega

/-- Two adjacent blocks become one. -/
theorem merge {start size size' : Nat}
    (h : Tiles lo hi (⟨start, size⟩ ::ₘ ⟨start + size, size'⟩ ::ₘ M)) :
    Tiles lo hi (⟨start, size + size'⟩ ::ₘ M) := by
  have hpos : 0 < size := h.pos ⟨start, size⟩ (by simp)
  refine ⟨h.le, ?_, fun x => ?_⟩
  · intro b hb
    rcases Multiset.mem_cons.mp hb with rfl | hb
    · exact Nat.add_pos_left hpos size'
    · exact h.pos b (by simp [hb])
  · have hx := h.cover_eq x
    simp only [cover_cons] at hx ⊢
    rw [← hx]
    split_ifs <;> omega

/-- One block becomes two. -/
theorem split {start size size' : Nat} (h : Tiles lo hi (⟨start, size + size'⟩ ::ₘ M))
    (hsize : 0 < size) (hsize' : 0 < size') :
    Tiles lo hi (⟨start, size⟩ ::ₘ ⟨start + size, size'⟩ ::ₘ M) := by
  refine ⟨h.le, ?_, fun x => ?_⟩
  · intro b hb
    rcases Multiset.mem_cons.mp hb with rfl | hb
    · exact hsize
    · rcases Multiset.mem_cons.mp hb with rfl | hb
      · exact hsize'
      · exact h.pos b (by simp [hb])
  · have hx := h.cover_eq x
    simp only [cover_cons] at hx ⊢
    rw [← hx]
    split_ifs <;> omega

/-- The sizes add up to the length of the interval. -/
theorem sum_sizes (h : Tiles lo hi M) : (M.map Block.size).sum = hi - lo := by
  -- Both sides count the pairs of a block and an address in it.
  have hcount : ∀ N : Multiset Block, (∀ b ∈ N, b.start + b.size ≤ hi) →
      ∑ x ∈ Finset.range hi, cover N x = (N.map Block.size).sum := by
    intro N
    induction N using Multiset.induction with
    | empty => simp
    | cons b N ih =>
      intro hbounds
      have hb := hbounds b (Multiset.mem_cons_self b N)
      have hfilter : (Finset.range hi).filter (fun x => b.start ≤ x ∧ x < b.start + b.size) =
          Finset.Ico b.start (b.start + b.size) := by
        ext x
        simp only [Finset.mem_filter, Finset.mem_range, Finset.mem_Ico]
        omega
      simp only [cover_cons, Finset.sum_add_distrib, Multiset.map_cons, Multiset.sum_cons]
      rw [ih fun c hc => hbounds c (Multiset.mem_cons_of_mem hc), Finset.sum_boole, hfilter,
        Nat.card_Ico]
      simp [Nat.add_comm]
  rw [← hcount M fun b hb => (h.bounds hb).2]
  have hfilter : (Finset.range hi).filter (fun x => lo ≤ x ∧ x < hi) = Finset.Ico lo hi := by
    ext x
    simp only [Finset.mem_filter, Finset.mem_range, Finset.mem_Ico]
    omega
  rw [Finset.sum_congr rfl fun x _ => h.cover_eq x, Finset.sum_boole, hfilter, Nat.card_Ico]
  rfl

/-- Blocks that are pairwise apart cover an address once or not at all. -/
theorem cover_le_one {bs : List Block} (hapart : bs.Pairwise Block.Apart) (x : Nat) :
    cover (bs : Multiset Block) x ≤ 1 := by
  induction bs with
  | nil => exact Nat.zero_le 1
  | cons b bs ih =>
    obtain ⟨hb, hbs⟩ := List.pairwise_cons.mp hapart
    rw [← Multiset.cons_coe, cover_cons]
    split_ifs with hx
    · have hnone : cover (bs : Multiset Block) x = 0 := by
        apply Multiset.countP_eq_zero.mpr
        intro c hc hcx
        have hbc := hb c (Multiset.mem_coe.mp hc)
        simp only [Block.Apart] at hbc
        simp only [Block.Covers] at hcx
        omega
      omega
    · exact ih hbs

/-- Blocks that are pairwise apart are part of a tiling: the addresses between them are
blocks of their own. -/
theorem exists_rest {bs : List Block} (hle : lo ≤ hi) (hpos : ∀ b ∈ bs, 0 < b.size)
    (hbounds : ∀ b ∈ bs, lo ≤ b.start ∧ b.start + b.size ≤ hi) (hapart : bs.Pairwise Block.Apart) :
    ∃ rest, Tiles lo hi ((bs : Multiset Block) + rest) := by
  let free := (Finset.Ico lo hi).filter fun x => cover (bs : Multiset Block) x = 0
  have hfree : ∀ x, cover (free.val.map fun y => ⟨y, 1⟩) x = if x ∈ free then 1 else 0 := by
    intro x
    have hcovers : ∀ y, (⟨y, 1⟩ : Block).Covers x ↔ x = y := by
      intro y
      simp only [Block.Covers]
      omega
    rw [cover, Multiset.countP_map, ← Multiset.countP_eq_card_filter]
    simp only [hcovers]
    exact Multiset.count_eq_of_nodup free.nodup
  refine ⟨free.val.map fun y => ⟨y, 1⟩, hle, ?_, fun x => ?_⟩
  · intro b hb
    rcases Multiset.mem_add.mp hb with hb | hb
    · exact hpos b (Multiset.mem_coe.mp hb)
    · obtain ⟨y, -, rfl⟩ := Multiset.mem_map.mp hb
      exact Nat.one_pos
  · have hone := cover_le_one hapart x
    have hout : ¬ (lo ≤ x ∧ x < hi) → cover (bs : Multiset Block) x = 0 := by
      intro hx
      apply Multiset.countP_eq_zero.mpr
      intro b hb hbx
      have hin := hbounds b (Multiset.mem_coe.mp hb)
      simp only [Block.Covers] at hbx
      omega
    have hadd : cover ((bs : Multiset Block) + free.val.map fun y => ⟨y, 1⟩) x =
        cover (bs : Multiset Block) x + cover (free.val.map fun y => ⟨y, 1⟩) x :=
      Multiset.countP_add ..
    rw [hadd, hfree]
    simp only [free, Finset.mem_filter, Finset.mem_Ico]
    split_ifs <;> omega

/-- There are no more blocks than addresses. -/
theorem card_le (h : Tiles lo hi M) : Multiset.card M ≤ hi - lo := by
  have hone : ∀ n ∈ M.map Block.size, 1 ≤ n := by
    intro n hn
    obtain ⟨b, hb, rfl⟩ := Multiset.mem_map.mp hn
    exact h.pos b hb
  have hle := Multiset.card_nsmul_le_sum hone
  rwa [h.sum_sizes, Multiset.card_map, smul_eq_mul, Nat.mul_one] at hle

end Tiles

end ScalBase.Foundation
