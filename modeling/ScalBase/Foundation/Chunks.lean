/-
  Foundation/Chunks.lean --- an interval cut into chunks of one size.

  Chunk `k` of the numbers below `n` is those from `k * c` on, at most `c` of them.
  As many chunks as rounding `n / c` up gives are not empty, and one after the other
  they are all numbers below `n`.
-/
import Mathlib.Tactic

set_option autoImplicit false

namespace ScalBase.Foundation.Chunks

/-- The number of chunks. -/
def chunkCount (n c : Nat) : Nat := (n + c - 1) / c

/-- The numbers of chunk `k`. -/
def chunk (n c k : Nat) : List Nat := List.range' (k * c) (min (k * c + c) n - k * c)

variable {n c k : Nat} (hc : 0 < c)

include hc

/-- The chunks counted are those that begin below `n`. -/
theorem lt_chunkCount_iff : k < chunkCount n c ↔ k * c < n := by
  rw [chunkCount, ← Nat.succ_le_iff, Nat.le_div_iff_mul_le hc, Nat.succ_mul]
  omega

theorem le_chunkCount_mul : n ≤ chunkCount n c * c := by
  have hlast := (lt_chunkCount_iff (n := n) hc).not.mp (Nat.lt_irrefl _)
  exact Nat.not_lt.mp hlast

omit hc in
/-- The chunks so far are the numbers up to the end of the last one. -/
theorem flatMap_chunk_range (m : Nat) :
    (List.range m).flatMap (chunk n c) = List.range (min (m * c) n) := by
  induction m with
  | zero => simp
  | succ m ih =>
    rw [List.range_succ, List.flatMap_append, List.flatMap_singleton, ih, chunk, Nat.succ_mul]
    rcases Nat.lt_or_ge (m * c) n with hlt | hge
    · rw [Nat.min_eq_left hlt.le, List.range_eq_range', List.range_eq_range']
      have happend := List.range'_append_1 (s := 0) (m := m * c) (n := min (m * c + c) n - m * c)
      rw [Nat.zero_add] at happend
      rw [happend]
      congr 1
      omega
    · rw [Nat.min_eq_right hge, Nat.min_eq_right (Nat.le_add_right_of_le hge),
        Nat.sub_eq_zero_of_le hge]
      exact List.append_nil _

theorem flatMap_chunk : (List.range (chunkCount n c)).flatMap (chunk n c) = List.range n := by
  rw [flatMap_chunk_range, Nat.min_eq_right (le_chunkCount_mul hc)]

end ScalBase.Foundation.Chunks
