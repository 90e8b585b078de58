/-
  Foundation/Memory.lean --- ranges of bytes in memory.

  Memory is a function from addresses to bytes.  `put` stores a range, `read` is the list
  of the bytes of one, and `load` the word in it.  A range that a store leaves alone reads
  as before; a store inside a range is the checked store into a block (`read_put`).
-/
import ScalBase.Foundation.Records
import ScalBase.Foundation.Block

set_option autoImplicit false

namespace ScalBase.Foundation.Memory

/-- Store the `n` bytes that `f` gives at `dst`. -/
def put (m : Nat → UInt8) (dst n : Nat) (f : Nat → UInt8) : Nat → UInt8 :=
  fun a => if dst ≤ a ∧ a < dst + n then f (a - dst) else m a

/-- The `n` bytes at `a`. -/
def read (m : Nat → UInt8) (a n : Nat) : List UInt8 := (List.range n).map fun i => m (a + i)

/-- The word in the `n` bytes at `a`. -/
def load (m : Nat → UInt8) (a n : Nat) : Nat := word (fun i => m (a + i)) n

variable {m m' f : Nat → UInt8} {a dst k n : Nat}

theorem put_inside {i : Nat} (hi : i < n) : put m dst n f (dst + i) = f i := by
  rw [put, if_pos ⟨Nat.le_add_right dst i, Nat.add_lt_add_left hi dst⟩, Nat.add_sub_cancel_left]

theorem put_outside (h : a < dst ∨ dst + n ≤ a) : put m dst n f a = m a :=
  if_neg fun hin => by omega

/-! ## Words -/

theorem word_lt (f : Nat → UInt8) (n : Nat) : word f n < 256 ^ n := by
  induction n generalizing f with
  | zero => exact Nat.one_pos
  | succ n ih =>
    have hlow := (f 0).toNat_lt
    have hrest := ih fun i => f (i + 1)
    rw [word, Nat.pow_succ]
    omega

theorem load_congr (h : ∀ i < n, m' (a + i) = m (a + i)) : load m' a n = load m a n :=
  word_congr n h

/-- The word that was stored. -/
theorem load_put {v : Nat} (hv : v < 256 ^ n) : load (put m a n (byte v)) a n = v := by
  have hbytes : load (put m a n (byte v)) a n = word (byte v) n :=
    word_congr n fun i hi => put_inside hi
  rw [hbytes, word_byte, Nat.mod_eq_of_lt hv]

theorem load_put_apart (h : a + n ≤ dst ∨ dst + k ≤ a) : load (put m dst k f) a n = load m a n :=
  load_congr fun i hi => put_outside (by omega)

/-! ## Lists of bytes -/

@[simp] theorem length_read (m : Nat → UInt8) (a n : Nat) : (read m a n).length = n := by
  rw [read, List.length_map, List.length_range]

theorem getElem_read {i : Nat} (hi : i < (read m a n).length) : (read m a n)[i] = m (a + i) := by
  simp only [read, List.getElem_map, List.getElem_range]

/-- A list of bytes is at `a` when its bytes are. -/
theorem read_eq_iff {l : List UInt8} (h : l.length = n) :
    read m a n = l ↔ ∀ i (hi : i < l.length), m (a + i) = l[i] := by
  constructor
  · rintro rfl i hi
    exact (getElem_read hi).symm
  · intro hall
    exact List.ext_getElem ((length_read m a n).trans h.symm) fun i hi hl =>
      (getElem_read hi).trans (hall i hl)

theorem read_congr (h : ∀ i < n, m' (a + i) = m (a + i)) : read m' a n = read m a n :=
  List.map_congr_left fun i hi => h i (List.mem_range.mp hi)

theorem read_take (h : n ≤ k) : (read m a k).take n = read m a n := by
  rw [read, ← List.map_take, List.take_range, Nat.min_eq_left h, read]

/-- A range is read piece by piece. -/
theorem read_add (m : Nat → UInt8) (a n k : Nat) :
    read m a (n + k) = read m a n ++ read m (a + n) k := by
  simp only [read, List.range_add, List.map_append, List.map_map, Function.comp_def, Nat.add_assoc]

/-- A store into a range is a checked store into the list of its bytes. -/
theorem read_put (h : dst + n ≤ k) :
    Block.store (read m a k) dst ((List.range n).map f) =
      some (read (put m (a + dst) n f) a k) := by
  obtain ⟨rest, rfl⟩ := Nat.exists_eq_add_of_le h
  have hbelow : read (put m (a + dst) n f) a dst = read m a dst :=
    read_congr fun i hi => put_outside (by omega)
  have hin : read (put m (a + dst) n f) (a + dst) n = (List.range n).map f :=
    List.map_congr_left fun i hi => put_inside (List.mem_range.mp hi)
  have habove : read (put m (a + dst) n f) (a + (dst + n)) rest = read m (a + (dst + n)) rest :=
    read_congr fun i hi => put_outside (by omega)
  have hroom : ((List.range n).map f).length ≤
      (read m (a + dst) n ++ read m (a + (dst + n)) rest).length := by
    rw [List.length_append, length_read, List.length_map, List.length_range]
    exact Nat.le_add_right n _
  have hstore := @Block.store_append _ (read m a dst) _ _ hroom
  rw [length_read, ← List.append_assoc, ← read_add, ← read_add] at hstore
  rw [hstore, read_add _ a (dst + n) rest, read_add _ a dst n, hbelow, hin, habove, List.length_map,
    List.length_range]
  have hdrop := @List.drop_left _ (read m (a + dst) n) (read m (a + (dst + n)) rest)
  rw [length_read] at hdrop
  rw [hdrop]

end ScalBase.Foundation.Memory
