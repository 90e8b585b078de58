/-
  Foundation/Block.lean --- blocks of memory whose loads and stores are checked.

  A block is the list of its cells.  `store block dst src` writes `src` from index
  `dst` on, `load block src n` reads `n` cells from `src` on, and `move` is a load and
  a store; none has a result when it leaves the block.  `resize` is a block of
  another size that keeps the cells it has room for.

  `store_append` and `load_append` are the rules right after a known prefix; what a
  store leaves alone is read off its result.  `insert_move` and `erase_move` are the
  rules for the two moves that make room for a cell in a list and close the gap of
  one, and `getElem?_move` says what any move leaves in each cell.

  A `Ref` is what a program passes for a value that it does not copy: the value may
  be a cell of the block itself, and is what the block holds there when it is read.
  Through an out pointer a value is stored, to a cell of the block or elsewhere.
-/
import Mathlib.Tactic

set_option autoImplicit false

namespace ScalBase.Foundation.Block

variable {B : Type*}

/-- Write `src` from `dst` on, inside the block. -/
def store (block : List B) (dst : Nat) (src : List B) : Option (List B) :=
  if dst + src.length ≤ block.length then
    some (block.take dst ++ src ++ block.drop (dst + src.length))
  else none

/-- A block of `size` cells that begins as `block` does; new cells are `fresh`. -/
def resize (block : List B) (size : Nat) (fresh : Nat → B) : List B :=
  (block ++ (List.range (size - block.length)).map fresh).take size

/-- Read `n` cells from `src` on, inside the block. -/
def load (block : List B) (src n : Nat) : Option (List B) :=
  if src + n ≤ block.length then some ((block.drop src).take n) else none

/-- Move `n` cells from `src` to `dst`.  The two ranges may overlap. -/
def move (block : List B) (dst src n : Nat) : Option (List B) :=
  (load block src n).bind (store block dst)

/-- A store that does not fit has no result. -/
theorem store_eq_none {block : List B} {dst : Nat} {src : List B}
    (h : block.length < dst + src.length) : store block dst src = none :=
  if_neg (Nat.not_le.mpr h)

/-- A store that fits leaves a block of the same size. -/
theorem exists_store {block : List B} {dst : Nat} {src : List B}
    (h : dst + src.length ≤ block.length) :
    ∃ out, store block dst src = some out ∧ out.length = block.length := by
  refine ⟨_, if_pos h, ?_⟩
  rw [List.length_append, List.length_append, List.length_take, List.length_drop]
  omega

/-- A store after the prefix `xs`. -/
theorem store_append {xs rest src : List B} (h : src.length ≤ rest.length) :
    store (xs ++ rest) xs.length src = some (xs ++ src ++ rest.drop src.length) := by
  rw [store, if_pos (by rw [List.length_append]; omega), List.take_left, ← List.drop_drop,
    List.drop_left]

/-- Nothing is stored. -/
theorem store_nil (block : List B) : store block 0 [] = some block := by
  have hnil := @store_append B [] block [] (Nat.zero_le _)
  exact hnil

/-- A cell is stored over the one after the prefix `xs`. -/
theorem store_cell {xs rest : List B} {c v : B} :
    store (xs ++ c :: rest) xs.length [v] = some (xs ++ v :: rest) := by
  have hroom : [v].length ≤ (c :: rest).length := Nat.succ_le_succ (Nat.zero_le _)
  rw [store_append hroom, List.append_assoc]
  rfl

/-- Cells behind the end of a block do not change a store. -/
theorem store_extend {block out src : List B} {dst : Nat} (h : store block dst src = some out)
    (rest : List B) : store (block ++ rest) dst src = some (out ++ rest) := by
  unfold store at h ⊢
  split at h
  · rename_i hfits
    cases h
    rw [if_pos (by rw [List.length_append]; omega), List.take_append_of_le_length (by omega),
      List.drop_append_of_le_length hfits, List.append_assoc (block.take dst ++ src)]
  · cases h

/-! ## Loads and moves -/

/-- A load that does not fit has no result. -/
theorem load_eq_none {block : List B} {src n : Nat} (h : block.length < src + n) :
    load block src n = none :=
  if_neg (Nat.not_le.mpr h)

/-- A load after the prefix `xs`. -/
theorem load_append (xs ys rest : List B) :
    load (xs ++ ys ++ rest) xs.length ys.length = some ys := by
  rw [load, if_pos (by simp only [List.length_append]; omega), List.append_assoc, List.drop_left,
    List.take_left]

/-- The cell after the prefix `xs` is moved. -/
theorem move_cell (xs rest : List B) (c : B) (dst : Nat) :
    move (xs ++ c :: rest) dst xs.length 1 = store (xs ++ c :: rest) dst [c] := by
  have hload := load_append xs [c] rest
  rw [List.append_assoc, List.singleton_append, List.length_singleton] at hload
  rw [move, hload, Option.bind_some]

/-- A list is cut where a cell is to be inserted, or at a cell that is to be erased. -/
theorem exists_cut {l : List B} {i : Nat} (hi : i ≤ l.length) :
    ∃ xs ys, l = xs ++ ys ∧ xs.length = i :=
  ⟨l.take i, l.drop i, (List.take_append_drop i l).symm, List.length_take_of_le hi⟩

/-- A list is cut around its cell at `i`. -/
theorem exists_around {l : List B} {i : Nat} (hi : i < l.length) :
    ∃ xs y ys, l = xs ++ y :: ys ∧ xs.length = i := by
  obtain ⟨xs, ys, rfl, hxs⟩ := exists_cut hi.le
  cases ys with
  | nil =>
    rw [List.append_nil] at hi
    omega
  | cons y ys => exact ⟨xs, y, ys, rfl, hxs⟩

/-- A list is cut before its last cell. -/
theorem exists_last {l : List B} {i : Nat} (hi : i + 1 = l.length) :
    ∃ xs x, l = xs ++ [x] ∧ xs.length = i := by
  obtain ⟨xs, ys, rfl, hxs⟩ := exists_cut (show i ≤ l.length by omega)
  rw [List.length_append] at hi
  obtain ⟨x, rfl⟩ := List.length_eq_one_iff.mp (show ys.length = 1 by omega)
  exact ⟨xs, x, rfl, hxs⟩

theorem insertIdx_cut (xs ys : List B) (v : B) :
    (xs ++ ys).insertIdx xs.length v = xs ++ v :: ys := by
  induction xs with
  | nil => rfl
  | cons x xs ih => rw [List.cons_append, List.length_cons, List.insertIdx_succ_cons, ih,
      List.cons_append]

theorem eraseIdx_cut (xs ys : List B) (y : B) :
    (xs ++ y :: ys).eraseIdx xs.length = xs ++ ys := by
  induction xs with
  | nil => rfl
  | cons x xs ih => rw [List.cons_append, List.length_cons, List.eraseIdx_cons_succ, ih,
      List.cons_append]

/-- With a free cell behind a list, moving the cells from `i` on up by one and storing a cell
at `i` inserts it. -/
theorem insert_move {l rest : List B} {c : B} {i : Nat} (hi : i ≤ l.length) :
    ∃ out, move (l ++ c :: rest) (i + 1) i (l.length - i) = some out ∧
      ∀ v, store out i [v] = some (l.insertIdx i v ++ rest) := by
  obtain ⟨xs, ys, rfl, rfl⟩ := exists_cut hi
  have hload := load_append xs ys (c :: rest)
  have hcount : (xs ++ ys).length - xs.length = ys.length := by
    rw [List.length_append, Nat.add_sub_cancel_left]
  -- The cell at `i` is left behind by the move.
  obtain ⟨first, tail, hfirst⟩ : ∃ first tail, ys ++ c :: rest = first :: tail := by
    cases ys with
    | nil => exact ⟨c, rest, rfl⟩
    | cons y ys => exact ⟨y, ys ++ c :: rest, rfl⟩
  have htail := congrArg List.length hfirst
  simp only [List.length_append, List.length_cons] at htail
  have hdrop : tail.drop ys.length = rest := by
    have hcut := congrArg (List.drop (ys.length + 1)) hfirst
    rwa [← List.drop_drop, List.drop_left, List.drop_one, List.tail_cons,
      List.drop_succ_cons, eq_comm] at hcut
  have hstore := @store_append B (xs ++ [first]) tail ys (by omega)
  rw [List.length_append, List.length_singleton, List.append_assoc, List.singleton_append,
    ← hfirst, ← List.append_assoc, hdrop] at hstore
  refine ⟨_, by rw [move, hcount, hload, Option.bind_some, hstore], fun v => ?_⟩
  rw [insertIdx_cut, List.append_assoc, List.append_assoc, List.singleton_append, store_cell,
    List.append_assoc, List.cons_append]

/-- Moving the cells behind `i` down by one erases it; the last cell stays behind the list. -/
theorem erase_move {l rest : List B} {i : Nat} (hi : i < l.length) :
    ∃ c, move (l ++ rest) i (i + 1) (l.length - (i + 1)) = some (l.eraseIdx i ++ c :: rest) := by
  obtain ⟨xs, y, ys, rfl, rfl⟩ := exists_around hi
  have hload := load_append (xs ++ [y]) ys rest
  have hcount : (xs ++ y :: ys).length - (xs.length + 1) = ys.length := by
    rw [List.length_append, List.length_cons]
    omega
  rw [List.length_append, List.length_singleton, List.append_assoc xs,
    List.singleton_append] at hload
  have hstore := @store_append B xs (y :: ys ++ rest) ys (by
    rw [List.length_append, List.length_cons]
    omega)
  -- One cell more than are moved lies from `i` on.
  have hlast : ((y :: ys).drop ys.length).length = 1 := by
    rw [List.length_drop, List.length_cons, Nat.add_sub_cancel_left]
  obtain ⟨c, hc⟩ := List.length_eq_one_iff.mp hlast
  rw [List.drop_append_of_le_length (Nat.le_succ _), hc] at hstore
  refine ⟨c, ?_⟩
  rw [move, hcount, hload, Option.bind_some, List.append_assoc, hstore, eraseIdx_cut]
  rfl

/-- Moving one cell more than lie behind `i` erases it too, and the cell behind the list stays
behind it. -/
theorem erase_move_behind {l rest : List B} {c : B} {i : Nat} (hi : i < l.length) :
    ∃ c', move (l ++ c :: rest) i (i + 1) (l.length - i) =
      some (l.eraseIdx i ++ c :: c' :: rest) := by
  have hlength : (l ++ [c]).length = l.length + 1 := List.length_append
  obtain ⟨c', hmove⟩ := @erase_move B (l ++ [c]) rest i (by omega)
  refine ⟨c', ?_⟩
  rwa [hlength, Nat.add_sub_add_right, List.append_assoc, List.singleton_append,
    List.eraseIdx_append_of_lt_length hi, List.append_assoc, List.singleton_append] at hmove

/-! ## Cell by cell -/

theorem getElem?_store {block out src : List B} {dst : Nat} (h : store block dst src = some out)
    (j : Nat) :
    out[j]? = if dst ≤ j ∧ j < dst + src.length then src[j - dst]? else block[j]? := by
  unfold store at h
  split at h
  · rename_i hfits
    cases h
    have htake : (block.take dst).length = dst := List.length_take_of_le (by omega)
    split
    · rename_i hin
      rw [List.append_assoc, List.getElem?_append_right (by omega), htake,
        List.getElem?_append_left (by omega)]
    · rename_i hout
      rcases Nat.lt_or_ge j dst with hbelow | habove
      · rw [List.append_assoc, List.getElem?_append_left (by omega),
          List.getElem?_take_of_lt hbelow]
      · have hlength : (block.take dst ++ src).length = dst + src.length := by
          rw [List.length_append, htake]
        rw [List.getElem?_append_right (by omega), hlength, List.getElem?_drop,
          Nat.add_sub_cancel' (by omega)]
  · cases h

theorem getElem?_load {block out : List B} {src n : Nat} (h : load block src n = some out)
    {j : Nat} (hj : j < n) : out.length = n ∧ out[j]? = block[src + j]? := by
  unfold load at h
  split at h
  · cases h
    rw [List.getElem?_take_of_lt hj, List.getElem?_drop]
    exact ⟨by rw [List.length_take, List.length_drop]; omega, rfl⟩
  · cases h

/-- The cells that a move writes hold what was at their source before. -/
theorem getElem?_move {block out : List B} {dst src n : Nat} (h : move block dst src n = some out)
    (j : Nat) :
    out[j]? = if dst ≤ j ∧ j < dst + n then block[src + (j - dst)]? else block[j]? := by
  obtain ⟨cells, hload, hstore⟩ := Option.bind_eq_some_iff.mp h
  have hcells := getElem?_store hstore j
  rcases Nat.eq_zero_or_pos n with rfl | hpos
  · have hnil : cells.length = 0 := by
      unfold load at hload
      split at hload
      · cases hload
        rfl
      · cases hload
    rw [hcells, hnil, if_neg (by omega), if_neg (by omega)]
  · rw [hcells, (getElem?_load hload hpos).1]
    split
    · exact (getElem?_load hload (by omega)).2
    · rfl

theorem length_move {block out : List B} {dst src n : Nat} (h : move block dst src n = some out) :
    out.length = block.length := by
  obtain ⟨cells, -, hstore⟩ := Option.bind_eq_some_iff.mp h
  have hfits : dst + cells.length ≤ block.length := by
    by_contra hlong
    rw [store_eq_none (Nat.not_le.mp hlong)] at hstore
    cases hstore
  obtain ⟨out', hout, hlength⟩ := exists_store hfits
  cases hout.symm.trans hstore
  exact hlength

/-- A cell is stored over one of the block. -/
theorem store_set {block : List B} {i : Nat} (hi : i < block.length) (v : B) :
    store block i [v] = some (block.set i v) := by
  obtain ⟨out, hout, -⟩ := @exists_store B block i [v] (by rw [List.length_singleton]; omega)
  rw [hout, Option.some.injEq]
  refine List.ext_getElem? fun j => ?_
  rw [getElem?_store hout, List.getElem?_set, List.length_singleton]
  split
  · rw [if_pos (by omega), show j - i = 0 by omega, List.getElem?_cons_zero]
  · rw [if_neg (by omega)]

/-- The list without its cell at `i` does not see a store over the cell `k` exactly when `k` is
that cell, lies behind the list, or held the same. -/
theorem eraseIdx_set_iff {l : List B} {i k : Nat} {v : B} :
    (l.set k v).eraseIdx i = l.eraseIdx i ↔ k = i ∨ l.length ≤ k ∨ l[k]? = some v := by
  constructor
  · intro h
    by_contra hnot
    obtain ⟨hne, hlt, hother⟩ : k ≠ i ∧ k < l.length ∧ l[k]? ≠ some v :=
      ⟨fun heq => hnot (Or.inl heq), by omega, fun heq => hnot (Or.inr (Or.inr heq))⟩
    -- The cell `k` is one lower where the erased one was below it.
    have hcell := congrArg (fun l => l[if k < i then k else k - 1]?) h
    simp only [List.getElem?_eraseIdx] at hcell
    by_cases hbelow : k < i
    · rw [if_pos hbelow, if_pos hbelow, if_pos hbelow, List.getElem?_set_self hlt] at hcell
      exact hother hcell.symm
    · rw [if_neg hbelow, if_neg (by omega), if_neg (by omega), Nat.sub_add_cancel (by omega),
        List.getElem?_set_self hlt] at hcell
      exact hother hcell.symm
  · rintro (rfl | hbehind | hsame)
    · exact List.eraseIdx_set_eq
    · rw [List.set_eq_of_length_le hbehind]
    · obtain ⟨hlt, rfl⟩ := List.getElem?_eq_some_iff.mp hsame
      rw [List.set_getElem_self]

/-! ## Out pointers -/

/-- A store through a pointer to a cell of the block, `none` being one that leads elsewhere. -/
def storeOut (block : List B) (out : Option Nat) (v : B) : Option (List B) :=
  match out with
  | none => some block
  | some i => store block i [v]

/-- What a pointer through which `v` was stored leads to. -/
def loadOut (block : List B) (out : Option Nat) (v : B) : Option B :=
  match out with
  | none => some v
  | some i => block[i]?

/-! ## References -/

/-- A value that lies elsewhere, or a cell of the block. -/
inductive Ref (B : Type*) where
  | value (v : B)
  | cell (i : Nat)
  deriving DecidableEq, Repr

namespace Ref

/-- What is read through a reference. -/
def load (block : List B) : Ref B → Option B
  | value v => some v
  | cell i => block[i]?

/-- A cell is one of the first `n`. -/
def Within (n : Nat) : Ref B → Prop
  | value _ => True
  | cell i => i < n

instance (n : Nat) (r : Ref B) : Decidable (r.Within n) :=
  match r with
  | value _ => isTrue trivial
  | cell _ => inferInstanceAs (Decidable (_ < _))

/-- The list that `f` makes of the value; without a value it is `l` still. -/
def edit (l : List B) (r : Ref B) (f : B → List B) : List B := (r.load l).elim l f

variable {l rest : List B} {r : Ref B} {v : B}

theorem edit_eq (h : r.load l = some v) (f : B → List B) : r.edit l f = f v := by
  rw [edit, h]
  rfl

theorem Within.exists_load (h : r.Within l.length) : ∃ v, r.load l = some v := by
  cases r with
  | value v => exact ⟨v, rfl⟩
  | cell i => exact ⟨_, List.getElem?_eq_getElem h⟩

theorem Within.mono {m n : Nat} (h : r.Within m) (hle : m ≤ n) : r.Within n := by
  cases r with
  | value v => trivial
  | cell i => exact Nat.lt_of_lt_of_le h hle

/-- What lies behind a list does not matter to a reference into it. -/
theorem Within.load_append (h : r.Within l.length) : r.load (l ++ rest) = r.load l := by
  cases r with
  | value v => rfl
  | cell i => exact List.getElem?_append_left h

/-- The same is read when the cells from `i` on have been moved up by one, `n` being the cell
behind them. -/
def Stays (block : List B) (i n : Nat) : Ref B → Prop
  | value _ => True
  | cell j => j ≤ i ∨ n < j ∨ block[j - 1]? = block[j]?

instance [DecidableEq B] (block : List B) (i n : Nat) (r : Ref B) :
    Decidable (r.Stays block i n) :=
  match r with
  | value _ => isTrue trivial
  | cell _ => inferInstanceAs (Decidable (_ ∨ _ ∨ _))

/-- A cell at or before the place stays. -/
theorem Within.stays {i : Nat} (h : r.Within (i + 1)) (block : List B) (n : Nat) :
    r.Stays block i n := by
  cases r with
  | value v => trivial
  | cell j => exact Or.inl (Nat.le_of_lt_succ h)

theorem load_moved_iff {block out : List B} {i n : Nat} (hi : i ≤ n)
    (hmove : move block (i + 1) i (n - i) = some out) :
    r.load out = r.load block ↔ r.Stays block i n := by
  cases r with
  | value v => exact iff_of_true rfl trivial
  | cell j =>
    rw [load, load, getElem?_move hmove, Stays]
    by_cases hmoved : i + 1 ≤ j ∧ j < i + 1 + (n - i)
    · rw [if_pos hmoved, show i + (j - (i + 1)) = j - 1 by omega,
        or_iff_right (by omega : ¬ j ≤ i), or_iff_right (by omega : ¬ n < j)]
    · exact iff_of_true (if_neg hmoved) (by omega)

end Ref

/-! ## Resizing -/

theorem length_resize (block : List B) (size : Nat) (fresh : Nat → B) :
    (resize block size fresh).length = size := by
  rw [resize, List.length_take, List.length_append, List.length_map, List.length_range]
  omega

/-- A prefix that there is room for is kept. -/
theorem resize_append {xs rest : List B} {size : Nat} (h : xs.length ≤ size) (fresh : Nat → B) :
    ∃ rest', resize (xs ++ rest) size fresh = xs ++ rest' := by
  rw [resize, List.append_assoc, List.take_append, List.take_of_length_le h]
  exact ⟨_, rfl⟩

end ScalBase.Foundation.Block
