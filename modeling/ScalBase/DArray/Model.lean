/-
  DArray/Model.lean --- the growable array of `Lib/DArray.h`.

  `Memory` is null or a block of cells; a load or a store that leaves the block has no
  result.  `Capacity`, `Count` and indexes are `u32`.  A call on a full array that
  would add an element logs an error and changes nothing.  `SAssert`s are compiled out.

  What is pushed is passed by reference and read where the source reads it, for
  `PushAt` and `PushSwapBack` after the move.  It may be an element of the array.

  Two lines do not compile as they stand and are read as what they are for: `Push`
  stores `valueSrc`, which is read as `value`, and `Resize` gives
  `ArenaPush(sizeof(T), newCapacity)` no arena, which is read as `newCapacity` cells
  from `arena`.  Cells from the arena hold anything, which is the argument `fresh`.
-/
import ScalBase.Base
import ScalBase.Foundation.Block
import ScalBase.Foundation.Run

set_option autoImplicit false

namespace ScalBase.DArrays

open Foundation Foundation.Block

/-- The array. -/
structure DArray (T : Type*) where
  memory : Option (List T)
  capacity : Nat
  count : Nat
  deriving DecidableEq, Repr

variable {T : Type*}

namespace DArray

/-! ## The calls -/

/-- `LastIndex`. -/
def lastIndex (d : DArray T) : Nat := if d.count = 0 then 0 else d.count - 1

/-- `Resize`. -/
def resize (d : DArray T) (newCapacity : Nat) (fresh : Nat → T) : Option (DArray T) :=
  let newCapacity := if newCapacity = 0 then 1 else newCapacity
  if newCapacity ≤ d.capacity then some d
  else do
    let newMemory := (List.range newCapacity).map fresh
    let newMemory ← match d.memory with
      | some memory => (load memory 0 d.capacity).bind (store newMemory 0)
      | none => some newMemory
    some { d with memory := some newMemory, capacity := newCapacity }

/-- `Push`. -/
def push (d : DArray T) (value : Ref T) : Option (DArray T) :=
  if d.count = d.capacity then some d
  else do
    let memory ← d.memory
    let value ← value.load memory
    let memory ← store memory d.count [value]
    some { d with memory := some memory, count := u32 (d.count + 1) }

/-- `PushAt`. -/
def pushAt (d : DArray T) (value : Ref T) (idx : Nat) : Option (DArray T) :=
  if d.count = d.capacity then some d
  else do
    let memory ← d.memory
    let memory ← if idx ≠ d.lastIndex then move memory (idx + 1) idx (sub32 d.count idx)
      else some memory
    let value ← value.load memory
    let memory ← store memory idx [value]
    some { d with memory := some memory, count := u32 (d.count + 1) }

/-- `PushSwapBack`. -/
def pushSwapBack (d : DArray T) (value : Ref T) (idx : Nat) : Option (DArray T) :=
  if d.count = d.capacity then some d
  else do
    let memory ← d.memory
    let memory ← if idx ≠ d.lastIndex then move memory d.count idx 1 else some memory
    let value ← value.load memory
    let memory ← store memory idx [value]
    some { d with memory := some memory, count := u32 (d.count + 1) }

/-- `Pop`, with the element it returns. -/
def pop (d : DArray T) : Option (T × DArray T) := do
  let lastIdx := d.lastIndex
  let count := if lastIdx > 0 then sub32 d.count 1 else d.count
  let memory ← d.memory
  let value ← memory[lastIdx]?
  some (value, { d with count := count })

/-- `Remove`. -/
def remove (d : DArray T) : DArray T :=
  if d.count > 0 then { d with count := sub32 d.count 1 } else d

/-- `RemoveAt`. -/
def removeAt (d : DArray T) (idx : Nat) : Option (DArray T) := do
  let count := sub32 d.count 1
  let memory ← d.memory
  let memory ← if idx ≠ count then move memory idx (idx + 1) (sub64 count idx) else some memory
  some { d with memory := some memory, count := count }

/-- `RemoveSwapBack`. -/
def removeSwapBack (d : DArray T) (idx : Nat) : Option (DArray T) := do
  let memory ← d.memory
  let memory ← move memory idx d.lastIndex 1
  some { d with memory := some memory, count := sub32 d.count 1 }

/-! ## The elements -/

/-- The cells of the block, of which a null pointer has none. -/
def cells (d : DArray T) : List T := d.memory.getD []

/-- The elements. -/
def elems (d : DArray T) : List T := d.cells.take d.count

/-- `Memory` has `Capacity` cells, and `Count` of them are in use. -/
structure WellFormed (d : DArray T) : Prop where
  word : d.capacity < 2 ^ 32
  block : d.cells.length = d.capacity
  count : d.count ≤ d.capacity

instance (d : DArray T) : Decidable d.WellFormed :=
  decidable_of_iff (d.capacity < 2 ^ 32 ∧ d.cells.length = d.capacity ∧ d.count ≤ d.capacity)
    ⟨fun h => ⟨h.1, h.2.1, h.2.2⟩, fun h => ⟨h.word, h.block, h.count⟩⟩

/-- The array whose elements are `l`, with the cells `rest` behind them. -/
def ofCells (capacity : Nat) (l rest : List T) : DArray T := ⟨some (l ++ rest), capacity, l.length⟩

variable {d : DArray T} {capacity : Nat} {l rest : List T}

@[simp] theorem elems_ofCells : (ofCells capacity l rest).elems = l := List.take_left

@[simp] theorem cells_ofCells : (ofCells capacity l rest).cells = l ++ rest := rfl

@[simp] theorem capacity_ofCells : (ofCells capacity l rest).capacity = capacity := rfl

@[simp] theorem count_ofCells : (ofCells capacity l rest).count = l.length := rfl

@[simp] theorem memory_ofCells : (ofCells capacity l rest).memory = some (l ++ rest) := rfl

theorem mk_eq_ofCells {count : Nat} (h : l.length = count) :
    (⟨some (l ++ rest), capacity, count⟩ : DArray T) = ofCells capacity l rest := by
  rw [ofCells, h]

theorem wellFormed_ofCells (hword : capacity < 2 ^ 32) (hsize : l.length + rest.length = capacity) :
    (ofCells capacity l rest).WellFormed :=
  ⟨hword, List.length_append.trans hsize, by rw [count_ofCells, capacity_ofCells]; omega⟩

theorem WellFormed.length_elems (h : d.WellFormed) : d.elems.length = d.count := by
  rw [elems, List.length_take, h.block]
  exact Nat.min_eq_left h.count

/-- An array with a cell is its elements and the cells behind them. -/
theorem WellFormed.exists_cells (h : d.WellFormed) (hpos : 0 < d.capacity) :
    ∃ capacity l rest, d = ofCells capacity l rest ∧ capacity < 2 ^ 32 ∧
      l.length + rest.length = capacity := by
  have hword := h.word
  have hblock := h.block
  have hcount := h.count
  obtain ⟨memory, capacity, count⟩ := d
  cases memory with
  | none =>
    simp only [cells, Option.getD_none, List.length_nil] at hblock hpos
    omega
  | some memory =>
    simp only [cells, Option.getD_some] at hblock hcount hword
    have hlength : (memory.take count).length = count := List.length_take_of_le (hblock ▸ hcount)
    refine ⟨capacity, memory.take count, memory.drop count, ?_, hword, ?_⟩
    · rw [ofCells, List.take_append_drop, hlength]
    · rw [hlength, List.length_drop, hblock]
      exact Nat.add_sub_cancel' hcount

/-- An array that is not full has a free cell behind its elements. -/
theorem WellFormed.exists_free (h : d.WellFormed) (hroom : d.count < d.capacity) :
    ∃ capacity l c rest, d = ofCells capacity l (c :: rest) ∧ capacity < 2 ^ 32 ∧
      l.length + (rest.length + 1) = capacity := by
  obtain ⟨capacity, l, rest, rfl, hword, hsize⟩ := h.exists_cells (Nat.zero_lt_of_lt hroom)
  cases rest with
  | nil =>
    rw [count_ofCells, capacity_ofCells, ← hsize] at hroom
    exact absurd hroom (Nat.lt_irrefl _)
  | cons c rest => exact ⟨capacity, l, c, rest, rfl, hword, hsize⟩

theorem lastIndex_ofCells : (ofCells capacity l rest).lastIndex = l.length - 1 := by
  rw [lastIndex, count_ofCells]
  split <;> omega

theorem count_succ (hword : capacity < 2 ^ 32) (hroom : l.length < capacity) :
    u32 ((ofCells capacity l rest).count + 1) = l.length + 1 :=
  u32_eq (by rw [count_ofCells]; omega)

theorem count_pred (hword : capacity < 2 ^ 32) (hle : l.length ≤ capacity)
    (hpos : 0 < l.length) : sub32 (ofCells capacity l rest).count 1 = l.length - 1 :=
  sub32_eq hpos (by rw [count_ofCells]; omega)

end DArray

end ScalBase.DArrays
