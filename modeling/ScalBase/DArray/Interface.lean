/-
  DArray/Interface.lean --- the whole interface of a `DArray`.

  A `DArray` stands for a list with room for `Capacity` elements.  All of its functions
  are edits of that list.  What there is no room for, `Push`, `PushMany`, `PushAt` or
  `PushSwapBack`, changes nothing, and `Resize` alone changes the room.

  Three things go wrong: `PushAt` and `PushSwapBack` at the last element, `PushAt` of an
  element of the array from behind the place, and `Pop` of the only element.  Everything
  else is the edit (`dArray_serves_list`).
-/
import ScalBase.DArray.Edits
import ScalBase.DArray.Stack
import ScalBase.Foundation.BoundedList

set_option autoImplicit false

namespace ScalBase.DArrays

open Foundation Foundation.Block

variable {T : Type*}

/-! ## The other calls -/

namespace DArray

/-- `PushMany`, where `zero` is an element of zeroed memory. -/
def pushMany (d : DArray T) (zero : T) (numberToAdd : Nat) : Option (DArray T) :=
  let roomLeft := sub32 d.capacity d.count
  if numberToAdd > roomLeft then some d
  else do
    let memory ← d.memory
    let memory ← store memory d.count (List.replicate numberToAdd zero)
    some { d with memory := some memory, count := u32 (d.count + numberToAdd) }

/-- `RemoveMany`. -/
def removeMany (d : DArray T) (numberToRemove : Nat) : DArray T :=
  if d.count ≤ numberToRemove then { d with count := 0 }
  else { d with count := sub32 d.count numberToRemove }

/-- `Clear`. -/
def clear (d : DArray T) : DArray T := { d with count := 0 }

/-- A load through the pointer of `At`. -/
def loadAt (d : DArray T) (idx : Nat) : Option T := d.memory.bind fun memory => memory[idx]?

/-- A store through the pointer of `At`. -/
def storeAt (d : DArray T) (idx : Nat) (value : T) : Option (DArray T) := do
  let memory ← d.memory
  let memory ← store memory idx [value]
  some { d with memory := some memory }

/-- A load through the pointer of `Last`. -/
def loadLast (d : DArray T) : Option T := d.loadAt d.lastIndex

/-- `CopyToArray`, with the cells of `other` after it. -/
def copyToArray (d : DArray T) (other : List T) (count : Nat) : Option (List T) :=
  if count = d.count then do
    let memory ← d.memory
    (load memory 0 d.count).bind (store other 0)
  else some other

end DArray

/-- A call on the array.  The arena of `Resize` hands out cells that hold `fresh`. -/
inductive Call (T : Type*) where
  | resize (newCapacity : Nat) (fresh : Nat → T)
  | push (value : Ref T)
  | pushMany (numberToAdd : Nat)
  | pushAt (value : Ref T) (idx : Nat)
  | pushSwapBack (value : Ref T) (idx : Nat)
  | pop
  | remove
  | removeMany (numberToRemove : Nat)
  | removeAt (idx : Nat)
  | removeSwapBack (idx : Nat)
  | loadAt (idx : Nat)
  | storeAt (idx : Nat) (value : T)
  | loadLast
  | copyToArray (other : List T) (count : Nat)
  | clear

namespace Call

/-- The values that a call returns, and the array after it. -/
def answer (zero : T) (d : DArray T) : Call T → Option (List T × DArray T)
  | resize newCapacity fresh => (d.resize newCapacity fresh).map ([], ·)
  | push value => (d.push value).map ([], ·)
  | pushMany numberToAdd => (d.pushMany zero numberToAdd).map ([], ·)
  | pushAt value idx => (d.pushAt value idx).map ([], ·)
  | pushSwapBack value idx => (d.pushSwapBack value idx).map ([], ·)
  | pop => d.pop.map fun (value, d') => ([value], d')
  | remove => some ([], d.remove)
  | removeMany numberToRemove => some ([], d.removeMany numberToRemove)
  | removeAt idx => (d.removeAt idx).map ([], ·)
  | removeSwapBack idx => (d.removeSwapBack idx).map ([], ·)
  | loadAt idx => (d.loadAt idx).map fun value => ([value], d)
  | storeAt idx value => (d.storeAt idx value).map ([], ·)
  | loadLast => d.loadLast.map fun value => ([value], d)
  | copyToArray other count => (d.copyToArray other count).map (·, d)
  | clear => some ([], d.clear)

/-- What the call is for a list. -/
def onList (zero : T) (b : BoundedList T) : Call T → List T × BoundedList T
  | resize newCapacity _ => ([], b.grow (max newCapacity 1))
  | push value => ([], b.edit (value.edit b.elems (b.elems ++ [·])))
  | pushMany numberToAdd => ([], b.edit (b.elems ++ List.replicate numberToAdd zero))
  | pushAt value idx => ([], b.edit (value.edit b.elems (b.elems.insertIdx idx)))
  | pushSwapBack value idx => ([], b.edit (value.edit b.elems (insertSwap b.elems idx)))
  | pop => (b.elems.getLast?.toList, b.edit b.elems.dropLast)
  | remove => ([], b.edit b.elems.dropLast)
  | removeMany numberToRemove => ([], b.edit (b.elems.take (b.elems.length - numberToRemove)))
  | removeAt idx => ([], b.edit (b.elems.eraseIdx idx))
  | removeSwapBack idx => ([], b.edit (eraseSwap b.elems idx))
  | loadAt idx => (b.elems[idx]?.toList, b)
  | storeAt idx value => ([], b.edit (b.elems.set idx value))
  | loadLast => (b.elems.getLast?.toList, b)
  | copyToArray other count =>
      (if count = b.elems.length then b.elems ++ other.drop count else other, b)
  | clear => ([], b.edit [])

/-- Indexes are of elements, a value lies elsewhere or is an element, and capacities are `u32`.
A push at an index is not at the last element unless the list is full, a `PushAt` into it is of
no element from behind the index, and a `Pop` is not of the only one. -/
def Ok (b : BoundedList T) : Call T → Prop
  | resize newCapacity _ => newCapacity < 2 ^ 32
  | pushMany numberToAdd => 0 < numberToAdd
  | push value => value.Within b.elems.length
  | pushAt value idx => value.Within b.elems.length ∧
      (idx + 1 < b.elems.length ∧ value.Within (idx + 1) ∨
        b.elems.length = b.capacity ∧ idx < b.elems.length)
  | pushSwapBack value idx => value.Within b.elems.length ∧
      (idx + 1 < b.elems.length ∨ b.elems.length = b.capacity ∧ idx < b.elems.length)
  | pop => 1 < b.elems.length
  | removeAt idx => idx < b.elems.length
  | removeSwapBack idx => idx < b.elems.length
  | loadAt idx => idx < b.elems.length
  | storeAt idx _ => idx < b.elems.length
  | loadLast => 0 < b.elems.length
  | copyToArray other count => count = b.elems.length → 0 < count ∧ count ≤ other.length
  | remove | removeMany _ | clear => True

instance (b : BoundedList T) (call : Call T) : Decidable (call.Ok b) :=
  match call with
  | .resize _ _ | .pushMany _ | .pop | .removeAt _ | .removeSwapBack _ | .loadAt _ | .storeAt _ _
  | .loadLast => inferInstanceAs (Decidable (_ < _))
  | .push _ => inferInstanceAs (Decidable (Ref.Within _ _))
  | .pushAt _ _ | .pushSwapBack _ _ => inferInstanceAs (Decidable (_ ∧ _))
  | .copyToArray _ _ => inferInstanceAs (Decidable (_ → _))
  | .remove | .removeMany _ | .clear => isTrue trivial

end Call

/-! ## The array and the list -/

/-- The array stands for the list. -/
structure Represents (d : DArray T) (b : BoundedList T) : Prop where
  wellFormed : d.WellFormed
  capacity : d.capacity = b.capacity
  elems : d.elems = b.elems

section Represents

variable {d : DArray T} {b : BoundedList T}

theorem Represents.length_eq (h : Represents d b) : b.elems.length = d.count := by
  rw [← h.elems, h.wellFormed.length_elems]

/-- A well-formed array of the same capacity stands for the list with its elements. -/
theorem Represents.edited (h : Represents d b) {d' : DArray T} (hwf : d'.WellFormed)
    (hcapacity : d'.capacity = d.capacity) : Represents d' (b.edit d'.elems) := by
  have hfits : d'.elems.length ≤ b.capacity := by
    rw [hwf.length_elems, ← h.capacity, ← hcapacity]
    exact hwf.count
  exact ⟨hwf, by rw [hcapacity, h.capacity, BoundedList.edit_capacity],
    (BoundedList.edit_fits hfits).symm⟩

/-- A full array still stands for the list after an edit that would make it longer. -/
theorem Represents.full (h : Represents d b) (hfull : d.count = d.capacity) {l : List T}
    (hlonger : b.elems.length < l.length) : Represents d (b.edit l) := by
  have hcapacity := h.capacity
  have hlength := h.length_eq
  rwa [BoundedList.edit_full (by omega)]

/-- A lower `Count` leaves the first elements. -/
theorem Represents.lower (h : Represents d b) {count : Nat} (hle : count ≤ d.count) :
    Represents { d with count := count } (b.edit (b.elems.take count)) := by
  have hwf : ({ d with count := count } : DArray T).WellFormed :=
    ⟨h.wellFormed.word, h.wellFormed.block, hle.trans h.wellFormed.count⟩
  have helems : ({ d with count := count } : DArray T).elems = b.elems.take count := by
    rw [← h.elems, DArray.elems, DArray.elems, List.take_take, Nat.min_eq_left hle]
    rfl
  rw [← helems]
  exact h.edited hwf rfl

/-- An element is read through its pointer. -/
theorem Represents.loadAt (h : Represents d b) {idx : Nat} (hidx : idx < b.elems.length) :
    ∃ value, d.loadAt idx = some value ∧ b.elems[idx]? = some value := by
  have hcount := h.wellFormed.count
  obtain ⟨capacity, l, rest, rfl, -, -⟩ := h.wellFormed.exists_cells (by
    have hlength := h.length_eq
    omega)
  have helems := h.elems
  rw [DArray.elems_ofCells] at helems
  subst helems
  refine ⟨_, ?_, List.getElem?_eq_getElem hidx⟩
  rw [DArray.loadAt, DArray.memory_ofCells, Option.bind_some, List.getElem?_append_left hidx,
    List.getElem?_eq_getElem hidx]

theorem Represents.loadLast (h : Represents d b) (hpos : 0 < b.elems.length) :
    ∃ value, d.loadLast = some value ∧ b.elems.getLast? = some value := by
  have hlast : d.lastIndex = b.elems.length - 1 := by
    rw [DArray.lastIndex, h.length_eq]
    split <;> omega
  obtain ⟨value, hload, hvalue⟩ := h.loadAt (show b.elems.length - 1 < b.elems.length by omega)
  refine ⟨value, by rw [DArray.loadLast, hlast, hload], ?_⟩
  rw [List.getLast?_eq_getElem?, hvalue]

end Represents

/-! ## Each call -/

section Cells

variable {capacity idx : Nat} {l rest : List T} {c : T} {b : BoundedList T}

/-- Other cells in the same block. -/
theorem Represents.ofCells (h : Represents (DArray.ofCells capacity l rest) b) {l' rest' : List T}
    (hsize : l'.length + rest'.length = capacity) :
    Represents (DArray.ofCells capacity l' rest') (b.edit l') := by
  have hedited := h.edited (DArray.wellFormed_ofCells h.wellFormed.word hsize) rfl
  rwa [DArray.elems_ofCells] at hedited

/-- `RemoveSwapBack` takes the last element to the place. -/
theorem DArray.removeSwapBack_eq (hword : capacity < 2 ^ 32) (hle : l.length ≤ capacity)
    (hidx : idx < l.length) :
    ∃ c, (ofCells capacity l rest).removeSwapBack idx =
      some (ofCells capacity (eraseSwap l idx) (c :: rest)) := by
  obtain ⟨xs, y, ys, rfl, rfl⟩ := exists_around hidx
  have hcount := @count_pred T capacity (xs ++ y :: ys) rest hword hle (Nat.zero_lt_of_lt hidx)
  cases ys using List.reverseRecOn with
  | nil =>
    have hlength : (xs ++ [y]).length - 1 = xs.length := by
      rw [List.length_append, List.length_singleton, Nat.add_sub_cancel]
    have hmove : move (xs ++ [y] ++ rest) xs.length xs.length 1 = some (xs ++ y :: rest) := by
      rw [List.append_assoc, List.singleton_append, move_cell, store_cell]
    refine ⟨y, ?_⟩
    rw [removeSwapBack, hcount, lastIndex_ofCells, eraseSwap_last]
    simp only [memory_ofCells, capacity_ofCells, hlength, hmove, Option.bind_eq_bind,
      Option.bind_some]
    rfl
  | append_singleton ys z =>
    have hcells : xs ++ y :: (ys ++ [z]) = xs ++ y :: ys ++ [z] := by simp
    have hlength : (xs ++ y :: ys ++ [z]).length - 1 = (xs ++ y :: ys).length := by
      rw [List.length_append, List.length_singleton, Nat.add_sub_cancel]
    have hmove : move (xs ++ y :: ys ++ [z] ++ rest) xs.length (xs ++ y :: ys).length 1 =
        some (xs ++ z :: ys ++ z :: rest) := by
      rw [List.append_assoc, List.singleton_append, move_cell, List.append_assoc,
        List.cons_append, store_cell, List.append_assoc, List.cons_append]
    rw [hcells] at hcount ⊢
    refine ⟨z, ?_⟩
    rw [removeSwapBack, hcount, lastIndex_ofCells, eraseSwap_inner, hlength]
    simp only [memory_ofCells, capacity_ofCells, hmove, Option.bind_eq_bind, Option.bind_some]
    exact congrArg some (mk_eq_ofCells (by simp))

end Cells

/-- A call returns what it returns for the list, and the array stands for the list after it. -/
def Serves (zero : T) (d : DArray T) (b : BoundedList T) (call : Call T) : Prop :=
  ∃ d', call.answer zero d = some ((call.onList zero b).1, d') ∧
    Represents d' (call.onList zero b).2

section Calls

variable {d : DArray T} {b : BoundedList T} {zero : T}

theorem DArray.resize_capacity {d' : DArray T} {newCapacity : Nat} {fresh : Nat → T}
    (h : d.resize newCapacity fresh = some d') :
    d'.capacity = max d.capacity (max newCapacity 1) := by
  have hnew : (if newCapacity = 0 then 1 else newCapacity) = max newCapacity 1 := by
    split <;> omega
  simp only [resize, hnew] at h
  split at h
  · cases h
    omega
  · have hgrows : max newCapacity 1 = max d.capacity (max newCapacity 1) :=
      (Nat.max_eq_right (by omega)).symm
    cases hmemory : d.memory with
    | none =>
      rw [hmemory] at h
      cases h
      exact hgrows
    | some memory =>
      rw [hmemory] at h
      obtain ⟨newMemory, -, hd'⟩ := Option.bind_eq_some_iff.mp h
      cases hd'
      exact hgrows

theorem Represents.resize (h : Represents d b) {newCapacity : Nat} (hnew : newCapacity < 2 ^ 32)
    (fresh : Nat → T) : Serves zero d b (.resize newCapacity fresh) := by
  obtain ⟨d', hresize, hwf, helems⟩ := h.wellFormed.resize hnew fresh
  have hcapacity := DArray.resize_capacity hresize
  rw [h.capacity] at hcapacity
  exact ⟨d', by rw [Call.answer, hresize]; rfl, hwf, hcapacity, helems.trans h.elems⟩

theorem Represents.push (h : Represents d b) {value : Ref T}
    (hwithin : value.Within b.elems.length) : Serves zero d b (.push value) := by
  obtain ⟨v, hvalue⟩ := hwithin.exists_load
  have hlist : (Call.push value).onList zero b = ([], b.edit (b.elems ++ [v])) := by
    rw [Call.onList, Ref.edit_eq hvalue]
  rw [Serves, hlist]
  rcases Nat.lt_or_eq_of_le h.wellFormed.count with hroom | hfull
  · rw [h.length_eq] at hwithin
    rw [← h.elems] at hvalue
    obtain ⟨d', hpush, hwf, hcapacity, -, helems⟩ := h.wellFormed.push hroom hwithin hvalue
    refine ⟨d', by rw [Call.answer, hpush]; rfl, ?_⟩
    rw [← h.elems, ← helems]
    exact h.edited hwf hcapacity
  · refine ⟨d, by rw [Call.answer, DArray.push, if_pos hfull]; rfl, h.full hfull ?_⟩
    rw [List.length_append]
    exact Nat.lt_succ_self _

/-- `PushMany` is all or nothing. -/
theorem Represents.pushMany (h : Represents d b) {numberToAdd : Nat} (hpos : 0 < numberToAdd) :
    Serves zero d b (.pushMany numberToAdd) := by
  have hcount := h.wellFormed.count
  have hroomLeft : sub32 d.capacity d.count = d.capacity - d.count :=
    sub32_eq hcount h.wellFormed.word
  rcases Nat.lt_or_ge (d.capacity - d.count) numberToAdd with hfull | hroom
  · have hsame : d.pushMany zero numberToAdd = some d := by
      rw [DArray.pushMany, hroomLeft]
      exact if_pos hfull
    have hlength := h.length_eq
    have hcapacity := h.capacity
    refine ⟨d, by rw [Call.answer, hsame]; rfl, ?_⟩
    rw [Call.onList,
      BoundedList.edit_full (by rw [List.length_append, List.length_replicate]; omega)]
    exact h
  · obtain ⟨capacity, l, rest, rfl, hword, hsize⟩ := h.wellFormed.exists_cells (by omega)
    have helems := h.elems
    rw [DArray.elems_ofCells] at helems
    rw [DArray.capacity_ofCells, DArray.count_ofCells] at hroom hroomLeft
    have hstore := @store_append T l rest (List.replicate numberToAdd zero) (by
      rw [List.length_replicate]
      omega)
    have hmore : u32 (l.length + numberToAdd) = (l ++ List.replicate numberToAdd zero).length := by
      rw [List.length_append, List.length_replicate]
      exact u32_eq (by omega)
    refine ⟨DArray.ofCells capacity (l ++ List.replicate numberToAdd zero) (rest.drop numberToAdd),
      ?_, ?_⟩
    · rw [List.length_replicate] at hstore
      simp only [Call.answer, Call.onList, DArray.pushMany, DArray.capacity_ofCells,
        DArray.count_ofCells, DArray.memory_ofCells, hroomLeft,
        if_neg (Nat.not_lt.mpr hroom), hstore, hmore, Option.bind_eq_bind, Option.bind_some,
        Option.map_some]
      rfl
    · rw [Call.onList, ← helems]
      refine h.ofCells ?_
      rw [List.length_append, List.length_replicate, List.length_drop]
      omega

theorem Represents.pushAt (h : Represents d b) {value : Ref T} {idx : Nat}
    (hok : (Call.pushAt value idx).Ok b) : Serves zero d b (.pushAt value idx) := by
  obtain ⟨hwithin, hplace⟩ := hok
  have hlength := h.length_eq
  have hcapacity := h.capacity
  have hle : idx ≤ b.elems.length := by
    rcases hplace with ⟨hinner, -⟩ | ⟨-, hidx⟩ <;> omega
  obtain ⟨v, hvalue⟩ := hwithin.exists_load
  have hlist : (Call.pushAt value idx).onList zero b = ([], b.edit (b.elems.insertIdx idx v)) := by
    rw [Call.onList, Ref.edit_eq hvalue]
  rw [Serves, hlist]
  rcases Nat.lt_or_eq_of_le h.wellFormed.count with hroom | hfull
  · obtain ⟨hinner, hbefore⟩ := hplace.resolve_right fun hfull => by omega
    obtain ⟨capacity, l, c, rest, rfl, hword, hsize⟩ := h.wellFormed.exists_free hroom
    have helems := h.elems
    rw [DArray.elems_ofCells] at helems
    rw [← helems] at hinner hle hwithin hvalue
    obtain ⟨w, hpush, hstays⟩ :=
      @DArray.pushAt_inner T capacity idx l rest c hword (by omega) hinner value hwithin
    -- What lies at or before the place is not moved.
    have hw : value.load l = some w := hstays.mpr (hbefore.stays _ _)
    cases hvalue.symm.trans hw
    refine ⟨_, by rw [Call.answer, hpush]; rfl, ?_⟩
    rw [← helems]
    refine h.ofCells ?_
    rw [List.length_insertIdx_of_le_length hle]
    omega
  · refine ⟨d, by rw [Call.answer, DArray.pushAt, if_pos hfull]; rfl, h.full hfull ?_⟩
    rw [List.length_insertIdx_of_le_length hle]
    exact Nat.lt_succ_self _

theorem Represents.pushSwapBack (h : Represents d b) {value : Ref T} {idx : Nat}
    (hok : (Call.pushSwapBack value idx).Ok b) : Serves zero d b (.pushSwapBack value idx) := by
  obtain ⟨hwithin, hplace⟩ := hok
  have hlength := h.length_eq
  have hcapacity := h.capacity
  obtain ⟨v, hvalue⟩ := hwithin.exists_load
  have hlist : (Call.pushSwapBack value idx).onList zero b =
      ([], b.edit (insertSwap b.elems idx v)) := by
    rw [Call.onList, Ref.edit_eq hvalue]
  rw [Serves, hlist]
  rcases Nat.lt_or_eq_of_le h.wellFormed.count with hroom | hfull
  · have hinner : idx + 1 < b.elems.length := hplace.resolve_right fun hfull => by omega
    obtain ⟨capacity, l, c, rest, rfl, hword, hsize⟩ := h.wellFormed.exists_free hroom
    have helems := h.elems
    rw [DArray.elems_ofCells] at helems
    rw [← helems] at hinner hwithin hvalue
    obtain ⟨xs, y, ys, rfl, rfl⟩ := exists_around (Nat.lt_of_succ_lt hinner)
    obtain ⟨w, hpush, hw⟩ := @DArray.pushSwapBack_ofCells T capacity xs ys rest c y hword
      (by omega) value hwithin v hvalue
    obtain rfl := hw.mpr (Or.inl hinner)
    refine ⟨_, by rw [Call.answer, hpush]; rfl, ?_⟩
    rw [← helems, insertSwap_cut]
    refine h.ofCells ?_
    simp only [List.length_append, List.length_cons, List.length_nil] at hsize ⊢
    omega
  · have hidx : idx < b.elems.length := by
      rcases hplace with hinner | ⟨-, hidx⟩ <;> omega
    refine ⟨d, by rw [Call.answer, DArray.pushSwapBack, if_pos hfull]; rfl, h.full hfull ?_⟩
    rw [length_insertSwap hidx]
    exact Nat.lt_succ_self _

theorem Represents.pop (h : Represents d b) (hmore : 1 < b.elems.length) :
    Serves zero d b .pop := by
  have hlength := h.length_eq
  obtain ⟨value, hload, hlast⟩ := h.loadLast (Nat.zero_lt_of_lt hmore)
  have hindex : d.lastIndex > 0 := by
    rw [DArray.lastIndex, if_neg (by omega)]
    omega
  have hfewer : sub32 d.count 1 = b.elems.length - 1 := by
    rw [hlength, sub32_eq (by omega) (Nat.lt_of_le_of_lt h.wellFormed.count h.wellFormed.word)]
  obtain ⟨memory, hmemory, hvalue⟩ := Option.bind_eq_some_iff.mp hload
  have hpop : d.pop = some (value, { d with count := b.elems.length - 1 }) := by
    simp only [DArray.pop, if_pos hindex, hfewer, hmemory, hvalue, Option.bind_eq_bind,
      Option.bind_some]
  refine ⟨{ d with count := b.elems.length - 1 }, ?_, ?_⟩
  · rw [Call.answer, hpop, Call.onList, hlast]
    rfl
  · rw [Call.onList, List.dropLast_eq_take]
    exact h.lower (by omega)

theorem Represents.remove (h : Represents d b) : Serves zero d b .remove := by
  have hlength := h.length_eq
  have hremove : d.remove = { d with count := b.elems.length - 1 } := by
    rw [DArray.remove]
    split
    · rw [hlength, sub32_eq (by omega) (Nat.lt_of_le_of_lt h.wellFormed.count h.wellFormed.word)]
    · rw [show b.elems.length - 1 = d.count by omega]
  refine ⟨_, rfl, ?_⟩
  rw [hremove, Call.onList, List.dropLast_eq_take]
  exact h.lower (by omega)

theorem Represents.removeMany (h : Represents d b) (numberToRemove : Nat) :
    Serves zero d b (.removeMany numberToRemove) := by
  have hlength := h.length_eq
  have hremove : d.removeMany numberToRemove =
      { d with count := b.elems.length - numberToRemove } := by
    rw [DArray.removeMany]
    split
    · rw [show b.elems.length - numberToRemove = 0 by omega]
    · rw [hlength, sub32_eq (by omega) (Nat.lt_of_le_of_lt h.wellFormed.count h.wellFormed.word)]
  refine ⟨_, rfl, ?_⟩
  rw [hremove, Call.onList]
  exact h.lower (by omega)

theorem Represents.clear (h : Represents d b) : Serves zero d b .clear := by
  refine ⟨_, rfl, ?_⟩
  have hlower := h.lower (Nat.zero_le _)
  rwa [List.take_zero] at hlower

/-- An array with an element at `idx`. -/
theorem Represents.exists_cells (h : Represents d b) {idx : Nat} (hidx : idx < b.elems.length) :
    ∃ capacity rest, d = DArray.ofCells capacity b.elems rest ∧ capacity < 2 ^ 32 ∧
      b.elems.length + rest.length = capacity := by
  have hlength := h.length_eq
  have hcount := h.wellFormed.count
  obtain ⟨capacity, l, rest, rfl, hword, hsize⟩ := h.wellFormed.exists_cells (by omega)
  have helems := h.elems
  rw [DArray.elems_ofCells] at helems
  subst helems
  exact ⟨capacity, rest, rfl, hword, hsize⟩

theorem Represents.removeAt (h : Represents d b) {idx : Nat} (hidx : idx < b.elems.length) :
    Serves zero d b (.removeAt idx) := by
  obtain ⟨capacity, rest, rfl, hword, hsize⟩ := h.exists_cells hidx
  obtain ⟨c, hremove⟩ := @DArray.removeAt_ofCells T capacity idx b.elems rest hword (by omega) hidx
  refine ⟨_, by rw [Call.answer, hremove]; rfl, h.ofCells ?_⟩
  rw [List.length_eraseIdx_of_lt hidx, List.length_cons]
  omega

theorem Represents.removeSwapBack (h : Represents d b) {idx : Nat}
    (hidx : idx < b.elems.length) : Serves zero d b (.removeSwapBack idx) := by
  obtain ⟨capacity, rest, rfl, hword, hsize⟩ := h.exists_cells hidx
  obtain ⟨c, hremove⟩ := @DArray.removeSwapBack_eq T capacity idx b.elems rest hword (by omega) hidx
  refine ⟨_, by rw [Call.answer, hremove]; rfl, h.ofCells ?_⟩
  have hlength := length_eraseSwap hidx
  rw [List.length_cons]
  omega

theorem Represents.storeAt (h : Represents d b) {idx : Nat} (hidx : idx < b.elems.length)
    (value : T) : Serves zero d b (.storeAt idx value) := by
  obtain ⟨capacity, rest, rfl, hword, hsize⟩ := h.exists_cells hidx
  have hstore : (DArray.ofCells capacity b.elems rest).storeAt idx value =
      some (DArray.ofCells capacity (b.elems.set idx value) rest) := by
    obtain ⟨xs, y, ys, helems, rfl⟩ := exists_around hidx
    rw [helems, set_cut, DArray.storeAt]
    simp only [DArray.memory_ofCells, List.append_assoc, List.cons_append, store_cell,
      Option.bind_eq_bind, Option.bind_some]
    rw [← List.cons_append, ← List.append_assoc]
    exact congrArg some (DArray.mk_eq_ofCells (by simp [DArray.ofCells]))
  refine ⟨_, by rw [Call.answer, hstore]; rfl, h.ofCells ?_⟩
  rw [List.length_set]
  exact hsize

theorem Represents.copyToArray (h : Represents d b) {other : List T} {count : Nat}
    (hok : (Call.copyToArray other count).Ok b) : Serves zero d b (.copyToArray other count) := by
  have hlength := h.length_eq
  rcases Decidable.em (count = b.elems.length) with rfl | hne
  · obtain ⟨hpos, hroom⟩ := hok rfl
    obtain ⟨capacity, rest, hd, -, -⟩ := h.exists_cells hpos
    have hload := load_append [] b.elems rest
    have hstore := @store_append T [] other b.elems hroom
    simp only [List.nil_append, List.length_nil] at hload hstore
    have hcopy : d.copyToArray other b.elems.length =
        some (b.elems ++ other.drop b.elems.length) := by
      rw [DArray.copyToArray, if_pos hlength, ← hlength, hd]
      simp only [DArray.memory_ofCells, Option.bind_eq_bind, Option.bind_some, hload, hstore]
    refine ⟨d, ?_, h⟩
    rw [Call.answer, hcopy, Call.onList, if_pos rfl]
    rfl
  · refine ⟨d, ?_, h⟩
    rw [Call.answer, DArray.copyToArray, if_neg (hlength ▸ hne), Call.onList, if_neg hne]
    rfl

theorem Represents.serves (h : Represents d b) (call : Call T) (hok : call.Ok b) :
    Serves zero d b call := by
  cases call with
  | resize newCapacity fresh => exact h.resize hok fresh
  | push value => exact h.push hok
  | pushMany numberToAdd => exact h.pushMany hok
  | pushAt value idx => exact h.pushAt hok
  | pushSwapBack value idx => exact h.pushSwapBack hok
  | pop => exact h.pop hok
  | remove => exact h.remove
  | removeMany numberToRemove => exact h.removeMany numberToRemove
  | removeAt idx => exact h.removeAt hok
  | removeSwapBack idx => exact h.removeSwapBack hok
  | loadAt idx =>
    obtain ⟨value, hload, hvalue⟩ := h.loadAt hok
    exact ⟨d, by rw [Call.answer, hload, Call.onList, hvalue]; rfl, h⟩
  | storeAt idx value => exact h.storeAt hok value
  | loadLast =>
    obtain ⟨value, hload, hvalue⟩ := h.loadLast hok
    exact ⟨d, by rw [Call.answer, hload, Call.onList, hvalue]; rfl, h⟩
  | copyToArray other count => exact h.copyToArray hok
  | clear => exact h.clear

end Calls

/-- Over every sequence of calls of the interface, every call returns, without a load or a store
outside the block, what the same calls on a list with as much room return, and the array holds
the elements of that list. -/
theorem dArray_serves_list {d : DArray T} {b : BoundedList T} (hd : Represents d b) {zero : T}
    {calls : List (Call T)}
    (hok : AtEach (fun b call => some (Call.onList zero b call).2) Call.Ok b calls) :
    replies (Call.answer zero) d calls =
        replies (fun b call => some (Call.onList zero b call)) b calls ∧
      ∃ d', exec (fun d call => (Call.answer zero d call).map Prod.snd) d calls = some d' ∧
        Represents d' (calls.foldl (fun b call => (Call.onList zero b call).2) b) :=
  AtEach.serves Represents (fun _ _ call h hok => h.serves call hok) hd hok

/-- An array that gets its block, is filled, with an element of its own too, refuses a push and
loses elements again. -/
theorem dArray_serves_list_full :
    let calls : List (Call Nat) := [.resize 4 fun _ => 9, .push (.value 1), .pushMany 2,
      .pushAt (.cell 0) 1, .push (.value 6), .removeSwapBack 0, .pop, .loadLast,
      .copyToArray [7, 7, 7] 2]
    replies (Call.answer 0) ⟨none, 0, 0⟩ calls =
        replies (fun b call => some (Call.onList 0 b call)) (BoundedList.empty 0) calls ∧
      ∃ d', exec (fun d call => (Call.answer 0 d call).map Prod.snd) ⟨none, 0, 0⟩ calls = some d' ∧
        Represents d'
          (calls.foldl (fun b call => (Call.onList 0 b call).2) (BoundedList.empty 0)) :=
  dArray_serves_list ⟨by decide, rfl, rfl⟩ (by decide)

end ScalBase.DArrays
