/-
  StaticList/Interface.lean --- the whole interface of a `StaticList`.

  Where a `DArray` refuses what there is no room for, a `StaticList` asserts that there is
  room.  Under its assertions all of its functions are edits of a list with room for
  `Capacity` elements, but for `PopAtOrder` of a full list, `PushAtOrder` of an element of
  the list from behind the place, and pointers into the list that `PopAt` and `PopAtOrder`
  store to (`staticList_serves_list`).
-/
import ScalBase.StaticList
import ScalBase.Foundation.BoundedList
import ScalBase.Foundation.Run

set_option autoImplicit false

namespace ScalBase.StaticLists

open Foundation Foundation.Block

variable {T : Type*}

/-! ## The other calls -/

namespace StaticList

/-- The index of `Last`. -/
def lastIndex (s : StaticList T) : Nat := if s.count > 0 then sub64 s.count 1 else 0

/-- `AtCopy`, or a load through the pointer of `At`. -/
def atCopy (s : StaticList T) (idx : Nat) : Option T := s.data[idx]?

/-- A load through the pointer of `Last`. -/
def last (s : StaticList T) : Option T := s.data[s.lastIndex]?

/-- A store through the pointer of `At`. -/
def storeAt (s : StaticList T) (val : T) (idx : Nat) : Option (StaticList T) := do
  let data ← store s.data idx [val]
  some ⟨s.count, data⟩

/-- `Clear`. -/
def clear (s : StaticList T) : StaticList T := ⟨0, s.data⟩

/-- `Push`. -/
def push (s : StaticList T) (val : Ref T) : Option (StaticList T) := do
  let val ← val.load s.data
  let data ← store s.data s.count [val]
  some ⟨u64 (s.count + 1), data⟩

/-- `PushAt`. -/
def pushAt (s : StaticList T) (val : Ref T) (idx : Nat) : Option (StaticList T) := do
  let old ← s.data[idx]?
  let data ← store s.data s.count [old]
  let val ← val.load data
  let data ← store data idx [val]
  some ⟨u64 (s.count + 1), data⟩

/-- `Pop`. -/
def pop (s : StaticList T) : StaticList T := ⟨sub64 s.count 1, s.data⟩

/-- `PopAt`, with what `inValue` leads to in the end. -/
def popAt (s : StaticList T) (inValue : Option Nat) (idx : Nat) : Option (T × StaticList T) := do
  let value ← s.data[idx]?
  let data ← storeOut s.data inValue value
  let last ← last ⟨s.count, data⟩
  let data ← store data idx [last]
  let value ← loadOut data inValue value
  some (value, ⟨sub64 s.count 1, data⟩)

end StaticList

/-- A call on the list.  The `inValue` of a `PopAt` or `PopAtOrder` leads elsewhere. -/
inductive ListCall (T : Type*) where
  | push (val : Ref T)
  | pushAt (val : Ref T) (idx : Nat)
  | pushAtOrder (val : Ref T) (idx : Nat)
  | pop
  | popAt (idx : Nat)
  | popAtOrder (idx : Nat)
  | atCopy (idx : Nat)
  | storeAt (val : T) (idx : Nat)
  | last
  | clear

namespace ListCall

/-- The values that a call returns, and the list after it. -/
def answer (s : StaticList T) : ListCall T → Option (List T × StaticList T)
  | push val => (s.push val).map ([], ·)
  | pushAt val idx => (s.pushAt val idx).map ([], ·)
  | pushAtOrder val idx => (s.pushAtOrder val idx).map ([], ·)
  | pop => some ([], s.pop)
  | popAt idx => (s.popAt none idx).map fun (val, s') => ([val], s')
  | popAtOrder idx => (s.popAtOrder none idx).map fun (val, s') => ([val], s')
  | atCopy idx => (s.atCopy idx).map fun val => ([val], s)
  | storeAt val idx => (s.storeAt val idx).map ([], ·)
  | last => s.last.map fun val => ([val], s)
  | clear => some ([], s.clear)

/-- What the call is for a list. -/
def onList (b : BoundedList T) : ListCall T → List T × BoundedList T
  | push val => ([], b.edit (val.edit b.elems (b.elems ++ [·])))
  | pushAt val idx => ([], b.edit (val.edit b.elems (insertSwap b.elems idx)))
  | pushAtOrder val idx => ([], b.edit (val.edit b.elems (b.elems.insertIdx idx)))
  | pop => ([], b.edit b.elems.dropLast)
  | popAt idx => (b.elems[idx]?.toList, b.edit (eraseSwap b.elems idx))
  | popAtOrder idx => (b.elems[idx]?.toList, b.edit (b.elems.eraseIdx idx))
  | atCopy idx => (b.elems[idx]?.toList, b)
  | storeAt val idx => ([], b.edit (b.elems.set idx val))
  | last => (b.elems.getLast?.toList, b)
  | clear => ([], b.edit [])

/-- What is asserted.  What is pushed lies elsewhere or is an element, for `PushAtOrder` none
from behind the place, a `PopAtOrder` is not of a full list, and what is loaded or stored is an
element. -/
def Ok (b : BoundedList T) : ListCall T → Prop
  | push val => val.Within b.elems.length ∧ b.elems.length < b.capacity
  | pushAt val idx =>
      val.Within b.elems.length ∧ idx < b.elems.length ∧ b.elems.length < b.capacity
  | pushAtOrder val idx =>
      val.Within (idx + 1) ∧ idx < b.elems.length ∧ b.elems.length < b.capacity
  | pop => 0 < b.elems.length
  | popAt idx => idx < b.elems.length - 1
  | popAtOrder idx => idx < b.elems.length - 1 ∧ b.elems.length < b.capacity
  | atCopy idx => idx < b.elems.length
  | storeAt _ idx => idx < b.elems.length
  | last => 0 < b.elems.length
  | clear => True

instance (b : BoundedList T) (call : ListCall T) : Decidable (call.Ok b) :=
  match call with
  | .pop | .popAt _ | .atCopy _ | .storeAt _ _ | .last => inferInstanceAs (Decidable (_ < _))
  | .push _ | .pushAt _ _ | .pushAtOrder _ _ | .popAtOrder _ =>
      inferInstanceAs (Decidable (_ ∧ _))
  | .clear => isTrue trivial

end ListCall

/-! ## The list that is stood for -/

/-- The `StaticList` stands for the list. -/
structure Represents (s : StaticList T) (b : BoundedList T) : Prop where
  wellFormed : s.WellFormed b.capacity
  elems : s.elems = b.elems

/-- A call returns what it returns for the list, and stands for the list after it. -/
def Serves (s : StaticList T) (b : BoundedList T) (call : ListCall T) : Prop :=
  ∃ s', call.answer s = some ((call.onList b).1, s') ∧ Represents s' (call.onList b).2

section Represents

variable {s : StaticList T} {b : BoundedList T}

theorem Represents.length_eq (h : Represents s b) : b.elems.length = s.count := by
  rw [← h.elems, h.wellFormed.length_elems]

/-- The cells are the elements and what lies behind them. -/
theorem Represents.exists_cells (h : Represents s b) :
    ∃ rest, s = ⟨b.elems.length, b.elems ++ rest⟩ ∧ b.elems.length + rest.length = b.capacity := by
  have hlength := h.length_eq
  have hdata : s.elems ++ s.data.drop s.count = s.data := List.take_append_drop s.count s.data
  refine ⟨s.data.drop s.count, ?_, ?_⟩
  · rw [← h.elems, hdata, h.wellFormed.length_elems]
  · rw [hlength, List.length_drop, h.wellFormed.size]
    exact Nat.add_sub_cancel' h.wellFormed.count

/-- Other elements in the same cells. -/
theorem Represents.cells (h : Represents s b) {l rest : List T}
    (hsize : l.length + rest.length = b.capacity) :
    Represents ⟨l.length, l ++ rest⟩ (b.edit l) := by
  refine ⟨⟨?_, ?_, ?_⟩, ?_⟩
  · rw [BoundedList.edit_capacity]
    exact h.wellFormed.word
  · rw [List.length_append, hsize, BoundedList.edit_capacity]
  · rw [BoundedList.edit_capacity]
    exact Nat.le_of_add_right_le hsize.le
  · rw [BoundedList.edit_fits (Nat.le_of_add_right_le hsize.le), StaticList.elems, List.take_left]

/-- A lower `Count` leaves the first elements. -/
theorem Represents.lower (h : Represents s b) {count : Nat} (hle : count ≤ s.count) :
    Represents ⟨count, s.data⟩ (b.edit (b.elems.take count)) := by
  obtain ⟨rest, rfl, hsize⟩ := h.exists_cells
  have hlength : (b.elems.take count).length = count := List.length_take_of_le hle
  have hcells := @Represents.cells T _ b h (b.elems.take count) (b.elems.drop count ++ rest) (by
    rw [List.length_append, List.length_drop, hlength, ← Nat.add_assoc,
      Nat.add_sub_cancel' hle, hsize])
  rwa [← List.append_assoc, List.take_append_drop, hlength] at hcells

/-- `Count` goes up by one. -/
theorem Represents.count_succ (h : Represents s b) (hroom : b.elems.length < b.capacity) :
    u64 (b.elems.length + 1) = b.elems.length + 1 := by
  have hword := h.wellFormed.word
  exact u64_eq (by omega)

/-- `Count` goes down by one. -/
theorem Represents.count_pred (h : Represents s b) (hpos : 0 < b.elems.length) :
    sub64 b.elems.length 1 = b.elems.length - 1 :=
  sub64_eq hpos (Nat.lt_of_le_of_lt b.fits h.wellFormed.word)

theorem Represents.getElem (h : Represents s b) {idx : Nat} (hidx : idx < b.elems.length) :
    ∃ val, s.data[idx]? = some val ∧ b.elems[idx]? = some val := by
  obtain ⟨rest, rfl, -⟩ := h.exists_cells
  exact ⟨_, by rw [List.getElem?_append_left hidx, List.getElem?_eq_getElem hidx],
    List.getElem?_eq_getElem hidx⟩

theorem Represents.getLast (h : Represents s b) (hpos : 0 < b.elems.length) :
    ∃ val, s.last = some val ∧ b.elems.getLast? = some val := by
  have hlast : s.lastIndex = b.elems.length - 1 := by
    rw [StaticList.lastIndex, ← h.length_eq, if_pos hpos, h.count_pred hpos]
  obtain ⟨val, hdata, hval⟩ := h.getElem (show b.elems.length - 1 < b.elems.length by omega)
  exact ⟨val, by rw [StaticList.last, hlast, hdata], by rw [List.getLast?_eq_getElem?, hval]⟩

/-! ## Each call -/

theorem Represents.push (h : Represents s b) {val : Ref T} (hok : (ListCall.push val).Ok b) :
    Serves s b (.push val) := by
  obtain ⟨hwithin, hroom⟩ := hok
  obtain ⟨v, hvalue⟩ := hwithin.exists_load
  obtain ⟨rest, rfl, hsize⟩ := h.exists_cells
  have hload : val.load (b.elems ++ rest) = some v := hwithin.load_append.trans hvalue
  cases rest with
  | nil =>
    rw [List.length_nil] at hsize
    omega
  | cons c rest =>
    have hlength : (b.elems ++ [v]).length = b.elems.length + 1 := List.length_append
    have hlist : (ListCall.push val).onList b = ([], b.edit (b.elems ++ [v])) := by
      rw [ListCall.onList, Ref.edit_eq hvalue]
    rw [Serves, hlist]
    refine ⟨⟨(b.elems ++ [v]).length, b.elems ++ [v] ++ rest⟩, ?_, h.cells ?_⟩
    · rw [ListCall.answer, StaticList.push, hlength]
      simp only [hload, store_cell, h.count_succ hroom, Option.bind_eq_bind, Option.bind_some,
        Option.map_some, List.append_assoc, List.singleton_append]
    · rw [hlength, ← hsize, List.length_cons]
      omega

theorem Represents.pushAt (h : Represents s b) {val : Ref T} {idx : Nat}
    (hok : (ListCall.pushAt val idx).Ok b) : Serves s b (.pushAt val idx) := by
  obtain ⟨hwithin, hidx, hroom⟩ := hok
  obtain ⟨v, hvalue⟩ := hwithin.exists_load
  have hlength := length_insertSwap hidx v
  have hsucc := h.count_succ hroom
  obtain ⟨old, hdata, hold⟩ := h.getElem hidx
  have hlist : (ListCall.pushAt val idx).onList b = ([], b.edit (insertSwap b.elems idx v)) := by
    rw [ListCall.onList, Ref.edit_eq hvalue]
  rw [Serves, hlist]
  obtain ⟨rest, rfl, hsize⟩ := h.exists_cells
  cases rest with
  | nil =>
    rw [List.length_nil] at hsize
    omega
  | cons c rest =>
    obtain ⟨xs, y, ys, helems, rfl⟩ := exists_around hidx
    have hload : val.load (b.elems ++ old :: rest) = some v := hwithin.load_append.trans hvalue
    have hstore := @store_cell T xs (ys ++ old :: rest) y v
    refine ⟨⟨(insertSwap b.elems xs.length v).length, insertSwap b.elems xs.length v ++ rest⟩,
      ?_, h.cells ?_⟩
    · have hcells : b.elems ++ old :: rest = xs ++ y :: (ys ++ old :: rest) := by
        rw [helems, List.append_assoc, List.cons_append]
      have hput : insertSwap b.elems xs.length v ++ rest = xs ++ v :: (ys ++ old :: rest) := by
        rw [insertSwap, hold, helems, set_cut]
        simp
      rw [← hcells, ← hput] at hstore
      rw [ListCall.answer, StaticList.pushAt, hlength]
      simp only [hdata, store_cell, hload, hstore, hsucc, Option.bind_eq_bind, Option.bind_some,
        Option.map_some]
    · rw [hlength, ← hsize, List.length_cons]
      omega

theorem Represents.pushAtOrder (h : Represents s b) {val : Ref T} {idx : Nat}
    (hok : (ListCall.pushAtOrder val idx).Ok b) : Serves s b (.pushAtOrder val idx) := by
  obtain ⟨hwithin, hidx, hroom⟩ := hok
  have hwithin' : val.Within b.elems.length := hwithin.mono hidx
  obtain ⟨v, hvalue⟩ := hwithin'.exists_load
  have hlength := List.length_insertIdx_of_le_length hidx.le v
  have hsucc := h.count_succ hroom
  have hcount : sub64 b.elems.length idx = b.elems.length - idx :=
    sub64_eq hidx.le (Nat.lt_of_le_of_lt b.fits h.wellFormed.word)
  have hlist : (ListCall.pushAtOrder val idx).onList b =
      ([], b.edit (b.elems.insertIdx idx v)) := by
    rw [ListCall.onList, Ref.edit_eq hvalue]
  rw [Serves, hlist]
  obtain ⟨rest, rfl, hsize⟩ := h.exists_cells
  cases rest with
  | nil =>
    rw [List.length_nil] at hsize
    omega
  | cons c rest =>
    obtain ⟨data, hmove, hstore⟩ := @insert_move T b.elems rest c idx hidx.le
    -- What lies at or before the place is not moved.
    have hload : val.load data = some v := by
      rw [(Ref.load_moved_iff hidx.le hmove).mpr (hwithin.stays _ _), hwithin'.load_append, hvalue]
    refine ⟨⟨(b.elems.insertIdx idx v).length, b.elems.insertIdx idx v ++ rest⟩, ?_, h.cells ?_⟩
    · rw [ListCall.answer, StaticList.pushAtOrder, hlength]
      simp only [hcount, hmove, hload, hstore, hsucc, Option.bind_eq_bind, Option.bind_some,
        Option.map_some]
    · rw [hlength, ← hsize, List.length_cons]
      omega

theorem Represents.pop (h : Represents s b) (hpos : 0 < b.elems.length) : Serves s b .pop := by
  have hlength := h.length_eq
  refine ⟨_, rfl, ?_⟩
  rw [ListCall.onList, StaticList.pop, List.dropLast_eq_take, ← hlength, h.count_pred hpos]
  exact h.lower (by omega)

theorem Represents.popAt (h : Represents s b) {idx : Nat} (hok : (ListCall.popAt idx).Ok b) :
    Serves s b (.popAt idx) := by
  have hidx : idx < b.elems.length - 1 := hok
  have hlt : idx < b.elems.length := by omega
  have hlength := length_eraseSwap hlt
  have hpred := h.count_pred (Nat.zero_lt_of_lt hlt)
  obtain ⟨inValue, hdata, hvalue⟩ := h.getElem hlt
  obtain ⟨last, hlast, hgetLast⟩ := h.getLast (Nat.zero_lt_of_lt hlt)
  obtain ⟨rest, rfl, hsize⟩ := h.exists_cells
  obtain ⟨xs, y, ys, helems, rfl⟩ := exists_around hlt
  have hstore := @store_cell T xs (ys ++ rest) y last
  have hcells : b.elems ++ rest = xs ++ y :: (ys ++ rest) := by
    rw [helems, List.append_assoc, List.cons_append]
  -- The last element stays behind the others.
  have hput : xs ++ last :: (ys ++ rest) = eraseSwap b.elems xs.length ++ last :: rest := by
    have hset : b.elems.set xs.length last = eraseSwap b.elems xs.length ++ [last] := by
      have hlastSet : (b.elems.set xs.length last).getLast? = some last := by
        rw [List.getLast?_eq_getElem?, List.length_set, List.getElem?_set_ne (by omega),
          ← List.getLast?_eq_getElem?, hgetLast]
      rw [eraseSwap, hgetLast]
      exact (List.dropLast_append_getLast? _ hlastSet).symm
    rw [helems, set_cut] at hset
    rw [← List.cons_append, ← List.append_assoc, hset, ← helems, List.append_assoc,
      List.singleton_append]
  rw [← hcells, hput] at hstore
  refine ⟨⟨(eraseSwap b.elems xs.length).length, eraseSwap b.elems xs.length ++ last :: rest⟩, ?_,
    h.cells ?_⟩
  · rw [ListCall.answer, StaticList.popAt, hlength, ListCall.onList, hvalue]
    simp only [hdata, storeOut, loadOut, hlast, hstore, hpred, Option.bind_eq_bind,
      Option.bind_some, Option.map_some]
    rfl
  · rw [hlength, ← hsize, List.length_cons]
    omega

/-- `PopAtOrder` moves the elements behind `idx` and one cell more. -/
theorem Represents.popAtOrder (h : Represents s b) {idx : Nat}
    (hok : (ListCall.popAtOrder idx).Ok b) : Serves s b (.popAtOrder idx) := by
  obtain ⟨hidx, hroom⟩ := hok
  have hlt : idx < b.elems.length := by omega
  have hlength := List.length_eraseIdx_of_lt hlt
  have hpred := h.count_pred (Nat.zero_lt_of_lt hlt)
  have hcount : sub64 b.elems.length idx = b.elems.length - idx :=
    sub64_eq hlt.le (Nat.lt_of_le_of_lt b.fits h.wellFormed.word)
  obtain ⟨inValue, hdata, hvalue⟩ := h.getElem hlt
  obtain ⟨rest, rfl, hsize⟩ := h.exists_cells
  cases rest with
  | nil =>
    rw [List.length_nil] at hsize
    omega
  | cons c rest =>
    obtain ⟨c', hmove⟩ := @erase_move_behind T b.elems rest c idx hlt
    refine ⟨⟨(b.elems.eraseIdx idx).length, b.elems.eraseIdx idx ++ c :: c' :: rest⟩,
      ?_, h.cells ?_⟩
    · rw [ListCall.answer, StaticList.popAtOrder, hlength, ListCall.onList, hvalue]
      simp only [hdata, storeOut, loadOut, hcount, hmove, hpred, Option.bind_eq_bind,
        Option.bind_some, Option.map_some]
      rfl
    · rw [hlength, ← hsize]
      simp only [List.length_cons]
      omega

theorem Represents.storeAt (h : Represents s b) {val : T} {idx : Nat}
    (hidx : idx < b.elems.length) : Serves s b (.storeAt val idx) := by
  have hlength : (b.elems.set idx val).length = b.elems.length := List.length_set
  obtain ⟨rest, rfl, hsize⟩ := h.exists_cells
  have hstore : store (b.elems ++ rest) idx [val] = some (b.elems.set idx val ++ rest) := by
    obtain ⟨xs, y, ys, helems, rfl⟩ := exists_around hidx
    rw [helems, set_cut, List.append_assoc, List.cons_append, store_cell, List.append_assoc,
      List.cons_append]
  refine ⟨⟨(b.elems.set idx val).length, b.elems.set idx val ++ rest⟩, ?_,
    h.cells (by rw [hlength, hsize])⟩
  rw [ListCall.answer, StaticList.storeAt, hlength]
  simp only [hstore, Option.bind_eq_bind, Option.bind_some, Option.map_some]
  rfl

theorem Represents.clear (h : Represents s b) : Serves s b .clear := by
  refine ⟨_, rfl, ?_⟩
  have hlower := h.lower (Nat.zero_le _)
  rwa [List.take_zero] at hlower

theorem Represents.serves (h : Represents s b) (call : ListCall T) (hok : call.Ok b) :
    Serves s b call := by
  cases call with
  | push val => exact h.push hok
  | pushAt val idx => exact h.pushAt hok
  | pushAtOrder val idx => exact h.pushAtOrder hok
  | pop => exact h.pop hok
  | popAt idx => exact h.popAt hok
  | popAtOrder idx => exact h.popAtOrder hok
  | atCopy idx =>
    obtain ⟨val, hdata, hval⟩ := h.getElem hok
    exact ⟨s, by rw [ListCall.answer, StaticList.atCopy, hdata, ListCall.onList, hval]; rfl, h⟩
  | storeAt val idx => exact h.storeAt hok
  | last =>
    obtain ⟨val, hlast, hval⟩ := h.getLast hok
    exact ⟨s, by rw [ListCall.answer, hlast, ListCall.onList, hval]; rfl, h⟩
  | clear => exact h.clear

end Represents

end ScalBase.StaticLists
