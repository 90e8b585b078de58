/-
  StaticList.lean --- the ordered edits of `StaticList` in `Lib/StaticArray.h`.

  `Data` has `Capacity` cells, of which the first `Count` are in use; a load or a store
  of another cell has no result.  `Count` and indexes are `size_t`.  What the two
  functions assert is `Call.Asserted`.

  `PopAtOrder` moves `Count - idx` elements from behind `idx`, one more than there are.
  That one is the cell behind the elements, and of a full list there is none.

  Both functions use their pointer on the wrong side of the move.  `PushAtOrder` reads
  `*val` after it, and an element from behind `idx` has been moved by then.
  `PopAtOrder` stores to `*inValue` before it, and a cell of the list that is stored to
  is an element that is lost, or moved over.
-/
import ScalBase.Base
import ScalBase.Foundation.Block

set_option autoImplicit false

namespace ScalBase.StaticLists

open Foundation Foundation.Block

variable {T : Type*}

/-- The list. -/
structure StaticList (T : Type*) where
  count : Nat
  data : List T
  deriving DecidableEq, Repr

namespace StaticList

/-- `PushAtOrder`. -/
def pushAtOrder (s : StaticList T) (val : Ref T) (idx : Nat) : Option (StaticList T) := do
  let data ← move s.data (idx + 1) idx (sub64 s.count idx)
  let val ← val.load data
  let data ← store data idx [val]
  some ⟨u64 (s.count + 1), data⟩

/-- `PopAtOrder`, with what `inValue` leads to in the end. -/
def popAtOrder (s : StaticList T) (inValue : Option Nat) (idx : Nat) :
    Option (T × StaticList T) := do
  let value ← s.data[idx]?
  let data ← storeOut s.data inValue value
  let data ← move data idx (idx + 1) (sub64 s.count idx)
  let value ← loadOut data inValue value
  some (value, ⟨sub64 s.count 1, data⟩)

/-- The elements. -/
def elems (s : StaticList T) : List T := s.data.take s.count

/-- A list of `capacity` cells. -/
structure WellFormed (capacity : Nat) (s : StaticList T) : Prop where
  word : capacity < 2 ^ 64
  size : s.data.length = capacity
  count : s.count ≤ capacity

/-- The store through `inValue` changes no element that stays, and the move brings the same to
where it went. -/
def KeepsOut (s : StaticList T) (idx : Nat) (inValue : Option Nat) : Prop :=
  ∀ k ∈ inValue, (k = idx ∨ s.count ≤ k ∨ s.data[k]? = s.data[idx]?) ∧
    (k < idx ∨ s.count ≤ k ∨ s.data[k + 1]? = s.data[idx]?)

end StaticList

/-- A call on the list. -/
inductive Call (T : Type*) where
  | pushAtOrder (val : Ref T) (idx : Nat)
  | popAtOrder (inValue : Option Nat) (idx : Nat)
  deriving DecidableEq, Repr

namespace Call

/-- What the function asserts.  Pointers into the list are to its cells. -/
def Asserted (capacity : Nat) (s : StaticList T) : Call T → Prop
  | pushAtOrder val idx => val.Within capacity ∧ idx < s.count ∧ s.count < capacity
  | popAtOrder inValue idx =>
      (∀ k ∈ inValue, k < capacity) ∧ s.count > 0 ∧ idx < sub64 s.count 1

/-- The call is the list edit, with the value that the pointer led to before it or leads to
after it, and every cell that it reads or writes is one of the list. -/
def Edits (s : StaticList T) : Call T → Prop
  | pushAtOrder val idx => ∃ v s', val.load s.data = some v ∧ s.pushAtOrder val idx = some s' ∧
      s'.elems = s.elems.insertIdx idx v
  | popAtOrder inValue idx => ∃ v s', s.popAtOrder inValue idx = some (v, s') ∧
      s.elems[idx]? = some v ∧ s'.elems = s.elems.eraseIdx idx

/-- The condition on the state before a call. -/
def Clean (capacity : Nat) (s : StaticList T) : Call T → Prop
  | pushAtOrder val idx => val.Stays s.data idx s.count
  | popAtOrder inValue idx => s.count < capacity ∧ s.KeepsOut idx inValue

end Call

section Calls

variable {capacity idx : Nat} {s : StaticList T}

theorem StaticList.WellFormed.length_elems (h : s.WellFormed capacity) :
    s.elems.length = s.count := by
  rw [elems, List.length_take, h.size]
  exact Nat.min_eq_left h.count

/-- A list that is not full has a cell behind its elements. -/
theorem StaticList.WellFormed.exists_free (h : s.WellFormed capacity) (hroom : s.count < capacity) :
    ∃ c rest, s.data = s.elems ++ c :: rest := by
  have hsplit : s.elems ++ s.data.drop s.count = s.data := List.take_append_drop s.count s.data
  cases hdrop : s.data.drop s.count with
  | nil =>
    have hlength := congrArg List.length hdrop
    rw [List.length_drop, h.size, List.length_nil] at hlength
    omega
  | cons c rest =>
    rw [hdrop] at hsplit
    exact ⟨c, rest, hsplit.symm⟩

/-- `PushAtOrder` inserts what it reads after the move. -/
theorem StaticList.WellFormed.pushAtOrder (h : s.WellFormed capacity) {val : Ref T}
    (hok : (Call.pushAtOrder val idx).Asserted capacity s) :
    ∃ v s', s.pushAtOrder val idx = some s' ∧ s'.elems = s.elems.insertIdx idx v ∧
      (val.load s.data = some v ↔ val.Stays s.data idx s.count) := by
  obtain ⟨hwithin, hidx, hroom⟩ := hok
  have hlength := h.length_elems
  have hword := h.word
  obtain ⟨c, rest, hdata⟩ := h.exists_free hroom
  have hle : idx ≤ s.elems.length := by omega
  obtain ⟨data, hmove, hstore⟩ := @insert_move T s.elems rest c idx hle
  rw [← hdata, hlength] at hmove
  have hsize : data.length = capacity := (length_move hmove).trans h.size
  obtain ⟨v, hload⟩ := (show val.Within data.length from hsize ▸ hwithin).exists_load
  have hcount : sub64 s.count idx = s.count - idx := sub64_eq hidx.le (by omega)
  have hmore : u64 (s.count + 1) = (s.elems.insertIdx idx v).length := by
    rw [List.length_insertIdx_of_le_length hle, hlength]
    exact u64_eq (by omega)
  refine ⟨v, ⟨u64 (s.count + 1), s.elems.insertIdx idx v ++ rest⟩, ?_, ?_, ?_⟩
  · simp only [StaticList.pushAtOrder, hcount, hmove, hload, hstore, Option.bind_eq_bind,
      Option.bind_some]
  · rw [elems, hmore, List.take_left]
  · rw [← Ref.load_moved_iff hidx.le hmove, hload]
    -- The value before the call is there, as the pointer is to a cell.
    obtain ⟨w, hw⟩ := (show val.Within s.data.length from h.size ▸ hwithin).exists_load
    rw [hw]
    exact eq_comm

/-- `PushAtOrder` is the list edit exactly when its value is not moved before it is read. -/
theorem StaticList.WellFormed.pushAtOrder_iff (h : s.WellFormed capacity) {val : Ref T}
    (hok : (Call.pushAtOrder val idx).Asserted capacity s) :
    (Call.pushAtOrder val idx).Edits s ↔ val.Stays s.data idx s.count := by
  obtain ⟨v, s', hpush, helems, hstays⟩ := h.pushAtOrder hok
  rw [← hstays]
  constructor
  · rintro ⟨w, s'', hvalue, hpush', helems'⟩
    cases hpush.symm.trans hpush'
    have hle : idx ≤ s.elems.length := by
      rw [h.length_elems]
      exact hok.2.1.le
    obtain ⟨xs, ys, hcut, rfl⟩ := exists_cut hle
    rw [helems, hcut, insertIdx_cut, insertIdx_cut, List.append_cancel_left_eq,
      List.cons.injEq] at helems'
    rw [hvalue, helems'.1]
  · exact fun hvalue => ⟨v, s', hvalue, hpush, helems⟩

/-- The move of `PopAtOrder`, where there is a cell behind the elements. -/
theorem StaticList.WellFormed.moved (h : s.WellFormed capacity) (hidx : idx < s.count)
    (hroom : s.count < capacity) :
    ∃ data, move s.data idx (idx + 1) (sub64 s.count idx) = some data ∧
      data.take (s.count - 1) = s.elems.eraseIdx idx ∧
      ∀ j, data[j]? = if idx ≤ j ∧ j < s.count then s.data[j + 1]? else s.data[j]? := by
  have hlength := h.length_elems
  have hword := h.word
  obtain ⟨c, rest, hdata⟩ := h.exists_free hroom
  obtain ⟨c', hmove⟩ := @erase_move_behind T s.elems rest c idx (by omega)
  have hcount : sub64 s.count idx = s.count - idx := sub64_eq hidx.le (by omega)
  have herase : s.count - 1 = (s.elems.eraseIdx idx).length := by
    rw [List.length_eraseIdx_of_lt (by omega), hlength]
  rw [← hdata, hlength, ← hcount] at hmove
  refine ⟨_, hmove, by rw [herase, List.take_left], fun j => ?_⟩
  rw [getElem?_move hmove, hcount, Nat.add_sub_cancel' hidx.le]
  by_cases hin : idx ≤ j ∧ j < s.count
  · rw [if_pos hin, if_pos hin, show idx + 1 + (j - idx) = j + 1 by omega]
  · rw [if_neg hin, if_neg hin]

/-- `PopAtOrder` that stores to a cell of the list, where there is a cell behind the elements:
when the store loses no element, and when the cell holds the value in the end. -/
theorem StaticList.WellFormed.popAtOrder_cell (h : s.WellFormed capacity) {k : Nat}
    (hk : k < capacity) (hidx : idx + 1 < s.count) (hroom : s.count < capacity) :
    ∃ v s', s.popAtOrder (some k) idx = some (v, s') ∧
      (s'.elems = s.elems.eraseIdx idx ↔ k = idx ∨ s.count ≤ k ∨ s.data[k]? = s.data[idx]?) ∧
      (some v = s.data[idx]? ↔ k < idx ∨ s.count ≤ k ∨ s.data[k + 1]? = s.data[idx]?) := by
  have hword := h.word
  have hfewer : sub64 s.count 1 = s.count - 1 := sub64_eq (by omega) (by omega)
  have hk' : k < s.data.length := h.size ▸ hk
  obtain ⟨x, hx⟩ : ∃ x, s.data[idx]? = some x :=
    ⟨_, List.getElem?_eq_getElem (by rw [h.size]; omega)⟩
  -- The list with the store through `inValue` in it is the one that the move is of.
  have hstored : StaticList.WellFormed capacity ⟨s.count, s.data.set k x⟩ :=
    ⟨hword, List.length_set.trans h.size, h.count⟩
  obtain ⟨data, hmove, htake, hcell⟩ := hstored.moved (show idx < s.count by omega) hroom
  have hset : StaticList.elems ⟨s.count, s.data.set k x⟩ = s.elems.set k x := List.take_set
  rw [hset] at htake
  obtain ⟨v, hv⟩ : ∃ v, data[k]? = some v := by
    refine ⟨_, List.getElem?_eq_getElem ?_⟩
    rw [length_move hmove, List.length_set]
    exact hk'
  refine ⟨v, ⟨s.count - 1, data⟩, ?_, ?_, ?_⟩
  · simp only [StaticList.popAtOrder, hx, storeOut, store_set hk', loadOut, hmove, hv, hfewer,
      Option.bind_eq_bind, Option.bind_some]
  · rw [elems, htake, eraseIdx_set_iff, h.length_elems, hx]
    rcases Nat.lt_or_ge k s.count with hlt | hge
    · rw [elems, List.getElem?_take_of_lt hlt]
    · exact iff_of_true (Or.inr (Or.inl hge)) (Or.inr (Or.inl hge))
  · rw [← hv, hcell k, hx]
    dsimp only
    by_cases hin : idx ≤ k ∧ k < s.count
    · rw [if_pos hin, List.getElem?_set_ne (by omega), or_iff_right (by omega),
        or_iff_right (by omega)]
    · rw [if_neg hin, List.getElem?_set_self hk']
      exact iff_of_true rfl (by omega)

/-- `PopAtOrder` is the list edit exactly when the store before the move does no harm, where
there is a cell behind the elements. -/
theorem StaticList.WellFormed.popAtOrder_iff (h : s.WellFormed capacity) {inValue : Option Nat}
    (hok : (Call.popAtOrder inValue idx : Call T).Asserted capacity s)
    (hroom : s.count < capacity) :
    (Call.popAtOrder inValue idx).Edits s ↔ s.KeepsOut idx inValue := by
  obtain ⟨hout, hpos, hidx⟩ := hok
  have hword := h.word
  have hfewer : sub64 s.count 1 = s.count - 1 := sub64_eq hpos (by omega)
  rw [hfewer] at hidx
  have helem : s.elems[idx]? = s.data[idx]? := List.getElem?_take_of_lt (by omega)
  cases inValue with
  | none =>
    obtain ⟨data, hmove, htake, -⟩ := h.moved (show idx < s.count by omega) hroom
    obtain ⟨x, hx⟩ : ∃ x, s.data[idx]? = some x :=
      ⟨_, List.getElem?_eq_getElem (by rw [h.size]; omega)⟩
    refine iff_of_true ⟨x, ⟨s.count - 1, data⟩, ?_, helem.trans hx, htake⟩ fun k hk => by cases hk
    simp only [StaticList.popAtOrder, hx, storeOut, loadOut, hmove, hfewer, Option.bind_eq_bind,
      Option.bind_some]
  | some k =>
    obtain ⟨v, s', hpop, hkept, hvalue⟩ :=
      h.popAtOrder_cell (hout k rfl) (show idx + 1 < s.count by omega) hroom
    have hkeeps : s.KeepsOut idx (some k) ↔
        s'.elems = s.elems.eraseIdx idx ∧ some v = s.data[idx]? := by
      rw [hkept, hvalue, KeepsOut]
      exact ⟨fun hall => hall k rfl, fun hboth k' hk' => by cases hk'; exact hboth⟩
    rw [hkeeps, Call.Edits]
    constructor
    · rintro ⟨v', s'', hpop', hv', helems⟩
      cases hpop.symm.trans hpop'
      exact ⟨helems, hv'.symm.trans helem⟩
    · rintro ⟨helems, hv⟩
      exact ⟨v, s', hpop, helem.trans hv.symm, helems⟩

/-- `PopAtOrder` of a full list reads behind it. -/
theorem StaticList.WellFormed.popAtOrder_full (h : s.WellFormed capacity) {inValue : Option Nat}
    (hidx : idx < s.count) (hfull : s.count = capacity) : s.popAtOrder inValue idx = none := by
  have hword := h.word
  have hcount : sub64 s.count idx = s.count - idx := sub64_eq hidx.le (by omega)
  have hmove : ∀ data : List T, data.length = capacity →
      move data idx (idx + 1) (sub64 s.count idx) = none := by
    intro data hsize
    rw [move, load_eq_none (by omega)]
    rfl
  rw [popAtOrder]
  cases hx : s.data[idx]? with
  | none => rfl
  | some x =>
    cases inValue with
    | none =>
      simp only [storeOut, hmove s.data h.size, Option.bind_eq_bind, Option.bind_some,
        Option.bind_none]
    | some k =>
      rcases Nat.lt_or_ge k s.data.length with hk | hk
      · simp only [storeOut, store_set hk, hmove _ (List.length_set.trans h.size),
          Option.bind_eq_bind, Option.bind_some, Option.bind_none]
      · simp only [storeOut, store_eq_none (show s.data.length < k + [x].length by simpa using hk),
          Option.bind_eq_bind, Option.bind_some, Option.bind_none]

/-- On every list, a call that meets the assertions is the list edit and stays within the
list exactly when it is no `PopAtOrder` of a full one and its pointer leads elsewhere, or to
where the move makes no difference. -/
theorem staticList_edits_iff (h : s.WellFormed capacity) {call : Call T}
    (hok : call.Asserted capacity s) : call.Edits s ↔ call.Clean capacity s := by
  cases call with
  | pushAtOrder val idx => exact h.pushAtOrder_iff hok
  | popAtOrder inValue idx =>
    rcases Nat.lt_or_eq_of_le h.count with hroom | hfull
    · rw [Call.Clean, and_iff_right hroom]
      exact h.popAtOrder_iff hok hroom
    · refine iff_of_false ?_ fun hclean => hclean.1.ne hfull
      rintro ⟨v, s', hpop, -⟩
      obtain ⟨-, hpos, hidx⟩ := hok
      rw [sub64_eq hpos (Nat.lt_of_le_of_lt h.count h.word)] at hidx
      rw [h.popAtOrder_full (by omega) hfull] at hpop
      cases hpop

end Calls

/-- The first of two elements, stored to the free cell behind them. -/
theorem staticList_edits_iff_three :
    (Call.popAtOrder (some 2) 0).Edits (⟨2, [1, 2, 0]⟩ : StaticList Nat) ↔
      (Call.popAtOrder (some 2) 0).Clean 3 (⟨2, [1, 2, 0]⟩ : StaticList Nat) :=
  staticList_edits_iff ⟨by decide, rfl, by decide⟩ ⟨by decide, by decide, by decide⟩

/-- The first of two elements, in a list of two cells: `Data[2]` is read. -/
theorem popAtOrder_full_reads_behind :
    StaticList.WellFormed 2 (⟨2, [1, 2]⟩ : StaticList Nat) ∧
      (Call.popAtOrder none 0).Asserted 2 (⟨2, [1, 2]⟩ : StaticList Nat) ∧
      ¬ (Call.popAtOrder none 0).Edits (⟨2, [1, 2]⟩ : StaticList Nat) := by
  refine ⟨⟨by decide, rfl, by decide⟩, ⟨by decide, by decide, by decide⟩, ?_⟩
  rintro ⟨v, s', hpop, -⟩
  have hnone : StaticList.popAtOrder (⟨2, [1, 2]⟩ : StaticList Nat) none 0 = none := by decide
  rw [hnone] at hpop
  cases hpop

/-- The second element is to be inserted at the front of `[1, 2, 3]`, and the first one is. -/
example : (StaticList.pushAtOrder ⟨3, [1, 2, 3, 0]⟩ (.cell 1) 0).map StaticList.elems =
    some [1, 1, 2, 3] := by decide

/-- The second of three elements is stored to the first, which is lost. -/
example : (StaticList.popAtOrder ⟨3, [1, 2, 3, 0]⟩ (some 0) 1).map
    (fun r => (r.1, r.2.elems)) = some (2, [2, 3]) := by decide

end ScalBase.StaticLists
