/-
  DArray/Edits.lean --- edits of a `DArray` at an index.

  `PushAt` moves the elements from `idx` on up by one, unless `idx` is `LastIndex()`.
  Then it moves nothing, stores over the last element and raises `Count`, so that the
  cell behind the elements becomes the last of them, with whatever it holds.
  `PushSwapBack` has the same exception.  Both do what they should unless they are
  made there, or the cell behind the elements happens to hold what the last one does
  (`KeepsLast`).  `RemoveAt` and `RemoveSwapBack` are right everywhere.

  `PushAt` reads its value after the move.  An element from behind `idx` has been moved
  by then, and the one before it is inserted instead (`Ref.Stays`).  `PushSwapBack`
  copies one element behind the others, which moves no element.
-/
import ScalBase.DArray.Model
import Mathlib.Data.List.Perm.Basic

set_option autoImplicit false

namespace ScalBase.DArrays

open Foundation Foundation.Block

variable {T : Type*}

/-- The element at `idx` is not the last one, or the cell behind the last one holds the
same. -/
def DArray.KeepsLast (d : DArray T) (idx : Nat) : Prop :=
  idx + 1 < d.count ∨ d.cells[d.count]? = d.cells[idx]?

instance [DecidableEq T] (d : DArray T) (idx : Nat) : Decidable (d.KeepsLast idx) :=
  inferInstanceAs (Decidable (_ ∨ _))

/-! ## Edits that keep the order -/

/-- `PushAt` or `RemoveAt`. -/
inductive Edit (T : Type*) where
  | pushAt (value : Ref T) (idx : Nat)
  | removeAt (idx : Nat)
  deriving DecidableEq, Repr

namespace Edit

/-- The array after an edit. -/
def step (d : DArray T) : Edit T → Option (DArray T)
  | pushAt value idx => d.pushAt value idx
  | removeAt idx => d.removeAt idx

/-- What an edit does to a list. -/
def onList (l : List T) : Edit T → List T
  | pushAt value idx => value.edit l (l.insertIdx idx)
  | removeAt idx => l.eraseIdx idx

/-- An edit at an element; a push needs room, and its value lies elsewhere or is an element. -/
def Ok (d : DArray T) : Edit T → Prop
  | pushAt value idx => idx < d.count ∧ d.count < d.capacity ∧ value.Within d.count
  | removeAt idx => idx < d.count

instance (d : DArray T) (edit : Edit T) : Decidable (edit.Ok d) :=
  match edit with
  | .pushAt _ _ => inferInstanceAs (Decidable (_ ∧ _))
  | .removeAt _ => inferInstanceAs (Decidable (_ < _))

/-- The elements after an edit are the list edit of those before it, and a removal
right after a push restores them. -/
def Refined (d : DArray T) (edit : Edit T) : Prop :=
  ∃ d', edit.step d = some d' ∧ d'.elems = edit.onList d.elems ∧
    ∀ value idx, edit = pushAt value idx → ∃ d'', d'.removeAt idx = some d'' ∧ d''.elems = d.elems

/-- The condition on the state before an edit. -/
def Clean (d : DArray T) : Edit T → Prop
  | pushAt value idx => d.KeepsLast idx ∧ value.Stays d.cells idx d.count
  | removeAt _ => True

instance [DecidableEq T] (d : DArray T) (edit : Edit T) : Decidable (edit.Clean d) :=
  match edit with
  | .pushAt _ _ => inferInstanceAs (Decidable (DArray.KeepsLast _ _ ∧ Ref.Stays _ _ _ _))
  | .removeAt _ => isTrue trivial

end Edit

section Cells

variable {capacity idx : Nat} {l rest : List T} {c : T}

/-- Before the last element, `PushAt` inserts what is read after the move. -/
theorem DArray.pushAt_inner (hword : capacity < 2 ^ 32) (hroom : l.length < capacity)
    (hidx : idx + 1 < l.length) {value : Ref T} (hwithin : value.Within l.length) :
    ∃ v, (ofCells capacity l (c :: rest)).pushAt value idx =
        some (ofCells capacity (l.insertIdx idx v) rest) ∧
      (value.load l = some v ↔ value.Stays (l ++ c :: rest) idx l.length) := by
  have hle : idx ≤ l.length := by omega
  have hlast : idx ≠ (ofCells capacity l (c :: rest)).lastIndex := by
    rw [lastIndex_ofCells]
    omega
  have hcount : sub32 (ofCells capacity l (c :: rest)).count idx = l.length - idx :=
    sub32_eq hle (by rw [count_ofCells]; omega)
  obtain ⟨memory, hmove, hstore⟩ := @insert_move T l rest c idx hle
  have hlength : l.length ≤ memory.length := by
    rw [length_move hmove, List.length_append]
    exact Nat.le_add_right ..
  obtain ⟨v, hload⟩ := (hwithin.mono hlength).exists_load
  refine ⟨v, ?_, ?_⟩
  · rw [pushAt, if_neg (by rw [count_ofCells, capacity_ofCells]; omega), count_succ hword hroom]
    simp only [memory_ofCells, capacity_ofCells, if_pos hlast, hcount, hmove, hload, hstore,
      Option.bind_eq_bind, Option.bind_some]
    exact congrArg some (mk_eq_ofCells (List.length_insertIdx_of_le_length hle v))
  · rw [← Ref.load_moved_iff hle hmove, hload, hwithin.load_append]
    exact eq_comm

/-- At the last element, `PushAt` stores over it and takes the cell behind. -/
theorem DArray.pushAt_last {x : T} (hword : capacity < 2 ^ 32) (hroom : l.length + 1 < capacity)
    {value : Ref T} (hwithin : value.Within (l.length + 1)) :
    ∃ v, (ofCells capacity (l ++ [x]) (c :: rest)).pushAt value l.length =
        some (ofCells capacity (l ++ [v, c]) rest) ∧ value.load (l ++ [x]) = some v := by
  have hlast : ¬ l.length ≠ (ofCells capacity (l ++ [x]) (c :: rest)).lastIndex := by
    rw [lastIndex_ofCells, List.length_append, List.length_singleton, Nat.add_sub_cancel]
    exact not_not_intro rfl
  have hlength : (l ++ [x]).length = l.length + 1 := List.length_append
  have hwithin' : value.Within (l ++ [x]).length := hlength ▸ hwithin
  obtain ⟨v, hvalue⟩ := hwithin'.exists_load
  have hload : value.load (l ++ [x] ++ c :: rest) = some v := hwithin'.load_append.trans hvalue
  have hstore := @store_cell T l (c :: rest) x v
  refine ⟨v, ?_, hvalue⟩
  rw [pushAt, if_neg (by rw [count_ofCells, capacity_ofCells]; omega),
    count_succ hword (hlength ▸ hroom)]
  have htaken : l ++ v :: c :: rest = (l ++ [v, c]) ++ rest := by
    rw [List.append_assoc]
    rfl
  rw [List.append_assoc, List.singleton_append] at hload
  simp only [memory_ofCells, capacity_ofCells, if_neg hlast, List.append_assoc l [x],
    List.singleton_append, hload, hstore, htaken, Option.bind_eq_bind, Option.bind_some]
  exact congrArg some (mk_eq_ofCells (by rw [List.length_append, hlength]; rfl))

/-- `RemoveAt` erases. -/
theorem DArray.removeAt_ofCells (hword : capacity < 2 ^ 32) (hle : l.length ≤ capacity)
    (hidx : idx < l.length) :
    ∃ c, (ofCells capacity l rest).removeAt idx =
      some (ofCells capacity (l.eraseIdx idx) (c :: rest)) := by
  have hpos : 0 < l.length := Nat.zero_lt_of_lt hidx
  have herase : (l.eraseIdx idx).length = l.length - 1 := List.length_eraseIdx_of_lt hidx
  rw [removeAt, count_pred hword hle hpos]
  by_cases hlast : idx = l.length - 1
  · -- Nothing moves; the last element is left behind the others.
    obtain ⟨xs, x, rfl, rfl⟩ := exists_last (show idx + 1 = l.length by omega)
    refine ⟨x, ?_⟩
    rw [eraseIdx_cut, List.append_nil] at herase ⊢
    simp only [memory_ofCells, capacity_ofCells, ← herase, ne_eq, not_true, if_false,
      Option.bind_eq_bind, Option.bind_some, List.append_assoc]
    rfl
  · have hcount : sub64 (l.length - 1) idx = l.length - (idx + 1) := by
      rw [sub64_eq (by omega) (by omega)]
      omega
    obtain ⟨c, hmove⟩ := @erase_move T l rest idx hidx
    refine ⟨c, ?_⟩
    simp only [memory_ofCells, capacity_ofCells, ne_eq, hlast, not_false_eq_true, if_true, hcount,
      hmove, Option.bind_eq_bind, Option.bind_some]
    exact congrArg some (mk_eq_ofCells herase)

/-- The condition at the last element. -/
theorem DArray.keepsLast_last {x : T} :
    (ofCells capacity (l ++ [x]) (c :: rest)).KeepsLast l.length ↔ c = x := by
  have hlength : (l ++ [x]).length = l.length + 1 := List.length_append
  have hbehind : (l ++ [x] ++ c :: rest)[l.length + 1]? = some c := by
    rw [← hlength, List.getElem?_append_right (Nat.le_refl _), Nat.sub_self]
    rfl
  have hlast : (l ++ [x] ++ c :: rest)[l.length]? = some x := by
    rw [List.append_assoc, List.getElem?_append_right (Nat.le_refl _), Nat.sub_self]
    rfl
  rw [KeepsLast, count_ofCells, cells_ofCells, hlength, hbehind, hlast, Option.some.injEq]
  constructor
  · exact fun h => h.resolve_left (Nat.lt_irrefl _)
  · exact Or.inr

/-- A `PushAt` that returns does what it should where it inserts the value that was there before
it, and the removal takes that away. -/
theorem Edit.refined_pushAt_iff {d d' : DArray T} {value : Ref T} {w : T}
    (hpush : d.pushAt value idx = some d') (hvalue : value.load d.elems = some w) :
    Refined d (pushAt value idx) ↔ d'.elems = d.elems.insertIdx idx w ∧
      ∃ d'', d'.removeAt idx = some d'' ∧ d''.elems = d.elems := by
  rw [Refined, onList, Ref.edit_eq hvalue]
  constructor
  · rintro ⟨e, hstep, helems, hundo⟩
    cases hpush.symm.trans hstep
    exact ⟨helems, hundo value idx rfl⟩
  · rintro ⟨helems, hundo⟩
    refine ⟨d', hpush, helems, fun value' idx' heq => ?_⟩
    cases heq
    exact hundo

/-- Before the last element all depends on the value that is read. -/
theorem Edit.pushAt_inner_iff (hword : capacity < 2 ^ 32)
    (hsize : l.length + (rest.length + 1) = capacity) (hinner : idx + 1 < l.length) {value : Ref T}
    (hwithin : value.Within l.length) :
    Refined (DArray.ofCells capacity l (c :: rest)) (pushAt value idx) ↔
      value.Stays (l ++ c :: rest) idx l.length := by
  have hle : idx ≤ l.length := by omega
  obtain ⟨v, hpush, hstays⟩ :=
    @DArray.pushAt_inner T capacity idx l rest c hword (by omega) hinner value hwithin
  obtain ⟨w, hw⟩ := hwithin.exists_load
  have hlength := List.length_insertIdx_of_le_length hle v
  obtain ⟨c', hremove⟩ := @DArray.removeAt_ofCells T capacity idx (l.insertIdx idx v) rest
    hword (by omega) (by omega)
  rw [← hstays, hw, Edit.refined_pushAt_iff hpush (by rwa [DArray.elems_ofCells])]
  simp only [DArray.elems_ofCells]
  constructor
  · rintro ⟨helems, -⟩
    obtain ⟨xs, ys, rfl, rfl⟩ := exists_cut hle
    rw [insertIdx_cut, insertIdx_cut, List.append_cancel_left_eq, List.cons.injEq] at helems
    rw [helems.1]
  · rintro ⟨⟩
    refine ⟨rfl, _, hremove, ?_⟩
    rw [DArray.elems_ofCells, List.eraseIdx_insertIdx_self]

/-- At the last element all depends on the cell behind it. -/
theorem Edit.pushAt_last_iff {x : T} (hword : capacity < 2 ^ 32)
    (hsize : l.length + 1 + (rest.length + 1) = capacity) {value : Ref T}
    (hwithin : value.Within (l.length + 1)) :
    Refined (DArray.ofCells capacity (l ++ [x]) (c :: rest)) (pushAt value l.length) ↔ c = x := by
  obtain ⟨v, hpush, hvalue⟩ :=
    @DArray.pushAt_last T capacity l rest c x hword (by omega) value hwithin
  have hlength : (l ++ [v, c]).length = l.length + 2 := List.length_append
  obtain ⟨c', hremove⟩ := @DArray.removeAt_ofCells T capacity l.length (l ++ [v, c]) rest
    hword (by omega) (by omega)
  rw [Edit.refined_pushAt_iff hpush (by rwa [DArray.elems_ofCells])]
  simp only [DArray.elems_ofCells, insertIdx_cut]
  constructor
  · rintro ⟨helems, -⟩
    simpa using helems
  · rintro rfl
    refine ⟨rfl, _, hremove, ?_⟩
    rw [DArray.elems_ofCells, eraseIdx_cut]

/-- `PushAt` inserts, and `RemoveAt` undoes it, exactly under the condition. -/
theorem Edit.pushAt_refined_iff (hword : capacity < 2 ^ 32)
    (hsize : l.length + (rest.length + 1) = capacity) (hidx : idx < l.length) {value : Ref T}
    (hwithin : value.Within l.length) :
    Refined (DArray.ofCells capacity l (c :: rest)) (pushAt value idx) ↔
      Clean (DArray.ofCells capacity l (c :: rest)) (pushAt value idx) := by
  by_cases hinner : idx + 1 < l.length
  · rw [pushAt_inner_iff hword hsize hinner hwithin, Clean,
      and_iff_right (show DArray.KeepsLast _ idx from Or.inl hinner), DArray.cells_ofCells,
      DArray.count_ofCells]
  · obtain ⟨xs, x, rfl, rfl⟩ := exists_last (show idx + 1 = l.length by omega)
    rw [List.length_append, List.length_singleton] at hsize hwithin
    -- Every element is at or before the place, so nothing that is read has moved.
    rw [pushAt_last_iff hword hsize hwithin, Clean, and_iff_left (hwithin.stays _ _),
      DArray.keepsLast_last]

/-- `PushAt` returns and leaves a well-formed array. -/
theorem Edit.pushAt_wellFormed (hword : capacity < 2 ^ 32)
    (hsize : l.length + (rest.length + 1) = capacity) (hidx : idx < l.length) {value : Ref T}
    (hwithin : value.Within l.length) :
    ∃ d', (DArray.ofCells capacity l (c :: rest)).pushAt value idx = some d' ∧ d'.WellFormed := by
  by_cases hinner : idx + 1 < l.length
  · obtain ⟨v, hpush, -⟩ :=
      @DArray.pushAt_inner T capacity idx l rest c hword (by omega) hinner value hwithin
    refine ⟨_, hpush, DArray.wellFormed_ofCells hword ?_⟩
    rw [List.length_insertIdx_of_le_length hidx.le]
    omega
  · obtain ⟨xs, x, rfl, rfl⟩ := exists_last (show idx + 1 = l.length by omega)
    rw [List.length_append, List.length_singleton] at hsize hwithin
    obtain ⟨v, hpush, -⟩ :=
      @DArray.pushAt_last T capacity xs rest c x hword (by omega) value hwithin
    refine ⟨_, hpush, DArray.wellFormed_ofCells hword ?_⟩
    rw [List.length_append]
    exact (by omega : xs.length + 2 + rest.length = capacity)

/-- `RemoveAt` returns, leaves a well-formed array and does what it should. -/
theorem Edit.removeAt_spec (hword : capacity < 2 ^ 32) (hsize : l.length + rest.length = capacity)
    (hidx : idx < l.length) :
    (∃ d', (DArray.ofCells capacity l rest).removeAt idx = some d' ∧ d'.WellFormed) ∧
      Refined (DArray.ofCells capacity l rest) (removeAt idx) := by
  obtain ⟨c, hremove⟩ := @DArray.removeAt_ofCells T capacity idx l rest hword (by omega) hidx
  refine ⟨⟨_, hremove, DArray.wellFormed_ofCells hword ?_⟩, _, hremove, ?_, nofun⟩
  · rw [List.length_eraseIdx_of_lt hidx, List.length_cons]
    omega
  · rw [DArray.elems_ofCells, DArray.elems_ofCells, onList]

end Cells

/-- Every edit returns and leaves a well-formed array, and it does what it should exactly under
the condition. -/
theorem Edit.step_spec {d : DArray T} {edit : Edit T} (h : d.WellFormed) (hok : edit.Ok d) :
    (∃ d', edit.step d = some d' ∧ d'.WellFormed) ∧ (edit.Refined d ↔ edit.Clean d) := by
  cases edit with
  | pushAt value idx =>
    obtain ⟨hidx, hroom, hwithin⟩ := hok
    obtain ⟨capacity, l, c, rest, rfl, hword, hsize⟩ := h.exists_free hroom
    exact ⟨pushAt_wellFormed hword hsize hidx hwithin, pushAt_refined_iff hword hsize hidx hwithin⟩
  | removeAt idx =>
    obtain ⟨capacity, l, rest, rfl, hword, hsize⟩ :=
      h.exists_cells (Nat.zero_lt_of_lt (Nat.lt_of_lt_of_le hok h.count))
    have hidx : idx < l.length := hok
    obtain ⟨hwf, hrefined⟩ := @removeAt_spec T capacity idx l rest hword hsize hidx
    exact ⟨hwf, iff_of_true hrefined trivial⟩

/-- Over every sequence of `PushAt` and `RemoveAt` at elements, with room for each push, each
call is the list edit, undone by the removal at its place if it is a push, exactly when no
`PushAt` is made at the last element with something else in the cell behind it, and none of
an element behind the place that differs from the one before it. -/
theorem dArray_edits_iff {d : DArray T} (hd : d.WellFormed) {edits : List (Edit T)}
    (hok : AtEach Edit.step Edit.Ok d edits) :
    AtEach Edit.step Edit.Refined d edits ↔ AtEach Edit.step Edit.Clean d edits := by
  refine atEach_iff DArray.WellFormed ?_ ?_ hd hok
  · exact fun d edit h hok _ => (Edit.step_spec h hok).1
  · exact fun d edit h hok => (Edit.step_spec h hok).2

/-- A push in the middle of `[1, 2, 3]`, one of its own element, and a removal. -/
theorem dArray_edits_iff_three :
    let edits : List (Edit Nat) := [.pushAt (.value 9) 1, .pushAt (.cell 0) 2, .removeAt 0]
    AtEach Edit.step Edit.Refined ⟨some [1, 2, 3, 0, 0], 5, 3⟩ edits ↔
      AtEach Edit.step Edit.Clean ⟨some [1, 2, 3, 0, 0], 5, 3⟩ edits :=
  dArray_edits_iff (by decide) (by decide)

/-- `PushAt` at the last element of `[1, 2]` loses the 2. -/
theorem pushAt_last_loses :
    DArray.WellFormed ⟨some [1, 2, 0, 0], 4, 2⟩ ∧
      (Edit.pushAt (.value 9) 1).Ok ⟨some [1, 2, 0, 0], 4, 2⟩ ∧
      (∃ d', DArray.pushAt ⟨some [1, 2, 0, 0], 4, 2⟩ (.value 9) 1 = some d' ∧
        d'.elems = [1, 9, 0]) ∧
      ¬ (Edit.pushAt (.value 9) 1).Refined ⟨some [1, 2, 0, 0], 4, 2⟩ := by
  refine ⟨by decide, by decide, ⟨⟨some [1, 9, 0, 0], 4, 3⟩, by decide, by decide⟩, ?_⟩
  rintro ⟨d', hstep, helems, -⟩
  have hd' : d' = ⟨some [1, 9, 0, 0], 4, 3⟩ := Option.some.inj (hstep.symm.trans (by decide))
  rw [hd'] at helems
  exact absurd helems (by decide)

/-- The third element is to be inserted at the front of `[1, 2, 3]`, and the second one is. -/
example : (DArray.pushAt ⟨some [1, 2, 3, 0, 0], 5, 3⟩ (.cell 2) 0).map DArray.elems =
    some [2, 1, 2, 3] := by decide

/-! ## Edits that exchange with the end -/

/-- `PushSwapBack` or `RemoveSwapBack`. -/
inductive SwapEdit (T : Type*) where
  | pushSwapBack (value : Ref T) (idx : Nat)
  | removeSwapBack (idx : Nat)
  deriving DecidableEq, Repr

namespace SwapEdit

/-- The array after an edit. -/
def step (d : DArray T) : SwapEdit T → Option (DArray T)
  | pushSwapBack value idx => d.pushSwapBack value idx
  | removeSwapBack idx => d.removeSwapBack idx

/-- An edit at an element; a push needs room, and its value lies elsewhere or is an element. -/
def Ok (d : DArray T) : SwapEdit T → Prop
  | pushSwapBack value idx => idx < d.count ∧ d.count < d.capacity ∧ value.Within d.count
  | removeSwapBack idx => idx < d.count

instance (d : DArray T) (edit : SwapEdit T) : Decidable (edit.Ok d) :=
  match edit with
  | .pushSwapBack _ _ => inferInstanceAs (Decidable (_ ∧ _))
  | .removeSwapBack _ => inferInstanceAs (Decidable (_ < _))

/-- A push adds exactly its value, and puts it at `idx`; a removal takes away exactly
the element at `idx`.  The other places keep their elements, up to the end. -/
def Conserves (d : DArray T) : SwapEdit T → Prop
  | pushSwapBack value idx => ∃ v d', value.load d.elems = some v ∧
      d.pushSwapBack value idx = some d' ∧
      (d'.elems : Multiset T) = v ::ₘ (d.elems : Multiset T) ∧ d'.elems[idx]? = some v ∧
      ∀ j < d.elems.length, j ≠ idx → d'.elems[j]? = d.elems[j]?
  | removeSwapBack idx => ∃ d' removed, d.removeSwapBack idx = some d' ∧
      d.elems[idx]? = some removed ∧ (d.elems : Multiset T) = removed ::ₘ (d'.elems : Multiset T) ∧
      ∀ j < d'.elems.length, j ≠ idx → d'.elems[j]? = d.elems[j]?

/-- The condition on the state before an edit. -/
def Clean (d : DArray T) : SwapEdit T → Prop
  | pushSwapBack _ idx => d.KeepsLast idx
  | removeSwapBack _ => True

instance [DecidableEq T] (d : DArray T) (edit : SwapEdit T) : Decidable (edit.Clean d) :=
  match edit with
  | .pushSwapBack _ _ => inferInstanceAs (Decidable (DArray.KeepsLast _ _))
  | .removeSwapBack _ => isTrue trivial

end SwapEdit

/-- What a list holds with one element exchanged and one more at the end. -/
theorem coe_exchange (xs ys : List T) (value w : T) :
    (↑(xs ++ value :: ys ++ [w]) : Multiset T) = value ::ₘ w ::ₘ ↑(xs ++ ys) := by
  rw [Multiset.cons_coe, Multiset.cons_coe, Multiset.coe_eq_coe]
  exact (List.perm_append_singleton w _).trans ((List.perm_middle.cons w).trans (.swap ..))

/-- The places other than the exchanged one. -/
theorem getElem?_exchange {xs ys zs : List T} {x y : T} {j : Nat} (hj : j ≠ xs.length)
    (hlt : j < (xs ++ y :: ys).length) : (xs ++ x :: ys ++ zs)[j]? = (xs ++ y :: ys)[j]? := by
  have hlt' : j < (xs ++ x :: ys).length := by simpa using hlt
  rw [List.getElem?_append_left hlt']
  rcases Nat.lt_or_gt_of_ne hj with hbefore | hbehind
  · rw [List.getElem?_append_left hbefore, List.getElem?_append_left hbefore]
  · obtain ⟨k, hk⟩ := Nat.exists_eq_add_of_lt hbehind
    rw [hk, Nat.add_assoc, List.getElem?_append_right (Nat.le_add_right ..),
      List.getElem?_append_right (Nat.le_add_right ..), Nat.add_sub_cancel_left,
      List.getElem?_cons_succ, List.getElem?_cons_succ]

section Cells

variable {capacity : Nat} {xs ys rest : List T} {c y : T}

/-- `PushSwapBack` puts an element at the end: the one that was at the place, unless that
was the last. -/
theorem DArray.pushSwapBack_ofCells (hword : capacity < 2 ^ 32)
    (hroom : (xs ++ y :: ys).length < capacity) {value : Ref T}
    (hwithin : value.Within (xs ++ y :: ys).length) {v : T}
    (hvalue : value.load (xs ++ y :: ys) = some v) :
    ∃ w, (ofCells capacity (xs ++ y :: ys) (c :: rest)).pushSwapBack value xs.length =
        some (ofCells capacity (xs ++ v :: ys ++ [w]) rest) ∧
      (w = y ↔ (ofCells capacity (xs ++ y :: ys) (c :: rest)).KeepsLast xs.length) := by
  have hlength : (xs ++ y :: ys).length = xs.length + ys.length + 1 := List.length_append
  have hfull : ¬ (ofCells capacity (xs ++ y :: ys) (c :: rest)).count =
      (ofCells capacity (xs ++ y :: ys) (c :: rest)).capacity := hroom.ne
  -- The cells behind the elements do not matter to what is read.
  have hload : ∀ cells : List T, value.load (xs ++ y :: ys ++ cells) = some v := fun _ =>
    hwithin.load_append.trans hvalue
  have htail : ∀ w : T, xs ++ v :: (ys ++ w :: rest) = (xs ++ v :: ys ++ [w]) ++ rest := by
    simp
  have hcount : ∀ w : T, (xs ++ v :: ys ++ [w]).length = (xs ++ y :: ys).length + 1 := by
    intro w
    simp only [List.length_append, List.length_cons, List.length_nil]
  cases ys with
  | nil =>
    have hlast : ¬ xs.length ≠ (ofCells capacity (xs ++ [y]) (c :: rest)).lastIndex := by
      rw [lastIndex_ofCells, hlength]
      exact not_not_intro rfl
    have hstore := @store_cell T xs (c :: rest) y v
    have hload' := hload (c :: rest)
    refine ⟨c, ?_, keepsLast_last.symm⟩
    rw [pushSwapBack, if_neg hfull, count_succ hword hroom]
    have hcells : xs ++ v :: c :: rest = xs ++ [v] ++ [c] ++ rest := htail c
    rw [List.append_assoc, List.singleton_append] at hload'
    simp only [memory_ofCells, capacity_ofCells, if_neg hlast, List.append_assoc xs [y],
      List.singleton_append, hload', hstore, hcells, Option.bind_eq_bind, Option.bind_some]
    exact congrArg some (mk_eq_ofCells (hcount c))
  | cons z zs =>
    have hlast : xs.length ≠ (ofCells capacity (xs ++ y :: z :: zs) (c :: rest)).lastIndex := by
      rw [lastIndex_ofCells, hlength, List.length_cons]
      omega
    have hmove : move (xs ++ y :: z :: zs ++ c :: rest) (xs ++ y :: z :: zs).length xs.length 1 =
        some (xs ++ y :: z :: zs ++ y :: rest) := by
      rw [List.append_assoc, List.cons_append, move_cell, ← List.cons_append, ← List.append_assoc,
        store_cell]
    have hstore : store (xs ++ y :: z :: zs ++ y :: rest) xs.length [v] =
        some (xs ++ v :: (z :: zs ++ y :: rest)) := by
      rw [List.append_assoc, List.cons_append, store_cell]
    refine ⟨y, ?_, iff_of_true rfl (Or.inl ?_)⟩
    · rw [pushSwapBack, if_neg hfull, count_succ hword hroom]
      simp only [memory_ofCells, capacity_ofCells, count_ofCells, if_pos hlast, hmove, hload,
        hstore, htail, Option.bind_eq_bind, Option.bind_some]
      exact congrArg some (mk_eq_ofCells (hcount y))
    · rw [count_ofCells, hlength, List.length_cons]
      omega

/-- `RemoveSwapBack` puts the last element at the place, unless that was its place. -/
theorem DArray.removeSwapBack_ofCells (hword : capacity < 2 ^ 32)
    (hle : (xs ++ y :: ys).length ≤ capacity) :
    ∃ left c, (ofCells capacity (xs ++ y :: ys) rest).removeSwapBack xs.length =
        some (ofCells capacity left (c :: rest)) ∧ (y :: left).Perm (xs ++ y :: ys) ∧
      ∀ j < left.length, j ≠ xs.length → left[j]? = (xs ++ y :: ys)[j]? := by
  have hlength : (xs ++ y :: ys).length = xs.length + ys.length + 1 := List.length_append
  have hcount := @count_pred T capacity (xs ++ y :: ys) rest hword hle (by omega)
  cases ys using List.reverseRecOn with
  | nil =>
    have hmove : move (xs ++ [y] ++ rest) xs.length xs.length 1 = some (xs ++ y :: rest) := by
      rw [List.append_assoc, List.singleton_append, move_cell, store_cell]
    refine ⟨xs, y, ?_, List.perm_append_singleton y xs |>.symm, fun j hj _ => ?_⟩
    · rw [removeSwapBack, hcount, lastIndex_ofCells]
      simp only [memory_ofCells, capacity_ofCells, hlength, List.length_nil, Nat.add_zero,
        Nat.add_sub_cancel, hmove, Option.bind_eq_bind, Option.bind_some]
      rfl
    · rw [List.getElem?_append_left hj]
  | append_singleton ys z =>
    have hmove : move (xs ++ y :: (ys ++ [z]) ++ rest) xs.length (xs ++ y :: ys).length 1 =
        some (xs ++ z :: ys ++ z :: rest) := by
      have hcells : xs ++ y :: (ys ++ [z]) ++ rest = xs ++ y :: ys ++ z :: rest := by simp
      rw [hcells, move_cell, List.append_assoc, List.cons_append, store_cell, List.append_assoc,
        List.cons_append]
    refine ⟨xs ++ z :: ys, z, ?_, ?_, fun j hj hne => ?_⟩
    · have hfewer : (xs ++ y :: (ys ++ [z])).length - 1 = (xs ++ y :: ys).length := by simp
      rw [removeSwapBack, hcount, lastIndex_ofCells, hfewer]
      simp only [memory_ofCells, capacity_ofCells, hmove, Option.bind_eq_bind, Option.bind_some]
      exact congrArg some (mk_eq_ofCells (by simp))
    · rw [← Multiset.coe_eq_coe, ← Multiset.cons_coe, ← List.cons_append, ← List.append_assoc,
        coe_exchange, ← Multiset.coe_eq_coe.mpr List.perm_middle.symm, ← Multiset.cons_coe]
    · have hlt : j < (xs ++ y :: ys).length := by simpa using hj
      rw [← List.cons_append, ← List.append_assoc, List.getElem?_append_left hlt,
        ← @getElem?_exchange T xs ys [] z y j hne hlt, List.append_nil]

/-- `PushSwapBack` returns and leaves a well-formed array, and it conserves the elements exactly
under the condition. -/
theorem SwapEdit.pushSwapBack_spec (hword : capacity < 2 ^ 32)
    (hsize : (xs ++ y :: ys).length + (rest.length + 1) = capacity) {value : Ref T}
    (hwithin : value.Within (xs ++ y :: ys).length) :
    (∃ d', (DArray.ofCells capacity (xs ++ y :: ys) (c :: rest)).pushSwapBack value xs.length =
        some d' ∧ d'.WellFormed) ∧
      (Conserves (DArray.ofCells capacity (xs ++ y :: ys) (c :: rest))
          (pushSwapBack value xs.length) ↔
        (DArray.ofCells capacity (xs ++ y :: ys) (c :: rest)).KeepsLast xs.length) := by
  obtain ⟨v, hvalue⟩ := hwithin.exists_load
  obtain ⟨w, hpush, hw⟩ :=
    @DArray.pushSwapBack_ofCells T capacity xs ys rest c y hword (by omega) value hwithin v hvalue
  have hcells : (xs ++ v :: ys ++ [w]).length + rest.length = capacity := by
    simp only [List.length_append, List.length_cons, List.length_nil] at hsize ⊢
    omega
  have hold : (↑(xs ++ y :: ys) : Multiset T) = y ::ₘ ↑(xs ++ ys) :=
    Multiset.coe_eq_coe.mpr List.perm_middle
  refine ⟨⟨_, hpush, DArray.wellFormed_ofCells hword hcells⟩, ?_⟩
  rw [← hw]
  constructor
  · rintro ⟨v', d', hvalue', hstep, helems, -⟩
    cases hpush.symm.trans hstep
    rw [DArray.elems_ofCells, hvalue] at hvalue'
    cases hvalue'
    rw [DArray.elems_ofCells, DArray.elems_ofCells, coe_exchange, hold] at helems
    exact (Multiset.cons_inj_left _).mp ((Multiset.cons_inj_right _).mp helems)
  · rintro rfl
    refine ⟨v, _, ?_, hpush, ?_, ?_, fun j hj hne => ?_⟩
    · rw [DArray.elems_ofCells, hvalue]
    · rw [DArray.elems_ofCells, DArray.elems_ofCells, coe_exchange, hold]
    · rw [DArray.elems_ofCells, List.append_assoc, List.getElem?_append_right (Nat.le_refl _),
        Nat.sub_self]
      rfl
    · rw [DArray.elems_ofCells] at hj
      rw [DArray.elems_ofCells, DArray.elems_ofCells]
      exact getElem?_exchange hne hj

/-- `RemoveSwapBack` returns, leaves a well-formed array and conserves the elements. -/
theorem SwapEdit.removeSwapBack_spec (hword : capacity < 2 ^ 32)
    (hsize : (xs ++ y :: ys).length + rest.length = capacity) :
    (∃ d', (DArray.ofCells capacity (xs ++ y :: ys) rest).removeSwapBack xs.length = some d' ∧
        d'.WellFormed) ∧
      Conserves (DArray.ofCells capacity (xs ++ y :: ys) rest) (removeSwapBack xs.length) := by
  obtain ⟨left, c, hremove, hperm, hsame⟩ :=
    @DArray.removeSwapBack_ofCells T capacity xs ys rest y hword (by omega)
  have hleft := hperm.length_eq
  refine ⟨⟨_, hremove, DArray.wellFormed_ofCells hword ?_⟩, _, y, hremove, ?_, ?_, ?_⟩
  · rw [List.length_cons] at hleft ⊢
    omega
  · rw [DArray.elems_ofCells, List.getElem?_append_right (Nat.le_refl _), Nat.sub_self]
    rfl
  · rw [DArray.elems_ofCells, DArray.elems_ofCells]
    exact (Multiset.coe_eq_coe.mpr hperm).symm
  · rw [DArray.elems_ofCells, DArray.elems_ofCells]
    exact hsame

end Cells

/-- Every edit returns and leaves a well-formed array, and it conserves the elements
exactly under the condition. -/
theorem SwapEdit.step_spec {d : DArray T} {edit : SwapEdit T} (h : d.WellFormed)
    (hok : edit.Ok d) :
    (∃ d', edit.step d = some d' ∧ d'.WellFormed) ∧ (edit.Conserves d ↔ edit.Clean d) := by
  cases edit with
  | pushSwapBack value idx =>
    obtain ⟨hidx, hroom, hwithin⟩ := hok
    obtain ⟨capacity, l, c, rest, rfl, hword, hsize⟩ := h.exists_free hroom
    obtain ⟨xs, y, ys, rfl, rfl⟩ := exists_around (show idx < l.length from hidx)
    exact pushSwapBack_spec hword hsize hwithin
  | removeSwapBack idx =>
    obtain ⟨capacity, l, rest, rfl, hword, hsize⟩ :=
      h.exists_cells (Nat.zero_lt_of_lt (Nat.lt_of_lt_of_le hok h.count))
    obtain ⟨xs, y, ys, rfl, rfl⟩ := exists_around (show idx < l.length from hok)
    obtain ⟨hwf, hconserves⟩ := @removeSwapBack_spec T capacity xs ys rest y hword hsize
    exact ⟨hwf, iff_of_true hconserves trivial⟩

/-- Over every sequence of `PushSwapBack` and `RemoveSwapBack` at elements, with room for each
push, each call conserves the elements exactly when no `PushSwapBack` is made at the last
element with something else in the cell behind it. -/
theorem dArray_swapEdits_iff {d : DArray T} (hd : d.WellFormed) {edits : List (SwapEdit T)}
    (hok : AtEach SwapEdit.step SwapEdit.Ok d edits) :
    AtEach SwapEdit.step SwapEdit.Conserves d edits ↔
      AtEach SwapEdit.step SwapEdit.Clean d edits := by
  refine atEach_iff DArray.WellFormed ?_ ?_ hd hok
  · exact fun d edit h hok _ => (SwapEdit.step_spec h hok).1
  · exact fun d edit h hok => (SwapEdit.step_spec h hok).2

/-- A push at the first element of `[1, 2, 3]`, one of the array's own element, and a removal. -/
theorem dArray_swapEdits_iff_three :
    let edits : List (SwapEdit Nat) :=
      [.pushSwapBack (.value 9) 0, .pushSwapBack (.cell 2) 1, .removeSwapBack 0]
    AtEach SwapEdit.step SwapEdit.Conserves ⟨some [1, 2, 3, 0, 0], 5, 3⟩ edits ↔
      AtEach SwapEdit.step SwapEdit.Clean ⟨some [1, 2, 3, 0, 0], 5, 3⟩ edits :=
  dArray_swapEdits_iff (by decide) (by decide)

/-- `PushSwapBack` at the last element of `[1, 2]` loses the 2. -/
theorem pushSwapBack_last_loses :
    DArray.WellFormed ⟨some [1, 2, 0, 0], 4, 2⟩ ∧
      (SwapEdit.pushSwapBack (.value 9) 1).Ok ⟨some [1, 2, 0, 0], 4, 2⟩ ∧
      (∃ d', DArray.pushSwapBack ⟨some [1, 2, 0, 0], 4, 2⟩ (.value 9) 1 = some d' ∧
        d'.elems = [1, 9, 0]) ∧
      ¬ (SwapEdit.pushSwapBack (.value 9) 1).Conserves ⟨some [1, 2, 0, 0], 4, 2⟩ := by
  refine ⟨by decide, by decide, ⟨⟨some [1, 9, 0, 0], 4, 3⟩, by decide, by decide⟩, ?_⟩
  rintro ⟨v, d', hvalue, hstep, helems, -⟩
  have hd' : d' = ⟨some [1, 9, 0, 0], 4, 3⟩ := Option.some.inj (hstep.symm.trans (by decide))
  cases hvalue
  rw [hd'] at helems
  exact absurd helems (by decide)

end ScalBase.DArrays
