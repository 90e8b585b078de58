/-
  DArray/Stack.lean --- `Push`, `Pop`, `Remove` and `Resize` as a stack.

  The stack is the elements with the last one on top.  `Pop` lowers `Count` only
  where `LastIndex()` is above 0, which it is not for one element: that element is
  returned and stays.  A loop that pops while `Count > 0` therefore does not end
  (`popTurn_runs_on`).
-/
import ScalBase.DArray.Model
import ScalBase.Foundation.Loop

set_option autoImplicit false

namespace ScalBase.DArrays

open Foundation Foundation.Block

variable {T : Type*}

/-- A call on the array.  The arena of `Resize` hands out cells that hold `fresh`. -/
inductive Op (T : Type*) where
  | push (value : Ref T)
  | pop
  | remove
  | resize (newCapacity : Nat) (fresh : Nat → T)

/-- The elements, the last one first. -/
def DArray.stack (d : DArray T) : List T := d.elems.reverse

namespace Op

/-- What a call returns, and the array after it. -/
def call (d : DArray T) : Op T → Option (Option T × DArray T)
  | push value => (d.push value).map fun d' => (none, d')
  | pop => d.pop.map fun (value, d') => (some value, d')
  | remove => some (none, d.remove)
  | resize newCapacity fresh => (d.resize newCapacity fresh).map fun d' => (none, d')

/-- The array after a call. -/
def step (d : DArray T) (op : Op T) : Option (DArray T) := (op.call d).map Prod.snd

/-- What a call does to a stack.  The elements of the array are those of the stack from the
bottom. -/
def onStack (s : List T) : Op T → Option T × List T
  | push value => (none, (value.load s.reverse).toList ++ s)
  | pop => (s.head?, s.tail)
  | remove => (none, s.tail)
  | resize _ _ => (none, s)

/-- There is room for a push and an element for a removal; what is pushed lies elsewhere or is
an element, and a capacity is a `u32`. -/
def Ok (d : DArray T) : Op T → Prop
  | push value => d.count < d.capacity ∧ value.Within d.count
  | pop => 0 < d.count
  | remove => 0 < d.count
  | resize newCapacity _ => newCapacity < 2 ^ 32

instance (d : DArray T) (op : Op T) : Decidable (op.Ok d) :=
  match op with
  | .push _ => inferInstanceAs (Decidable (_ ∧ _))
  | .pop | .remove | .resize _ _ => inferInstanceAs (Decidable (_ < _))

/-- A call answers as the stack does and leaves its elements, `Count` of them. -/
def Stacked (d : DArray T) (op : Op T) : Prop :=
  ∃ r d', op.call d = some (r, d') ∧ (r, d'.stack) = op.onStack d.stack ∧
    d'.count = (op.onStack d.stack).2.length

/-- The condition on the state before a call. -/
def Clean (d : DArray T) : Op T → Prop
  | pop => d.count ≠ 1
  | _ => True

instance (d : DArray T) (op : Op T) : Decidable (op.Clean d) :=
  match op with
  | .pop => inferInstanceAs (Decidable (_ ≠ _))
  | .push _ | .remove | .resize _ _ => isTrue trivial

end Op

/-- One turn of `while (Count > 0) Pop();`. -/
def popTurn (d : DArray T) : Turn (DArray T) (Option (DArray T)) :=
  if d.count > 0 then
    match d.pop with
    | some (_, d') => .again d'
    | none => .done none
  else .done (some d)

/-! ## Each call -/

section Cells

variable {capacity : Nat} {l rest : List T} {c x : T}

theorem DArray.stack_ofCells : (ofCells capacity l rest).stack = l.reverse := by
  rw [stack, elems_ofCells]

theorem DArray.push_ofCells (hword : capacity < 2 ^ 32) (hroom : l.length < capacity)
    {value : Ref T} (hwithin : value.Within l.length) {v : T} (hvalue : value.load l = some v) :
    (ofCells capacity l (c :: rest)).push value = some (ofCells capacity (l ++ [v]) rest) := by
  have hfull : ¬ (ofCells capacity l (c :: rest)).count =
      (ofCells capacity l (c :: rest)).capacity := hroom.ne
  have hload : value.load (l ++ c :: rest) = some v := hwithin.load_append.trans hvalue
  have hcells : l ++ v :: rest = l ++ [v] ++ rest := by
    rw [List.append_assoc, List.singleton_append]
  rw [push, if_neg hfull, count_succ hword hroom]
  simp only [memory_ofCells, count_ofCells, capacity_ofCells, hload, store_cell, hcells,
    Option.bind_eq_bind, Option.bind_some]
  exact congrArg some (mk_eq_ofCells List.length_append)

/-- The element that `Pop` returns. -/
theorem DArray.pop_value :
    (ofCells capacity (l ++ [x]) rest).memory.bind (fun memory => memory[l.length]?) = some x := by
  rw [memory_ofCells, Option.bind_some, List.append_assoc,
    List.getElem?_append_right (Nat.le_refl _), Nat.sub_self, List.singleton_append,
    List.getElem?_cons_zero]

theorem DArray.lastIndex_concat : (ofCells capacity (l ++ [x]) rest).lastIndex = l.length := by
  rw [lastIndex_ofCells, List.length_append, List.length_singleton, Nat.add_sub_cancel]

/-- `Pop` of an element above others takes it away. -/
theorem DArray.pop_above (hword : capacity < 2 ^ 32) (hle : (l ++ [x]).length ≤ capacity)
    (hpos : 0 < l.length) :
    (ofCells capacity (l ++ [x]) rest).pop = some (x, ofCells capacity l (x :: rest)) := by
  have hcount : sub32 (ofCells capacity (l ++ [x]) rest).count 1 = l.length := by
    rw [count_pred hword hle (by rw [List.length_append]; omega), List.length_append,
      List.length_singleton, Nat.add_sub_cancel]
  have hvalue : (l ++ [x] ++ rest)[l.length]? = some x := @pop_value T capacity l rest x
  have hcells : l ++ [x] ++ rest = l ++ x :: rest := by
    rw [List.append_assoc, List.singleton_append]
  rw [pop, lastIndex_concat, hcount]
  simp only [memory_ofCells, capacity_ofCells, hvalue, if_pos hpos, Option.bind_eq_bind,
    Option.bind_some]
  rw [hcells, mk_eq_ofCells rfl]

/-- `Pop` of the only element leaves it. -/
theorem DArray.pop_only :
    (ofCells capacity [x] rest).pop = some (x, ofCells capacity [x] rest) := by
  have hlast : (ofCells capacity [x] rest).lastIndex = 0 := lastIndex_ofCells
  rw [pop, hlast]
  rfl

theorem DArray.remove_ofCells (hword : capacity < 2 ^ 32) (hle : (l ++ [x]).length ≤ capacity) :
    (ofCells capacity (l ++ [x]) rest).remove = ofCells capacity l (x :: rest) := by
  have hpos : 0 < (l ++ [x]).length := by
    rw [List.length_append]
    exact Nat.succ_pos _
  have hsome : (ofCells capacity (l ++ [x]) rest).count > 0 := hpos
  have hcells : l ++ [x] ++ rest = l ++ x :: rest := by
    rw [List.append_assoc, List.singleton_append]
  rw [remove, if_pos hsome, count_pred hword hle hpos, List.length_append, List.length_singleton,
    Nat.add_sub_cancel, memory_ofCells, capacity_ofCells, hcells, mk_eq_ofCells rfl]

end Cells

section Calls

variable {d : DArray T} {op : Op T}

/-- `Resize` keeps the elements. -/
theorem DArray.WellFormed.resize (h : d.WellFormed) {newCapacity : Nat}
    (hnew : newCapacity < 2 ^ 32) (fresh : Nat → T) :
    ∃ d', d.resize newCapacity fresh = some d' ∧ d'.WellFormed ∧ d'.elems = d.elems := by
  obtain ⟨hword, hblock, hcount⟩ := h
  rw [DArray.resize]
  generalize hcap : (if newCapacity = 0 then 1 else newCapacity) = cap
  have hcapWord : cap < 2 ^ 32 := by
    rw [← hcap]
    split <;> omega
  split
  · exact ⟨d, rfl, ⟨hword, hblock, hcount⟩, rfl⟩
  · rename_i hlarger
    obtain ⟨memory, capacity, count⟩ := d
    simp only at hlarger hcount
    cases memory with
    | none =>
      -- Without a block there are no elements.
      simp only [cells, Option.getD_none, List.length_nil] at hblock
      obtain rfl : count = 0 := by omega
      refine ⟨_, rfl, ⟨hcapWord, ?_, ?_⟩, rfl⟩
      · simp [cells]
      · exact Nat.zero_le _
    | some memory =>
      simp only [cells, Option.getD_some] at hblock
      have hload : load memory 0 capacity = some memory := by
        have hwhole := @load_append T [] memory []
        rw [List.nil_append, List.append_nil, List.length_nil] at hwhole
        rw [← hblock, hwhole]
      simp only at hword
      have hfresh : ((List.range cap).map fresh).length = cap := by
        rw [List.length_map, List.length_range]
      have hroom : memory.length ≤ ((List.range cap).map fresh).length := by omega
      have hstore := @store_append T [] ((List.range cap).map fresh) memory hroom
      rw [List.nil_append, List.length_nil, List.nil_append] at hstore
      simp only [hload, hstore, Option.bind_eq_bind, Option.bind_some]
      have hle : count ≤ memory.length := hblock ▸ hcount
      refine ⟨_, rfl, ⟨hcapWord, ?_, hcount.trans (Nat.le_of_not_le hlarger)⟩, ?_⟩
      · rw [cells, Option.getD_some, List.length_append, List.length_drop, hfresh]
        exact Nat.add_sub_cancel' (hfresh ▸ hroom)
      · exact List.take_append_of_le_length hle

/-- `Push` where the array is not full. -/
theorem DArray.WellFormed.push (h : d.WellFormed) (hroom : d.count < d.capacity) {value : Ref T}
    (hwithin : value.Within d.count) {v : T} (hvalue : value.load d.elems = some v) :
    ∃ d', d.push value = some d' ∧ d'.WellFormed ∧ d'.capacity = d.capacity ∧
      d'.count = d.count + 1 ∧ d'.elems = d.elems ++ [v] := by
  obtain ⟨capacity, l, c, rest, rfl, hword, hsize⟩ := h.exists_free hroom
  rw [elems_ofCells] at hvalue
  refine ⟨_, DArray.push_ofCells hword hroom hwithin hvalue, wellFormed_ofCells hword ?_, rfl,
    List.length_append, ?_⟩
  · rw [List.length_append, List.length_singleton]
    omega
  · rw [elems_ofCells, elems_ofCells]

/-- An array with an element has a last one. -/
theorem DArray.WellFormed.exists_top (h : d.WellFormed) (hpos : 0 < d.count) :
    ∃ capacity l x rest, d = DArray.ofCells capacity (l ++ [x]) rest ∧ capacity < 2 ^ 32 ∧
      l.length + 1 + rest.length = capacity := by
  obtain ⟨capacity, l, rest, rfl, hword, hsize⟩ :=
    h.exists_cells (Nat.lt_of_lt_of_le hpos h.count)
  rw [count_ofCells] at hpos
  obtain ⟨l, x, rfl, -⟩ := exists_last (show l.length - 1 + 1 = l.length by omega)
  rw [List.length_append, List.length_singleton] at hsize
  exact ⟨capacity, l, x, rest, rfl, hword, hsize⟩

theorem DArray.WellFormed.length_stack (h : d.WellFormed) : d.stack.length = d.count := by
  rw [stack, List.length_reverse, h.length_elems]

/-- What a call that goes well has to meet. -/
theorem Op.stacked_of {r : Option T} {d' : DArray T} (hcall : op.call d = some (r, d'))
    (hwf : d'.WellFormed) (hstack : (r, d'.stack) = op.onStack d.stack) :
    (∃ d', op.step d = some d' ∧ d'.WellFormed) ∧ op.Stacked d := by
  refine ⟨⟨d', by rw [step, hcall, Option.map_some], hwf⟩, r, d', hcall, hstack, ?_⟩
  rw [← hstack, hwf.length_stack]

theorem Op.push_spec (h : d.WellFormed) {value : Ref T} (hok : (Op.push value).Ok d) :
    (∃ d', (Op.push value).step d = some d' ∧ d'.WellFormed) ∧ (Op.push value).Stacked d := by
  obtain ⟨hroom, hwithin⟩ := hok
  obtain ⟨v, hvalue⟩ : ∃ v, value.load d.elems = some v :=
    Ref.Within.exists_load (h.length_elems.symm ▸ hwithin)
  obtain ⟨d', hpush, hwf, -, -, helems⟩ := h.push hroom hwithin hvalue
  have hcall : call d (push value) = some (none, d') := by rw [call, hpush, Option.map_some]
  apply stacked_of hcall hwf
  rw [onStack, DArray.stack, helems, List.reverse_concat, DArray.stack,
    List.reverse_reverse, hvalue]
  rfl

/-- `Pop` returns the top of the stack, and takes it away unless it is the only element. -/
theorem DArray.WellFormed.pop (h : d.WellFormed) (hpos : 0 < d.count) :
    ∃ x d', d.pop = some (x, d') ∧ d'.WellFormed ∧ d.stack.head? = some x ∧
      d'.stack = if d.count = 1 then d.stack else d.stack.tail := by
  obtain ⟨capacity, l, x, rest, rfl, hword, hsize⟩ := h.exists_top hpos
  rw [stack_ofCells, List.reverse_concat, List.head?_cons, List.tail_cons, count_ofCells]
  cases l with
  | nil => exact ⟨x, _, pop_only, h, rfl, by rw [stack_ofCells]; rfl⟩
  | cons y l =>
    have hlength : (y :: l ++ [x]).length = (y :: l).length + 1 := List.length_append
    have hmore : ¬ (y :: l ++ [x]).length = 1 := by
      rw [hlength, List.length_cons]
      omega
    refine ⟨x, _, pop_above hword (by omega) (Nat.succ_pos _), wellFormed_ofCells hword ?_, rfl, ?_⟩
    · rw [← hsize, Nat.add_assoc, Nat.add_comm 1]
      rfl
    · rw [stack_ofCells, if_neg hmore]

theorem Op.pop_spec (h : d.WellFormed) (hok : (Op.pop : Op T).Ok d) :
    (∃ d', (Op.pop : Op T).step d = some d' ∧ d'.WellFormed) ∧
      ((Op.pop : Op T).Stacked d ↔ d.count ≠ 1) := by
  have hpos : 0 < d.count := hok
  obtain ⟨x, d', hpop, hwf, hhead, hstack⟩ := h.pop hpos
  have hcall : call d pop = some (some x, d') := by rw [call, hpop, Option.map_some]
  split_ifs at hstack with hone
  · refine ⟨⟨d', by rw [step, hcall, Option.map_some], hwf⟩, iff_of_false ?_ (not_not_intro hone)⟩
    rintro ⟨r, d'', hcall', -, hfewer⟩
    cases hcall.symm.trans hcall'
    rw [← hwf.length_stack, hstack, onStack, List.length_tail, h.length_stack] at hfewer
    omega
  · rw [iff_true_right hone]
    apply stacked_of hcall hwf
    rw [onStack, hhead, hstack]

theorem Op.remove_spec (h : d.WellFormed) (hok : (Op.remove : Op T).Ok d) :
    (∃ d', (Op.remove : Op T).step d = some d' ∧ d'.WellFormed) ∧
      (Op.remove : Op T).Stacked d := by
  obtain ⟨capacity, l, x, rest, rfl, hword, hsize⟩ := h.exists_top hok
  have hle : (l ++ [x]).length ≤ capacity := by
    rw [List.length_append, List.length_singleton]
    omega
  have hcall : call (DArray.ofCells capacity (l ++ [x]) rest) remove =
      some (none, DArray.ofCells capacity l (x :: rest)) := by
    rw [call, DArray.remove_ofCells hword hle]
  apply stacked_of hcall
  · apply DArray.wellFormed_ofCells hword
    rw [List.length_cons]
    omega
  · rw [onStack, DArray.stack_ofCells, DArray.stack_ofCells, List.reverse_concat, List.tail_cons]

theorem Op.resize_spec (h : d.WellFormed) {newCapacity : Nat} {fresh : Nat → T}
    (hok : (Op.resize newCapacity fresh).Ok d) :
    (∃ d', (Op.resize newCapacity fresh).step d = some d' ∧ d'.WellFormed) ∧
      (Op.resize newCapacity fresh).Stacked d := by
  obtain ⟨d', hresize, hwf, helems⟩ := h.resize hok fresh
  have hcall : call d (resize newCapacity fresh) = some (none, d') := by
    rw [call, hresize, Option.map_some]
  apply stacked_of hcall hwf
  rw [onStack, DArray.stack, DArray.stack, helems]

/-- Every call returns and leaves a well-formed array, and it does what it does to the stack
exactly when it is no `Pop` of the only element. -/
theorem Op.call_spec (h : d.WellFormed) (hok : op.Ok d) :
    (∃ d', op.step d = some d' ∧ d'.WellFormed) ∧ (op.Stacked d ↔ op.Clean d) := by
  cases op with
  | push value => exact (push_spec h hok).imp_right fun hstacked => iff_of_true hstacked trivial
  | pop => exact pop_spec h hok
  | remove => exact (remove_spec h hok).imp_right fun hstacked => iff_of_true hstacked trivial
  | resize newCapacity fresh =>
    exact (resize_spec h hok).imp_right fun hstacked => iff_of_true hstacked trivial

end Calls

/-! ## Whole runs -/

/-- While there is an element, `Pop` leaves one: the loop goes on. -/
theorem popTurn_runs_on {d : DArray T} (h : d.WellFormed) (hpos : 0 < d.count) (fuel : Nat) :
    Loop.run popTurn fuel d = none := by
  cases hrun : Loop.run popTurn fuel d with
  | none => rfl
  | some r =>
    refine (Loop.run_result (fun d : DArray T => d.WellFormed ∧ 0 < d.count) (fun _ => False)
      (fun d hd => Or.inr ?_) ⟨h, hpos⟩ hrun).elim
    obtain ⟨hwf, hpos⟩ := hd
    obtain ⟨x, d', hpop, hwf', -, hstack⟩ := hwf.pop hpos
    refine ⟨d', by rw [popTurn, if_pos hpos, hpop], hwf', ?_⟩
    have hcount := hwf.length_stack
    rw [← hwf'.length_stack, hstack]
    split
    · omega
    · rw [List.length_tail]
      omega

/-- The draining loop ends exactly where there is nothing to pop. -/
theorem popTurn_ends_iff {d : DArray T} (h : d.WellFormed) :
    (∃ fuel r, Loop.run popTurn fuel d = some r) ↔ d.count = 0 := by
  constructor
  · rintro ⟨fuel, r, hrun⟩
    by_contra hne
    rw [popTurn_runs_on h (Nat.pos_of_ne_zero hne)] at hrun
    cases hrun
  · intro hzero
    have hdone : popTurn d = .done (some d) := by
      rw [popTurn, if_neg (hzero.symm ▸ Nat.lt_irrefl 0)]
    exact ⟨1, some d, Loop.run_succ_done 0 hdone⟩

/-- Over every sequence of pushes with room, pops and removals of an element, and resizes, the
array is a stack exactly when no `Pop` is made with `Count == 1`; and from the state reached
a loop that pops while `Count > 0` ends exactly when `Count` is 0 at its start. -/
theorem dArray_stack_iff {d : DArray T} (hd : d.WellFormed) {ops : List (Op T)}
    (hok : AtEach Op.step Op.Ok d ops) :
    (AtEach Op.step Op.Stacked d ops ↔ AtEach Op.step Op.Clean d ops) ∧
      ∃ d', exec Op.step d ops = some d' ∧
        ((∃ fuel r, Loop.run popTurn fuel d' = some r) ↔ d'.count = 0) := by
  constructor
  · refine atEach_iff DArray.WellFormed ?_ ?_ hd hok
    · exact fun d op h hok _ => (Op.call_spec h hok).1
    · exact fun d op h hok => (Op.call_spec h hok).2
  · obtain ⟨d', hexec, hwf⟩ :=
      hok.exec_invariant DArray.WellFormed (fun d op h hok => (Op.call_spec h hok).1) hd
    exact ⟨d', hexec, popTurn_ends_iff hwf⟩

/-- Two pushes on an empty array, which a resize gives its block, the second of the first
element, and a pop. -/
theorem dArray_stack_iff_two :
    let ops : List (Op Nat) := [.resize 2 fun _ => 0, .push (.value 7), .push (.cell 0), .pop]
    (AtEach Op.step Op.Stacked ⟨none, 0, 0⟩ ops ↔ AtEach Op.step Op.Clean ⟨none, 0, 0⟩ ops) ∧
      ∃ d', exec Op.step ⟨none, 0, 0⟩ ops = some d' ∧
        ((∃ fuel r, Loop.run popTurn fuel d' = some r) ↔ d'.count = 0) :=
  dArray_stack_iff (by decide) (by decide)

/-- The only element is returned and stays, and popping goes on for ever. -/
theorem pop_keeps_only :
    DArray.WellFormed ⟨some [7, 0], 2, 1⟩ ∧ Op.pop.Ok ⟨some [7, 0], 2, 1⟩ ∧
      DArray.pop ⟨some [7, 0], 2, 1⟩ = some (7, ⟨some [7, 0], 2, 1⟩) ∧
      ¬ Op.pop.Stacked ⟨some [7, 0], 2, 1⟩ ∧
      ∀ fuel, Loop.run popTurn fuel (⟨some [7, 0], 2, 1⟩ : DArray Nat) = none := by
  have hwf : DArray.WellFormed ⟨some [7, 0], 2, 1⟩ := by decide
  have hpos : 0 < (⟨some [7, 0], 2, 1⟩ : DArray Nat).count := Nat.one_pos
  refine ⟨hwf, hpos, rfl, ?_, popTurn_runs_on hwf hpos⟩
  exact fun hstacked => (Op.pop_spec hwf hpos).2.mp hstacked rfl

end ScalBase.DArrays
