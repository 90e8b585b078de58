/-
  Arena/Stack.lean --- the arena as a stack of arrays.

  A program that uses an arena has the arrays that it pushed and not yet popped, with the
  snapshots it took between them: a stack of entries, the last one on top.  It knows what
  it stored last at each index.

  Memory is bytes here.  `ArenaShrink` loses those it uncommits, and a store to memory that
  is not committed is not made at all.  In every run whose pushes are covered, the stack
  and memory agree (`arena_is_stack`): arrays keep what was stored in them until they are
  popped or an outer snapshot ends, and nothing else is allocated.
-/
import ScalBase.Arena.Pushes

set_option autoImplicit false

namespace ScalBase.Arenas

open Foundation

/-! ## The arena with its bytes -/

/-- The arena and the bytes of memory. -/
structure Store where
  state : State
  bytes : Nat → UInt8

/-- A call, or a store of a byte by the program at an index of an array.  A shrink comes
with what is found later where it uncommits. -/
inductive Access where
  | push (size : Nat)
  | pushZero (size : Nat)
  | pop (size : Nat)
  | snapshotBegin
  | snapshotEnd
  | shrink (lost : Nat → UInt8)
  | write (ptr index : Nat) (value : UInt8)

/-- `SMemZero`, where all of the range is committed. -/
def sMemZero (committed : Nat → Bool) (bytes : Nat → UInt8) (dst size : Nat) :
    Option (Nat → UInt8) :=
  if ∀ i < size, committed (dst + i) = true then
    some fun x => if dst ≤ x ∧ x < dst + size then 0 else bytes x
  else none

namespace Store

/-- `ArenaPushZero`.  It zeroes at the null pointer when the arena is out of memory. -/
def arenaPushZero (s : Store) (size : Nat) : Option Store :=
  match s.state.arenaPush size with
  | (none, _) => none
  | (some res, t) =>
      (sMemZero t.committed s.bytes res (alignSize size cacheLine)).map fun bytes => ⟨t, bytes⟩

/-- `ArenaShrink`: the bytes that are not committed are lost. -/
def arenaShrink (s : Store) (lost : Nat → UInt8) : Store :=
  { state := s.state.arenaShrink
    bytes := fun x => if s.state.arenaShrink.committed x then s.bytes x else lost x }

/-- The state after a call. -/
def step (s : Store) : Access → Option Store
  | .push size => some { s with state := (s.state.arenaPush size).2 }
  | .pushZero size => s.arenaPushZero size
  | .pop size => some { s with state := s.state.arenaPop size }
  | .snapshotBegin => some { s with state := s.state.arenaSnapshotBegin }
  | .snapshotEnd => some { s with state := s.state.arenaSnapshotEnd }
  | .shrink lost => some (s.arenaShrink lost)
  | .write ptr index value =>
      if s.state.committed (ptr + index) then
        some { s with bytes := Function.update s.bytes (ptr + index) value }
      else none

end Store

/-! ## The stack -/

/-- An array that was pushed, with the byte stored last at an index, or a snapshot. -/
inductive Entry where
  | array (ptr size : Nat) (byte : Nat → Option UInt8)
  | mark

namespace Entry

def isMark : Entry → Bool
  | array _ _ _ => false
  | mark => true

/-- The memory that an entry takes. -/
def footprint : Entry → Nat
  | array _ size _ => lines size
  | mark => 0

/-- The entry is the array at `ptr`, and has `index`. -/
def has (ptr index : Nat) : Entry → Bool
  | array p size _ => p == ptr && decide (index < size)
  | mark => false

/-- A store into the array at `ptr`. -/
def write (ptr index : Nat) (value : UInt8) : Entry → Entry
  | array p size byte =>
      array p size (if p = ptr then Function.update byte index (some value) else byte)
  | mark => mark

/-- Two arrays do not overlap. -/
def Apart : Entry → Entry → Prop
  | array p size _, array q size' _ => p + size ≤ q ∨ q + size' ≤ p
  | _, _ => True

/-- Memory holds what was stored. -/
def ReadBack (bytes : Nat → UInt8) : Entry → Prop
  | array ptr size byte => ∀ i < size, ∀ value ∈ byte i, bytes (ptr + i) = value
  | mark => True

/-- The array lies in `[memory, memory + room)` and is committed. -/
def Usable (committed : Nat → Bool) (memory room : Nat) : Entry → Prop
  | array ptr size _ =>
      memory ≤ ptr ∧ ptr + size ≤ memory + room ∧ ∀ i < size, committed (ptr + i) = true
  | mark => True

end Entry

/-- A push that is not out of memory. -/
def pushed (reply : Option Nat) (size : Nat) (byte : Nat → Option UInt8) (es : List Entry) :
    List Entry :=
  match reply with
  | none => es
  | some ptr => .array ptr size byte :: es

/-- The stack after a call on `s`. -/
def entriesStep (s : Store) (es : List Entry) : Access → List Entry
  | .push size => pushed (s.state.arenaPush size).1 size (fun _ => none) es
  | .pushZero size => pushed (s.state.arenaPush size).1 size (fun _ => some 0) es
  | .pop _ => es.tail
  | .snapshotBegin => .mark :: es
  | .snapshotEnd => (es.dropWhile fun e => !e.isMark).tail
  | .shrink _ => es
  | .write ptr index value => es.map (Entry.write ptr index value)

/-- The arena beside the stack of the program that uses it. -/
def watchedStep (s : Store × List Entry) (a : Access) : Option (Store × List Entry) :=
  (s.1.step a).map fun t => (t, entriesStep s.1 s.2 a)

/-- The entry is an array of `size` bytes. -/
def Entry.ofSize (size : Nat) : Entry → Bool
  | .array _ n _ => n == size
  | .mark => false

/-- Pushes do not wrap, are covered, and are not out of memory if they zero; a pop is of the
size on top, the end of a snapshot has a beginning, and stores go to arrays. -/
def Legal (s : Store × List Entry) : Access → Prop
  | .push size => (0 < size ∧ s.1.state.arena.totalAllocated + size + cacheLine ≤ 2 ^ 64) ∧
      Covered s.1.state (.push size)
  | .pushZero size => (0 < size ∧ s.1.state.arena.totalAllocated + size + cacheLine ≤ 2 ^ 64) ∧
      Covered s.1.state (.push size) ∧ (s.1.state.arenaPush size).1.isSome
  | .pop size => ∃ e ∈ s.2.head?, e.ofSize size = true
  | .snapshotBegin => True
  | .snapshotEnd => ∃ e ∈ s.2, e.isMark = true
  | .shrink _ => True
  | .write ptr index _ => ∃ e ∈ s.2, e.has ptr index = true

/-- Memory and the stack agree: what was stored is read back, arrays are apart, committed
and in the arena, and nothing is allocated but what is on the stack. -/
structure Holds (s : Store) (es : List Entry) : Prop where
  read : ∀ e ∈ es, e.ReadBack s.bytes
  usable : ∀ e ∈ es, e.Usable s.state.committed s.state.arena.memory
    (max s.state.arena.size s.state.arena.reservedSize)
  apart : es.Pairwise Entry.Apart
  total : s.state.arena.totalAllocated = (es.map Entry.footprint).sum
  temp : s.state.arena.tempCount = es.countP Entry.isMark

/-! ## The invariant -/

/-- The arrays lie one above the other from `memory` on, up to `total`, and a snapshot
remembers where it was taken. -/
inductive Stacked (memory : Nat) : List Entry → Nat → List Nat → Prop
  | nil : Stacked memory [] 0 []
  | array {es : List Entry} {total size : Nat} {marks : List Nat} (byte : Nat → Option UInt8)
      (h : Stacked memory es total marks) :
      Stacked memory (.array (memory + total) size byte :: es) (total + lines size) marks
  | mark {es : List Entry} {total : Nat} {marks : List Nat} (h : Stacked memory es total marks) :
      Stacked memory (.mark :: es) total (total :: marks)

section Stack

variable {memory total : Nat} {marks : List Nat} {es : List Entry}

theorem Stacked.total_eq (h : Stacked memory es total marks) :
    total = (es.map Entry.footprint).sum := by
  induction h with
  | nil => rfl
  | array byte _ ih => rw [List.map_cons, List.sum_cons, ← ih, Entry.footprint, Nat.add_comm]
  | mark _ ih => rw [List.map_cons, List.sum_cons, ← ih, Entry.footprint, Nat.zero_add]

theorem Stacked.marks_eq (h : Stacked memory es total marks) :
    marks.length = es.countP Entry.isMark := by
  induction h with
  | nil => rfl
  | array byte _ ih => rw [ih, List.countP_cons_of_neg (by simp [Entry.isMark])]
  | mark _ ih => rw [List.length_cons, ih, List.countP_cons_of_pos (by simp [Entry.isMark])]

/-- An array lies between `memory` and the top. -/
theorem Stacked.bounds (h : Stacked memory es total marks) {ptr size : Nat}
    {byte : Nat → Option UInt8} (hmem : .array ptr size byte ∈ es) :
    memory ≤ ptr ∧ ptr + lines size ≤ memory + total := by
  induction h with
  | nil => cases hmem
  | array _ _ ih =>
    rcases List.mem_cons.mp hmem with heq | hrest
    · cases heq
      exact ⟨Nat.le_add_right _ _, by omega⟩
    · obtain ⟨hlow, hhigh⟩ := ih hrest
      exact ⟨hlow, by omega⟩
  | mark _ ih =>
    rcases List.mem_cons.mp hmem with heq | hrest
    · cases heq
    · exact ih hrest

theorem Stacked.apart (h : Stacked memory es total marks) : es.Pairwise Entry.Apart := by
  induction h with
  | nil => exact List.Pairwise.nil
  | array byte h ih =>
    refine List.pairwise_cons.mpr ⟨fun e he => ?_, ih⟩
    cases e with
    | mark => trivial
    | array q size' byte' =>
      have hbounds := h.bounds he
      have hlines := (lines_spec size').2.1
      exact Or.inr (by omega)
  | mark _ ih => exact List.pairwise_cons.mpr ⟨fun _ _ => trivial, ih⟩

/-- The end of a snapshot goes back to where it was taken. -/
theorem Stacked.snapshotEnd (h : Stacked memory es total marks)
    (hmark : ∃ e ∈ es, e.isMark = true) :
    ∃ low rest, marks = low :: rest ∧ low ≤ total ∧
      Stacked memory (es.dropWhile fun e => !e.isMark).tail low rest := by
  induction h with
  | nil =>
    obtain ⟨e, he, -⟩ := hmark
    cases he
  | array byte _ ih =>
    obtain ⟨e, he, hise⟩ := hmark
    rcases List.mem_cons.mp he with rfl | hrest
    · cases hise
    · obtain ⟨low, rest, hmarks, hle, hstack⟩ := ih ⟨e, hrest, hise⟩
      rw [List.dropWhile_cons_of_pos (by simp [Entry.isMark])]
      exact ⟨low, rest, hmarks, by omega, hstack⟩
  | mark h _ =>
    rw [List.dropWhile_cons_of_neg (by simp [Entry.isMark]), List.tail_cons]
    exact ⟨_, _, rfl, Nat.le_refl _, h⟩

/-- A store moves no array. -/
theorem Stacked.write (h : Stacked memory es total marks) (ptr index : Nat) (value : UInt8) :
    Stacked memory (es.map (Entry.write ptr index value)) total marks := by
  induction h with
  | nil => exact .nil
  | array byte _ ih => exact .array _ ih
  | mark _ ih => exact .mark ih

end Stack

/-- The arena keeps its invariant, its arrays are stacked, and they are read back. -/
structure Tracks (k : Nat) (s : Store) (es : List Entry) : Prop where
  kept : Kept k s.state
  stacked : Stacked s.state.arena.memory es s.state.arena.totalAllocated s.state.snapshots
  temp : s.state.arena.tempCount = s.state.snapshots.length
  read : ∀ e ∈ es, e.ReadBack s.bytes

variable {k : Nat}

/-- An array on the stack is committed and in the arena. -/
theorem Tracks.usable {s : Store} {es : List Entry} (h : Tracks k s es) :
    ∀ e ∈ es, e.Usable s.state.committed s.state.arena.memory
      (max s.state.arena.size s.state.arena.reservedSize) := by
  intro e he
  cases e with
  | mark => trivial
  | array ptr size byte =>
    have htotal := h.kept.total
    have hlines := (lines_spec size).2.1
    obtain ⟨hlow, hhigh⟩ := h.stacked.bounds he
    refine ⟨hlow, by omega, fun i hi => ?_⟩
    have hused := h.kept.inUse (ptr - s.state.arena.memory + i) (by omega)
    rwa [← Nat.add_assoc, Nat.add_sub_cancel' hlow] at hused

theorem Tracks.holds {s : Store} {es : List Entry} (h : Tracks k s es) : Holds s es :=
  ⟨h.read, h.usable, h.stacked.apart, h.stacked.total_eq, by rw [h.temp, h.stacked.marks_eq]⟩

/-! ## Pushes -/

/-- A covered push is out of memory, or takes whole cache lines above what is allocated. -/
theorem Kept.push_cases {s : State} (h : Kept k s) {size : Nat}
    (hwrap : s.arena.totalAllocated + size + cacheLine ≤ 2 ^ 64) (hcov : Covered s (.push size)) :
    s.arenaPush size = (none, s) ∨
      ∃ t, s.arenaPush size = (some (s.arena.memory + s.arena.totalAllocated), t) ∧ Kept k t ∧
        t.arena = { s.arena with totalAllocated := s.arena.totalAllocated + lines size } ∧
        t.snapshots = s.snapshots := by
  have hneeds := @pushNeeds_eq s size (by have hlt := (lines_spec size).2.2; omega)
  rcases Decidable.em (s.arena.size < s.pushNeeds size ∧ s.arena.reservedSize < s.pushNeeds size)
    with hout | hin
  · exact Or.inl (arenaPush_out hout)
  · have hpush := h.push hcov
    obtain ⟨t, ht, harena⟩ := arenaPush_in hin
    have hsnapshots : (s.arenaPush size).2.snapshots = s.snapshots := by
      rw [State.arenaPush]
      simp only
      split_ifs <;> rfl
    rw [ht] at hpush hsnapshots
    exact Or.inr ⟨t, ht, hpush, by rw [harena, hneeds], hsnapshots⟩

/-- An array on top of the stack, where memory below it is left alone. -/
theorem Tracks.push {s : Store} {es : List Entry} (h : Tracks k s es) {t : State} {size : Nat}
    {byte : Nat → Option UInt8} {bytes : Nat → UInt8} (hkept : Kept k t)
    (harena : t.arena =
      { s.state.arena with totalAllocated := s.state.arena.totalAllocated + lines size })
    (hsnapshots : t.snapshots = s.state.snapshots)
    (hnew : Entry.ReadBack bytes
      (.array (s.state.arena.memory + s.state.arena.totalAllocated) size byte))
    (hold : ∀ x < s.state.arena.memory + s.state.arena.totalAllocated, bytes x = s.bytes x) :
    Tracks k ⟨t, bytes⟩
      (.array (s.state.arena.memory + s.state.arena.totalAllocated) size byte :: es) := by
  refine ⟨hkept, ?_, ?_, fun e he => ?_⟩
  · rw [harena, hsnapshots]
    exact h.stacked.array byte
  · rw [harena, hsnapshots]
    exact h.temp
  · rcases List.mem_cons.mp he with rfl | hrest
    · exact hnew
    · have hread := h.read e hrest
      cases e with
      | mark => trivial
      | array ptr size' byte' =>
        have hhigh := (h.stacked.bounds hrest).2
        have hlines := (lines_spec size').2.1
        intro i hi value hvalue
        exact (hold (ptr + i) (by omega)).trans (hread i hi value hvalue)

/-- A push uncommits nothing. -/
theorem arenaPush_committed {s : State} {a : Nat} (size : Nat) (h : s.committed a = true) :
    (s.arenaPush size).2.committed a = true := by
  rw [State.arenaPush]
  simp only
  split_ifs
  · exact h
  · exact memoryCommit_iff.mpr (Or.inl h)
  · exact h

/-- What was pushed last is committed. -/
theorem Kept.top_committed {s t : State} {size : Nat} (hkept : Kept k t)
    (harena : t.arena = { s.arena with totalAllocated := s.arena.totalAllocated + lines size }) :
    ∀ i < lines size, t.committed (s.arena.memory + s.arena.totalAllocated + i) = true := by
  intro i hi
  have hused := hkept.inUse (s.arena.totalAllocated + i) (by rw [harena]; simp only; omega)
  rwa [harena, ← Nat.add_assoc] at hused

theorem Tracks.arenaPush {s : Store} {es : List Entry} (h : Tracks k s es) {size : Nat}
    (hok : Legal (s, es) (.push size)) :
    ∃ t, watchedStep (s, es) (.push size) = some t ∧ Tracks k t.1 t.2 := by
  refine ⟨_, rfl, ?_⟩
  rcases h.kept.push_cases hok.1.2 hok.2 with hout | ⟨t, ht, hkept, harena, hsnapshots⟩
  · simp only [entriesStep, hout, pushed]
    exact h
  · simp only [entriesStep, ht, pushed]
    exact h.push hkept harena hsnapshots (fun i _ value hvalue => by cases hvalue) fun _ _ => rfl

theorem Tracks.arenaPushZero {s : Store} {es : List Entry} (h : Tracks k s es) {size : Nat}
    (hok : Legal (s, es) (.pushZero size)) :
    ∃ t, watchedStep (s, es) (.pushZero size) = some t ∧ Tracks k t.1 t.2 := by
  obtain ⟨⟨-, hwrap⟩, hcov, hsome⟩ := hok
  rcases h.kept.push_cases hwrap hcov with hout | ⟨t, ht, hkept, harena, hsnapshots⟩
  · rw [hout] at hsome
    cases hsome
  · have hstep : s.arenaPushZero size = some ⟨t, fun x =>
        if s.state.arena.memory + s.state.arena.totalAllocated ≤ x ∧
          x < s.state.arena.memory + s.state.arena.totalAllocated + lines size then 0
        else s.bytes x⟩ := by
      rw [Store.arenaPushZero, ht]
      simp only
      rw [alignSize_eq_lines (by omega), sMemZero, if_pos (hkept.top_committed harena)]
      rfl
    refine ⟨_, by rw [watchedStep, Store.step, hstep]; rfl, ?_⟩
    simp only [entriesStep, ht, pushed]
    refine h.push hkept harena hsnapshots (fun i hi value hvalue => ?_) fun x hx => ?_
    · have hlines := (lines_spec size).2.1
      cases hvalue
      exact if_pos ⟨Nat.le_add_right _ _, by omega⟩
    · exact if_neg fun hin => by omega

/-! ## Pops and snapshots -/

/-- A stack that is shorter, over memory that is left alone. -/
theorem Tracks.lower {s : Store} {es es' : List Entry} (h : Tracks k s es) {t : State}
    (hlowered : Lowered s.state t) (hsub : es'.Sublist es)
    (hstacked : Stacked t.arena.memory es' t.arena.totalAllocated t.snapshots)
    (htemp : t.arena.tempCount = t.snapshots.length) : Tracks k { s with state := t } es' :=
  ⟨h.kept.lower hlowered, hstacked, htemp, fun e he => h.read e (hsub.subset he)⟩

theorem Tracks.arenaPop {s : Store} {es : List Entry} (h : Tracks k s es) {size : Nat}
    (hok : Legal (s, es) (.pop size)) :
    ∃ t, watchedStep (s, es) (.pop size) = some t ∧ Tracks k t.1 t.2 := by
  obtain ⟨e, he, hsize⟩ := hok
  cases es with
  | nil => cases he
  | cons top rest =>
    cases he
    cases e with
    | mark => cases hsize
    | array ptr n byte =>
      obtain rfl := beq_iff_eq.mp hsize
      have hlt := h.kept.total_lt
      have hread := h.read
      have htemp := h.temp
      have hstacked := h.stacked
      generalize htotal : s.state.arena.totalAllocated = total at hstacked hlt
      cases hstacked with
      | @array _ total _ _ _ hrest =>
        obtain ⟨⟨c, hc⟩, hle, -⟩ := lines_spec n
        have hfits : n + cacheLine ≤ 2 ^ 64 := by
          have hline : cacheLine = 64 := rfl
          rw [hline] at hc ⊢
          omega
        have halign := alignSize_eq_lines hfits
        obtain ⟨t, ht, hlowered⟩ := @pop_lowered s.state n (by omega) (by omega)
        cases ht
        have hpop : (s.state.arenaPop n).arena.totalAllocated = total := by
          rw [State.arenaPop, halign, htotal]
          simp only
          rw [sub64_eq (by omega) hlt, Nat.add_sub_cancel]
        refine ⟨_, rfl, h.lower hlowered (List.sublist_cons_self _ _) ?_ htemp⟩
        rw [hpop]
        exact hrest

theorem Tracks.snapshotBegin {s : Store} {es : List Entry} (h : Tracks k s es) :
    ∃ t, watchedStep (s, es) .snapshotBegin = some t ∧ Tracks k t.1 t.2 := by
  obtain ⟨t, ht, hlowered⟩ := @snapshotBegin_lowered s.state
  cases ht
  refine ⟨_, rfl, h.kept.lower hlowered, h.stacked.mark, ?_, fun e he => ?_⟩
  · have htemp := h.temp
    simp only [State.arenaSnapshotBegin, List.length_cons]
    omega
  · rcases List.mem_cons.mp he with rfl | hrest
    · trivial
    · exact h.read e hrest

theorem Tracks.snapshotEnd {s : Store} {es : List Entry} (h : Tracks k s es)
    (hok : Legal (s, es) .snapshotEnd) :
    ∃ t, watchedStep (s, es) .snapshotEnd = some t ∧ Tracks k t.1 t.2 := by
  obtain ⟨low, rest, hmarks, hle, hstacked⟩ := h.stacked.snapshotEnd hok
  obtain ⟨t, ht, hlowered⟩ := snapshotEnd_lowered hmarks hle
  cases ht
  have hend : s.state.arenaSnapshotEnd =
      { s.state with
        arena := { s.state.arena with
          totalAllocated := low, tempCount := s.state.arena.tempCount - 1 }
        snapshots := rest } := by
    rw [State.arenaSnapshotEnd, hmarks]
  refine ⟨_, rfl, h.lower hlowered ((List.tail_sublist _).trans (List.dropWhile_sublist _)) ?_ ?_⟩
  · rw [hend]
    exact hstacked
  · have htemp := h.temp
    rw [hmarks, List.length_cons] at htemp
    rw [hend]
    simp only
    omega

/-! ## Shrinks and stores -/

theorem arenaShrink_arena (s : State) :
    s.arenaShrink.arena = s.arena ∧ s.arenaShrink.snapshots = s.snapshots := by
  unfold State.arenaShrink
  split_ifs <;> exact ⟨rfl, rfl⟩

/-- A shrink loses no byte of an array. -/
theorem Tracks.arenaShrink {s : Store} {es : List Entry} (h : Tracks k s es)
    (lost : Nat → UInt8) : Tracks k (s.arenaShrink lost) es := by
  obtain ⟨harena, hsnapshots⟩ := arenaShrink_arena s.state
  have hkept := h.kept.shrink
  have hstacked := h.stacked
  have htemp := h.temp
  rw [← harena, ← hsnapshots] at hstacked htemp
  refine ⟨hkept, hstacked, htemp, fun e he => ?_⟩
  have hread := h.read e he
  cases e with
  | mark => trivial
  | array ptr size byte =>
    intro i hi value hvalue
    obtain ⟨hlow, hhigh⟩ := hstacked.bounds he
    have hlines := (lines_spec size).2.1
    have hused := hkept.inUse (ptr - s.state.arenaShrink.arena.memory + i) (by omega)
    rw [← Nat.add_assoc, Nat.add_sub_cancel' hlow] at hused
    simp only [Store.arenaShrink, hused, if_true]
    exact hread i hi value hvalue

/-- A store into an array is read back, and changes no other. -/
theorem Entry.readBack_write {bytes : Nat → UInt8} {e f : Entry} (hread : f.ReadBack bytes)
    {ptr index : Nat} (hin : e.has ptr index = true) (hapart : e ≠ f → e.Apart f) (value : UInt8) :
    (f.write ptr index value).ReadBack (Function.update bytes (ptr + index) value) := by
  cases e with
  | mark => cases hin
  | array p size byte =>
    cases f with
    | mark => trivial
    | array q size' byte' =>
      simp only [Entry.has, Bool.and_eq_true, beq_iff_eq, decide_eq_true_eq] at hin
      obtain ⟨rfl, hindex⟩ := hin
      intro i hi v hv
      rcases eq_or_ne q p with rfl | hne
      · rw [if_pos rfl] at hv
        rcases eq_or_ne i index with rfl | hother
        · rw [Function.update_self] at hv ⊢
          exact Option.some.inj hv
        · rw [Function.update_of_ne hother] at hv
          rw [Function.update_of_ne (by omega)]
          exact hread i hi v hv
      · rw [if_neg hne] at hv
        have hboth : p + size ≤ q ∨ q + size' ≤ p := hapart fun heq => by
          cases heq
          exact hne rfl
        rw [Function.update_of_ne (by omega)]
        exact hread i hi v hv

instance : Std.Symm Entry.Apart where
  symm e f h := by
    cases e <;> cases f
    · exact Or.symm h
    all_goals trivial

theorem Tracks.write {s : Store} {es : List Entry} (h : Tracks k s es) {ptr index : Nat}
    {value : UInt8} (hok : Legal (s, es) (.write ptr index value)) :
    ∃ t, watchedStep (s, es) (.write ptr index value) = some t ∧ Tracks k t.1 t.2 := by
  obtain ⟨e, he, hin⟩ := hok
  have hcommitted : s.state.committed (ptr + index) = true := by
    have husable := h.usable e he
    cases e with
    | mark => cases hin
    | array p size byte =>
      simp only [Entry.has, Bool.and_eq_true, beq_iff_eq, decide_eq_true_eq] at hin
      obtain ⟨rfl, hindex⟩ := hin
      exact husable.2.2 index hindex
  refine ⟨_, by rw [watchedStep, Store.step, if_pos hcommitted]; rfl, h.kept,
    h.stacked.write ptr index value, h.temp, fun e' he' => ?_⟩
  obtain ⟨f, hf, rfl⟩ := List.mem_map.mp he'
  exact Entry.readBack_write (h.read f hf) hin
    (fun hne => h.stacked.apart.forall he hf hne) value

/-! ## Whole runs -/

theorem Tracks.step {s : Store × List Entry} (h : Tracks k s.1 s.2) {a : Access}
    (hok : Legal s a) : ∃ t, watchedStep s a = some t ∧ Tracks k t.1 t.2 := by
  obtain ⟨s, es⟩ := s
  cases a with
  | push size => exact h.arenaPush hok
  | pushZero size => exact h.arenaPushZero hok
  | pop size => exact h.arenaPop hok
  | snapshotBegin => exact h.snapshotBegin
  | snapshotEnd => exact h.snapshotEnd hok
  | shrink lost => exact ⟨_, rfl, h.arenaShrink lost⟩
  | write ptr index value => exact h.write hok

/-- Over every sequence of legal calls and stores on a new arena, memory and the stack agree
after each of them: what was stored in an array is read back until it is popped or a snapshot
under it ends. -/
theorem arena_is_stack {memory reserveSize commitSize min : Nat} {bytes : Nat → UInt8}
    (hsmall : reserveSize + min + 4 * 2 ^ k ≤ 2 ^ 63) (hcommit : commitSize ≤ reserveSize)
    {accesses : List Access}
    (hok : AtEach watchedStep Legal
      (⟨arenaCreateMin (2 ^ k) memory reserveSize commitSize min, bytes⟩, []) accesses) :
    ∃ t, exec watchedStep (⟨arenaCreateMin (2 ^ k) memory reserveSize commitSize min, bytes⟩, [])
      accesses = some t ∧ Holds t.1 t.2 := by
  have hnew : Tracks k ⟨arenaCreateMin (2 ^ k) memory reserveSize commitSize min, bytes⟩ [] :=
    ⟨kept_create hsmall hcommit, .nil, rfl, fun e he => by cases he⟩
  obtain ⟨t, ht, htracks⟩ := AtEach.exec_invariant
    (fun s : Store × List Entry => Tracks k s.1 s.2) (fun _ _ h hok => h.step hok) hnew hok
  exact ⟨t, ht, htracks.holds⟩

/-- An array, a store, a snapshot with zeroed memory above it, and a shrink. -/
theorem arena_is_stack_snapshot :
    ∃ t, exec watchedStep (⟨arenaCreateMin (2 ^ 12) 65536 1048576 4096 0, fun _ => 1⟩, [])
      [.push 100, .write 65536 99 7, .snapshotBegin, .pushZero 40, .snapshotEnd,
        .shrink fun _ => 2] = some t ∧ Holds t.1 t.2 := by
  refine arena_is_stack (by decide) (by decide) (.cons ⟨by decide, fun _ l hl => by cases hl⟩ ?_)
  rintro s ⟨⟩
  refine .cons ⟨_, List.mem_singleton_self _, by decide⟩ ?_
  rintro s ⟨⟩
  refine .cons trivial ?_
  rintro s ⟨⟩
  refine .cons ⟨by decide, ?_, rfl⟩ ?_
  · intro _ l hl
    cases hl
  rintro s ⟨⟩
  refine .cons ⟨.mark, List.mem_cons_of_mem _ (List.mem_cons_self ..), rfl⟩ ?_
  rintro s ⟨⟩
  refine .cons trivial ?_
  intro _ _
  exact .nil

end ScalBase.Arenas
