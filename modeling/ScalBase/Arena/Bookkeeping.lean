/-
  Arena/Bookkeeping.lean --- the order of an arena's sizes.

  The counters are in order when `TotalAllocated <= Size <= ReservedSize`.  `Size` is
  then what `ArenaSizeRemaining` and `ArenaShrink` may subtract from.  A push that has
  to grow the arena raises `TotalAllocated` above `Size`, since `ArenaGrow` does not
  record what it commits; and `ArenaCreateMin` raises the first `Size` to the least
  size without a look at what it reserves.  Without these two the order is kept.
-/
import ScalBase.Arena

set_option autoImplicit false

namespace ScalBase.Arenas

open Foundation

/-! ## The claim and the condition -/

/-- Where the range that `ArenaShrink` uncommits begins, from `Memory` on. -/
def State.shrinkNeeds (s : State) : Nat :=
  u64 (alignSize s.arena.totalAllocated s.arena.alignment + s.arena.minSize)

/-- The sizes are in order, the remaining size does not wrap, and a shrink would
uncommit only committed memory of the arena above what is in use. -/
structure Ordered (s : State) : Prop where
  total : s.arena.totalAllocated ≤ s.arena.size
  size : s.arena.size ≤ s.arena.reservedSize
  remaining : alignSize s.arena.totalAllocated s.arena.alignment ≤ s.arena.size ∧
    s.arena.sizeRemaining = s.arena.size - alignSize s.arena.totalAllocated s.arena.alignment
  shrink : s.arena.minSize ≠ 0 → s.arena.sizeRemaining > s.arena.minSize →
    ∀ a, s.arena.memory + s.shrinkNeeds ≤ a →
      a < s.arena.memory + s.shrinkNeeds + sub64 s.arena.size s.shrinkNeeds →
      s.committed a = true ∧ s.arena.memory + s.arena.totalAllocated ≤ a ∧
        a < s.arena.memory + s.arena.size

/-- The calls considered: no push wraps, a pop or the end of a snapshot does not go above
what is allocated, and nothing shrinks. -/
def NoWrap (s : State) : Op → Prop
  | .push size => s.arena.totalAllocated + size + cacheLine ≤ 2 ^ 64
  | .pop size => size + cacheLine ≤ 2 ^ 64 ∧ alignSize size cacheLine ≤ s.arena.totalAllocated
  | .snapshotBegin => True
  | .snapshotEnd => ∃ total rest, s.snapshots = total :: rest ∧ total ≤ s.arena.totalAllocated
  | .shrink => False

/-- A push fits in `Size`, or fails. -/
def NoGrowth (s : State) : Op → Prop
  | .push size => s.pushNeeds size ≤ s.arena.size ∨ s.arena.reservedSize < s.pushNeeds size
  | _ => True

/-! ## The invariant -/

/-- The sizes are in order, `Size` is a number of pages, and all of it is committed. -/
structure Laid (k : Nat) (s : State) : Prop where
  page : k < 64
  alignment : s.arena.alignment = 2 ^ k
  pages : 2 ^ k ∣ s.arena.size
  total : s.arena.totalAllocated ≤ s.arena.size
  size : s.arena.size ≤ s.arena.reservedSize
  room : s.arena.reservedSize + 2 ^ k ≤ 2 ^ 64
  committed : ∀ i < s.arena.size, s.committed (s.arena.memory + i) = true

variable {k : Nat} {s : State}

theorem Laid.ordered (h : Laid k s) : Ordered s := by
  have htotal := h.total
  have hsize := h.size
  have hroom := h.room
  have hpos := Nat.two_pow_pos k
  have hup := (@alignSize_spec s.arena.totalAllocated k h.page (by omega)).2.1
  have hle := @alignSize_le s.arena.totalAllocated s.arena.size k h.page (by omega) h.pages htotal
  rw [← h.alignment] at hup hle
  have hremaining : s.arena.sizeRemaining =
      s.arena.size - alignSize s.arena.totalAllocated s.arena.alignment :=
    sub64_eq hle (by omega)
  refine ⟨htotal, hsize, ⟨hle, hremaining⟩, fun _ hmore a hlow hhigh => ?_⟩
  have hneeds : s.shrinkNeeds =
      alignSize s.arena.totalAllocated s.arena.alignment + s.arena.minSize :=
    u64_eq (by omega)
  rw [hneeds, sub64_eq (by omega) (by omega)] at hhigh
  rw [hneeds] at hlow
  obtain ⟨i, rfl⟩ := Nat.exists_eq_add_of_le (show s.arena.memory ≤ a by omega)
  exact ⟨h.committed i (by omega), by omega, by omega⟩

/-- A call that lowers what is allocated keeps the order. -/
theorem Laid.lower (h : Laid k s) {t : State} (hlowered : Lowered s t) : Laid k t := by
  have htotal := h.total
  obtain ⟨hcommitted, -, total, hle, temp, harena⟩ := hlowered
  obtain ⟨arena, committed, snapshots, low⟩ := t
  simp only at hcommitted harena
  subst hcommitted harena
  exact ⟨h.page, h.alignment, h.pages, Nat.le_trans hle htotal, h.size, h.room, h.committed⟩

theorem arenaPush_fails {size : Nat} (hsize : s.arena.size ≤ s.arena.reservedSize)
    (hfails : s.arena.reservedSize < s.pushNeeds size) : (s.arenaPush size).2 = s := by
  rw [State.arenaPush]
  simp only
  rw [if_pos ⟨by omega, hfails⟩]

/-- Every call without growth keeps the order. -/
theorem Laid.step (h : Laid k s) {op : Op} (hok : NoWrap s op) (hgrowth : NoGrowth s op) :
    ∃ t, s.step op = some t ∧ Laid k t := by
  have htotal := h.total
  have hsize := h.size
  have hroom := h.room
  have hpos := Nat.two_pow_pos k
  cases op with
  | push size =>
    refine ⟨_, rfl, ?_⟩
    rcases hgrowth with hfits | hfails
    · rw [arenaPush_fits hfits]
      exact ⟨h.page, h.alignment, h.pages, hfits, hsize, hroom, h.committed⟩
    · rw [arenaPush_fails hsize hfails]
      exact h
  | pop size =>
    obtain ⟨t, ht, hlowered⟩ := @pop_lowered s size hok.2 (by omega)
    exact ⟨t, ht, h.lower hlowered⟩
  | snapshotBegin =>
    obtain ⟨t, ht, hlowered⟩ := @snapshotBegin_lowered s
    exact ⟨t, ht, h.lower hlowered⟩
  | snapshotEnd =>
    obtain ⟨total, rest, hsnap, hle⟩ := hok
    obtain ⟨t, ht, hlowered⟩ := snapshotEnd_lowered hsnap hle
    exact ⟨t, ht, h.lower hlowered⟩
  | shrink => exact hok.elim

/-- A push that grows the arena leaves more allocated than `Size`. -/
theorem not_ordered_of_growth {size : Nat} (hgrowth : ¬ NoGrowth s (.push size)) :
    ¬ Ordered (s.arenaPush size).2 := by
  simp only [NoGrowth, not_or, Nat.not_le, Nat.not_lt] at hgrowth
  intro h
  have htotal := h.total
  rw [State.arenaPush] at htotal
  simp only at htotal
  rw [if_neg (by omega)] at htotal
  exact absurd htotal (Nat.not_le.mpr hgrowth.1)

/-- A call leads to sizes in order exactly when it does not grow the arena. -/
theorem Laid.step_ordered_iff (h : Laid k s) {op : Op} (hok : NoWrap s op) :
    (∃ t, s.step op = some t ∧ Ordered t) ↔ NoGrowth s op := by
  constructor
  · rintro ⟨t, ht, hordered⟩
    cases op with
    | push size =>
      by_contra hgrowth
      cases ht
      exact not_ordered_of_growth hgrowth hordered
    | pop _ => exact trivial
    | snapshotBegin => exact trivial
    | snapshotEnd => exact trivial
    | shrink => exact trivial
  · intro hgrowth
    obtain ⟨t, ht, hlaid⟩ := h.step hok hgrowth
    exact ⟨t, ht, hlaid.ordered⟩

/-! ## Whole runs -/

/-- A new arena whose least size is reserved. -/
theorem laid_create {memory reserveSize commitSize min : Nat} (hpage : k < 64)
    (hreserve : reserveSize + 2 ^ k ≤ 2 ^ 64) (hcommit : commitSize ≤ reserveSize)
    (hmin : alignSize (max min (2 ^ k)) (2 ^ k) ≤ alignSize reserveSize (2 ^ k)) :
    Laid k (arenaCreateMin (2 ^ k) memory reserveSize commitSize min) := by
  obtain ⟨hdvd, hup, hlt⟩ := @alignSize_spec reserveSize k hpage hreserve
  have hcommitDvd := dvd_alignSize hpage commitSize
  have hminDvd := dvd_alignSize hpage (max min (2 ^ k))
  have hle := @alignSize_le commitSize _ k hpage (by omega) hdvd (Nat.le_trans hcommit hup)
  have hroom := add_two_pow_le hpage hdvd (by omega)
  unfold arenaCreateMin
  simp only
  generalize alignSize reserveSize (2 ^ k) = reserved at *
  generalize alignSize commitSize (2 ^ k) = commit at *
  generalize alignSize (max min (2 ^ k)) (2 ^ k) = least at *
  have hsize : 2 ^ k ∣ (if commit < least then least else commit) ∧
      (if commit < least then least else commit) ≤ reserved := by
    split_ifs
    · exact ⟨hminDvd, hmin⟩
    · exact ⟨hcommitDvd, hle⟩
  refine ⟨hpage, rfl, hsize.1, Nat.zero_le _, hsize.2, hroom, fun i hi => ?_⟩
  have hpos : (if commit < least then least else commit) > 0 := Nat.zero_lt_of_lt hi
  rw [if_pos hpos, memoryCommit_iff]
  exact Or.inr ⟨Nat.le_add_right _ _, Nat.add_lt_add_left hi memory⟩

/-- A push of two pages into an arena with one: the remaining size is -1 page. -/
theorem push_beyond_size :
    ∃ s, exec State.step (arenaCreateMin 4096 65536 1048576 4096 0) [.push 8192] = some s ∧
      s.arena.size < s.arena.totalAllocated ∧ s.arena.sizeRemaining = 2 ^ 64 - 4096 :=
  ⟨_, rfl, by decide, by decide⟩

/-- Over every sequence of pushes that do not wrap, pops of what is allocated and nested
snapshots on a new arena, the sizes are in order in every state exactly when the least
size is reserved and no push grows the arena. -/
theorem arena_ordered_iff {memory reserveSize commitSize min : Nat} (hpage : k < 64)
    (hreserve : reserveSize + 2 ^ k ≤ 2 ^ 64) (hcommit : commitSize ≤ reserveSize) {ops : List Op}
    (hok : AtEach State.step NoWrap
      (arenaCreateMin (2 ^ k) memory reserveSize commitSize min) ops) :
    (∀ done, done <+: ops → ∃ t, exec State.step
        (arenaCreateMin (2 ^ k) memory reserveSize commitSize min) done = some t ∧ Ordered t) ↔
      alignSize (max min (2 ^ k)) (2 ^ k) ≤ alignSize reserveSize (2 ^ k) ∧
        AtEach State.step NoGrowth
          (arenaCreateMin (2 ^ k) memory reserveSize commitSize min) ops := by
  have hruns : ∀ hmin : alignSize (max min (2 ^ k)) (2 ^ k) ≤ alignSize reserveSize (2 ^ k),
      (∀ done, done <+: ops → ∃ t, exec State.step
        (arenaCreateMin (2 ^ k) memory reserveSize commitSize min) done = some t ∧ Ordered t) ↔
      AtEach State.step NoGrowth
        (arenaCreateMin (2 ^ k) memory reserveSize commitSize min) ops := by
    intro hmin
    have hlaid := @laid_create k memory reserveSize commitSize min hpage hreserve hcommit hmin
    rw [← atEach_returns_iff hlaid.ordered]
    exact atEach_iff (Laid k) (fun _ _ h hop hgrowth => h.step hop hgrowth)
      (fun _ _ h hop => h.step_ordered_iff hop) hlaid hok
  constructor
  · intro h
    have hmin : alignSize (max min (2 ^ k)) (2 ^ k) ≤ alignSize reserveSize (2 ^ k) := by
      obtain ⟨t, ht, hordered⟩ := h [] List.nil_prefix
      cases ht
      have hsize := hordered.size
      simp only [arenaCreateMin] at hsize
      split_ifs at hsize <;> omega
    exact ⟨hmin, (hruns hmin).mp h⟩
  · rintro ⟨hmin, h⟩
    exact (hruns hmin).mpr h

/-- Pushes, a snapshot and a pop in an arena of 16 pages. -/
theorem arena_ordered_iff_nested :
    (∀ done, done <+: [.push 100, .snapshotBegin, .push 4096, .pop 4096, .snapshotEnd] →
        ∃ t, exec State.step (arenaCreateMin (2 ^ 12) 65536 1048576 65536 0) done = some t ∧
          Ordered t) ↔
      alignSize (max 0 (2 ^ 12)) (2 ^ 12) ≤ alignSize 1048576 (2 ^ 12) ∧
        AtEach State.step NoGrowth (arenaCreateMin (2 ^ 12) 65536 1048576 65536 0)
          [.push 100, .snapshotBegin, .push 4096, .pop 4096, .snapshotEnd] := by
  refine arena_ordered_iff (by decide) (by decide) (by decide) (.cons (by decide : _ ≤ _) ?_)
  rintro s ⟨⟩
  refine .cons trivial ?_
  rintro s ⟨⟩
  refine .cons (by decide : _ ≤ _) ?_
  rintro s ⟨⟩
  refine .cons ⟨by decide, by decide⟩ ?_
  rintro s ⟨⟩
  refine .cons ⟨_, _, rfl, by decide⟩ ?_
  intro _ _
  exact .nil

end ScalBase.Arenas
