/-
  Arena.lean --- the memory arena of `Lib/Arena.h`.

  Addresses are natural numbers, sizes 64-bit words.  `committed` is the set of
  addresses the platform has committed: `PlatformMemoryCommit` adds a range,
  `PlatformMemoryUncommit` takes one away, and both succeed.  The page size is a
  parameter.

  `ArenaPush` asks for more memory only when it needs more than `Size`.  `ArenaGrow`
  commits from `Memory` on and leaves `Size` as it is; `ArenaShrink` uncommits the
  end of `[Memory, Memory + Size)` and leaves `Size` as it is as well.  A push that
  fits in `Size` after a shrink may then use memory that is not committed
  (`push_after_shrink_uncommitted`).
-/
import ScalBase.Base
import ScalBase.Foundation.Run

set_option autoImplicit false

namespace ScalBase.Arenas

open Foundation

/-! ## The arena -/

/-- `SCAL_CACHE_LINE`. -/
def cacheLine : Nat := 64

/-- The arena. -/
structure Arena where
  memory : Nat
  reservedSize : Nat
  size : Nat
  totalAllocated : Nat
  minSize : Nat
  alignment : Nat
  tempCount : Int

/-- The arena, the committed addresses, and the snapshots that are open, the inner
one first.

`low` is not in the source.  It is the least end of the memory that the shrinks since
the last growth have left committed, if there were any. -/
structure State where
  arena : Arena
  committed : Nat → Bool
  snapshots : List Nat
  low : Option Nat

/-- `PlatformMemoryCommit`. -/
def memoryCommit (committed : Nat → Bool) (ptr size : Nat) : Nat → Bool :=
  fun a => committed a || (decide (ptr ≤ a) && decide (a < ptr + size))

/-- `PlatformMemoryUncommit`. -/
def memoryUncommit (committed : Nat → Bool) (ptr size : Nat) : Nat → Bool :=
  fun a => committed a && !(decide (ptr ≤ a) && decide (a < ptr + size))

/-- `ArenaCreateMin`, where the reserved memory starts at `memory`. -/
def arenaCreateMin (pageSize memory reserveSize initialCommitSize min : Nat) : State :=
  let reserveSize := alignSize reserveSize pageSize
  let initialCommitSize := alignSize initialCommitSize pageSize
  let min := alignSize (max min pageSize) pageSize
  let initialCommitSize := if initialCommitSize < min then min else initialCommitSize
  { arena :=
      { memory := memory
        reservedSize := reserveSize
        size := initialCommitSize
        totalAllocated := 0
        minSize := min
        alignment := pageSize
        tempCount := 0 }
    committed :=
      if initialCommitSize > 0 then memoryCommit (fun _ => false) memory initialCommitSize
      else fun _ => false
    snapshots := []
    low := none }

/-- `ArenaSizeRemaining`. -/
def Arena.sizeRemaining (a : Arena) : Nat :=
  sub64 a.size (alignSize a.totalAllocated a.alignment)

namespace State

/-- `ArenaGrow`. -/
def arenaGrow (s : State) (sizeNeeded : Nat) : State :=
  let newSize := alignSize sizeNeeded s.arena.alignment
  { s with committed := memoryCommit s.committed s.arena.memory newSize, low := none }

/-- `ArenaShrink`. -/
def arenaShrink (s : State) : State :=
  if s.arena.minSize ≠ 0 ∧ s.arena.sizeRemaining > s.arena.minSize then
    let sizeNeeded := u64 (alignSize s.arena.totalAllocated s.arena.alignment + s.arena.minSize)
    { s with
      committed := memoryUncommit s.committed (s.arena.memory + sizeNeeded)
        (sub64 s.arena.size sizeNeeded)
      low := some (match s.low with
        | none => sizeNeeded
        | some l => min l sizeNeeded) }
  else s

/-- The `sizeNeeded` of a push. -/
def pushNeeds (s : State) (size : Nat) : Nat :=
  u64 (s.arena.totalAllocated + alignSize size cacheLine)

/-- `ArenaPush`, with the address it returns unless it is out of memory. -/
def arenaPush (s : State) (size : Nat) : Option Nat × State :=
  let sizeNeeded := s.pushNeeds size
  if sizeNeeded > s.arena.size ∧ sizeNeeded > s.arena.reservedSize then (none, s)
  else
    let t := if sizeNeeded > s.arena.size then s.arenaGrow sizeNeeded else s
    (some (s.arena.memory + s.arena.totalAllocated),
      { t with arena := { s.arena with totalAllocated := sizeNeeded } })

/-- `ArenaPop`. -/
def arenaPop (s : State) (size : Nat) : State :=
  { s with arena :=
      { s.arena with totalAllocated := sub64 s.arena.totalAllocated (alignSize size cacheLine) } }

/-- `ArenaSnapshotBegin`. -/
def arenaSnapshotBegin (s : State) : State :=
  { s with
    arena := { s.arena with tempCount := s.arena.tempCount + 1 }
    snapshots := s.arena.totalAllocated :: s.snapshots }

/-- `ArenaSnapshotEnd` of the inner snapshot. -/
def arenaSnapshotEnd (s : State) : State :=
  match s.snapshots with
  | [] => s
  | total :: rest =>
      { s with
        arena := { s.arena with totalAllocated := total, tempCount := s.arena.tempCount - 1 }
        snapshots := rest }

end State

/-- A call on the arena. -/
inductive Op where
  | push (size : Nat)
  | pop (size : Nat)
  | snapshotBegin
  | snapshotEnd
  | shrink
  deriving DecidableEq, Repr

/-- The state after a call. -/
def State.step (s : State) : Op → Option State
  | .push size => some (s.arenaPush size).2
  | .pop size => some (s.arenaPop size)
  | .snapshotBegin => some s.arenaSnapshotBegin
  | .snapshotEnd => some s.arenaSnapshotEnd
  | .shrink => some s.arenaShrink

/-! ## The claim and the condition -/

/-- Every byte of `[Memory, Memory + TotalAllocated)` is committed. -/
def InUseCommitted (s : State) : Prop :=
  ∀ i < s.arena.totalAllocated, s.committed (s.arena.memory + i) = true

/-- The calls considered: no push wraps, a pop or the end of a snapshot does not go
above what is allocated. -/
def Admissible (s : State) : Op → Prop
  | .push size => 0 < size ∧ s.arena.totalAllocated + size + cacheLine ≤ 2 ^ 64
  | .pop size => size + cacheLine ≤ 2 ^ 64 ∧ alignSize size cacheLine ≤ s.arena.totalAllocated
  | .snapshotBegin => True
  | .snapshotEnd => ∃ total rest, s.snapshots = total :: rest ∧ total ≤ s.arena.totalAllocated
  | .shrink => True

/-- After the call the bytes in use are committed. -/
def Safe (s : State) (op : Op) : Prop := ∃ t, s.step op = some t ∧ InUseCommitted t

/-- A push that fits in `Size` needs no more than the shrinks since the last growth
have left. -/
def Covered (s : State) : Op → Prop
  | .push size => s.pushNeeds size ≤ s.arena.size → ∀ l, s.low = some l → s.pushNeeds size ≤ l
  | _ => True

/-! ## The invariant -/

theorem memoryCommit_iff {committed : Nat → Bool} {ptr size a : Nat} :
    memoryCommit committed ptr size a = true ↔
      committed a = true ∨ (ptr ≤ a ∧ a < ptr + size) := by
  simp [memoryCommit]

theorem memoryUncommit_iff {committed : Nat → Bool} {ptr size a : Nat} :
    memoryUncommit committed ptr size a = true ↔
      committed a = true ∧ ¬ (ptr ≤ a ∧ a < ptr + size) := by
  simp only [memoryUncommit, Bool.and_eq_true, Bool.not_eq_true', ← Bool.not_eq_true,
    decide_eq_true_eq]

/-- Below the range nothing is uncommitted. -/
theorem memoryUncommit_below {committed : Nat → Bool} {memory needs size i : Nat} (hi : i < needs)
    (hc : committed (memory + i) = true) :
    memoryUncommit committed (memory + needs) size (memory + i) = true := by
  rw [memoryUncommit_iff]
  exact ⟨hc, fun hin => by omega⟩

/-- The range that goes covers the rest of `Size`. -/
theorem memoryUncommit_rest {committed : Nat → Bool} {memory needs size i : Nat} (hi : needs ≤ i)
    (hlt : i < size) (hsize : size < 2 ^ 64) :
    memoryUncommit committed (memory + needs) (sub64 size needs) (memory + i) = false := by
  rw [Bool.eq_false_iff, Ne, memoryUncommit_iff, sub64_eq (by omega) hsize]
  exact fun hc => hc.2 ⟨by omega, by omega⟩

/-- What is not committed is not committed afterwards. -/
theorem memoryUncommit_of_false {committed : Nat → Bool} {ptr size a : Nat}
    (hc : committed a = false) : memoryUncommit committed ptr size a = false := by
  rw [memoryUncommit, hc, Bool.false_and]

/-- Of `[Memory, Memory + Size)` exactly the part below `low` is committed, and so is
what is in use.  The sizes leave room for the roundings. -/
structure Kept (k : Nat) (s : State) : Prop where
  page : k < 63
  alignment : s.arena.alignment = 2 ^ k
  total : s.arena.totalAllocated ≤ max s.arena.size s.arena.reservedSize
  room : max s.arena.size s.arena.reservedSize + 2 ^ k + s.arena.minSize ≤ 2 ^ 64
  below : ∀ i < s.arena.size, (∀ l, s.low = some l → i < l) →
    s.committed (s.arena.memory + i) = true
  above : ∀ l, s.low = some l → ∀ i, l ≤ i → i < s.arena.size →
    s.committed (s.arena.memory + i) = false
  inUse : InUseCommitted s

variable {k : Nat} {s : State}

/-- Rounding `n` up to a page does not wrap where `n` is in the arena. -/
theorem Kept.align (h : Kept k s) {n : Nat} (hn : n ≤ max s.arena.size s.arena.reservedSize) :
    n ≤ alignSize n s.arena.alignment ∧ alignSize n s.arena.alignment < n + 2 ^ k := by
  have hroom := h.room
  have hpage := h.page
  rw [h.alignment]
  exact (alignSize_spec (by omega) (by omega)).2

theorem Kept.total_lt (h : Kept k s) : s.arena.totalAllocated < 2 ^ 64 := by
  have htotal := h.total
  have hroom := h.room
  have hpage := Nat.two_pow_pos k
  omega

/-! ## The calls -/

/-- A push that fits in `Size` is safe exactly when it is covered. -/
theorem Kept.push_fits (h : Kept k s) {size : Nat} (hfits : s.pushNeeds size ≤ s.arena.size) :
    (∀ i < s.pushNeeds size, s.committed (s.arena.memory + i) = true) ↔
      ∀ l, s.low = some l → s.pushNeeds size ≤ l := by
  constructor
  · intro hall l hl
    by_contra hlt
    have hfalse := h.above l hl l le_rfl (by omega)
    rw [hall l (by omega)] at hfalse
    cases hfalse
  · intro hlow i hi
    exact h.below i (by omega) fun l hl => Nat.lt_of_lt_of_le hi (hlow l hl)

theorem arenaPush_fits {size : Nat} (hfits : s.pushNeeds size ≤ s.arena.size) :
    (s.arenaPush size).2 =
      { s with arena := { s.arena with totalAllocated := s.pushNeeds size } } := by
  rw [State.arenaPush]
  simp only
  rw [if_neg (fun hc => Nat.not_lt.mpr hfits hc.1), if_neg (Nat.not_lt.mpr hfits)]

/-- A push that grows the arena commits all it needs, and all of `Size`. -/
theorem Kept.push_grows (h : Kept k s) {size : Nat} (hgrow : s.arena.size < s.pushNeeds size) :
    Kept k (s.arenaPush size).2 := by
  rw [State.arenaPush]
  simp only
  split_ifs with hout
  · exact h
  · have hres : s.pushNeeds size ≤ s.arena.reservedSize := by
      by_contra hlt
      exact hout ⟨hgrow, Nat.lt_of_not_le hlt⟩
    have hle := (h.align (show s.pushNeeds size ≤ max _ _ by omega)).1
    have hall : ∀ i < s.pushNeeds size,
        (s.arenaGrow (s.pushNeeds size)).committed (s.arena.memory + i) = true := by
      intro i hi
      rw [State.arenaGrow, memoryCommit_iff]
      exact Or.inr ⟨by omega, by omega⟩
    exact ⟨h.page, h.alignment, by simp only; omega, h.room, fun i hi _ => hall i (by
      simp only at hi; omega), nofun, hall⟩

theorem Kept.push (h : Kept k s) {size : Nat}
    (hcov : Covered s (.push size)) : Kept k (s.arenaPush size).2 := by
  rcases Nat.lt_or_ge s.arena.size (s.pushNeeds size) with hgrow | hfits
  · exact h.push_grows hgrow
  · rw [arenaPush_fits hfits]
    exact ⟨h.page, h.alignment, by simp only; omega, h.room, h.below, h.above,
      (h.push_fits hfits).mpr (hcov hfits)⟩

/-- What a pop or a snapshot does: no more is allocated, and the memory is left alone. -/
structure Lowered (s t : State) : Prop where
  committed : t.committed = s.committed
  low : t.low = s.low
  arena : ∃ total ≤ s.arena.totalAllocated, ∃ temp,
    t.arena = { s.arena with totalAllocated := total, tempCount := temp }

theorem pop_lowered {size : Nat} (hle : alignSize size cacheLine ≤ s.arena.totalAllocated)
    (hlt : s.arena.totalAllocated < 2 ^ 64) :
    ∃ t, s.step (.pop size) = some t ∧ Lowered s t := by
  have hsub : sub64 s.arena.totalAllocated (alignSize size cacheLine) =
      s.arena.totalAllocated - alignSize size cacheLine := sub64_eq hle hlt
  refine ⟨_, rfl, rfl, rfl, s.arena.totalAllocated - alignSize size cacheLine, Nat.sub_le _ _,
    s.arena.tempCount, ?_⟩
  rw [State.arenaPop, hsub]

theorem snapshotBegin_lowered : ∃ t, s.step .snapshotBegin = some t ∧ Lowered s t :=
  ⟨_, rfl, rfl, rfl, _, le_rfl, _, rfl⟩

theorem snapshotEnd_lowered {total : Nat} {rest : List Nat} (hsnap : s.snapshots = total :: rest)
    (hle : total ≤ s.arena.totalAllocated) :
    ∃ t, s.step .snapshotEnd = some t ∧ Lowered s t := by
  have hend : s.arenaSnapshotEnd =
      { s with
        arena := { s.arena with totalAllocated := total, tempCount := s.arena.tempCount - 1 }
        snapshots := rest } := by
    rw [State.arenaSnapshotEnd, hsnap]
  exact ⟨_, rfl, by rw [hend], by rw [hend], total, hle, _, by rw [hend]⟩

/-- A call that lowers what is allocated keeps the invariant. -/
theorem Kept.lower (h : Kept k s) {t : State} (hlowered : Lowered s t) : Kept k t := by
  have htotal := h.total
  obtain ⟨hcommitted, hlow, total, hle, temp, harena⟩ := hlowered
  obtain ⟨arena, committed, snapshots, low⟩ := t
  simp only at hcommitted hlow harena
  subst hcommitted hlow harena
  exact ⟨h.page, h.alignment, by simp only; omega, h.room, h.below, h.above,
    fun i hi => h.inUse i (Nat.lt_of_lt_of_le hi hle)⟩

/-- A shrink takes away only memory above what is in use, and lowers `low` to where it
starts. -/
theorem Kept.shrink (h : Kept k s) : Kept k s.arenaShrink := by
  unfold State.arenaShrink
  split_ifs with hmore
  · obtain ⟨hup, hlt⟩ := h.align h.total
    have htotal := h.total
    have hroom := h.room
    have hneeds : u64 (alignSize s.arena.totalAllocated s.arena.alignment + s.arena.minSize) =
        alignSize s.arena.totalAllocated s.arena.alignment + s.arena.minSize :=
      u64_eq (by omega)
    simp only [hneeds]
    have hused : s.arena.totalAllocated ≤
        alignSize s.arena.totalAllocated s.arena.alignment + s.arena.minSize := by omega
    generalize alignSize s.arena.totalAllocated s.arena.alignment + s.arena.minSize = needs at hused
    refine ⟨h.page, h.alignment, htotal, hroom, ?_, ?_, ?_⟩
    · intro i hi hbelow
      have hbelow' := hbelow _ rfl
      refine memoryUncommit_below ?_ (h.below i hi ?_)
      · split at hbelow' <;> omega
      · intro l hl
        rw [hl] at hbelow'
        simp only at hbelow'
        omega
    · rintro l ⟨⟩ i hi hsize
      by_cases hin : needs ≤ i
      · exact memoryUncommit_rest hin hsize (by omega)
      · -- Below the start of this shrink, an earlier one took it away.
        cases hl : s.low with
        | none =>
          rw [hl] at hi
          exact absurd hi hin
        | some l =>
          rw [hl] at hi
          simp only at hi
          exact memoryUncommit_of_false (h.above l hl i (by omega) hsize)
    · intro i hi
      exact memoryUncommit_below (Nat.lt_of_lt_of_le hi hused) (h.inUse i hi)
  · exact h

/-- Every admissible call that is covered keeps the invariant. -/
theorem Kept.step (h : Kept k s) {op : Op} (hok : Admissible s op) (hcov : Covered s op) :
    ∃ t, s.step op = some t ∧ Kept k t := by
  cases op with
  | push size => exact ⟨_, rfl, h.push hcov⟩
  | pop size =>
    obtain ⟨t, ht, hlowered⟩ := pop_lowered hok.2 h.total_lt
    exact ⟨t, ht, h.lower hlowered⟩
  | snapshotBegin =>
    obtain ⟨t, ht, hlowered⟩ := @snapshotBegin_lowered s
    exact ⟨t, ht, h.lower hlowered⟩
  | snapshotEnd =>
    obtain ⟨total, rest, hsnap, hle⟩ := hok
    obtain ⟨t, ht, hlowered⟩ := snapshotEnd_lowered hsnap hle
    exact ⟨t, ht, h.lower hlowered⟩
  | shrink => exact ⟨_, rfl, h.shrink⟩

/-- An admissible call is safe exactly when it is covered. -/
theorem Kept.safe_iff (h : Kept k s) {op : Op} (hok : Admissible s op) :
    Safe s op ↔ Covered s op := by
  constructor
  · rintro ⟨t, ht, hsafe⟩
    cases op with
    | push size =>
      intro hfits
      cases ht
      rw [arenaPush_fits hfits] at hsafe
      exact (h.push_fits hfits).mp hsafe
    | pop size => trivial
    | snapshotBegin => trivial
    | snapshotEnd => trivial
    | shrink => trivial
  · intro hcov
    obtain ⟨t, ht, hk⟩ := h.step hok hcov
    exact ⟨t, ht, hk.inUse⟩

/-! ## Whole runs -/

/-- A new arena with room for the roundings. -/
theorem kept_create {memory reserveSize commitSize min : Nat}
    (hsmall : reserveSize + min + 4 * 2 ^ k ≤ 2 ^ 63) (hcommit : commitSize ≤ reserveSize) :
    Kept k (arenaCreateMin (2 ^ k) memory reserveSize commitSize min) := by
  have hpage : k < 63 := (Nat.pow_lt_pow_iff_right (a := 2) (by decide)).mp (by omega)
  have hpos := Nat.two_pow_pos k
  have hreserve := (@alignSize_spec reserveSize k (by omega) (by omega)).2
  have hsize := (@alignSize_spec commitSize k (by omega) (by omega)).2
  have hmin := (@alignSize_spec (max min (2 ^ k)) k (by omega) (by omega)).2
  unfold arenaCreateMin
  simp only
  generalize alignSize reserveSize (2 ^ k) = reserved at hreserve
  generalize alignSize commitSize (2 ^ k) = commit at hsize
  generalize alignSize (max min (2 ^ k)) (2 ^ k) = least at hmin
  have hsum : max (if commit < least then least else commit) reserved + 2 ^ k + least ≤ 2 ^ 64 := by
    split <;> omega
  have hpos' : (if commit < least then least else commit) > 0 := by split <;> omega
  refine ⟨hpage, rfl, Nat.zero_le _, hsum, ?_, nofun, fun i hi => absurd hi (Nat.not_lt_zero i)⟩
  intro i hi _
  rw [if_pos hpos', memoryCommit_iff]
  exact Or.inr ⟨Nat.le_add_right _ _, Nat.add_lt_add_left hi memory⟩

/-- A push of two pages that fit in `Size` after a shrink that left one. -/
theorem push_after_shrink_uncommitted :
    ∃ s, exec State.step (arenaCreateMin 4096 65536 1048576 1048576 0) [.shrink, .push 8192] =
      some s ∧
      4096 < s.arena.totalAllocated ∧ s.committed (s.arena.memory + 4096) = false :=
  ⟨_, rfl, by decide, by decide⟩

/-- Over every sequence of admissible calls on a new arena, the bytes in use are
committed after every call exactly when every push that fits in `Size` is covered. -/
theorem inUseCommitted_iff_covered {memory reserveSize commitSize min : Nat}
    (hsmall : reserveSize + min + 4 * 2 ^ k ≤ 2 ^ 63) (hcommit : commitSize ≤ reserveSize)
    {ops : List Op}
    (hok : AtEach State.step Admissible
      (arenaCreateMin (2 ^ k) memory reserveSize commitSize min) ops) :
    AtEach State.step Safe (arenaCreateMin (2 ^ k) memory reserveSize commitSize min) ops ↔
      AtEach State.step Covered (arenaCreateMin (2 ^ k) memory reserveSize commitSize min) ops :=
  atEach_iff (Kept k) (fun _ _ h hop hcov => h.step hop hcov) (fun _ _ h hop => h.safe_iff hop)
    (kept_create hsmall hcommit) hok

/-- A push, a shrink and a push that the shrink left room for. -/
theorem inUseCommitted_iff_covered_shrunk :
    AtEach State.step Safe (arenaCreateMin (2 ^ 12) 65536 1048576 65536 0)
        [.push 100, .shrink, .push 1000] ↔
      AtEach State.step Covered (arenaCreateMin (2 ^ 12) 65536 1048576 65536 0)
        [.push 100, .shrink, .push 1000] := by
  refine inUseCommitted_iff_covered (by decide) (by decide) (.cons ⟨by decide, by decide⟩ ?_)
  rintro s ⟨⟩
  refine .cons trivial ?_
  rintro s ⟨⟩
  refine .cons ⟨by decide, by decide⟩ ?_
  intro _ _
  exact .nil

end ScalBase.Arenas
