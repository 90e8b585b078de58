/-
  Arena/Pushes.lean --- what `ArenaPush` returns.

  A push rounds its size up to a cache line and adds it to `TotalAllocated`, both over
  64-bit words.  Where either wraps, the sum is small, the push succeeds with a range that
  leaves the arena, and `TotalAllocated` may go back (`arenaPush_safe_iff`).

  A push that grows the arena compares what it needs with `ReservedSize`; `ArenaGrow`
  asserts that the same, rounded up to a page, is less than `ReservedSize`.  The two differ
  in the last page of the reserve (`arenaGrow_asserts_iff`).
-/
import ScalBase.Arena.Bookkeeping
import ScalBase.Foundation.Tiling

set_option autoImplicit false

namespace ScalBase.Arenas

open Foundation

/-! ## Pushes and the ranges they return -/

/-- An arena and the ranges that its pushes have returned, the last one first. -/
structure Pushes where
  state : State
  given : List Block

/-- A push, whose range is recorded unless it is out of memory. -/
def Pushes.step (t : Pushes) (size : Nat) : Option Pushes :=
  some
    { state := (t.state.arenaPush size).2
      given := match (t.state.arenaPush size).1 with
        | none => t.given
        | some res => ⟨res, size⟩ :: t.given }

/-- The push is out of memory and changes nothing, or it returns a range of the reserved
memory that is apart from all before it, and no less is allocated. -/
def SafePush (t : Pushes) (size : Nat) : Prop :=
  match t.state.arenaPush size with
  | (none, s) => s = t.state
  | (some res, s) =>
      (t.state.arena.memory ≤ res ∧
        res + size ≤ t.state.arena.memory + t.state.arena.reservedSize) ∧
      (∀ b ∈ t.given, b.Apart ⟨res, size⟩) ∧
      t.state.arena.totalAllocated ≤ s.arena.totalAllocated

/-- `size` rounded up to a cache line, over the integers. -/
def lines (size : Nat) : Nat := (size + (cacheLine - 1)) / cacheLine * cacheLine

/-- Neither the rounding nor the sum wraps, and what fits in `Size` is reserved. -/
def WithinReserve (t : Pushes) (size : Nat) : Prop :=
  t.state.arena.totalAllocated + lines size < 2 ^ 64 ∧
    (t.state.arena.totalAllocated + lines size ≤ t.state.arena.size →
      t.state.arena.totalAllocated + size ≤ t.state.arena.reservedSize)

/-! ## The rounding -/

theorem lines_spec (size : Nat) : cacheLine ∣ lines size ∧ size ≤ lines size ∧
    lines size < size + cacheLine := by
  refine ⟨Nat.dvd_mul_left _ _, ?_, ?_⟩ <;> simp only [lines, cacheLine] <;> omega

theorem lines_lines (size : Nat) : lines (lines size) = lines size := by
  simp only [lines, cacheLine]
  omega

theorem alignSize_eq_lines {size : Nat} (h : size + cacheLine ≤ 2 ^ 64) :
    alignSize size cacheLine = lines size := by
  obtain ⟨⟨a, ha⟩, hle, hlt⟩ := @alignSize_spec size 6 (by decide) h
  obtain ⟨⟨b, hb⟩, hle', hlt'⟩ := lines_spec size
  have hline : cacheLine = 2 ^ 6 := rfl
  rw [hline] at hb hlt' ⊢
  omega

theorem alignSize_cacheLine_wrap {size : Nat} (hsize : size < 2 ^ 64)
    (h : 2 ^ 64 < size + cacheLine) : alignSize size cacheLine = 0 :=
  @alignSize_wrap size 6 (by decide) hsize h

theorem alignSize_lt (size alignment : Nat) : alignSize size alignment < 2 ^ 64 :=
  Nat.lt_of_le_of_lt Nat.and_le_left (Nat.mod_lt _ (Nat.two_pow_pos 64))

theorem pushNeeds_eq {s : State} {size : Nat}
    (h : s.arena.totalAllocated + lines size < 2 ^ 64) :
    s.pushNeeds size = s.arena.totalAllocated + lines size := by
  obtain ⟨⟨a, ha⟩, hle, -⟩ := lines_spec size
  have hsize : size + cacheLine ≤ 2 ^ 64 := by
    unfold cacheLine at *
    omega
  rw [State.pushNeeds, alignSize_eq_lines hsize, u64_eq h]

/-! ## The invariant -/

/-- What is allocated is reserved, in whole cache lines, and all ranges returned end in it. -/
structure Within (t : Pushes) : Prop where
  reserved : cacheLine ∣ t.state.arena.reservedSize
  word : t.state.arena.reservedSize < 2 ^ 64
  whole : cacheLine ∣ t.state.arena.totalAllocated
  total : t.state.arena.totalAllocated ≤ t.state.arena.reservedSize
  given : ∀ b ∈ t.given, b.start + b.size ≤ t.state.arena.memory + t.state.arena.totalAllocated

variable {t : Pushes} {size : Nat}

/-- A push that is out of memory. -/
theorem arenaPush_out {s : State} (h : s.arena.size < s.pushNeeds size ∧
    s.arena.reservedSize < s.pushNeeds size) : s.arenaPush size = (none, s) := if_pos h

/-- A push that is not. -/
theorem arenaPush_in {s : State} (h : ¬ (s.arena.size < s.pushNeeds size ∧
    s.arena.reservedSize < s.pushNeeds size)) :
    ∃ s', s.arenaPush size = (some (s.arena.memory + s.arena.totalAllocated), s') ∧
      s'.arena = { s.arena with totalAllocated := s.pushNeeds size } :=
  ⟨_, if_neg h, rfl⟩

/-- A safe push that is not out of memory ends in the reserve, and does not lower what is
allocated. -/
theorem SafePush.ends (h : SafePush t size) (hin : ¬ (t.state.arena.size < t.state.pushNeeds size ∧
    t.state.arena.reservedSize < t.state.pushNeeds size)) :
    t.state.arena.totalAllocated + size ≤ t.state.arena.reservedSize ∧
      t.state.arena.totalAllocated ≤ t.state.pushNeeds size := by
  obtain ⟨s, hpush, harena⟩ := arenaPush_in hin
  simp only [SafePush, hpush, harena] at h
  obtain ⟨⟨-, hend⟩, -, hle⟩ := h
  exact ⟨by omega, hle⟩

/-- A push that is not out of memory is safe exactly when its range ends in the reserve and
its sum is no less than what was allocated. -/
theorem Within.safe_in_iff (h : Within t) (hin : ¬ (t.state.arena.size < t.state.pushNeeds size ∧
    t.state.arena.reservedSize < t.state.pushNeeds size)) :
    SafePush t size ↔ t.state.arena.totalAllocated + size ≤ t.state.arena.reservedSize ∧
      t.state.arena.totalAllocated ≤ t.state.pushNeeds size := by
  refine ⟨fun hsafe => hsafe.ends hin, fun ⟨hend, hle⟩ => ?_⟩
  obtain ⟨s, hpush, harena⟩ := arenaPush_in hin
  simp only [SafePush, hpush, harena]
  exact ⟨⟨Nat.le_add_right _ _, by omega⟩, fun b hb => Or.inl (h.given b hb), hle⟩

/-- A push whose rounding or sum wraps needs little and leaves the reserve. -/
theorem Within.wrap (h : Within t) (hsize : size < 2 ^ 64)
    (hwrap : 2 ^ 64 ≤ t.state.arena.totalAllocated + Arenas.lines size) :
    t.state.pushNeeds size ≤ t.state.arena.totalAllocated ∧
      t.state.arena.reservedSize < t.state.arena.totalAllocated + size := by
  obtain ⟨a, ha⟩ := h.reserved
  obtain ⟨b, hb⟩ := h.whole
  obtain ⟨⟨c, hc⟩, hle, hlt⟩ := lines_spec size
  have hword := h.word
  have htotal := h.total
  have hline : cacheLine = 64 := rfl
  rw [hline] at ha hlt
  rcases Nat.lt_or_ge (2 ^ 64) (size + cacheLine) with hround | hround
  · have hneeds : t.state.pushNeeds size = t.state.arena.totalAllocated := by
      rw [State.pushNeeds, alignSize_cacheLine_wrap hsize hround, Nat.add_zero, u64_eq (by omega)]
    exact ⟨hneeds.le, by omega⟩
  · have hneeds : t.state.pushNeeds size = u64 (t.state.arena.totalAllocated + lines size) := by
      rw [State.pushNeeds, alignSize_eq_lines hround]
    unfold u64 at hneeds
    exact ⟨by omega, by omega⟩

/-- A push is safe exactly when it stays within the reserve. -/
theorem Within.safe_iff (h : Within t) (hsize : size < 2 ^ 64) :
    SafePush t size ↔ WithinReserve t size := by
  have htotal := h.total
  rcases Nat.lt_or_ge (t.state.arena.totalAllocated + lines size) (2 ^ 64) with hfits | hwrap
  · have hneeds := pushNeeds_eq hfits
    have hle := (lines_spec size).2.1
    rw [WithinReserve, and_iff_right hfits]
    by_cases hout : t.state.arena.size < t.state.pushNeeds size ∧
        t.state.arena.reservedSize < t.state.pushNeeds size
    · refine iff_of_true ?_ (by omega)
      simp only [SafePush, arenaPush_out hout]
    · rw [h.safe_in_iff hout]
      omega
  · obtain ⟨hneeds, hleaves⟩ := h.wrap hsize hwrap
    rw [h.safe_in_iff (by omega)]
    exact iff_of_false (fun hsafe => by omega) fun hwithin => by
      have hfits := hwithin.1
      omega

/-- A push that stays within the reserve and is not out of memory ends within it, in whole
cache lines. -/
theorem Within.needs (h : Within t) (hwithin : WithinReserve t size)
    (hin : ¬ (t.state.arena.size < t.state.pushNeeds size ∧
      t.state.arena.reservedSize < t.state.pushNeeds size)) :
    cacheLine ∣ t.state.pushNeeds size ∧ t.state.pushNeeds size ≤ t.state.arena.reservedSize := by
  have hneeds := pushNeeds_eq hwithin.1
  obtain ⟨hdvd, -, hlt⟩ := lines_spec size
  have hsum : cacheLine ∣ t.state.pushNeeds size := by
    rw [hneeds]
    exact Nat.dvd_add h.whole hdvd
  refine ⟨hsum, ?_⟩
  rcases Nat.lt_or_ge t.state.arena.size (t.state.pushNeeds size) with hgrow | hfits
  · exact Nat.not_lt.mp fun hout => hin ⟨hgrow, hout⟩
  · obtain ⟨a, ha⟩ := h.reserved
    obtain ⟨b, hb⟩ := hsum
    have hend := hwithin.2 (hneeds ▸ hfits)
    have hline : cacheLine = 64 := rfl
    rw [hline] at ha hb hlt
    omega

/-- A push that stays within the reserve keeps the invariant. -/
theorem Within.step (h : Within t) (hwithin : WithinReserve t size) :
    ∃ u, t.step size = some u ∧ Within u := by
  refine ⟨_, rfl, ?_⟩
  by_cases hout : t.state.arena.size < t.state.pushNeeds size ∧
      t.state.arena.reservedSize < t.state.pushNeeds size
  · rw [arenaPush_out hout]
    exact h
  · obtain ⟨hwhole, hle⟩ := h.needs hwithin hout
    obtain ⟨s, hpush, harena⟩ := arenaPush_in hout
    have hsize := (lines_spec size).2.1
    have hneeds := pushNeeds_eq hwithin.1
    rw [hpush]
    constructor <;> simp only [harena]
    · exact h.reserved
    · exact h.word
    · exact hwhole
    · exact hle
    · rw [List.forall_mem_cons]
      refine ⟨?_, fun b hb => ?_⟩
      · show t.state.arena.memory + t.state.arena.totalAllocated + size ≤ _
        omega
      · have hend := h.given b hb
        omega

/-! ## Whole runs -/

variable {k memory reserveSize commitSize min : Nat}

/-- A new arena, where the pages are at least a cache line. -/
theorem within_create (hline : 6 ≤ k) (hpage : k < 64) :
    Within ⟨arenaCreateMin (2 ^ k) memory reserveSize commitSize min, []⟩ := by
  have hdvd : cacheLine ∣ 2 ^ k := Nat.pow_dvd_pow 2 hline
  refine ⟨hdvd.trans (dvd_alignSize hpage reserveSize), alignSize_lt _ _, dvd_zero _, Nat.zero_le _,
    fun b hb => absurd hb List.not_mem_nil⟩

/-- After a push of a page, a push of 2^64 bytes less a page: it returns a range that leaves the
reserve, and the next push returns what the first one did. -/
theorem push_rewinds :
    ∃ s t, exec Pushes.step ⟨arenaCreateMin 4096 65536 1048576 4096 0, []⟩ [4096] = some s ∧
      ¬ SafePush s (2 ^ 64 - 4096) ∧ s.step (2 ^ 64 - 4096) = some t ∧
      t.given = [⟨69632, 2 ^ 64 - 4096⟩, ⟨65536, 4096⟩] ∧ t.state.arena.totalAllocated = 0 ∧
      (t.state.arenaPush 64).1 = some 65536 := by
  refine ⟨_, _, rfl, fun hsafe => absurd (hsafe.ends (by decide)).2 (by decide),
    rfl, by decide, by decide, by decide⟩

/-- Over every sequence of pushes on a new arena, all are safe exactly when all stay within the
reserve. -/
theorem arenaPush_safe_iff (hline : 6 ≤ k) (hpage : k < 64) {sizes : List Nat}
    (hsizes : ∀ size ∈ sizes, 0 < size ∧ size < 2 ^ 64) :
    AtEach Pushes.step SafePush
        ⟨arenaCreateMin (2 ^ k) memory reserveSize commitSize min, []⟩ sizes ↔
      AtEach Pushes.step WithinReserve
        ⟨arenaCreateMin (2 ^ k) memory reserveSize commitSize min, []⟩ sizes := by
  have hok : AtEach Pushes.step (fun _ size => 0 < size ∧ size < 2 ^ 64)
      ⟨arenaCreateMin (2 ^ k) memory reserveSize commitSize min, []⟩ sizes := by
    intro done size t hpre _
    exact hsizes size (hpre.subset (List.mem_append_right done (List.mem_singleton_self size)))
  exact atEach_iff Within (fun _ _ h _ hwithin => h.step hwithin)
    (fun _ _ h hsize => h.safe_iff hsize.2) (within_create hline hpage) hok

/-- A page, and a push of more than the rest of the reserve. -/
theorem arenaPush_safe_iff_out :
    AtEach Pushes.step SafePush ⟨arenaCreateMin (2 ^ 12) 65536 8192 4096 0, []⟩ [4096, 8192] ↔
      AtEach Pushes.step WithinReserve ⟨arenaCreateMin (2 ^ 12) 65536 8192 4096 0, []⟩
        [4096, 8192] :=
  arenaPush_safe_iff (by decide) (by decide) (by decide)

/-! ## The assertions of a growth -/

/-- `ArenaGrow` with its assertions; where one fails it has no result. -/
def State.arenaGrowAsserting (s : State) (sizeNeeded : Nat) : Option State := do
  guard (s.arena.memory ≠ 0)
  guard (s.arena.reservedSize > 0)
  guard (sizeNeeded > 0)
  guard (alignSize sizeNeeded s.arena.alignment < s.arena.reservedSize)
  some (s.arenaGrow sizeNeeded)

/-- `ArenaPush`, where the assertions of `ArenaGrow` are made. -/
def State.arenaPushAsserting (s : State) (size : Nat) : Option (Option Nat × State) :=
  let sizeNeeded := s.pushNeeds size
  if sizeNeeded > s.arena.size then
    if sizeNeeded > s.arena.reservedSize then some (none, s)
    else do
      let t ← s.arenaGrowAsserting sizeNeeded
      some (some (s.arena.memory + s.arena.totalAllocated),
        { t with arena := { s.arena with totalAllocated := sizeNeeded } })
  else
    some (some (s.arena.memory + s.arena.totalAllocated),
      { s with arena := { s.arena with totalAllocated := sizeNeeded } })

/-- A push that grows the arena leaves the last page of the reserve. -/
def LeavesPage (s : State) (size : Nat) : Prop :=
  s.arena.size < s.arena.totalAllocated + lines size →
    s.arena.totalAllocated + lines size ≤ s.arena.reservedSize →
      s.arena.totalAllocated + lines size + s.arena.alignment ≤ s.arena.reservedSize

section Asserting

variable {s : State}

/-- `ArenaGrow` returns exactly when all that it asserts holds. -/
theorem arenaGrowAsserting_isSome_iff {sizeNeeded : Nat} :
    (s.arenaGrowAsserting sizeNeeded).isSome ↔ s.arena.memory ≠ 0 ∧ s.arena.reservedSize > 0 ∧
      sizeNeeded > 0 ∧ alignSize sizeNeeded s.arena.alignment < s.arena.reservedSize := by
  simp only [State.arenaGrowAsserting, guard, Option.bind_eq_bind]
  split_ifs <;> simp_all

theorem arenaGrowAsserting_eq {sizeNeeded : Nat} {t : State}
    (h : s.arenaGrowAsserting sizeNeeded = some t) : t = s.arenaGrow sizeNeeded := by
  simp only [State.arenaGrowAsserting, guard, Option.bind_eq_bind] at h
  split_ifs at h <;> simp_all

/-- Where no assertion fails, a push does what it does without them. -/
theorem arenaPushAsserting_eq {size : Nat} {r : Option Nat × State}
    (h : s.arenaPushAsserting size = some r) : r = s.arenaPush size := by
  simp only [State.arenaPushAsserting] at h
  rw [State.arenaPush]
  simp only
  split_ifs at h with hgrow hout
  · rw [if_pos ⟨hgrow, hout⟩]
    exact (Option.some.inj h).symm
  · rw [if_neg fun hc => hout hc.2, if_pos hgrow]
    obtain ⟨t, ht, hr⟩ := Option.bind_eq_some_iff.mp h
    rw [← arenaGrowAsserting_eq ht]
    exact (Option.some.inj hr).symm
  · rw [if_neg fun hc => hgrow hc.1, if_neg hgrow]
    exact (Option.some.inj h).symm

/-- A push returns unless it grows the arena and an assertion fails. -/
theorem arenaPushAsserting_isSome_iff {size : Nat} :
    (s.arenaPushAsserting size).isSome ↔
      (s.arena.size < s.pushNeeds size → s.pushNeeds size ≤ s.arena.reservedSize →
        (s.arenaGrowAsserting (s.pushNeeds size)).isSome) := by
  simp only [State.arenaPushAsserting]
  split_ifs with hgrow hout
  · exact iff_of_true rfl fun _ hle => absurd hout (Nat.not_lt.mpr hle)
  · rw [Option.bind_eq_bind, Option.isSome_bind]
    simp only [hgrow, Nat.not_lt.mp hout, Option.isSome_some, Option.any_true, true_imp_iff]
  · exact iff_of_true rfl fun hlt => absurd hlt hgrow

/-- The memory, the page size and the reserve of an arena, which no call changes. -/
structure Reserved (k memory : Nat) (s : State) : Prop where
  page : k < 64
  alignment : s.arena.alignment = 2 ^ k
  memory : s.arena.memory = memory
  whole : 2 ^ k ∣ s.arena.reservedSize
  word : s.arena.reservedSize < 2 ^ 64

variable {k memory : Nat}

/-- A call that changes none of them. -/
theorem Reserved.same (h : Reserved k memory s) {t : State}
    (halignment : t.arena.alignment = s.arena.alignment) (hmemory : t.arena.memory = s.arena.memory)
    (hreserved : t.arena.reservedSize = s.arena.reservedSize) : Reserved k memory t := by
  constructor
  · exact h.page
  · exact halignment.trans h.alignment
  · exact hmemory.trans h.memory
  · exact hreserved ▸ h.whole
  · exact hreserved ▸ h.word

theorem Reserved.step (h : Reserved k memory s) (op : Op) :
    ∃ t, s.step op = some t ∧ Reserved k memory t := by
  cases op with
  | push size =>
    refine ⟨_, rfl, ?_⟩
    unfold State.arenaPush
    simp only
    split_ifs <;> exact h.same rfl rfl rfl
  | pop size => exact ⟨_, rfl, h.same rfl rfl rfl⟩
  | snapshotBegin => exact ⟨_, rfl, h.same rfl rfl rfl⟩
  | snapshotEnd =>
    refine ⟨_, rfl, ?_⟩
    unfold State.arenaSnapshotEnd
    split <;> exact h.same rfl rfl rfl
  | shrink =>
    refine ⟨_, rfl, ?_⟩
    unfold State.arenaShrink
    split_ifs <;> exact h.same rfl rfl rfl

theorem reserved_create (hpage : k < 64) (reserveSize commitSize min : Nat) :
    Reserved k memory (arenaCreateMin (2 ^ k) memory reserveSize commitSize min) :=
  ⟨hpage, rfl, rfl, dvd_alignSize hpage reserveSize, alignSize_lt _ _⟩

/-- What a growth needs, rounded up to a page, is below the reserve exactly when a page of the
reserve is left. -/
theorem Reserved.round_lt_iff (h : Reserved k memory s) {needs : Nat}
    (hle : needs ≤ s.arena.reservedSize) :
    alignSize needs s.arena.alignment < s.arena.reservedSize ↔
      needs + s.arena.alignment ≤ s.arena.reservedSize := by
  have hroom := add_two_pow_le h.page h.whole h.word
  rw [h.alignment]
  obtain ⟨hdvd, hup, hlt⟩ := @alignSize_spec needs k h.page (by omega)
  constructor
  · intro hround
    -- Both sides are whole pages, so they differ by one at least.
    have hpage := Nat.le_of_dvd (Nat.sub_pos_of_lt hround) (Nat.dvd_sub h.whole hdvd)
    omega
  · intro hpage
    omega

/-- The assertions of the growth that a push makes. -/
theorem Reserved.push_iff (h : Reserved k memory s) (hmemory : memory ≠ 0) {size : Nat}
    (hword : s.arena.totalAllocated + lines size < 2 ^ 64) :
    (s.arenaPushAsserting size).isSome ↔ LeavesPage s size := by
  rw [arenaPushAsserting_isSome_iff, pushNeeds_eq hword, LeavesPage]
  apply forall_congr'
  intro hgrow
  apply forall_congr'
  intro hle
  rw [arenaGrowAsserting_isSome_iff, h.round_lt_iff hle, h.memory]
  constructor
  · exact fun hall => hall.2.2.2
  · exact fun hpage => ⟨hmemory, by omega, by omega, hpage⟩

/-- A push of the whole reserve into a new arena: it is granted, and the assertion fails. -/
theorem arenaPush_asserts_last_page :
    ((arenaCreateMin 4096 65536 1048576 4096 0).arenaPushAsserting 1048576).isSome = false ∧
      ((arenaCreateMin 4096 65536 1048576 4096 0).arenaPush 1048576).1 = some 65536 :=
  ⟨by decide, by decide⟩

/-- In every state that calls on a new arena lead to, a push whose sums do not wrap makes no
assertion of `ArenaGrow` fail exactly when it leaves the last page or does not grow the arena. -/
theorem arenaGrow_asserts_iff (hpage : k < 64) (hmemory : memory ≠ 0)
    {reserveSize commitSize min : Nat} {ops : List Op}
    (hrun : exec State.step (arenaCreateMin (2 ^ k) memory reserveSize commitSize min) ops = some s)
    {size : Nat} (hword : s.arena.totalAllocated + lines size < 2 ^ 64) :
    (s.arenaPushAsserting size).isSome ↔ LeavesPage s size := by
  obtain ⟨t, ht, hreserved⟩ := exec_invariant (Reserved k memory) (fun _ op h => h.step op) ops
    (reserved_create hpage reserveSize commitSize min)
  rw [hrun] at ht
  cases ht
  exact hreserved.push_iff hmemory hword

/-- A growth of an arena of 16 pages after a push and a pop. -/
theorem arenaGrow_asserts_iff_grown :
    ∃ s, exec State.step (arenaCreateMin (2 ^ 12) 65536 65536 4096 0) [.push 4096, .pop 64] =
        some s ∧
      ((s.arenaPushAsserting 4096).isSome ↔ LeavesPage s 4096) :=
  ⟨_, rfl, @arenaGrow_asserts_iff _ 12 65536 (by decide) (by decide) 65536 4096 0
    [.push 4096, .pop 64] rfl 4096 (by decide)⟩

end Asserting

end ScalBase.Arenas
