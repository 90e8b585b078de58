/-
  Strings/ArenaGrowth.lean --- strings that grow on an arena.

  `SAllocatorArena` answers MALLOC with a push and does nothing for REALLOC: it logs an
  error and returns the pointer it was given.  The string functions look for null, so
  a growth on an arena sets a larger `Capacity` over the block there is.  That block is
  the first one rounded up to a cache line, and a growth that fits in it is harmless; any
  other promises bytes, or writes them, that the next push owns
  (`arenaString_growth_iff`).
-/
import ScalBase.Arena.Pushes
import ScalBase.Strings.Sizes

set_option autoImplicit false

namespace ScalBase.Strings

open Foundation Foundation.Block
open Arenas (State cacheLine lines lines_spec alignSize_eq_lines pushNeeds_eq)

/-! ## The allocator -/

/-- `SAllocatorTypes`. -/
inductive SAllocatorTypes where
  | malloc
  | realloc
  | free
  deriving DecidableEq, Repr

/-- `SAllocatorArena`.  None is the null pointer. -/
def sAllocatorArena (arena : State) (type : SAllocatorTypes) (ptr : Option Nat) (size : Nat) :
    Option Nat × State :=
  match type with
  | .malloc =>
    match ptr with
    | none => arena.arenaPush (alignSize size cacheLine)
    | some p => (some p, arena)
  | .realloc => (ptr, arena)
  | .free => (ptr, arena)

/-- MALLOC is out of memory, or pushes whole cache lines. -/
theorem sAllocatorArena_malloc {arena : State} {size : Nat} (hsize : size + cacheLine ≤ 2 ^ 64)
    (hword : arena.arena.totalAllocated + lines size < 2 ^ 64) :
    sAllocatorArena arena .malloc none size = (none, arena) ∨
      ∃ after, sAllocatorArena arena .malloc none size =
          (some (arena.arena.memory + arena.arena.totalAllocated), after) ∧
        after.arena =
          { arena.arena with totalAllocated := arena.arena.totalAllocated + lines size } := by
  have hneeds : arena.pushNeeds (lines size) = arena.arena.totalAllocated + lines size := by
    rw [pushNeeds_eq (by rw [Arenas.lines_lines]; exact hword), Arenas.lines_lines]
  simp only [sAllocatorArena, alignSize_eq_lines hsize]
  by_cases hout : arena.arena.size < arena.pushNeeds (lines size) ∧
      arena.arena.reservedSize < arena.pushNeeds (lines size)
  · exact Or.inl (Arenas.arenaPush_out hout)
  · obtain ⟨after, hpush, hafter⟩ := Arenas.arenaPush_in hout
    exact Or.inr ⟨after, hpush, hneeds ▸ hafter⟩

/-- The arena, a string on it, the string's block, and the ranges of the pushes after it. -/
structure ArenaString where
  arena : State
  place : Foundation.Block
  string : String
  later : List Foundation.Block

/-- A call on the arena or the string. -/
inductive ArenaEdit where
  | push (size : Nat)
  | appendAllocator (other : List UInt8)
  | makeSpaceFor (addLen : Nat)
  deriving DecidableEq, Repr

namespace ArenaString

/-- `StringMakeAllocator` with `SALLOCATOR_ARENA(arena)`. -/
def make (arena : State) (initStr : Option (List UInt8)) (fresh : Nat → UInt8) :
    Option (Option ArenaString) := do
  let size := headerSize + (initStr.getD []).length + 1
  let pushed := sAllocatorArena arena .malloc none size
  let made ← stringMakeAllocatorWith
    (fun size => pushed.1.map fun _ => freshBytes (alignSize size cacheLine) fresh) initStr
  some (made.bind fun s => pushed.1.map fun p => ⟨pushed.2, ⟨p, alignSize size cacheLine⟩, s, []⟩)

/-- The bytes behind the header that `SAllocatorRealloc` returns: at the pointer it was given
there is the block as it was. -/
def realloc (x : ArenaString) (size : Nat) : Option (List UInt8) :=
  (sAllocatorArena x.arena .realloc (some x.place.start) size).1.map fun _ => x.string.bytes

/-- The state after a call; after null the string is as it was. -/
def step (x : ArenaString) : ArenaEdit → Option ArenaString
  | .push size =>
    match x.arena.arenaPush size with
    | (none, arena) => some { x with arena := arena }
    | (some p, arena) => some { x with arena := arena, later := ⟨p, size⟩ :: x.later }
  | .appendAllocator other =>
    (x.string.stringAppendAllocatorWith x.realloc other).map fun r =>
      { x with string := r.getD x.string }
  | .makeSpaceFor addLen =>
    some { x with string := (x.string.stringMakeSpaceForWith x.realloc addLen).getD x.string }

/-- The sums that a call makes do not wrap. -/
def NoWrap (x : ArenaString) : ArenaEdit → Prop
  | .push size => x.arena.arena.totalAllocated + lines size < 2 ^ 64
  | .appendAllocator other => (SizeCall.appendAllocator x.string.header other.length).Fits
  | .makeSpaceFor addLen => (SizeCall.makeSpaceFor x.string.header addLen).Fits

/-- A call on the string returns null, or a string in the same block that holds the header and
the capacity; no later push is in that block. -/
def Held (x : ArenaString) (result : Option (Option String)) : Prop :=
  (∀ b ∈ x.later, x.place.Apart b) ∧ (result = some none ∨
    ∃ t, result = some (some t) ∧ headerSize + t.bytes.length = x.place.size ∧
      headerSize + t.capacity ≤ x.place.size)

/-- A call on the string fails safely. -/
def Safe (x : ArenaString) : ArenaEdit → Prop
  | .push _ => True
  | .appendAllocator other => x.Held (x.string.stringAppendAllocatorWith x.realloc other)
  | .makeSpaceFor addLen => x.Held (some (x.string.stringMakeSpaceForWith x.realloc addLen))

/-- What a call on the string needs is in its block. -/
def InBlock (x : ArenaString) : ArenaEdit → Prop
  | .push _ => True
  | .appendAllocator other => 0 < other.length →
      headerSize + (x.string.length + other.length) + 1 ≤ x.place.size
  | .makeSpaceFor addLen => x.string.capacity < x.string.length + addLen →
      headerSize + (x.string.length + addLen) ≤ x.place.size

instance NoWrap.decidable : ∀ (x : ArenaString) (e : ArenaEdit), Decidable (x.NoWrap e)
  | x, .push size =>
      inferInstanceAs (Decidable (x.arena.arena.totalAllocated + lines size < 2 ^ 64))
  | x, .appendAllocator other =>
      inferInstanceAs (Decidable (SizeCall.appendAllocator x.string.header other.length).Fits)
  | x, .makeSpaceFor addLen =>
      inferInstanceAs (Decidable (SizeCall.makeSpaceFor x.string.header addLen).Fits)

instance InBlock.decidable : ∀ (x : ArenaString) (e : ArenaEdit), Decidable (x.InBlock e)
  | _, .push _ => inferInstanceAs (Decidable True)
  | x, .appendAllocator other => inferInstanceAs (Decidable (0 < other.length →
      headerSize + (x.string.length + other.length) + 1 ≤ x.place.size))
  | x, .makeSpaceFor addLen => inferInstanceAs (Decidable
      (x.string.capacity < x.string.length + addLen →
        headerSize + (x.string.length + addLen) ≤ x.place.size))

/-! ## The invariant -/

/-- The block holds the header and the capacity, and no later push is in it. -/
structure Placed (x : ArenaString) : Prop where
  length : x.string.length ≤ x.string.capacity
  capacity : headerSize + x.string.capacity ≤ x.place.size
  block : headerSize + x.string.bytes.length = x.place.size
  total : x.place.start + x.place.size ≤ x.arena.arena.memory + x.arena.arena.totalAllocated
  later : ∀ b ∈ x.later, x.place.start + x.place.size ≤ b.start

variable {x : ArenaString}

theorem realloc_eq (x : ArenaString) (size : Nat) : x.realloc size = some x.string.bytes := rfl

/-- Another string in the same block. -/
theorem Placed.keep (h : x.Placed) {t : String} (hlength : t.length ≤ t.capacity)
    (hcapacity : headerSize + t.capacity ≤ x.place.size)
    (hblock : t.bytes.length = x.string.bytes.length) : Placed { x with string := t } :=
  ⟨hlength, hcapacity, by rw [← h.block, ← hblock], h.total, h.later⟩

theorem Placed.held (h : x.Placed) {t : String} (hblock : t.bytes.length = x.string.bytes.length)
    (hcapacity : headerSize + t.capacity ≤ x.place.size) : x.Held (some (some t)) :=
  ⟨fun b hb => Or.inl (h.later b hb), Or.inr ⟨t, rfl, by rw [hblock, h.block], hcapacity⟩⟩

/-- The larger of the capacity and what a call needs is in the block. -/
theorem Placed.room (h : x.Placed) {needs : Nat}
    (hin : x.string.capacity < needs → headerSize + needs ≤ x.place.size) :
    headerSize + max x.string.capacity needs ≤ x.place.size := by
  rcases Nat.lt_or_ge x.string.capacity needs with hlong | hroom
  · rw [Nat.max_eq_right (Nat.le_of_lt hlong)]
    exact hin hlong
  · rw [Nat.max_eq_left hroom]
    exact h.capacity

/-- A push keeps the string's block apart. -/
theorem Placed.push (h : x.Placed) {size : Nat} (hword : x.NoWrap (.push size)) :
    ∃ y, x.step (.push size) = some y ∧ Placed y := by
  have htotal := h.total
  by_cases hout : x.arena.arena.size < x.arena.pushNeeds size ∧
      x.arena.arena.reservedSize < x.arena.pushNeeds size
  · refine ⟨x, ?_, h⟩
    rw [step, Arenas.arenaPush_out hout]
  · obtain ⟨s, hpush, harena⟩ := Arenas.arenaPush_in hout
    refine ⟨{ x with arena := s, later := ⟨_, size⟩ :: x.later }, by rw [step, hpush], ?_⟩
    refine ⟨h.length, h.capacity, h.block, ?_, ?_⟩
    · rw [harena, pushNeeds_eq hword]
      show x.place.start + x.place.size ≤
        x.arena.arena.memory + (x.arena.arena.totalAllocated + lines size)
      omega
    · intro b hb
      rcases List.mem_cons.mp hb with rfl | hb
      · exact htotal
      · exact h.later b hb

/-! ## Calls on the string -/

/-- The end of an append that stays in the block. -/
theorem appendBytes_inside {s : String} {other : List UInt8}
    (hword : s.length + other.length < 2 ^ 32)
    (hroom : s.length + other.length + 1 ≤ s.bytes.length) :
    ∃ t, s.appendBytes other = some t ∧ t.bytes.length = s.bytes.length ∧
      t.length = s.length + other.length ∧ t.capacity = s.capacity := by
  have hlen : u32 (s.length + other.length) = s.length + other.length := (u32_eq_iff _).mpr hword
  obtain ⟨copied, hcopied, hsize⟩ := @exists_store UInt8 s.bytes s.length other (by omega)
  obtain ⟨ended, hended, hsize'⟩ := @exists_store UInt8 copied (s.length + other.length) [0]
    (by rw [hsize, List.length_singleton]; exact hroom)
  refine ⟨⟨s.length + other.length, s.capacity, ended⟩, ?_, hsize'.trans hsize, rfl, rfl⟩
  simp only [String.appendBytes, hcopied, hlen, hended, Option.bind_eq_bind, Option.bind_some]

/-- The end of an append that does not. -/
theorem appendBytes_outside {s : String} {other : List UInt8}
    (hword : s.length + other.length < 2 ^ 32)
    (hroom : s.bytes.length < s.length + other.length + 1) : s.appendBytes other = none := by
  have hlen : u32 (s.length + other.length) = s.length + other.length := (u32_eq_iff _).mpr hword
  rcases Nat.lt_or_ge s.bytes.length (s.length + other.length) with hlong | hfits
  · rw [String.appendBytes, store_eq_none hlong]
    rfl
  · obtain ⟨copied, hcopied, hsize⟩ := exists_store hfits
    have hended : store copied (s.length + other.length) [0] = none :=
      store_eq_none (by rw [hsize, List.length_singleton]; exact hroom)
    simp only [String.appendBytes, hcopied, hlen, hended, Option.bind_eq_bind, Option.bind_some,
      Option.bind_none]

/-- An append on an arena: the block stays, and the capacity becomes what is needed. -/
theorem append_eq {other : List UInt8} (hword : x.string.length + other.length < 2 ^ 32)
    (hmore : 0 < other.length) : x.string.stringAppendAllocatorWith x.realloc other =
      ({ x.string with
        capacity := max x.string.capacity (x.string.length + other.length) }.appendBytes other).map
          some := by
  have hlen : u32 (x.string.length + other.length) = x.string.length + other.length :=
    (u32_eq_iff _).mpr hword
  simp only [String.stringAppendAllocatorWith, if_pos hmore, hlen, realloc_eq]
  split_ifs with hlong
  · rw [Nat.max_eq_right (Nat.le_of_lt hlong)]
  · rw [Nat.max_eq_left (Nat.not_lt.mp hlong)]

/-- An append that stays in the block. -/
theorem Placed.append (h : x.Placed) {other : List UInt8}
    (hword : x.NoWrap (.appendAllocator other)) (hin : x.InBlock (.appendAllocator other)) :
    ∃ t, x.string.stringAppendAllocatorWith x.realloc other = some (some t) ∧
      t.length ≤ t.capacity ∧ headerSize + t.capacity ≤ x.place.size ∧
        t.bytes.length = x.string.bytes.length := by
  have hblock := h.block
  have hcapacity := h.capacity
  rcases Nat.eq_zero_or_pos other.length with hnone | hmore
  · refine ⟨x.string, ?_, h.length, hcapacity, rfl⟩
    rw [String.stringAppendAllocatorWith, if_neg (by omega)]
  · have hroom := hin hmore
    obtain ⟨t, ht, hsize, hlen, hcap⟩ := @appendBytes_inside
      { x.string with capacity := max x.string.capacity (x.string.length + other.length) } other
      hword.1 (by show x.string.length + other.length + 1 ≤ x.string.bytes.length; omega)
    rw [append_eq hword.1 hmore, ht]
    refine ⟨t, rfl, ?_, ?_, hsize⟩
    · rw [hlen, hcap]
      exact Nat.le_max_right _ _
    · rw [hcap]
      exact h.room fun _ => Nat.le_of_succ_le hroom

/-- An append that does not stay in the block. -/
theorem Placed.append_outside (h : x.Placed) {other : List UInt8}
    (hword : x.NoWrap (.appendAllocator other)) (hmore : 0 < other.length)
    (hroom : x.place.size < headerSize + (x.string.length + other.length) + 1) :
    x.string.stringAppendAllocatorWith x.realloc other = none := by
  have hblock := h.block
  have hout := @appendBytes_outside
    { x.string with capacity := max x.string.capacity (x.string.length + other.length) } other
    hword.1 (by show x.string.bytes.length < x.string.length + other.length + 1; omega)
  rw [append_eq hword.1 hmore, hout]
  rfl

/-- Space made in the block. -/
theorem Placed.makeSpace (h : x.Placed) {addLen : Nat} (hword : x.NoWrap (.makeSpaceFor addLen)) :
    ∃ t, x.string.stringMakeSpaceForWith x.realloc addLen = some t ∧
      t.length = x.string.length ∧ t.bytes = x.string.bytes ∧
        t.capacity = max x.string.capacity (x.string.length + addLen) := by
  have hlength := h.length
  have hroom : x.string.stringAvailableSpace ≥ addLen ↔
      x.string.length + addLen ≤ x.string.capacity :=
    @SizeCall.availableSpace_ge_iff x.string.header addLen hlength
  by_cases hlong : x.string.length + addLen ≤ x.string.capacity
  · refine ⟨x.string, ?_, rfl, rfl, (Nat.max_eq_left hlong).symm⟩
    rw [String.stringMakeSpaceForWith, if_pos (hroom.mpr hlong)]
  · have hsum := hword (Nat.not_le.mp hlong)
    have hlen : u32 (x.string.length + addLen) = x.string.length + addLen :=
      (u32_eq_iff _).mpr (by simp only [String.header] at hsum; omega)
    have hmax : max x.string.capacity (x.string.length + addLen) = x.string.length + addLen :=
      Nat.max_eq_right (Nat.le_of_lt (Nat.not_le.mp hlong))
    refine ⟨{ x.string with capacity := x.string.length + addLen }, ?_, rfl, rfl, hmax.symm⟩
    rw [String.stringMakeSpaceForWith, if_neg (hroom.not.mpr hlong)]
    simp only [hlen, realloc_eq, Option.map_some]

/-- Every call that needs no more than its block keeps the invariant. -/
theorem Placed.step (h : x.Placed) {edit : ArenaEdit} (hword : x.NoWrap edit)
    (hin : x.InBlock edit) : ∃ y, x.step edit = some y ∧ Placed y := by
  cases edit with
  | push size => exact h.push hword
  | appendAllocator other =>
    obtain ⟨t, ht, hlength, hcapacity, hblock⟩ := h.append hword hin
    refine ⟨{ x with string := t }, ?_, h.keep hlength hcapacity hblock⟩
    rw [ArenaString.step, ht]
    rfl
  | makeSpaceFor addLen =>
    obtain ⟨t, ht, hlength, hbytes, hcapacity⟩ := h.makeSpace hword
    refine ⟨{ x with string := t }, ?_, h.keep ?_ ?_ (congrArg List.length hbytes)⟩
    · rw [ArenaString.step, ht]
      rfl
    · rw [hlength, hcapacity]
      exact Nat.le_trans h.length (Nat.le_max_left _ _)
    · rw [hcapacity]
      exact h.room hin

/-- A call on the string fails safely exactly when it needs no more than its block. -/
theorem Placed.safe_iff (h : x.Placed) {edit : ArenaEdit} (hword : x.NoWrap edit) :
    x.Safe edit ↔ x.InBlock edit := by
  cases edit with
  | push size => exact Iff.rfl
  | appendAllocator other =>
    constructor
    · intro hsafe hmore
      by_contra hroom
      have hnone := h.append_outside hword hmore (Nat.not_le.mp hroom)
      simp only [Safe, Held, hnone] at hsafe
      rcases hsafe.2 with hnull | ⟨t, ht, -⟩
      · cases hnull
      · cases ht
    · intro hin
      obtain ⟨t, ht, -, hcapacity, hsize⟩ := h.append hword hin
      rw [Safe, ht]
      exact h.held hsize hcapacity
  | makeSpaceFor addLen =>
    obtain ⟨t, ht, -, hbytes, hcapacity⟩ := h.makeSpace hword
    rw [Safe, ht]
    constructor
    · rintro ⟨-, hnull | ⟨u, hu, -, hfits⟩⟩ hlong
      · cases hnull
      · cases hu
        rw [hcapacity] at hfits
        omega
    · intro hin
      apply h.held (congrArg List.length hbytes)
      rw [hcapacity]
      exact h.room hin

/-! ## Making the string -/

/-- `StringMakeAllocator` in a block that is large enough. -/
theorem stringMakeAllocatorWith_spec {alloc : Nat → Option (List UInt8)}
    {initStr : Option (List UInt8)} {block : List UInt8}
    (hblock : alloc (headerSize + (initStr.getD []).length + 1) = some block)
    (hroom : (initStr.getD []).length + 1 ≤ block.length) :
    ∃ s, stringMakeAllocatorWith alloc initStr = some (some s) ∧
      s.length = u32 (initStr.getD []).length ∧ s.capacity = u32 (initStr.getD []).length ∧
        s.bytes.length = block.length := by
  have hend : ∀ {zeroed : List UInt8}, zeroed.length = block.length →
      ∃ copied ended, store zeroed 0 (initStr.getD []) = some copied ∧
        store copied (initStr.getD []).length [0] = some ended ∧ ended.length = block.length := by
    intro zeroed hsize
    obtain ⟨copied, hcopied, hsize'⟩ := @exists_store UInt8 zeroed 0 (initStr.getD []) (by omega)
    obtain ⟨ended, hended, hsize''⟩ := @exists_store UInt8 copied (initStr.getD []).length [0]
      (by rw [hsize', hsize, List.length_singleton]; exact hroom)
    exact ⟨copied, ended, hcopied, hended, hsize''.trans (hsize'.trans hsize)⟩
  simp only [stringMakeAllocatorWith, hblock, Option.bind_eq_bind]
  split_ifs
  · obtain ⟨zeroed, hzeroed, hsize⟩ := @exists_store UInt8 block 0
      (zeroBytes (headerSize + (initStr.getD []).length + 1))
      (by rw [length_zeroBytes]; omega)
    obtain ⟨copied, ended, hcopied, hended, hlength⟩ := hend hsize
    refine ⟨⟨u32 _, u32 _, ended⟩, ?_, rfl, rfl, hlength⟩
    simp only [hzeroed, hcopied, hended, Option.bind_some]
  · obtain ⟨copied, ended, hcopied, hended, hlength⟩ := hend rfl
    refine ⟨⟨u32 _, u32 _, ended⟩, ?_, rfl, rfl, hlength⟩
    simp only [hcopied, hended, Option.bind_some]

/-- A string made on an arena fills its block up to the end of a cache line. -/
theorem make_spec {arena : State} {initStr : Option (List UInt8)}
    (hlen : (initStr.getD []).length < 2 ^ 32)
    (hword :
      arena.arena.totalAllocated + lines (headerSize + (initStr.getD []).length + 1) < 2 ^ 64)
    (fresh : Nat → UInt8) : make arena initStr fresh = some none ∨
      ∃ x, make arena initStr fresh = some (some x) ∧ x.Placed ∧
        x.place.size = lines (headerSize + (initStr.getD []).length + 1) := by
  have hheader : headerSize = 8 := rfl
  have hline : cacheLine = 64 := rfl
  have hround : alignSize (headerSize + (initStr.getD []).length + 1) cacheLine =
      lines (headerSize + (initStr.getD []).length + 1) := alignSize_eq_lines (by omega)
  obtain ⟨-, hup, -⟩ := lines_spec (headerSize + (initStr.getD []).length + 1)
  rcases sAllocatorArena_malloc (by omega) hword with hnull | ⟨after, hmalloc, hafter⟩
  · left
    simp only [make, hnull]
    rfl
  · right
    obtain ⟨s, hs, hslen, hscap, hsize⟩ := @stringMakeAllocatorWith_spec (fun size =>
      some (freshBytes (alignSize size cacheLine) fresh)) initStr _ rfl (by
        rw [hround, length_freshBytes]
        omega)
    rw [hround, length_freshBytes] at hsize
    rw [(u32_eq_iff _).mpr hlen] at hslen hscap
    refine ⟨⟨after, ⟨arena.arena.memory + arena.arena.totalAllocated,
      lines (headerSize + (initStr.getD []).length + 1)⟩, s, []⟩, ?_,
      ⟨hslen.trans_le hscap.ge, ?_, ?_, ?_, fun b hb => absurd hb List.not_mem_nil⟩, rfl⟩
    · simp only [make, hmalloc, hround, Option.map_some, Option.bind_eq_bind]
      rw [hs]
      rfl
    · rw [hscap]
      show headerSize + (initStr.getD []).length ≤ lines _
      omega
    · rw [hsize]
      show headerSize + (lines _ - headerSize) = lines _
      omega
    · rw [hafter]
      exact (Nat.add_assoc _ _ _).le

/-! ## Whole runs -/

end ArenaString

/-- A string of 50 bytes has a block of 64, and a push returns what follows it.  An append of ten
bytes then leaves the block, and space for 100 more is promised in it. -/
theorem arenaString_overruns :
    ∃ x y z, ArenaString.make (Arenas.arenaCreateMin 4096 65536 1048576 4096 0)
        (some (List.replicate 50 97)) (fun _ => 0) = some (some x) ∧
      x.step (.push 64) = some y ∧ y.place = ⟨65536, 64⟩ ∧ y.later = [⟨65600, 64⟩] ∧
      y.step (.appendAllocator (List.replicate 10 98)) = none ∧
      y.step (.makeSpaceFor 100) = some z ∧ z.string.capacity = 150 ∧ z.place = ⟨65536, 64⟩ :=
  ⟨_, _, _, rfl, rfl, rfl, rfl, rfl, rfl, rfl, rfl⟩

/-- A string is made on any arena or it is null.  Over every sequence of calls on it and pushes
whose sums do not wrap, all calls fail safely exactly when none needs more than its block. -/
theorem arenaString_growth_iff {arena : State} {initStr : Option (List UInt8)}
    (hlen : (initStr.getD []).length < 2 ^ 32)
    (hword :
      arena.arena.totalAllocated + lines (headerSize + (initStr.getD []).length + 1) < 2 ^ 64)
    (fresh : Nat → UInt8) : ArenaString.make arena initStr fresh = some none ∨
      ∃ x, ArenaString.make arena initStr fresh = some (some x) ∧
        x.place.size = lines (headerSize + (initStr.getD []).length + 1) ∧
        ∀ edits, AtEach ArenaString.step ArenaString.NoWrap x edits →
          (AtEach ArenaString.step ArenaString.Safe x edits ↔
            AtEach ArenaString.step ArenaString.InBlock x edits) := by
  rcases ArenaString.make_spec hlen hword fresh with hnull | ⟨x, hx, hplaced, hsize⟩
  · exact Or.inl hnull
  · refine Or.inr ⟨x, hx, hsize, fun edits hok => ?_⟩
    exact atEach_iff ArenaString.Placed (fun _ _ h hword hin => h.step hword hin)
      (fun _ _ h hword => h.safe_iff hword) hplaced hok

/-- A string of two bytes: ten more fit in its block, also behind a push. -/
theorem arenaString_growth_iff_ten :
    ∃ x, ArenaString.make (Arenas.arenaCreateMin 4096 65536 1048576 4096 0) (some [97, 98])
        (fun _ => 0) = some (some x) ∧
      AtEach ArenaString.step ArenaString.Safe x
        [.push 64, .appendAllocator (List.replicate 10 99), .makeSpaceFor 3] := by
  rcases @arenaString_growth_iff (Arenas.arenaCreateMin 4096 65536 1048576 4096 0) (some [97, 98])
    (by decide) (by decide) fun _ => 0 with hnull | ⟨x, hx, -, hiff⟩
  · cases hnull
  · refine ⟨x, hx, (hiff _ ?_).mpr ?_⟩
    all_goals
      cases hx
      refine .cons (by decide) ?_
      rintro y ⟨⟩
      refine .cons (by decide) ?_
      rintro z ⟨⟩
      refine .cons (by decide) ?_
      intro _ _
      exact .nil

end ScalBase.Strings
