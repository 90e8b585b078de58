/-
  Strings/Sizes.lean --- the size arithmetic of `Lib/String.h`.

  Five functions add a length, the header and a terminator in `u32`.  Here each is cut
  down to the header it leaves and the sums it makes, over an arithmetic `word`: with `u32`
  it is what the source computes, with `id` the sum over the integers.  Which sizes an
  allocator grants is the argument `grants`; the functions of `Strings/Allocators.lean`
  leave these headers.

  None of the five looks at whether its sum wrapped (`stringSizes_exact_iff`).
-/
import ScalBase.Strings.Allocators

set_option autoImplicit false

namespace ScalBase.Strings

open Foundation Foundation.Block

/-- A `string_header`. -/
@[ext]
structure Header where
  length : Nat
  capacity : Nat
  deriving DecidableEq, Repr

/-- The header that a call leaves, none for null, and the sums that it made: the sizes it
asked for and what it compared with the capacity. -/
structure Sized where
  sums : List Nat
  header : Option Header
  deriving DecidableEq, Repr

def String.header (s : String) : Header := ⟨s.length, s.capacity⟩

/-! ## The functions -/

section Functions

variable (word : Nat → Nat) (grants : Nat → Bool)

/-- `StringMakeReserve`. -/
def makeReserveSizes (capacity : Nat) : Sized :=
  let size := word (headerSize + capacity + 1)
  ⟨[size], if grants size then some ⟨0, capacity⟩ else none⟩

/-- `StringMakeLength`. -/
def makeLengthSizes (numBytes : Nat) : Sized :=
  let size := word (headerSize + numBytes + 1)
  ⟨[size], if grants size then some ⟨numBytes, numBytes⟩ else none⟩

namespace Header

/-- `StringAppendLength`. -/
def appendLengthSizes (h : Header) (otherLen : Nat) : Sized :=
  if otherLen > 0 then
    let newLen := word (h.length + otherLen)
    if newLen > h.capacity then ⟨[newLen], some h⟩
    else ⟨[newLen], some { h with length := newLen }⟩
  else ⟨[], some h⟩

/-- `StringAppendAllocator`. -/
def appendAllocatorSizes (h : Header) (otherLen : Nat) : Sized :=
  if otherLen > 0 then
    let newLen := word (h.length + otherLen)
    if newLen > h.capacity then
      let newSize := word (word (headerSize + h.capacity) + otherLen)
      ⟨[newLen, newSize], if grants newSize then some ⟨newLen, newLen⟩ else none⟩
    else ⟨[newLen], some { h with length := newLen }⟩
  else ⟨[], some h⟩

/-- `StringAvailableSpace`. -/
def availableSpace (h : Header) : Nat :=
  if h.capacity > h.length then h.capacity - h.length else 0

/-- `StringMakeSpaceFor`. -/
def makeSpaceForSizes (h : Header) (addLen : Nat) : Sized :=
  if h.availableSpace ≥ addLen then ⟨[], some h⟩
  else
    let newLen := word (h.length + addLen)
    let newSize := word (headerSize + newLen + 1)
    ⟨[newSize], if grants newSize then some { h with capacity := newLen } else none⟩

end Header

end Functions

/-- A call, with the header of the string it is made on. -/
inductive SizeCall where
  | makeReserve (capacity : Nat)
  | makeLength (numBytes : Nat)
  | appendLength (h : Header) (otherLen : Nat)
  | appendAllocator (h : Header) (otherLen : Nat)
  | makeSpaceFor (h : Header) (addLen : Nat)
  deriving DecidableEq, Repr

namespace SizeCall

/-- What a call does. -/
def sized (word : Nat → Nat) (grants : Nat → Bool) : SizeCall → Sized
  | makeReserve capacity => makeReserveSizes word grants capacity
  | makeLength numBytes => makeLengthSizes word grants numBytes
  | appendLength h otherLen => h.appendLengthSizes word otherLen
  | appendAllocator h otherLen => h.appendAllocatorSizes word grants otherLen
  | makeSpaceFor h addLen => h.makeSpaceForSizes word grants addLen

/-- The string before the call, if there is one. -/
def before : SizeCall → Option Header
  | makeReserve _ | makeLength _ => none
  | appendLength h _ | appendAllocator h _ | makeSpaceFor h _ => some h

/-- The argument of a call. -/
def argument : SizeCall → Nat
  | makeReserve n | makeLength n | appendLength _ n | appendAllocator _ n | makeSpaceFor _ n => n

/-- The argument is a `u32`, the string well formed. -/
structure WellFormed (call : SizeCall) : Prop where
  argument : call.argument < 2 ^ 32
  length : ∀ h ∈ call.before, h.length ≤ h.capacity
  capacity : ∀ h ∈ call.before, h.capacity < 2 ^ 32

/-- Whatever is granted, the call refuses, with null or with the string as it was, or the
length stays within the capacity and every sum is exact. -/
def Exact (call : SizeCall) : Prop :=
  ∀ grants, (call.sized u32 grants).header = none ∨
    (call.sized u32 grants).header = call.before ∨
      (∀ h ∈ (call.sized u32 grants).header, h.length ≤ h.capacity) ∧
        (call.sized u32 grants).sums = (call.sized id grants).sums

/-- The sums fit 32 bits. -/
def Fits : SizeCall → Prop
  | makeReserve n | makeLength n => headerSize + n + 1 < 2 ^ 32
  | appendLength h n => h.length + n < 2 ^ 32
  | appendAllocator h n => h.length + n < 2 ^ 32 ∧
      (h.capacity < h.length + n → headerSize + h.capacity + n < 2 ^ 32)
  | makeSpaceFor h n => h.capacity < h.length + n → headerSize + (h.length + n) + 1 < 2 ^ 32

instance Fits.decidable : DecidablePred Fits
  | makeReserve n => inferInstanceAs (Decidable (headerSize + n + 1 < 2 ^ 32))
  | makeLength n => inferInstanceAs (Decidable (headerSize + n + 1 < 2 ^ 32))
  | appendLength h n => inferInstanceAs (Decidable (h.length + n < 2 ^ 32))
  | appendAllocator h n => inferInstanceAs (Decidable (h.length + n < 2 ^ 32 ∧
      (h.capacity < h.length + n → headerSize + h.capacity + n < 2 ^ 32)))
  | makeSpaceFor h n => inferInstanceAs (Decidable
      (h.capacity < h.length + n → headerSize + (h.length + n) + 1 < 2 ^ 32))

end SizeCall

/-! ## The strings of `Strings/Allocators.lean` -/

section Strings

variable {s t : String} {r : Option String} {alloc : Nat → Option (List UInt8)}

theorem stringMakeReserveWith_header {capacity : Nat}
    (h : stringMakeReserveWith alloc capacity = some r) :
    (makeReserveSizes u32 (fun size => (alloc size).isSome) capacity).header =
      r.map String.header := by
  simp only [stringMakeReserveWith] at h
  split at h
  case h_1 hnull =>
    rw [← Option.some.inj h]
    simp only [makeReserveSizes, hnull, Option.isSome_none, Bool.false_eq_true, if_false,
      Option.map_none]
  case h_2 block hblock =>
    obtain ⟨zeroed, -, hzeroed⟩ := Option.bind_eq_some_iff.mp h
    obtain ⟨bytes, -, hr⟩ := Option.bind_eq_some_iff.mp hzeroed
    rw [← Option.some.inj hr]
    simp only [makeReserveSizes, hblock, Option.isSome_some, if_true]
    rfl

theorem stringMakeLengthWith_header {initStr : Option (List UInt8)} {numBytes : Nat}
    (h : stringMakeLengthWith alloc initStr numBytes = some r) :
    (makeLengthSizes u32 (fun size => (alloc size).isSome) numBytes).header =
      r.map String.header := by
  simp only [stringMakeLengthWith] at h
  split at h
  case h_1 hnull =>
    rw [← Option.some.inj h]
    simp only [makeLengthSizes, hnull, Option.isSome_none, Bool.false_eq_true, if_false,
      Option.map_none]
  case h_2 block hblock =>
    have hend : ∀ {block : List UInt8}, ((store block numBytes [0]).bind fun bytes =>
        some (some (String.mk numBytes numBytes bytes))) = some r →
          r.map String.header = some ⟨numBytes, numBytes⟩ := by
      intro block hstore
      obtain ⟨bytes, -, hr⟩ := Option.bind_eq_some_iff.mp hstore
      rw [← Option.some.inj hr]
      rfl
    simp only [makeLengthSizes, hblock, Option.isSome_some, if_true]
    cases initStr with
    | none =>
      obtain ⟨zeroed, -, hzeroed⟩ := Option.bind_eq_some_iff.mp h
      exact (hend hzeroed).symm
    | some init =>
      obtain ⟨copied, -, hcopied⟩ := Option.bind_eq_some_iff.mp h
      exact (hend hcopied).symm

namespace String

theorem appendBytes_header {other : List UInt8} (h : s.appendBytes other = some t) :
    t.header = ⟨u32 (s.length + other.length), s.capacity⟩ := by
  obtain ⟨bytes, -, hbytes⟩ := Option.bind_eq_some_iff.mp h
  obtain ⟨block, -, ht⟩ := Option.bind_eq_some_iff.mp hbytes
  rw [← Option.some.inj ht]
  rfl

theorem stringAppendLength_header {other : List UInt8} (h : s.stringAppendLength other = some t) :
    (s.header.appendLengthSizes u32 other.length).header = some t.header := by
  unfold stringAppendLength at h
  split_ifs at h with hmore hlong
  · rw [← Option.some.inj h]
    simp only [Header.appendLengthSizes, String.header, hmore, hlong, if_true]
  · rw [appendBytes_header h]
    simp only [Header.appendLengthSizes, String.header, hmore, hlong, if_true, if_false]
  · rw [← Option.some.inj h]
    simp only [Header.appendLengthSizes, hmore, if_false]

theorem stringAppendAllocatorWith_header {other : List UInt8}
    (h : s.stringAppendAllocatorWith alloc other = some r) :
    (s.header.appendAllocatorSizes u32 (fun size => (alloc size).isSome) other.length).header =
      r.map String.header := by
  simp only [stringAppendAllocatorWith] at h
  split_ifs at h with hmore hlong
  · have hsize : s.stringMemorySize = u32 (headerSize + s.capacity) := rfl
    rw [hsize] at h
    split at h
    case h_1 hnull =>
      rw [← Option.some.inj h]
      simp only [Header.appendAllocatorSizes, String.header, hmore, hlong, hnull, if_true,
        Option.isSome_none, Bool.false_eq_true, if_false, Option.map_none]
    case h_2 block hblock =>
      obtain ⟨t, ht, hr⟩ := Option.map_eq_some_iff.mp h
      rw [← hr, Option.map_some, appendBytes_header ht]
      simp only [Header.appendAllocatorSizes, String.header, hmore, hlong, hblock, if_true,
        Option.isSome_some]
  · obtain ⟨t, ht, hr⟩ := Option.map_eq_some_iff.mp h
    rw [← hr, Option.map_some, appendBytes_header ht]
    simp only [Header.appendAllocatorSizes, String.header, hmore, hlong, if_true, if_false]
  · rw [← Option.some.inj h]
    simp only [Header.appendAllocatorSizes, hmore, if_false, Option.map_some]

theorem stringMakeSpaceForWith_header (addLen : Nat) :
    (s.header.makeSpaceForSizes u32 (fun size => (alloc size).isSome) addLen).header =
      (s.stringMakeSpaceForWith alloc addLen).map String.header := by
  have hspace : s.header.availableSpace = s.stringAvailableSpace := rfl
  simp only [stringMakeSpaceForWith, Header.makeSpaceForSizes, hspace]
  split_ifs with hroom hgiven
  · rfl
  · obtain ⟨block, hblock⟩ := Option.isSome_iff_exists.mp hgiven
    rw [show alloc (u32 (headerSize + u32 (s.length + addLen) + 1)) = some block from hblock]
    rfl
  · rw [show alloc (u32 (headerSize + u32 (s.length + addLen) + 1)) = none from
      Option.not_isSome_iff_eq_none.mp hgiven]
    rfl

end String

end Strings

/-! ## Where the sums are exact -/

theorem u32_eq_iff (n : Nat) : u32 n = n ↔ n < 2 ^ 32 := Nat.mod_eq_iff_lt (by decide)

/-- A sum of two words that wraps is less than both. -/
theorem u32_add_lt {a b : Nat} (ha : a < 2 ^ 32) (hb : b < 2 ^ 32) (hwrap : 2 ^ 32 ≤ a + b) :
    u32 (a + b) < a := by
  unfold u32
  omega

namespace SizeCall

variable {h : Header} {n : Nat}

/-- A call that asks for one size, and leaves a header when it gets it. -/
theorem make_exact_iff {call : SizeCall} {size : Nat} {made : Header} (hbefore : call.before = none)
    (hsized : ∀ word grants, call.sized word grants =
      ⟨[word size], if grants (word size) then some made else none⟩)
    (hmade : made.length ≤ made.capacity) : call.Exact ↔ size < 2 ^ 32 := by
  simp only [Exact, hsized, hbefore]
  constructor
  · intro hexact
    rcases hexact fun _ => true with hnull | hnull | ⟨-, hsums⟩
    · cases hnull
    · cases hnull
    · exact (u32_eq_iff size).mp (List.singleton_inj.mp hsums)
  · intro hfits grants
    rw [(u32_eq_iff size).mpr hfits]
    split_ifs
    · exact Or.inr (Or.inr ⟨fun t ht => Option.some.inj ht ▸ hmade, rfl⟩)
    · exact Or.inl rfl

/-- A call that changes the string over a sum that is not exact. -/
theorem not_exact {call : SizeCall} {sums : List Nat} {t : Header}
    (hsized : call.sized u32 (fun _ => true) = ⟨sums, some t⟩) (hchanged : some t ≠ call.before)
    (hsums : sums ≠ (call.sized id fun _ => true).sums) : ¬ call.Exact := by
  intro hexact
  have hgranted := hexact fun _ => true
  rw [hsized] at hgranted
  rcases hgranted with hnull | hsame | ⟨-, heq⟩
  · cases hnull
  · exact hchanged hsame
  · exact hsums heq

theorem appendLength_exact (hfits : (appendLength h n).Fits) : (appendLength h n).Exact := by
  intro grants
  have hword : u32 (h.length + n) = h.length + n := (u32_eq_iff _).mpr hfits
  simp only [sized, Header.appendLengthSizes, hword, id_eq]
  split_ifs with hmore hlong
  · exact Or.inr (Or.inl rfl)
  · refine Or.inr (Or.inr ⟨fun t ht => ?_, trivial⟩)
    cases ht
    exact Nat.not_lt.mp hlong
  · exact Or.inr (Or.inl rfl)

/-- A call that takes the sum of the lengths for what it wraps to, and lowers the length. -/
theorem not_exact_of_wrap {call : SizeCall} (hbefore : call.before = some h)
    (hless : u32 (h.length + n) < h.length)
    (hsized : call.sized u32 (fun _ => true) =
      ⟨[u32 (h.length + n)], some { h with length := u32 (h.length + n) }⟩)
    (hsum : (call.sized id fun _ => true).sums.head? = some (h.length + n)) : ¬ call.Exact := by
  apply not_exact hsized
  · rw [hbefore]
    simp only [ne_eq, Option.some.injEq, Header.ext_iff]
    omega
  · intro heq
    rw [← heq] at hsum
    have hsame : u32 (h.length + n) = h.length + n := Option.some.inj hsum
    omega

/-- An append that wraps passes the fit test. -/
theorem appendLength_not_exact (hlen : h.length ≤ h.capacity) (hcap : h.capacity < 2 ^ 32)
    (hn : n < 2 ^ 32) (hwrap : ¬ (appendLength h n).Fits) : ¬ (appendLength h n).Exact := by
  have hless := u32_add_lt (show h.length < 2 ^ 32 by omega) hn (Nat.not_lt.mp hwrap)
  have hmore : n > 0 := by
    simp only [Fits] at hwrap
    omega
  refine not_exact_of_wrap rfl hless ?_ ?_
  · simp only [sized, Header.appendLengthSizes]
    rw [if_pos hmore, if_neg (by omega)]
  · simp only [sized, Header.appendLengthSizes, id_eq, hmore, if_true]
    split_ifs <;> rfl

theorem appendAllocator_exact (hlen : h.length ≤ h.capacity)
    (hfits : (appendAllocator h n).Fits) : (appendAllocator h n).Exact := by
  intro grants
  have hword : u32 (h.length + n) = h.length + n := (u32_eq_iff _).mpr hfits.1
  by_cases hlong : h.capacity < h.length + n
  · have hsum := hfits.2 hlong
    have hmemory : u32 (headerSize + h.capacity) = headerSize + h.capacity :=
      (u32_eq_iff _).mpr (by omega)
    have hsize : u32 (headerSize + h.capacity + n) = headerSize + h.capacity + n :=
      (u32_eq_iff _).mpr hsum
    simp only [sized, Header.appendAllocatorSizes, hword, hmemory, hsize, id_eq, gt_iff_lt, hlong,
      if_true]
    split_ifs
    · refine Or.inr (Or.inr ⟨fun t ht => ?_, trivial⟩)
      cases ht
      exact Nat.le_refl _
    · exact Or.inl rfl
    · exact Or.inr (Or.inl rfl)
  · simp only [sized, Header.appendAllocatorSizes, hword, id_eq, gt_iff_lt, hlong, if_false]
    split_ifs
    · refine Or.inr (Or.inr ⟨fun t ht => ?_, trivial⟩)
      cases ht
      exact Nat.not_lt.mp hlong
    · exact Or.inr (Or.inl rfl)

/-- An append that wraps passes the fit test; one whose block is too large asks for less. -/
theorem appendAllocator_not_exact (hlen : h.length ≤ h.capacity) (hcap : h.capacity < 2 ^ 32)
    (hn : n < 2 ^ 32) (hwrap : ¬ (appendAllocator h n).Fits) : ¬ (appendAllocator h n).Exact := by
  have hmore : n > 0 := by
    simp only [Fits] at hwrap
    omega
  rcases Nat.lt_or_ge (h.length + n) (2 ^ 32) with hword | hword
  · simp only [Fits, hword, true_and, Classical.not_imp, Nat.not_lt] at hwrap
    obtain ⟨hlong, hlarge⟩ := hwrap
    have hless : u32 (u32 (headerSize + h.capacity) + n) < 2 ^ 32 :=
      Nat.mod_lt _ (Nat.two_pow_pos 32)
    refine @not_exact _ [h.length + n, u32 (u32 (headerSize + h.capacity) + n)]
      ⟨h.length + n, h.length + n⟩ ?_ ?_ ?_
    · simp only [sized, Header.appendAllocatorSizes, (u32_eq_iff _).mpr hword, gt_iff_lt, hmore,
        hlong, if_true]
    · simp only [before, ne_eq, Option.some.injEq, Header.ext_iff]
      omega
    · simp only [sized, Header.appendAllocatorSizes, id_eq, gt_iff_lt, hmore, hlong, if_true,
        ne_eq, List.cons.injEq, and_true, true_and]
      omega
  · have hless := u32_add_lt (show h.length < 2 ^ 32 by omega) hn hword
    refine not_exact_of_wrap rfl hless ?_ ?_
    · simp only [sized, Header.appendAllocatorSizes]
      rw [if_pos hmore, if_neg (by omega)]
    · simp only [sized, Header.appendAllocatorSizes, id_eq, hmore, if_true]
      split_ifs <;> rfl

/-- There is enough space where the sum of the length is within the capacity. -/
theorem availableSpace_ge_iff (hlen : h.length ≤ h.capacity) :
    h.availableSpace ≥ n ↔ h.length + n ≤ h.capacity := by
  unfold Header.availableSpace
  split_ifs <;> omega

theorem makeSpaceFor_exact (hroom : ¬ h.length + n ≤ h.capacity) (hlen : h.length ≤ h.capacity)
    (hsum : headerSize + (h.length + n) + 1 < 2 ^ 32) : (makeSpaceFor h n).Exact := by
  intro grants
  have hword : u32 (h.length + n) = h.length + n := (u32_eq_iff _).mpr (by omega)
  have hsize : u32 (headerSize + (h.length + n) + 1) = headerSize + (h.length + n) + 1 :=
    (u32_eq_iff _).mpr hsum
  simp only [sized, Header.makeSpaceForSizes, availableSpace_ge_iff hlen, hroom, if_false,
    hword, hsize, id_eq]
  split_ifs
  · refine Or.inr (Or.inr ⟨fun t ht => ?_, trivial⟩)
    cases ht
    exact Nat.le_add_right _ _
  · exact Or.inl rfl

/-- A block that is too large is asked for as less. -/
theorem makeSpaceFor_not_exact (hroom : ¬ h.length + n ≤ h.capacity) (hlen : h.length ≤ h.capacity)
    (hcap : h.capacity < 2 ^ 32) (hn : n < 2 ^ 32)
    (hsum : 2 ^ 32 ≤ headerSize + (h.length + n) + 1) : ¬ (makeSpaceFor h n).Exact := by
  have hless : u32 (headerSize + u32 (h.length + n) + 1) < 2 ^ 32 :=
    Nat.mod_lt _ (Nat.two_pow_pos 32)
  have hchanged : u32 (h.length + n) ≠ h.capacity := by
    rcases Nat.lt_or_ge (h.length + n) (2 ^ 32) with hword | hword
    · rw [(u32_eq_iff _).mpr hword]
      omega
    · have hlow := u32_add_lt (show h.length < 2 ^ 32 by omega) hn hword
      omega
  refine @not_exact _ [u32 (headerSize + u32 (h.length + n) + 1)]
    { h with capacity := u32 (h.length + n) } ?_ ?_ ?_
  · simp only [sized, Header.makeSpaceForSizes, availableSpace_ge_iff hlen, hroom, if_false,
      if_true]
  · simp only [before, ne_eq, Option.some.injEq, Header.ext_iff]
    exact fun hsame => hchanged hsame.2
  · simp only [sized, Header.makeSpaceForSizes, availableSpace_ge_iff hlen, hroom, if_false, id_eq,
      ne_eq, List.cons.injEq, and_true]
    omega

theorem makeSpaceFor_exact_iff (hlen : h.length ≤ h.capacity) (hcap : h.capacity < 2 ^ 32)
    (hn : n < 2 ^ 32) : (makeSpaceFor h n).Exact ↔ (makeSpaceFor h n).Fits := by
  by_cases hroom : h.length + n ≤ h.capacity
  · refine iff_of_true (fun grants => ?_) fun hlong => absurd hroom (Nat.not_le.mpr hlong)
    simp only [sized, Header.makeSpaceForSizes, availableSpace_ge_iff hlen, hroom, if_true]
    exact Or.inr (Or.inl rfl)
  · rw [Fits, imp_iff_right (Nat.not_le.mp hroom)]
    constructor
    · intro hexact
      by_contra hsum
      exact makeSpaceFor_not_exact hroom hlen hcap hn (Nat.not_lt.mp hsum) hexact
    · exact makeSpaceFor_exact hroom hlen

end SizeCall

/-- An append of 2^32 - 5 bytes to a string of 10 bytes with room for 20: the sum is compared as
5, and the length becomes 5. -/
theorem appendLength_fit_test_wraps :
    ¬ (SizeCall.appendLength ⟨10, 20⟩ (2 ^ 32 - 5)).Exact ∧
      Header.appendLengthSizes u32 ⟨10, 20⟩ (2 ^ 32 - 5) = ⟨[5], some ⟨5, 20⟩⟩ ∧
      Header.appendLengthSizes id ⟨10, 20⟩ (2 ^ 32 - 5) = ⟨[2 ^ 32 + 5], some ⟨10, 20⟩⟩ :=
  ⟨fun hexact => by have hgranted := hexact fun _ => true; revert hgranted; decide,
    by decide, by decide⟩

/-- For every `u32` argument and every well-formed string, a call refuses, or keeps the length
within the capacity over exact sums, if and only if its sums fit 32 bits. -/
theorem stringSizes_exact_iff {call : SizeCall} (h : call.WellFormed) :
    call.Exact ↔ call.Fits := by
  obtain ⟨hn, hlen, hcap⟩ := h
  cases call with
  | makeReserve capacity =>
    exact @SizeCall.make_exact_iff (.makeReserve capacity) _ ⟨0, capacity⟩ rfl (fun _ _ => rfl)
      (Nat.zero_le _)
  | makeLength numBytes =>
    exact @SizeCall.make_exact_iff (.makeLength numBytes) _ ⟨numBytes, numBytes⟩ rfl
      (fun _ _ => rfl) (Nat.le_refl _)
  | appendLength h n =>
    refine ⟨fun hexact => ?_, SizeCall.appendLength_exact⟩
    by_contra hwrap
    exact SizeCall.appendLength_not_exact (hlen h rfl) (hcap h rfl) hn hwrap hexact
  | appendAllocator h n =>
    refine ⟨fun hexact => ?_, SizeCall.appendAllocator_exact (hlen h rfl)⟩
    by_contra hwrap
    exact SizeCall.appendAllocator_not_exact (hlen h rfl) (hcap h rfl) hn hwrap hexact
  | makeSpaceFor h n => exact SizeCall.makeSpaceFor_exact_iff (hlen h rfl) (hcap h rfl) hn

/-- An append of 5 bytes that needs a larger block. -/
theorem stringSizes_exact_iff_five :
    (SizeCall.appendAllocator ⟨10, 12⟩ 5).Exact ↔ (SizeCall.appendAllocator ⟨10, 12⟩ 5).Fits :=
  stringSizes_exact_iff ⟨by decide, by decide, by decide⟩

end ScalBase.Strings
