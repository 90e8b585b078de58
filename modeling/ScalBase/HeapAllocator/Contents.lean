/-
  HeapAllocator/Contents.lean --- the allocator as a store of separate arrays.

  A program that uses the allocator knows the pointers it has, how many bytes it asked for
  at each, and what it has stored there last.  That is a `Contents`; it has no headers,
  lists or addresses of blocks.

  In every run of bucketed requests, `GeneralPurposeClearAll` among the calls, memory agrees
  with it (`generalPurpose_contents`): what is read back is what was stored, arrays are
  apart and inside the buffer, a pointer handed out is a new one, and a further
  `GeneralPurposeClearAll` leaves the allocator that was created.
-/
import ScalBase.HeapAllocator.Requests

set_option autoImplicit false

namespace ScalBase.HeapAllocator

open ScalBase.Foundation

/-! ## GeneralPurposeClearAll -/

/-- `GeneralPurposeClearAll`. -/
def generalPurposeClearAll (a : GeneralPurposeAllocator) : GeneralPurposeAllocator :=
  { a with
    large := AllocList.zero
    buckets := fun _ => AllocList.zero
    offset := u64 (a.mem + a.size) }

/-- A call, or a store of a byte by the program, at an index of an array it has. -/
inductive HeapCall where
  | alloc (size : Nat)
  | free (ptr : Nat)
  | realloc (ptr size : Nat)
  | write (ptr index : Nat) (value : UInt8)
  | clearAll
  deriving DecidableEq, Repr

/-- The same call with the address that is stored to; `ClearAll` is apart. -/
def HeapCall.byteCall : HeapCall → Option ByteCall
  | .alloc size => some (.alloc size)
  | .free ptr => some (.free ptr)
  | .realloc ptr size => some (.realloc ptr size)
  | .write ptr index value => some (.write (ptr + index) value)
  | .clearAll => none

/-- The pointer that a call answers, null where it answers none. -/
def HeapCall.reply (fuel : Nat) (s : ByteState) (call : HeapCall) : Nat :=
  ((call.byteCall.bind (ByteCall.reply fuel s)).map Prod.fst).getD 0

/-- The effect of a call. -/
def heapStep (fuel : Nat) (s : ByteState) (call : HeapCall) : Option ByteState :=
  match call.byteCall with
  | some c => byteStep fuel s c
  | none => some ⟨s.bytes, generalPurposeClearAll s.allocator, []⟩

/-! ## Contents -/

/-- An array of `size` bytes, and the byte stored last at an index, if any was. -/
structure Stored where
  size : Nat
  byte : Nat → Option UInt8

/-- The arrays of a program, by their pointers. -/
abbrev Contents := Nat → Option Stored

namespace Contents

/-- A new array, unless the pointer is null. -/
def alloc (c : Contents) (size reply : Nat) : Contents :=
  if reply = 0 then c else Function.update c reply (some ⟨size, fun _ => none⟩)

def free (c : Contents) (ptr : Nat) : Contents := Function.update c ptr none

/-- The array goes to the pointer answered, as much of it as both sizes reach. -/
def realloc (c : Contents) (ptr size reply : Nat) : Contents :=
  match c ptr with
  | none => c.alloc size reply
  | some array =>
      if reply = 0 then c
      else Function.update (c.free ptr) reply
        (some ⟨size, fun i => if i < min array.size size then array.byte i else none⟩)

def write (c : Contents) (ptr index : Nat) (value : UInt8) : Contents :=
  Function.update c ptr ((c ptr).map fun array =>
    { array with byte := Function.update array.byte index (some value) })

/-- The arrays after a call that answers `reply`. -/
def step (c : Contents) (reply : Nat) : HeapCall → Contents
  | .alloc size => c.alloc size reply
  | .free ptr => c.free ptr
  | .realloc ptr size => c.realloc ptr size reply
  | .write ptr index value => c.write ptr index value
  | .clearAll => fun _ => none

end Contents

/-- The allocator beside the arrays of the program that calls it. -/
def watchedStep (fuel : Nat) (s : ByteState × Contents) (call : HeapCall) :
    Option (ByteState × Contents) :=
  (heapStep fuel s.1 call).map fun t => (t, s.2.step (call.reply fuel s.1) call)

/-- Sizes are those of the buckets, pointers given are null or those of arrays, a block that
stays in place has room for the new size, and stores are inside of arrays. -/
def Legal (s : ByteState × Contents) : HeapCall → Prop
  | .alloc size => size + sizeofMemNode ≤ 2 ^ 23
  | .free ptr => ptr = 0 ∨ (s.2 ptr).isSome
  | .realloc ptr size => (ptr = 0 ∨ (s.2 ptr).isSome) ∧ size + sizeofMemNode ≤ 2 ^ 23 ∧
      StaysWithRoom s.1 (.realloc ptr size)
  | .write ptr index _ => ∃ array ∈ s.2 ptr, index < array.size
  | .clearAll => True

instance (s : ByteState × Contents) : ∀ call, Decidable (Legal s call)
  | .alloc _ => inferInstanceAs (Decidable (_ ≤ _))
  | .free _ => inferInstanceAs (Decidable (_ ∨ _))
  | .realloc _ _ => inferInstanceAs (Decidable (_ ∧ _ ∧ _))
  | .write _ _ _ => inferInstanceAs (Decidable (∃ array ∈ s.2 _, _ < array.size))
  | .clearAll => isTrue trivial

/-- Memory holds what the program has stored, in arrays that are apart and inside the
buffer. -/
structure Holds (s : ByteState) (c : Contents) : Prop where
  read : ∀ ptr, ∀ array ∈ c ptr, ∀ i < array.size, ∀ value ∈ array.byte i,
    s.bytes (ptr + i) = value
  inside : ∀ ptr, ∀ array ∈ c ptr,
    s.allocator.mem ≤ ptr ∧ ptr + array.size ≤ s.allocator.mem + s.allocator.size
  apart : ∀ p q, p ≠ q → ∀ a ∈ c p, ∀ b ∈ c q, p + a.size ≤ q ∨ q + b.size ≤ p

/-- A pointer handed out is not that of an array, but for one that is reallocated. -/
def HandsOutNew (fuel : Nat) (s : ByteState × Contents) (call : HeapCall) : Prop :=
  call.reply fuel s.1 ≠ 0 → s.2 (call.reply fuel s.1) = none ∨
    ∃ size, call = .realloc (call.reply fuel s.1) size

/-! ## The invariant -/

variable {used : ListName → Prop} {F : Nodes} {fuel ptr size buffer total : Nat}
  {s t : ByteState} {c : Contents} {array : Stored} {bytes : Bytes}

/-- The block of a pointer has room for the array, and holds what was stored in it. -/
structure Backed (s : ByteState) (ptr : Nat) (array : Stored) : Prop where
  room : array.size + sizeofMemNode ≤ s.blockSize ptr
  read : ∀ i < array.size, ∀ value ∈ array.byte i, s.bytes (ptr + i) = value

/-- The arrays of the program are the live blocks. -/
structure Backs (s : ByteState) (c : Contents) : Prop where
  layout : ∃ F, Layout IsBucket [] s.view F
  live : ∀ ptr, ptr ∈ s.live ↔ (c ptr).isSome
  backed : ∀ ptr, ∀ array ∈ c ptr, Backed s ptr array

theorem Layout.ne_zero (h : Layout used [] s.view F) (hptr : ptr ∈ s.live) : ptr ≠ 0 := by
  have hheader := h.live_header hptr
  unfold sizeofMemNode at hheader
  omega

/-- A pointer is live once. -/
theorem Layout.not_mem_erase (h : Layout used [] s.view F) (hptr : ptr ∈ s.live) :
    ptr ∉ s.live.erase ptr := fun hmem =>
  ((h.reclaim hptr).live_ne hmem).1 (header ptr) (List.mem_singleton_self _) rfl

theorem Layout.not_mem_tail {a : GeneralPurposeAllocator} {live : List Nat}
    (h : Layout used [] (ByteState.view ⟨bytes, a, ptr :: live⟩) F) : ptr ∉ live := by
  have hnot := h.not_mem_erase (List.mem_cons_self ..)
  rwa [List.erase_cons_head] at hnot

theorem Backs.zero (h : Backs s c) : c 0 = none := by
  obtain ⟨F, hlayout⟩ := h.layout
  rw [← Option.not_isSome_iff_eq_none, ← h.live]
  exact fun hmem => hlayout.ne_zero hmem rfl

/-- A block whose bytes stay backs its array. -/
theorem Backed.kept (h : Backed s ptr array) (hheader : header ptr + sizeofMemNode = ptr)
    (hkept : Kept s.bytes t.bytes ptr) : Backed t ptr array := by
  have hroom := h.room
  have hsize : t.blockSize ptr = s.blockSize ptr :=
    congrArg MemNode.size (hkept.header_eq ((Nat.le_add_left _ _).trans hroom))
  refine ⟨by rw [hsize]; exact hroom, fun i hi value hvalue => ?_⟩
  rw [← h.read i hi value hvalue]
  rw [ByteState.blockSize] at hroom
  exact hkept (ptr + i) (by omega) (by omega)

/-- Arrays whose blocks stay are backed. -/
theorem Backs.kept (h : Backs s c) (hlayout : Layout used [] s.view F) {live : List Nat}
    (hlive : ∀ p ∈ live, p ∈ s.live) (hkept : ∀ p ∈ live, Kept s.bytes t.bytes p) {p : Nat}
    (hp : p ∈ live) : ∀ array ∈ c p, Backed t p array := fun array harray =>
  (h.backed p array harray).kept (hlayout.live_header (hlive p hp)) (hkept p hp)

/-! ## What each call does to the arrays -/

/-- A new array beside the others. -/
theorem Backs.granted (h : Backs s c) (hlayout : Layout IsBucket [] s.view F)
    {r : Nat × Bytes × GeneralPurposeAllocator} (hr : Granted IsBucket s size r)
    (hsize : size + sizeofMemNode ≤ roundedSize size) :
    Backs ⟨r.2.1, r.2.2, r.1 :: s.live⟩ (c.alloc size r.1) ∧ c r.1 = none := by
  obtain ⟨F', hlayout'⟩ := hr.layout
  have hnew : c r.1 = none := by
    rw [← Option.not_isSome_iff_eq_none, ← h.live]
    exact hlayout'.not_mem_tail
  rw [Contents.alloc, if_neg hr.ne_zero]
  refine ⟨⟨hr.layout, fun p => ?_, fun p => ?_⟩, hnew⟩
  · rcases eq_or_ne p r.1 with rfl | hne
    · simp
    · rw [Function.update_of_ne hne, ← h.live, List.mem_cons, or_iff_right hne]
  · rcases eq_or_ne p r.1 with rfl | hne
    · rw [Function.update_self]
      rintro _ ⟨⟩
      exact ⟨hsize.trans hr.size_le, fun _ _ _ hvalue => by cases hvalue⟩
    · rw [Function.update_of_ne hne]
      intro array harray
      have hp : p ∈ s.live := (h.live p).mpr (Option.isSome_of_mem harray)
      exact h.kept hlayout (fun _ => id) hr.kept hp array harray

/-- Sizes that are rounded to at most `2 ^ 23` have a bucket. -/
theorem bucketed_of_le (hsize : size + sizeofMemNode ≤ 2 ^ 23) (s : State) :
    Bucketed s (.alloc size) ∧ size + sizeofMemNode ≤ roundedSize size := by
  have hword : size + sizeofMemNode < 2 ^ 64 := Nat.lt_of_le_of_lt hsize (by decide)
  have hsmall : requestSize size ≤ generalPurposeMax := by
    have hmax : generalPurposeMax = 2 ^ 25 := rfl
    rcases requestSize_cases hword with ⟨-, -, -, hlt⟩ | ⟨-, hzero⟩ <;> omega
  obtain ⟨k, hk, ⟨hlow, hle, hhigh⟩ | ⟨-, hout⟩⟩ := roundedSize_cases hword hsmall
  · have hbucket : bucketOf (2 ^ (8 + (k.val - 8))) =
        some ⟨k.val - 8, by have := hhigh hsize; omega⟩ :=
      (bucketOf_fits ⟨k.val - 8, by have := hhigh hsize; omega⟩).1
    rw [Nat.add_sub_cancel' (by omega), ← hk] at hbucket
    refine ⟨⟨?_, by rw [hbucket]; rfl⟩, hk ▸ hle⟩
    rw [hk]
    exact Nat.pow_le_pow_right (by decide) (hhigh hsize)
  · omega

/-- `GeneralPurposeAlloc` answers null and changes nothing, or grants a new array. -/
theorem Backs.alloc (h : Backs s c) (hmem : 2 ^ 23 ≤ s.allocator.mem)
    (hsize : size + sizeofMemNode ≤ 2 ^ 23) (hfuel : 2 ^ 64 ≤ fuel) :
    ∃ r, allocBytes fuel s.bytes s.allocator size = some r ∧
      Backs ⟨r.2.1, r.2.2, if r.1 = 0 then s.live else r.1 :: s.live⟩ (c.alloc size r.1) ∧
      (r.1 ≠ 0 → c r.1 = none) := by
  obtain ⟨F, hlayout⟩ := h.layout
  obtain ⟨hbucketed, hrounded⟩ := bucketed_of_le hsize s.view
  obtain ⟨hservable, hused⟩ := hlayout.bucketed_servable hmem hbucketed
  obtain ⟨r, hr, hres⟩ := allocBytes_spec hlayout hservable hused hfuel
  refine ⟨r, hr, ?_⟩
  rcases hres with rfl | hgranted
  · exact ⟨by simpa [Contents.alloc] using h, fun hne => absurd rfl hne⟩
  · rw [if_neg hgranted.ne_zero]
    obtain ⟨hbacks, hnew⟩ := h.granted hlayout hgranted hrounded
    exact ⟨hbacks, fun _ => hnew⟩

/-- `GeneralPurposeFree` takes the array away. -/
theorem Backs.free (h : Backs s c) (hptr : ptr = 0 ∨ (c ptr).isSome) (hfuel : 2 ^ 64 ≤ fuel) :
    ∃ r, freeBytes fuel s.bytes s.allocator ptr = some r ∧
      Backs ⟨r.1, r.2, s.live.erase ptr⟩ (c.free ptr) := by
  obtain ⟨F, hlayout⟩ := h.layout
  rcases hptr with rfl | hptr
  · -- The null pointer is no array.
    refine ⟨(storeHeaders s.bytes (headers s.bytes), s.allocator), rfl, ?_⟩
    have hsame : storeHeaders s.bytes (headers s.bytes) = s.bytes := memNodeCodec.lay_read s.bytes
    have hfree : c.free 0 = c := by
      rw [Contents.free, ← h.zero]
      exact Function.update_eq_self ..
    rw [hsame, hfree, List.erase_of_not_mem fun hmem => hlayout.ne_zero hmem rfl]
    exact h
  · have hlive := (h.live ptr).mpr hptr
    obtain ⟨r, hr, hlayout', hkept⟩ :=
      freeBytes_spec hlayout hlive (hlayout.forgetsNoPrev hlive) hfuel
    refine ⟨r, hr, hlayout', fun p => ?_, fun p => ?_⟩
    · rcases eq_or_ne p ptr with rfl | hne
      · simp [Contents.free, hlayout.not_mem_erase hlive]
      · rw [Contents.free, Function.update_of_ne hne, ← h.live]
        exact List.mem_erase_of_ne hne
    · rcases eq_or_ne p ptr with rfl | hne
      · rw [Contents.free, Function.update_self]
        exact fun _ harray => by cases harray
      · rw [Contents.free, Function.update_of_ne hne]
        intro array harray
        have hp : p ∈ s.live.erase ptr :=
          (List.mem_erase_of_ne hne).mpr ((h.live p).mpr (Option.isSome_of_mem harray))
        exact h.kept hlayout (fun _ => List.mem_of_mem_erase) hkept hp array harray

/-- A store into an array is read back there and nowhere else. -/
theorem Backs.write (h : Backs s c) (harray : array ∈ c ptr) {index : Nat}
    (hindex : index < array.size) (value : UInt8) :
    Backs { s with bytes := Function.update s.bytes (ptr + index) value }
      (c.write ptr index value) := by
  obtain ⟨F, hlayout⟩ := h.layout
  have hlive := (h.live ptr).mpr (Option.isSome_of_mem harray)
  have hheader := hlayout.live_header hlive
  have hroom := (h.backed ptr array harray).room
  rw [ByteState.blockSize] at hroom
  have houtside : ∀ x, x < ptr ∨ header ptr + (headers s.bytes (header ptr)).size ≤ x →
      Function.update s.bytes (ptr + index) value x = s.bytes x := fun x hx =>
    Function.update_of_ne (by omega) ..
  obtain ⟨hstored, hself, hothers⟩ := hlayout.store hlive houtside
  refine ⟨⟨F, hstored⟩, fun p => ?_, fun p => ?_⟩
  · rcases eq_or_ne p ptr with rfl | hne
    · rw [Contents.write, Function.update_self, Option.isSome_map]
      exact h.live p
    · rw [Contents.write, Function.update_of_ne hne]
      exact h.live p
  · rcases eq_or_ne p ptr with rfl | hne
    · rw [Contents.write, Function.update_self, Option.mem_def.mp harray]
      rintro _ ⟨⟩
      rw [← hself] at hroom
      refine ⟨hroom, fun i hi v hv => ?_⟩
      have hv' : Function.update array.byte index (some value) i = some v := hv
      rcases eq_or_ne i index with rfl | hne
      · rw [Function.update_self] at hv'
        cases hv'
        exact Function.update_self ..
      · rw [Function.update_of_ne hne] at hv'
        rw [← (h.backed p array harray).read i hi v hv']
        exact Function.update_of_ne (by omega) ..
    · rw [Contents.write, Function.update_of_ne hne]
      intro array' harray'
      have hp : p ∈ s.live.erase ptr :=
        (List.mem_erase_of_ne hne).mpr ((h.live p).mpr (Option.isSome_of_mem harray'))
      exact h.kept hlayout (fun _ => List.mem_of_mem_erase) hothers hp array' harray'

/-- `GeneralPurposeRealloc` of an array keeps what both sizes reach: in place, or at a
pointer that is new, or it answers null and keeps all. -/
theorem Backs.realloc (h : Backs s c) (hmem : 2 ^ 23 ≤ s.allocator.mem) (harray : array ∈ c ptr)
    (hsize : size + sizeofMemNode ≤ 2 ^ 23)
    (hstays : size < s.blockSize ptr → size + sizeofMemNode ≤ s.blockSize ptr)
    (hfuel : 2 ^ 64 ≤ fuel) :
    ∃ r, generalPurposeRealloc fuel s.bytes s.allocator ptr size = some r ∧
      Backs ⟨r.2.1, r.2.2, if r.1 = 0 ∨ r.1 = ptr then s.live else r.1 :: s.live.erase ptr⟩
        (c.realloc ptr size r.1) ∧ (r.1 ≠ 0 → r.1 ≠ ptr → c r.1 = none) := by
  obtain ⟨F, hlayout⟩ := h.layout
  obtain ⟨hbucketed, hrounded⟩ := bucketed_of_le hsize s.view
  obtain ⟨hservable, hused⟩ := @Layout.bucketed_servable s F fuel size hlayout hmem hbucketed
  have hlive := (h.live ptr).mpr (Option.isSome_of_mem harray)
  have hne := hlayout.ne_zero hlive
  have hheader := hlayout.live_header hlive
  obtain ⟨hroom, hread⟩ := h.backed ptr array harray
  obtain ⟨r, hr, hres⟩ := generalPurposeRealloc_spec hlayout hlive
    (fun _ => ⟨hservable, hused, hlayout.movesCleanly hmem hlive hbucketed hfuel⟩) hfuel
  refine ⟨r, hr, ?_⟩
  rw [Contents.realloc, Option.mem_def.mp harray]
  dsimp only
  rcases hres with ⟨hplace, rfl⟩ | ⟨-, rfl | hmoved⟩
  · -- In place.
    refine ⟨?_, fun _ hother => absurd rfl hother⟩
    rw [if_pos (Or.inr rfl), if_neg hne, Contents.free, Function.update_idem]
    refine ⟨⟨F, hlayout⟩, fun p => ?_, fun p => ?_⟩
    · rcases eq_or_ne p ptr with rfl | hother
      · simpa using hlive
      · rw [Function.update_of_ne hother]
        exact h.live p
    · rcases eq_or_ne p ptr with rfl | hother
      · rw [Function.update_self]
        rintro _ ⟨⟩
        refine ⟨hstays hplace, fun i _ v hv => ?_⟩
        have hv' : (if i < min array.size size then array.byte i else none) = some v := hv
        split at hv'
        · exact hread i (Nat.lt_of_lt_of_le ‹_› (Nat.min_le_left _ _)) v hv'
        · cases hv'
      · rw [Function.update_of_ne hother]
        exact h.backed p
  · exact ⟨by simpa using h, fun hnull => absurd rfl hnull⟩
  · -- Moved.
    obtain ⟨F', hlayout'⟩ := hmoved.layout
    have hnot := hlayout'.not_mem_tail
    have hnew : c r.1 = none := by
      rw [← Option.not_isSome_iff_eq_none, ← h.live]
      exact fun hmem => hnot ((List.mem_erase_of_ne hmoved.ne_ptr).mpr hmem)
    refine ⟨?_, fun _ _ => hnew⟩
    rw [if_neg (not_or.mpr ⟨hmoved.ne_zero, hmoved.ne_ptr⟩), if_neg hmoved.ne_zero]
    refine ⟨hmoved.layout, fun p => ?_, fun p => ?_⟩
    · rcases eq_or_ne p r.1 with rfl | hother
      · simp
      · rw [Function.update_of_ne hother, List.mem_cons, or_iff_right hother, Contents.free]
        rcases eq_or_ne p ptr with rfl | hother'
        · simp [hlayout.not_mem_erase hlive]
        · rw [Function.update_of_ne hother', ← h.live]
          exact List.mem_erase_of_ne hother'
    · rcases eq_or_ne p r.1 with rfl | hother
      · rw [Function.update_self]
        rintro _ ⟨⟩
        have hroom' := hrounded.trans hmoved.size_le
        refine ⟨hroom', fun i hi v hv => ?_⟩
        have hv' : (if i < min array.size size then array.byte i else none) = some v := hv
        split at hv'
        · rename_i hlt
          obtain ⟨hlt, -⟩ := Nat.lt_min.mp hlt
          rw [← hread i hlt v hv']
          refine hmoved.bytes_eq i ?_ (Nat.lt_of_lt_of_le (Nat.add_lt_add_right hi _) hroom')
          exact Nat.lt_of_lt_of_le (Nat.add_lt_add_right hlt _) hroom
        · cases hv'
      · rw [Function.update_of_ne hother]
        intro array' harray'
        have hother' : p ≠ ptr := by
          rintro rfl
          rw [Contents.free, Function.update_self] at harray'
          cases harray'
        rw [Contents.free, Function.update_of_ne hother'] at harray'
        have hp : p ∈ s.live.erase ptr :=
          (List.mem_erase_of_ne hother').mpr ((h.live p).mpr (Option.isSome_of_mem harray'))
        exact h.kept hlayout (fun _ => List.mem_of_mem_erase) hmoved.kept hp array' harray'

/-- After `GeneralPurposeClearAll` there are no arrays, and all of the buffer is free. -/
theorem Backs.clearAll (h : Backs s c) :
    Backs ⟨s.bytes, generalPurposeClearAll s.allocator, []⟩ fun _ => none := by
  obtain ⟨F, hlayout⟩ := h.layout
  have htop : s.allocator.mem + s.allocator.size < 2 ^ 64 := hlayout.top_lt
  exact ⟨⟨_, layout_zero (headers s.bytes) (u64_eq htop) htop hlayout.buffer⟩, fun _ => by simp,
    fun _ _ harray => by cases harray⟩

/-! ## Runs -/

theorem Backs.holds (h : Backs s c) : Holds s c := by
  obtain ⟨F, hlayout⟩ := h.layout
  have hdisjoint := hlayout.disjoint
  have hlive : ∀ {p}, ∀ array ∈ c p, p ∈ s.live := fun {p} array harray =>
    (h.live p).mpr (Option.isSome_of_mem harray)
  have hblock : ∀ p, ∀ array ∈ c p, header p + sizeofMemNode = p ∧
      array.size + sizeofMemNode ≤ (s.view.block p).size ∧ (s.view.block p).start = header p :=
    fun p array harray =>
      ⟨hlayout.live_header (hlive array harray), (h.backed p array harray).room, rfl⟩
  refine ⟨fun p array harray => (h.backed p array harray).read, fun p array harray => ?_,
    fun p q hne a ha b hb => ?_⟩
  · obtain ⟨hheader, hroom, hstart⟩ := hblock p array harray
    have hinside := hdisjoint.inside p (hlive array harray)
    have hview : s.view.allocator = s.allocator := rfl
    rw [hstart, hview] at hinside
    omega
  · obtain ⟨hp, hproom, hpstart⟩ := hblock p a ha
    obtain ⟨hq, hqroom, hqstart⟩ := hblock q b hb
    have hsymm : Std.Symm fun p q => (s.view.block p).Apart (s.view.block q) :=
      ⟨fun _ _ hapart => hapart.symm⟩
    have hapart := hdisjoint.apart.forall (hlive a ha) (hlive b hb) hne
    simp only [Block.Apart, hpstart, hqstart] at hapart
    omega

theorem watchedStep_eq {call : HeapCall} {r : Nat} (h : heapStep fuel s call = some t)
    (hreply : call.reply fuel s = r) : watchedStep fuel (s, c) call = some (t, c.step r call) := by
  rw [watchedStep, h, hreply]
  rfl

/-- Every legal call returns, hands out a new pointer if any, and keeps the arrays. -/
theorem Backs.step (h : Backs s c) (hmem : 2 ^ 23 ≤ s.allocator.mem) {call : HeapCall}
    (hlegal : Legal (s, c) call) (hfuel : 2 ^ 64 ≤ fuel) :
    (∃ t, watchedStep fuel (s, c) call = some t ∧ Backs t.1 t.2) ∧
      HandsOutNew fuel (s, c) call := by
  cases call with
  | alloc size =>
    obtain ⟨r, hr, hbacks, hnew⟩ := h.alloc hmem hlegal hfuel
    have hreply : HeapCall.reply fuel s (.alloc size) = r.1 := by
      simp [HeapCall.reply, HeapCall.byteCall, ByteCall.reply, hr]
    refine ⟨⟨_, watchedStep_eq (congrArg (Option.map _) hr) hreply, hbacks⟩, fun hne => Or.inl ?_⟩
    rw [hreply] at hne ⊢
    exact hnew hne
  | free ptr =>
    obtain ⟨r, hr, hbacks⟩ := h.free hlegal hfuel
    exact ⟨⟨_, watchedStep_eq (congrArg (Option.map _) hr) rfl, hbacks⟩, fun hne => absurd rfl hne⟩
  | realloc ptr size =>
    obtain ⟨hptr, hsize, hstays⟩ := hlegal
    rcases eq_or_ne ptr 0 with rfl | hne
    · obtain ⟨F, hlayout⟩ := h.layout
      obtain ⟨r, hr, hbacks, hnew⟩ := h.alloc hmem hsize hfuel
      have hr' : generalPurposeRealloc fuel s.bytes s.allocator 0 size = some r := hr
      have hreply : HeapCall.reply fuel s (.realloc 0 size) = r.1 := by
        simp [HeapCall.reply, HeapCall.byteCall, ByteCall.reply, hr']
      have herase : s.live.erase 0 = s.live :=
        List.erase_of_not_mem fun hmem => hlayout.ne_zero hmem rfl
      have hcontents : c.realloc 0 size r.1 = c.alloc size r.1 := by rw [Contents.realloc, h.zero]
      have hstep : heapStep fuel s (.realloc 0 size) =
          some ⟨r.2.1, r.2.2, if r.1 = 0 then s.live else r.1 :: s.live⟩ := by
        simp only [heapStep, HeapCall.byteCall, byteStep, hr', Option.map_some, or_self, herase]
      refine ⟨⟨_, watchedStep_eq hstep hreply, ?_⟩, fun hne => Or.inl ?_⟩
      · rw [Contents.step, hcontents]
        exact hbacks
      · rw [hreply] at hne ⊢
        exact hnew hne
    · obtain ⟨array, harray⟩ := Option.isSome_iff_exists.mp (hptr.resolve_left hne)
      have hword : size + sizeofMemNode < 2 ^ 64 := Nat.lt_of_le_of_lt hsize (by decide)
      obtain ⟨r, hr, hbacks, hnew⟩ := h.realloc hmem harray hsize (hstays hne hword) hfuel
      have hreply : HeapCall.reply fuel s (.realloc ptr size) = r.1 := by
        simp [HeapCall.reply, HeapCall.byteCall, ByteCall.reply, hr]
      refine ⟨⟨_, watchedStep_eq (congrArg (Option.map _) hr) hreply, hbacks⟩, fun hnull => ?_⟩
      rw [hreply] at hnull ⊢
      rcases eq_or_ne r.1 ptr with heq | hother
      · exact Or.inr ⟨size, by rw [heq]⟩
      · exact Or.inl (hnew hnull hother)
  | write ptr index value =>
    obtain ⟨array, harray, hindex⟩ := hlegal
    exact ⟨⟨_, rfl, h.write harray hindex value⟩, fun hne => absurd rfl hne⟩
  | clearAll => exact ⟨⟨_, rfl, h.clearAll⟩, fun hne => absurd rfl hne⟩

theorem heapStep_buffer {call : HeapCall} (h : heapStep fuel s call = some t) :
    SameBuffer s.allocator t.allocator := by
  unfold heapStep at h
  split at h
  · exact byteStep_buffer h
  · cases h
    exact ⟨rfl, rfl⟩

/-- A new allocator, and no array. -/
def watched (bytes : Bytes) (buffer total : Nat) : ByteState × Contents :=
  (ByteState.create bytes buffer total, fun _ => none)

theorem backs_create (htop : buffer + total < 2 ^ 64) :
    Backs (ByteState.create bytes buffer total) fun _ => none :=
  ⟨⟨_, layout_createBytes htop⟩, fun _ => by simp [ByteState.create], fun _ _ harray => by
    cases harray⟩

/-- `GeneralPurposeClearAll` leaves the allocator that was created. -/
theorem generalPurposeClearAll_eq {a : GeneralPurposeAllocator} (hbuffer : 0 < buffer)
    (htotal : sizeofMemNode < total) (hmem : a.mem = buffer) (hsize : a.size = total) :
    generalPurposeClearAll a = generalPurposeCreate buffer total := by
  rw [generalPurposeClearAll, generalPurposeCreate, if_neg (by unfold sizeofMemNode at *; omega),
    hmem, hsize]

/-- In every run of bucketed requests, the allocator is a store of separate arrays, and
`GeneralPurposeClearAll` makes it a new one. -/
theorem generalPurpose_contents (hbuffer : 2 ^ 23 ≤ buffer) (htotal : sizeofMemNode < total)
    (htop : buffer + total < 2 ^ 64) (hfuel : 2 ^ 64 ≤ fuel) {calls : List HeapCall}
    (hlegal : AtEach (watchedStep fuel) Legal (watched bytes buffer total) calls) :
    (∃ s c, exec (watchedStep fuel) (watched bytes buffer total) calls = some (s, c) ∧
        s.allocator.mem = buffer ∧ s.allocator.size = total ∧ Holds s c ∧
        heapStep fuel s .clearAll = some (ByteState.create s.bytes buffer total)) ∧
      AtEach (watchedStep fuel) (HandsOutNew fuel) (watched bytes buffer total) calls := by
  let I : ByteState × Contents → Prop := fun s =>
    Backs s.1 s.2 ∧ s.1.allocator.mem = buffer ∧ s.1.allocator.size = total
  have hstart : I (watched bytes buffer total) := by
    refine ⟨backs_create htop, ?_⟩
    rw [watched, ByteState.create, generalPurposeCreate,
      if_neg (by unfold sizeofMemNode at *; omega)]
    exact ⟨rfl, rfl⟩
  have hkeep : ∀ s call, I s → Legal s call → ∃ t, watchedStep fuel s call = some t ∧ I t := by
    intro s call hs hcall
    obtain ⟨h, hmem, hsize⟩ := hs
    obtain ⟨⟨t, ht, hbacks⟩, -⟩ := h.step (hmem ▸ hbuffer) hcall hfuel
    obtain ⟨u, hu, rfl⟩ := Option.map_eq_some_iff.mp ht
    obtain ⟨hmem', hsize'⟩ := heapStep_buffer hu
    exact ⟨_, ht, hbacks, hmem'.trans hmem, hsize'.trans hsize⟩
  have hnew : ∀ s call, I s → Legal s call → HandsOutNew fuel s call := by
    intro s call hs hcall
    exact (hs.1.step (hs.2.1 ▸ hbuffer) hcall hfuel).2
  obtain ⟨⟨s, c⟩, hs, hbacks, hmem, hsize⟩ := hlegal.exec_invariant I hkeep hstart
  have hclear : heapStep fuel s .clearAll = some (ByteState.create s.bytes buffer total) := by
    rw [ByteState.create, ← generalPurposeClearAll_eq (by omega) htotal hmem hsize]
    rfl
  exact ⟨⟨s, c, hs, hmem, hsize, hbacks.holds, hclear⟩, hlegal.imp I hkeep hnew hstart⟩

/-- An array with a byte stored grows in place; after `GeneralPurposeClearAll` its pointer
is handed out again. -/
theorem generalPurpose_contents_cleared :
    (∃ s c, exec (watchedStep (2 ^ 64)) (watched zeroBytes (2 ^ 24) (2 ^ 20))
        [.alloc 100, .write 17825304 5 7, .realloc 17825304 300, .clearAll, .alloc 50] =
          some (s, c) ∧
        s.allocator.mem = 2 ^ 24 ∧ s.allocator.size = 2 ^ 20 ∧ Holds s c ∧
        heapStep (2 ^ 64) s .clearAll = some (ByteState.create s.bytes (2 ^ 24) (2 ^ 20))) ∧
      AtEach (watchedStep (2 ^ 64)) (HandsOutNew (2 ^ 64)) (watched zeroBytes (2 ^ 24) (2 ^ 20))
        [.alloc 100, .write 17825304 5 7, .realloc 17825304 300, .clearAll, .alloc 50] :=
  generalPurpose_contents (by decide) (by decide) (by decide) (Nat.le_refl _) (by decide +kernel)

end ScalBase.HeapAllocator
