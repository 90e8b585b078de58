/-
  Strings/Allocators.lean --- the strings of `Lib/String.h` over any allocator.

  An allocator may answer null, and may answer a block of another size than was asked for.
  Here it is a function from the size asked for to the bytes behind the header of the block
  that it gives.  A call has no result where a store leaves that block, and the result none
  where it returns null.

  `Strings/Model.lean` is the case of an allocator that always gives what is asked for.
-/
import ScalBase.Strings.Model

set_option autoImplicit false

namespace ScalBase.Strings

open Foundation Foundation.Block

/-! ## Making strings -/

section Making

variable (alloc : Nat → Option (List UInt8))

/-- `StringMakeReserve`. -/
def stringMakeReserveWith (capacity : Nat) : Option (Option String) :=
  let size := u32 (headerSize + capacity + 1)
  match alloc size with
  | none => some none
  | some block => do
      let bytes ← store block 0 (zeroBytes size)
      let bytes ← store bytes capacity [0]
      some (some ⟨0, capacity, bytes⟩)

/-- `StringMakeLength`. -/
def stringMakeLengthWith (initStr : Option (List UInt8)) (numBytes : Nat) :
    Option (Option String) :=
  let size := u32 (headerSize + numBytes + 1)
  match alloc size with
  | none => some none
  | some block => do
      let bytes ← match initStr with
        | some init => store block 0 (init.take numBytes)
        | none => store block 0 (zeroBytes size)
      let bytes ← store bytes numBytes [0]
      some (some ⟨numBytes, numBytes, bytes⟩)

/-- `StringMakeAllocator`. -/
def stringMakeAllocatorWith (initStr : Option (List UInt8)) : Option (Option String) :=
  let len := (initStr.getD []).length
  let size := headerSize + len + 1
  match alloc size with
  | none => some none
  | some block => do
      let bytes ← if initStr.isNone then store block 0 (zeroBytes size) else some block
      let bytes ← store bytes 0 (initStr.getD [])
      let bytes ← store bytes len [0]
      some (some ⟨u32 len, u32 len, bytes⟩)

end Making

/-! ## Growing strings -/

namespace String

variable (realloc : Nat → Option (List UInt8))

/-- `StringAppendAllocator`. -/
def stringAppendAllocatorWith (s : String) (other : List UInt8) : Option (Option String) :=
  if other.length > 0 then
    let newLen := u32 (s.length + other.length)
    if newLen > s.capacity then
      match realloc (u32 (s.stringMemorySize + other.length)) with
      | none => some none
      | some block => ({ s with capacity := newLen, bytes := block }.appendBytes other).map some
    else (s.appendBytes other).map some
  else some (some s)

/-- `StringMakeSpaceFor`. -/
def stringMakeSpaceForWith (s : String) (addLen : Nat) : Option String :=
  if s.stringAvailableSpace ≥ addLen then some s
  else
    let newLen := u32 (s.length + addLen)
    (realloc (u32 (headerSize + newLen + 1))).map fun block =>
      { s with capacity := newLen, bytes := block }

end String

/-! ## An allocator that gives what is asked for -/

section Granting

variable {fresh : Nat → UInt8}

/-- A store over a whole block. -/
theorem store_whole {block src : List UInt8} (h : block.length = src.length) :
    store block 0 src = some src := by
  have hstore := @store_append UInt8 [] block src h.ge
  rw [List.nil_append, List.nil_append, ← h, List.drop_length, List.append_nil] at hstore
  exact hstore

theorem store_fresh (size : Nat) :
    store (freshBytes size fresh) 0 (zeroBytes size) = some (zeroBytes size) := by
  apply store_whole
  rw [length_freshBytes, length_zeroBytes]

theorem stringMakeReserveWith_granting (capacity : Nat) :
    stringMakeReserveWith (fun size => some (freshBytes size fresh)) capacity =
      (stringMakeReserve capacity).map some := by
  simp only [stringMakeReserveWith, stringMakeReserve, store_fresh, Option.bind_eq_bind,
    Option.bind_some, Option.map_bind]
  rfl

theorem stringMakeLengthWith_granting (initStr : Option (List UInt8)) (numBytes : Nat) :
    stringMakeLengthWith (fun size => some (freshBytes size fresh)) initStr numBytes =
      (stringMakeLength initStr numBytes fresh).map some := by
  cases initStr with
  | none =>
    simp only [stringMakeLengthWith, stringMakeLength, store_fresh, Option.bind_eq_bind,
      Option.bind_some, Option.map_bind]
    rfl
  | some init =>
    simp only [stringMakeLengthWith, stringMakeLength, Option.isNone_some, Bool.false_eq_true,
      if_false, Option.bind_eq_bind, Option.map_bind, Function.comp_def, Option.map_some]

theorem stringMakeAllocatorWith_granting (initStr : Option (List UInt8)) :
    stringMakeAllocatorWith (fun size => some (freshBytes size fresh)) initStr =
      (stringMakeAllocator initStr fresh).map some := by
  cases initStr with
  | none =>
    simp only [stringMakeAllocatorWith, stringMakeAllocator, store_fresh, Option.isNone_none,
      if_true, Option.bind_eq_bind, Option.bind_some, Option.map_bind]
    rfl
  | some init =>
    simp only [stringMakeAllocatorWith, stringMakeAllocator, Option.isNone_some,
      Bool.false_eq_true, if_false, Option.bind_eq_bind, Option.bind_some, Option.map_bind,
      Function.comp_def, Option.map_some]

namespace String

variable {s : String}

theorem stringAppendAllocatorWith_granting (other : List UInt8) :
    s.stringAppendAllocatorWith (fun size => some (resize s.bytes (size - headerSize) fresh))
      other = (s.stringAppendAllocator other fresh).map some := by
  simp only [stringAppendAllocatorWith, stringAppendAllocator]
  split_ifs <;> rfl

theorem stringMakeSpaceForWith_granting (addLen : Nat) :
    s.stringMakeSpaceForWith (fun size => some (resize s.bytes (size - headerSize) fresh)) addLen =
      some (s.stringMakeSpaceFor addLen fresh) := by
  simp only [stringMakeSpaceForWith, stringMakeSpaceFor]
  split_ifs <;> rfl

end String

end Granting

end ScalBase.Strings
