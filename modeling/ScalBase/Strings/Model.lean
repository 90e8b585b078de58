/-
  Strings/Model.lean --- the length-prefixed strings of `Lib/String.h`.

  A string is a block: the header, with `Length` and `Capacity`, and the bytes behind
  it.  Here the header is two fields and `bytes` is the rest of the block, up to its
  end; a store that leaves the block has no result.  Lengths are `u32`.

  Memory that is allocated holds anything, which is the argument `fresh`.  The
  allocations succeed.  `zpl_char_first_occurence` is not part of this library; it is
  the argument `first`, which answers whether the pointer returned is not null.
  `SAssert`s are compiled out.
-/
import ScalBase.Base
import ScalBase.Foundation.Block
import ScalBase.Foundation.Loop

set_option autoImplicit false

namespace ScalBase.Strings

open Foundation Foundation.Block

/-- A `String` and its block. -/
structure String where
  length : Nat
  capacity : Nat
  bytes : List UInt8
  deriving DecidableEq, Repr

/-- `sizeof(string_header)`. -/
def headerSize : Nat := 8

/-- The bytes behind the header in a block of `size` bytes that were not written. -/
def freshBytes (size : Nat) (fresh : Nat → UInt8) : List UInt8 :=
  (List.range (size - headerSize)).map fresh

/-- The bytes behind the header in a block of `size` bytes after `SMemZero`. -/
def zeroBytes (size : Nat) : List UInt8 := List.replicate (size - headerSize) 0

@[simp] theorem length_freshBytes (size : Nat) (fresh : Nat → UInt8) :
    (freshBytes size fresh).length = size - headerSize := by
  rw [freshBytes, List.length_map, List.length_range]

@[simp] theorem length_zeroBytes (size : Nat) : (zeroBytes size).length = size - headerSize :=
  List.length_replicate

/-! ## Making strings -/

/-- `StringMakeReserve`. -/
def stringMakeReserve (capacity : Nat) : Option String := do
  let bytes := zeroBytes (u32 (headerSize + capacity + 1))
  let bytes ← store bytes capacity [0]
  some ⟨0, capacity, bytes⟩

/-- `StringMakeLength`.  `initStr` is none for a null pointer, and otherwise the bytes
there, of which there are at least `numBytes`. -/
def stringMakeLength (initStr : Option (List UInt8)) (numBytes : Nat) (fresh : Nat → UInt8) :
    Option String := do
  let size := u32 (headerSize + numBytes + 1)
  let bytes := if initStr.isNone then zeroBytes size else freshBytes size fresh
  let bytes ← match initStr with
    | some init => store bytes 0 (init.take numBytes)
    | none => some bytes
  let bytes ← store bytes numBytes [0]
  some ⟨numBytes, numBytes, bytes⟩

/-- `StringMakeAllocator`.  `initStr` is none for a null pointer, and otherwise the
C string there. -/
def stringMakeAllocator (initStr : Option (List UInt8)) (fresh : Nat → UInt8) : Option String := do
  let len := (initStr.getD []).length
  let size := headerSize + len + 1
  let bytes := if initStr.isNone then zeroBytes size else freshBytes size fresh
  let bytes ← store bytes 0 (initStr.getD [])
  let bytes ← store bytes len [0]
  some ⟨u32 len, u32 len, bytes⟩

namespace String

/-! ## Appending -/

/-- `StringAvailableSpace`. -/
def stringAvailableSpace (s : String) : Nat :=
  if s.capacity > s.length then s.capacity - s.length else 0

/-- `StringMemorySize`. -/
def stringMemorySize (s : String) : Nat := u32 (headerSize + s.capacity)

/-- The end of the two append functions: the bytes, the terminator, the length. -/
def appendBytes (s : String) (other : List UInt8) : Option String := do
  let currLen := s.length
  let bytes ← store s.bytes currLen other
  let bytes ← store bytes (u32 (currLen + other.length)) [0]
  some { s with bytes := bytes, length := u32 (currLen + other.length) }

/-- `StringAppendLength`. -/
def stringAppendLength (s : String) (other : List UInt8) : Option String :=
  if other.length > 0 then
    if u32 (s.length + other.length) > s.capacity then some s else s.appendBytes other
  else some s

/-- `StringAppendString`.  `other` is none where the string is appended to itself. -/
def stringAppendString (s : String) (other : Option (List UInt8)) : Option String :=
  s.stringAppendLength (other.getD (s.bytes.take s.length))

/-- The block after `SAllocatorRealloc` to `newSize` bytes. -/
def realloc (s : String) (newSize newCapacity : Nat) (fresh : Nat → UInt8) : String :=
  { s with capacity := newCapacity, bytes := resize s.bytes (newSize - headerSize) fresh }

/-- `StringAppendAllocator`. -/
def stringAppendAllocator (s : String) (other : List UInt8) (fresh : Nat → UInt8) :
    Option String :=
  if other.length > 0 then
    let newLen := u32 (s.length + other.length)
    if newLen > s.capacity then
      (s.realloc (u32 (s.stringMemorySize + other.length)) newLen fresh).appendBytes other
    else s.appendBytes other
  else some s

/-- `StringMakeSpaceFor`. -/
def stringMakeSpaceFor (s : String) (addLen : Nat) (fresh : Nat → UInt8) : String :=
  if s.stringAvailableSpace ≥ addLen then s
  else
    let newLen := u32 (s.length + addLen)
    s.realloc (u32 (headerSize + newLen + 1)) newLen fresh

/-! ## Setting, trimming, clearing -/

/-- `StringSet`, of a C string. -/
def stringSet (s : String) (cstr : List UInt8) : Option String := do
  let len := if s.capacity < u32 cstr.length then s.capacity else cstr.length
  let bytes ← store s.bytes 0 (cstr.take (u32 len))
  let bytes ← store bytes len [0]
  some { s with bytes := bytes, length := u32 len }

/-- `StringClear`. -/
def stringClear (s : String) : Option String := do
  let bytes ← store s.bytes 0 [0]
  some { s with bytes := bytes, length := 0 }

/-- One turn of the first loop in `StringTrim`.  Positions are relative to `str`. -/
def startTurn (first : List UInt8 → UInt8 → Bool) (s : String) (cutSet : List UInt8) (end_ : Int)
    (startPos : Int) : Turn Int Int :=
  if startPos ≤ end_ ∧ first cutSet (s.bytes.getD startPos.toNat 0) then .again (startPos + 1)
  else .done startPos

/-- One turn of the second loop in `StringTrim`. -/
def endTurn (first : List UInt8 → UInt8 → Bool) (s : String) (cutSet : List UInt8) (startPos : Int)
    (endPos : Int) : Turn Int Int :=
  if endPos > startPos ∧ first cutSet (s.bytes.getD endPos.toNat 0) then .again (endPos - 1)
  else .done endPos

/-- `if (str != start_pos) SMemMove(str, start_pos, len);` -/
def moveToStart (s : String) (startPos : Int) (len : Nat) : Option (List UInt8) :=
  if startPos ≠ 0 then store s.bytes 0 ((s.bytes.drop startPos.toNat).take len)
  else some s.bytes

/-- `StringTrim`. -/
def stringTrim (first : List UInt8 → UInt8 → Bool) (fuel : Nat) (s : String)
    (cutSet : List UInt8) : Option String := do
  let end_ : Int := s.length - 1
  let startPos ← Loop.run (startTurn first s cutSet end_) fuel 0
  let endPos ← Loop.run (endTurn first s cutSet startPos) fuel end_
  let len := if startPos > endPos then 0 else (endPos - startPos + 1).toNat
  let bytes ← s.moveToStart startPos len
  let bytes ← store bytes len [0]
  some { s with bytes := bytes, length := len }

end String

end ScalBase.Strings
