/-
  Strings/InMemory.lean --- the functions of `Lib/String.h` over memory.

  `Strings/Model.lean` has a string as a value of its own.  Here it is the address of its
  first byte: the header is the two words in front of it, a store goes to memory, and
  memory that is not committed cannot be stored into.  A load is from memory that is
  committed, or that is `mapped` beside the arena (literals, the stack, the blocks of
  other allocators, never null).  A string that is appended is read where it lies, which
  may be in another string, or in the same one.

  Where the block of a string is committed, each function does to it what it does to the
  value, and leaves the rest of memory alone (`Becomes`).
-/
import ScalBase.Strings.Fixed
import ScalBase.Arena.Stack
import ScalBase.Foundation.Memory

set_option autoImplicit false

namespace ScalBase.Strings.InMemory

open Foundation Foundation.Memory
open Arenas (Store)

/-! ## Memory -/

/-- A store, to committed memory. -/
def put (s : Store) (dst n : Nat) (f : Nat → UInt8) : Option Store :=
  if ∀ i < n, s.state.committed (dst + i) = true then
    some { s with bytes := Memory.put s.bytes dst n f }
  else none

/-- `SMemZero`. -/
def sMemZero (s : Store) (dst n : Nat) : Option Store := put s dst n fun _ => 0

/-- `*ptr = c;` -/
def setByte (s : Store) (ptr : Nat) (c : UInt8) : Option Store := put s ptr 1 fun _ => c

/-- A `u32` is stored. -/
def setWord (s : Store) (ptr v : Nat) : Option Store := put s ptr 4 (byte v)

/-- A byte may be loaded. -/
def Readable (mapped : Nat → Bool) (s : Store) (a : Nat) : Prop :=
  s.state.committed a = true ∨ mapped a = true

instance (mapped : Nat → Bool) (s : Store) (a : Nat) : Decidable (Readable mapped s a) :=
  inferInstanceAs (Decidable (_ ∨ _))

section Definitions

variable (mapped : Nat → Bool)

/-- `SMemCopy`. -/
def sMemCopy (s : Store) (dst src n : Nat) : Option Store :=
  if ∀ i < n, Readable mapped s (src + i) then put s dst n fun i => s.bytes (src + i) else none

/-- A `u32` is loaded. -/
def getWord (s : Store) (ptr : Nat) : Option Nat :=
  if ∀ i < (4 : Nat), Readable mapped s (ptr + i) then some (load s.bytes ptr 4) else none

/-- One turn of the loop in `strlen`. -/
def lengthTurn (s : Store) (cstr : Nat) (i : Nat) : Turn Nat Nat :=
  if s.bytes (cstr + i) = 0 then .done i else .again (i + 1)

/-- `strlen`. -/
def strlen (fuel : Nat) (s : Store) (cstr : Nat) : Option Nat :=
  (Loop.run (Loop.guard (fun i => Readable mapped s (cstr + i)) (lengthTurn s cstr)) fuel 0).join

/-! ## The header -/

/-- `StringHeader`. -/
def stringHeader (str : Nat) : Nat := str - headerSize

/-- `StringLength`. -/
def stringLength (s : Store) (str : Nat) : Option Nat := getWord mapped s (stringHeader str)

/-- `StringCapacity`. -/
def stringCapacity (s : Store) (str : Nat) : Option Nat := getWord mapped s (stringHeader str + 4)

/-- `StringSetLength`. -/
def stringSetLength (s : Store) (str len : Nat) : Option Store := setWord s (stringHeader str) len

/-- `StringSetCapacity`. -/
def stringSetCapacity (s : Store) (str cap : Nat) : Option Store :=
  setWord s (stringHeader str + 4) cap

/-! ## Making strings -/

/-- `StringMakeReserve`, with null for an arena that is out of memory. -/
def stringMakeReserve (s : Store) (capacity : Nat) : Option (Option Nat × Store) :=
  match s.state.arenaPush (u32 (headerSize + capacity + 1)) with
  | (none, state) => some (none, { s with state := state })
  | (some ptr, state) => do
    let s ← sMemZero { s with state := state } ptr (u32 (headerSize + capacity + 1))
    let str := ptr + headerSize
    let s ← stringSetLength s str 0
    let s ← stringSetCapacity s str capacity
    let s ← setByte s (str + capacity) 0
    some (some str, s)

/-- `if (!init_str) SMemZero(ptr, size);` -/
def zeroWithout (s : Store) (initStr : Option Nat) (ptr size : Nat) : Option Store :=
  if initStr.isNone then sMemZero s ptr size else some s

/-- `if (num_bytes && init_str) SMemCopy(str, init_str, num_bytes);` -/
def copyFrom (s : Store) (initStr : Option Nat) (str numBytes : Nat) : Option Store :=
  match initStr with
  | some init => if numBytes ≠ 0 then sMemCopy mapped s str init numBytes else some s
  | none => some s

/-- `StringMakeLength`.  `initStr` is none for a null pointer. -/
def stringMakeLength (s : Store) (initStr : Option Nat) (numBytes : Nat) :
    Option (Option Nat × Store) :=
  match s.state.arenaPush (u32 (headerSize + numBytes + 1)) with
  | (none, state) => some (none, { s with state := state })
  | (some ptr, state) => do
    let s ← zeroWithout { s with state := state } initStr ptr (u32 (headerSize + numBytes + 1))
    let str := ptr + headerSize
    let s ← stringSetLength s str numBytes
    let s ← stringSetCapacity s str numBytes
    let s ← copyFrom mapped s initStr str numBytes
    let s ← setByte s (str + numBytes) 0
    some (some str, s)

/-- `StringMake`, of a C string or a null pointer. -/
def stringMake (fuel : Nat) (s : Store) (cstr : Option Nat) : Option (Option Nat × Store) := do
  let len ← match cstr with
    | some cstr => strlen mapped fuel s cstr
    | none => some 0
  stringMakeLength mapped s cstr (u32 len)

/-- `StringClone`. -/
def stringClone (s : Store) (str : Nat) : Option (Option Nat × Store) := do
  let len ← stringLength mapped s str
  stringMakeLength mapped s (some str) len

/-! ## Strings that are there -/

/-- `StringAppendLength`. -/
def stringAppendLength (s : Store) (str other otherLen : Nat) : Option Store :=
  if otherLen > 0 then do
    let currLen ← stringLength mapped s str
    let capacity ← stringCapacity mapped s str
    if u32 (currLen + otherLen) > capacity then some s
    else
      let s ← sMemCopy mapped s (str + currLen) other otherLen
      let s ← setByte s (str + u32 (currLen + otherLen)) 0
      stringSetLength s str (u32 (currLen + otherLen))
  else some s

/-- `StringAppend`, of a C string. -/
def stringAppend (fuel : Nat) (s : Store) (str other : Nat) : Option Store := do
  let len ← strlen mapped fuel s other
  stringAppendLength mapped s str other (u32 len)

/-- `StringAppendString`. -/
def stringAppendString (s : Store) (str other : Nat) : Option Store := do
  let len ← stringLength mapped s other
  stringAppendLength mapped s str other len

/-- `StringSet`, of a C string. -/
def stringSet (fuel : Nat) (s : Store) (str cstr : Nat) : Option Store := do
  let len ← strlen mapped fuel s cstr
  let capacity ← stringCapacity mapped s str
  let len := if capacity < u32 len then capacity else len
  let s ← sMemCopy mapped s str cstr (u32 len)
  let s ← setByte s (str + len) 0
  stringSetLength s str (u32 len)

/-- `StringClear`. -/
def stringClear (s : Store) (str : Nat) : Option Store := do
  let s ← stringSetLength s str 0
  setByte s str 0

/-- One turn of the first loop in `StringTrim`.  Positions are relative to `str`. -/
def startTurn (first : List UInt8 → UInt8 → Bool) (s : Store) (str : Nat) (cutSet : List UInt8)
    (end_ startPos : Int) : Turn Int Int :=
  if startPos ≤ end_ ∧ first cutSet (s.bytes (str + startPos.toNat)) then .again (startPos + 1)
  else .done startPos

/-- One turn of the second loop in `StringTrim`. -/
def endTurn (first : List UInt8 → UInt8 → Bool) (s : Store) (str : Nat) (cutSet : List UInt8)
    (startPos endPos : Int) : Turn Int Int :=
  if endPos > startPos ∧ first cutSet (s.bytes (str + endPos.toNat)) then .again (endPos - 1)
  else .done endPos

/-- `if (str != start_pos) SMemMove(str, start_pos, len);` -/
def moveToStart (s : Store) (str : Nat) (startPos : Int) (len : Nat) : Option Store :=
  if startPos ≠ 0 then sMemCopy mapped s str (str + startPos.toNat) len else some s

/-- `StringTrim`, of the characters in the C string `cutSet`. -/
def stringTrim (first : List UInt8 → UInt8 → Bool) (fuel : Nat) (s : Store) (str : Nat)
    (cutSet : List UInt8) : Option Store := do
  let length ← stringLength mapped s str
  let end_ : Int := length - 1
  let startPos ← (Loop.run (Loop.guard (fun pos => pos ≤ end_ → Readable mapped s (str + pos.toNat))
    (startTurn first s str cutSet end_)) fuel 0).join
  let endPos ← (Loop.run
    (Loop.guard (fun pos => pos > startPos → Readable mapped s (str + pos.toNat))
      (endTurn first s str cutSet startPos)) fuel end_).join
  let len := if startPos > endPos then 0 else (endPos - startPos + 1).toNat
  let s ← moveToStart mapped s str startPos len
  let s ← setByte s (str + len) 0
  stringSetLength s str len

/-- `lhs[i] != rhs[i]`, the other way. -/
def sameAt (s : Store) (lhs rhs i : Nat) : Option Bool :=
  if Readable mapped s (lhs + i) ∧ Readable mapped s (rhs + i) then
    some (s.bytes (lhs + i) == s.bytes (rhs + i))
  else none

/-- `StringAreEqual`. -/
def stringAreEqual (s : Store) (lhs rhs : Nat) : Option Bool := do
  let lhsLen ← stringLength mapped s lhs
  let rhsLen ← stringLength mapped s rhs
  if lhsLen ≠ rhsLen then some false else (List.range lhsLen).allM (sameAt mapped s lhs rhs)

end Definitions

/-! ## A string at its address -/

/-- The block at `str`, of `size` bytes behind the header, is the one of `x`. -/
structure Placed (m : Nat → UInt8) (str size : Nat) (x : String) : Prop where
  header : headerSize ≤ str
  length : load m (stringHeader str) 4 = x.length
  capacity : load m (stringHeader str + 4) 4 = x.capacity
  bytes : read m str size = x.bytes

/-- The block is committed. -/
def Usable (s : Store) (str size : Nat) : Prop :=
  ∀ i < headerSize + size, s.state.committed (stringHeader str + i) = true

/-- Nothing but the block has changed. -/
structure Frame (str size : Nat) (s t : Store) : Prop where
  state : t.state = s.state
  outside : ∀ a, a < stringHeader str ∨ str + size ≤ a → t.bytes a = s.bytes a

/-- The block became the one of `y`. -/
def Becomes (str size : Nat) (y : String) (s t : Store) : Prop :=
  Placed t.bytes str size y ∧ Frame str size s t

theorem stringHeader_add {str : Nat} (h : headerSize ≤ str) : stringHeader str + headerSize = str :=
  Nat.sub_add_cancel h

theorem Frame.refl (str size : Nat) (s : Store) : Frame str size s s := ⟨rfl, fun _ _ => rfl⟩

theorem Frame.trans {str size : Nat} {s t u : Store} (h : Frame str size s t)
    (h' : Frame str size t u) : Frame str size s u :=
  ⟨h'.state.trans h.state, fun a ha => (h'.outside a ha).trans (h.outside a ha)⟩

theorem Frame.usable {str size : Nat} {s t : Store} (h : Frame str size s t)
    (hu : Usable s str size) : Usable t str size := by
  rwa [Usable, h.state]

theorem Frame.readable {mapped : Nat → Bool} {str size a : Nat} {s t : Store}
    (h : Frame str size s t) (hr : Readable mapped s a) : Readable mapped t a := by
  rwa [Readable, h.state]

/-- The bytes of a committed block may be loaded. -/
theorem Usable.readable {str size : Nat} {s : Store} (hu : Usable s str size)
    (mapped : Nat → Bool) {a n : Nat} (hlow : stringHeader str ≤ a)
    (hhigh : a + n ≤ stringHeader str + (headerSize + size)) :
    ∀ i < n, Readable mapped s (a + i) := by
  intro i hi
  obtain ⟨d, rfl⟩ := Nat.exists_eq_add_of_le hlow
  rw [Nat.add_assoc]
  exact Or.inl (hu (d + i) (by omega))

/-- What was read outside is still there. -/
theorem Frame.read {str size a n : Nat} {s t : Store} (h : Frame str size s t)
    (hout : a + n ≤ stringHeader str ∨ str + size ≤ a) : read t.bytes a n = read s.bytes a n :=
  read_congr fun i hi => h.outside (a + i) (by omega)

/-- The value of the block at an address, whatever it is. -/
theorem exists_placed (s : Store) {str : Nat} (size : Nat) (h : headerSize ≤ str) :
    ∃ x, Placed s.bytes str size x ∧ x.bytes = read s.bytes str size :=
  ⟨⟨load s.bytes (stringHeader str) 4, load s.bytes (stringHeader str + 4) 4,
    read s.bytes str size⟩, ⟨h, rfl, rfl, rfl⟩, rfl⟩

section Placed

variable {mapped : Nat → Bool} {s : Store} {str size : Nat} {x y : String}

theorem Placed.length_bytes {m : Nat → UInt8} (h : Placed m str size x) :
    x.bytes.length = size := by
  rw [← h.bytes, length_read]

/-- A block elsewhere is not changed. -/
theorem Placed.congr {m m' : Nat → UInt8} (h : Placed m str size x)
    (hsame : ∀ i < headerSize + size, m' (stringHeader str + i) = m (stringHeader str + i)) :
    Placed m' str size x := by
  have hstr := stringHeader_add h.header
  have hword : 4 + 4 = headerSize := rfl
  refine ⟨h.header, (load_congr fun i hi => hsame i (by omega)).trans h.length,
    (load_congr fun i hi => ?_).trans h.capacity, (read_congr fun i hi => ?_).trans h.bytes⟩
  · rw [Nat.add_assoc]
    exact hsame (4 + i) (by omega)
  · rw [← hstr, Nat.add_assoc]
    exact hsame (headerSize + i) (by omega)

variable (h : Placed s.bytes str size x) (hu : Usable s str size)
include h hu

/-- A store behind the header that stays in the block. -/
theorem Placed.put {dst n : Nat} {f : Nat → UInt8} {bytes : List UInt8}
    (hstore : Block.store x.bytes dst ((List.range n).map f) = some bytes) :
    ∃ t, InMemory.put s (str + dst) n f = some t ∧
      Becomes str size { x with bytes := bytes } s t := by
  have hstr := stringHeader_add h.header
  have hword : 4 + 4 = headerSize := rfl
  have hroom : dst + n ≤ size := by
    by_contra hlong
    have hlength := h.length_bytes
    have hnone := @Block.store_eq_none _ x.bytes dst ((List.range n).map f)
      (by rw [List.length_map, List.length_range]; omega)
    rw [hnone] at hstore
    cases hstore
  refine ⟨{ s with bytes := Memory.put s.bytes (str + dst) n f }, if_pos fun i hi => ?_,
    ⟨h.header, ?_, ?_, ?_⟩, rfl, fun a ha => put_outside (by omega)⟩
  · rw [← hstr, Nat.add_assoc, Nat.add_assoc]
    exact hu _ (by omega)
  · exact (load_put_apart (by omega)).trans h.length
  · exact (load_put_apart (by omega)).trans h.capacity
  · have hput := @read_put s.bytes f str dst size n hroom
    rw [h.bytes, hstore] at hput
    exact (Option.some.inj hput).symm

theorem Placed.setByte {i : Nat} {c : UInt8} {bytes : List UInt8}
    (hstore : Block.store x.bytes i [c] = some bytes) :
    ∃ t, InMemory.setByte s (str + i) c = some t ∧ Becomes str size { x with bytes := bytes } s t :=
  h.put hu hstore

theorem Placed.sMemCopy {dst src n : Nat} {bytes : List UInt8}
    (hsource : ∀ i < n, Readable mapped s (src + i))
    (hstore : Block.store x.bytes dst (read s.bytes src n) = some bytes) :
    ∃ t, InMemory.sMemCopy mapped s (str + dst) src n = some t ∧
      Becomes str size { x with bytes := bytes } s t := by
  rw [InMemory.sMemCopy, if_pos hsource]
  exact h.put hu hstore

theorem Placed.stringLength : InMemory.stringLength mapped s str = some x.length := by
  have hread := hu.readable mapped (le_refl (stringHeader str)) (n := 4)
    (Nat.add_le_add_left (Nat.le_add_right_of_le (by decide)) _)
  rw [InMemory.stringLength, getWord, if_pos hread, h.length]

theorem Placed.stringCapacity : InMemory.stringCapacity mapped s str = some x.capacity := by
  have hword : 4 + 4 = headerSize := rfl
  have hread := hu.readable mapped (Nat.le_add_right (stringHeader str) 4) (n := 4) (by omega)
  rw [InMemory.stringCapacity, getWord, if_pos hread, h.capacity]

theorem Placed.setLength {len : Nat} (hlen : len < 2 ^ 32) :
    ∃ t, stringSetLength s str len = some t ∧ Becomes str size { x with length := len } s t := by
  have hstr := stringHeader_add h.header
  have hword : 4 + 4 = headerSize := rfl
  refine ⟨{ s with bytes := Memory.put s.bytes (stringHeader str) 4 (byte len) },
    if_pos fun i hi => hu i (by omega), ⟨h.header, load_put (by omega), ?_, ?_⟩, rfl,
    fun a ha => put_outside (by omega)⟩
  · exact (load_put_apart (by omega)).trans h.capacity
  · exact (read_congr fun i hi => put_outside (by omega)).trans h.bytes

theorem Placed.setCapacity {cap : Nat} (hcap : cap < 2 ^ 32) :
    ∃ t, stringSetCapacity s str cap = some t ∧
      Becomes str size { x with capacity := cap } s t := by
  have hstr := stringHeader_add h.header
  have hword : 4 + 4 = headerSize := rfl
  refine ⟨{ s with bytes := Memory.put s.bytes (stringHeader str + 4) 4 (byte cap) },
    if_pos fun i hi => ?_, ⟨h.header, ?_, load_put (by omega), ?_⟩, rfl,
    fun a ha => put_outside (by omega)⟩
  · rw [Nat.add_assoc]
    exact hu (4 + i) (by omega)
  · exact (load_put_apart (by omega)).trans h.length
  · exact (read_congr fun i hi => put_outside (by omega)).trans h.bytes

end Placed

/-! ## What the functions do -/

/-- There is a C string of `n` characters at `cstr`, and it may be loaded. -/
structure CString (mapped : Nat → Bool) (s : Store) (cstr n : Nat) : Prop where
  chars : ∀ i < n, s.bytes (cstr + i) ≠ 0
  terminator : s.bytes (cstr + n) = 0
  readable : ∀ i < n + 1, Readable mapped s (cstr + i)

theorem CString.strlen {mapped : Nat → Bool} {s : Store} {cstr n fuel : Nat}
    (h : CString mapped s cstr n) (hfuel : n < fuel) : strlen mapped fuel s cstr = some n := by
  have hrun : Loop.run (lengthTurn s cstr) fuel 0 = some n :=
    Loop.run_path (fun i => i) (fun i hi => if_neg (h.chars i hi)) (if_pos h.terminator) hfuel
  refine Loop.run_guard_eq hrun fun i hvisits => h.readable i (Nat.lt_succ_of_le ?_)
  -- The loop does not go past the terminator.
  refine hvisits.invariant (fun i => i ≤ n) (fun i i' hle hturn => ?_) (Nat.zero_le n)
  rw [lengthTurn] at hturn
  split at hturn
  · cases hturn
  · rename_i hchar
    cases hturn
    exact Nat.lt_of_le_of_ne hle fun heq => hchar (heq ▸ h.terminator)

section Functions

variable {mapped : Nat → Bool} {s : Store} {str size : Nat} {x y : String}

theorem u32_lt (n : Nat) : u32 n < 2 ^ 32 := Nat.mod_lt n (Nat.two_pow_pos 32)

variable (h : Placed s.bytes str size x) (hu : Usable s str size)
include h hu

/-- The end of the functions that set a text: the terminator and the length. -/
theorem Placed.terminate {i len : Nat} {bytes : List UInt8}
    (hstore : Block.store x.bytes i [0] = some bytes) (hlen : len < 2 ^ 32) :
    ∃ t, ((InMemory.setByte s (str + i) 0).bind fun s => stringSetLength s str len) = some t ∧
      Becomes str size { x with bytes := bytes, length := len } s t := by
  obtain ⟨t, ht, hplaced, hframe⟩ := h.setByte hu hstore
  obtain ⟨u, hset, hplaced', hframe'⟩ := hplaced.setLength (hframe.usable hu) hlen
  exact ⟨u, by rw [ht, Option.bind_some, hset], hplaced', hframe.trans hframe'⟩

/-- A string that is appended is read where it lies. -/
theorem Placed.stringAppendLength {other n : Nat}
    (hsource : ∀ i < n, Readable mapped s (other + i))
    (hy : x.stringAppendLength (read s.bytes other n) = some y) :
    ∃ t, InMemory.stringAppendLength mapped s str other n = some t ∧ Becomes str size y s t := by
  rw [String.stringAppendLength, length_read] at hy
  simp only [InMemory.stringAppendLength, h.stringLength hu, h.stringCapacity hu,
    Option.bind_eq_bind, Option.bind_some]
  split_ifs at hy ⊢
  · cases hy
    exact ⟨s, rfl, h, .refl str size s⟩
  · simp only [String.appendBytes, length_read, Option.bind_eq_bind, Option.bind_eq_some_iff,
      Option.some.injEq] at hy
    obtain ⟨bytes, hcopy, bytes', hend, rfl⟩ := hy
    obtain ⟨t, ht, hplaced, hframe⟩ := h.sMemCopy hu hsource hcopy
    obtain ⟨u, hset, hplaced', hframe'⟩ :=
      hplaced.terminate (hframe.usable hu) hend (u32_lt (x.length + n))
    simp only [ht, Option.bind_some]
    exact ⟨u, hset, hplaced', hframe.trans hframe'⟩
  · cases hy
    exact ⟨s, rfl, h, .refl str size s⟩

theorem Placed.stringSet {fuel cstr n : Nat} (hn : strlen mapped fuel s cstr = some n)
    (hsource : ∀ i < n, Readable mapped s (cstr + i))
    (hy : x.stringSet (read s.bytes cstr n) = some y) :
    ∃ t, InMemory.stringSet mapped fuel s str cstr = some t ∧ Becomes str size y s t := by
  rw [String.stringSet, length_read] at hy
  simp only [InMemory.stringSet, hn, h.stringCapacity hu, Option.bind_eq_bind, Option.bind_some]
  generalize hlen : (if x.capacity < u32 n then x.capacity else n) = len at hy ⊢
  have hle : u32 len ≤ n := by
    have hword : u32 n ≤ n := Nat.mod_le n _
    have hword' : u32 len ≤ len := Nat.mod_le len _
    split_ifs at hlen <;> omega
  simp only [read_take hle, Option.bind_eq_bind, Option.bind_eq_some_iff, Option.some.injEq] at hy
  obtain ⟨bytes, hcopy, bytes', hend, rfl⟩ := hy
  obtain ⟨t, ht, hplaced, hframe⟩ :=
    h.sMemCopy hu (fun i hi => hsource i (Nat.lt_of_lt_of_le hi hle)) hcopy
  obtain ⟨u, hset, hplaced', hframe'⟩ := hplaced.terminate (hframe.usable hu) hend (u32_lt len)
  rw [Nat.add_zero] at ht
  rw [ht, Option.bind_some]
  exact ⟨u, hset, hplaced', hframe.trans hframe'⟩

theorem Placed.stringClear (hy : x.stringClear = some y) :
    ∃ t, InMemory.stringClear s str = some t ∧ Becomes str size y s t := by
  simp only [String.stringClear, Option.bind_eq_bind, Option.bind_eq_some_iff,
    Option.some.injEq] at hy
  obtain ⟨bytes, hend, rfl⟩ := hy
  obtain ⟨t, ht, hplaced, hframe⟩ := h.setLength hu (Nat.two_pow_pos 32)
  obtain ⟨u, hset, hplaced', hframe'⟩ := hplaced.setByte (hframe.usable hu) hend
  rw [Nat.add_zero] at hset
  rw [InMemory.stringClear, ht]
  exact ⟨u, hset, hplaced', hframe.trans hframe'⟩

omit hu in
/-- A byte of the block. -/
theorem Placed.getD {i : Nat} (hi : i < size) : x.bytes.getD i 0 = s.bytes (str + i) := by
  have hlt : i < (read s.bytes str size).length := by rwa [length_read]
  rw [← h.bytes, List.getD_eq_getElem?_getD, List.getElem?_eq_getElem hlt, Option.getD_some,
    getElem_read]

omit hu in
/-- The loops in `StringTrim` take the turns that they take on the value. -/
theorem Placed.trim_loops (first : List UInt8 → UInt8 → Bool) (fuel : Nat) (cutSet : List UInt8)
    (hfits : x.length < size) :
    Loop.run (startTurn first s str cutSet (x.length - 1)) fuel 0 =
        Loop.run (String.startTurn first x cutSet (x.length - 1)) fuel 0 ∧
      ∀ startPos, Loop.run (endTurn first s str cutSet startPos) fuel (x.length - 1) =
        Loop.run (String.endTurn first x cutSet startPos) fuel (x.length - 1) := by
  have hbyte : ∀ pos : Int, pos ≤ x.length - 1 →
      s.bytes (str + pos.toNat) = x.bytes.getD pos.toNat 0 := fun pos hpos =>
    (h.getD (show pos.toNat < size by omega)).symm
  constructor
  · refine Loop.run_congr (fun _ => True) (fun pos _ => ⟨?_, fun _ _ => trivial⟩) fuel trivial
    rw [startTurn, String.startTurn]
    rcases Int.lt_or_le (x.length - 1) pos with hout | hin
    · rw [if_neg fun hc => Int.not_le.mpr hout hc.1, if_neg fun hc => Int.not_le.mpr hout hc.1]
    · rw [hbyte pos hin]
  · refine fun startPos => Loop.run_congr (fun pos : Int => pos ≤ x.length - 1)
      (fun pos hin => ⟨?_, fun pos' hnext => ?_⟩) fuel le_rfl
    · rw [endTurn, String.endTurn, hbyte pos hin]
    · rw [String.endTurn] at hnext
      split at hnext
      · cases hnext
        omega
      · cases hnext

/-- The loops in `StringTrim` load characters of the string. -/
theorem Placed.trim_reads (hfits : x.length < size) {pos : Int} (hpos : pos ≤ x.length - 1) :
    Readable mapped s (str + pos.toNat) := by
  have hstr := stringHeader_add h.header
  exact hu.readable mapped (show stringHeader str ≤ str + pos.toNat by omega)
    (show str + pos.toNat + 1 ≤ _ by omega) 0 Nat.one_pos

omit h hu in
/-- The second loop in `StringTrim` goes down. -/
theorem endTurn_visits {first : List UInt8 → UInt8 → Bool} {cutSet : List UInt8}
    {startPos end_ pos : Int}
    (hvisits : Loop.Visits (endTurn first s str cutSet startPos) end_ pos) : pos ≤ end_ := by
  refine hvisits.invariant (fun pos => pos ≤ end_) (fun pos pos' hle hturn => ?_) le_rfl
  rw [endTurn] at hturn
  split at hturn
  · cases hturn
    omega
  · cases hturn

omit h hu in
/-- Where the loops in `StringTrim` end. -/
theorem trim_bounds {first : List UInt8 → UInt8 → Bool} {fuel : Nat} {cutSet : List UInt8}
    {startPos endPos : Int}
    (hstart : Loop.run (String.startTurn first x cutSet (x.length - 1)) fuel 0 = some startPos)
    (hend : Loop.run (String.endTurn first x cutSet startPos) fuel (x.length - 1) = some endPos) :
    (0 ≤ startPos ∧ startPos ≤ x.length) ∧ endPos ≤ x.length - 1 := by
  constructor
  · refine Loop.run_result (fun pos : Int => 0 ≤ pos ∧ pos ≤ x.length)
      (fun pos : Int => 0 ≤ pos ∧ pos ≤ x.length) (fun pos hpos => ?_) (by omega) hstart
    rw [String.startTurn]
    split
    · exact Or.inr ⟨_, rfl, by omega⟩
    · exact Or.inl ⟨_, rfl, hpos⟩
  · refine Loop.run_result (fun pos : Int => pos ≤ x.length - 1)
      (fun pos : Int => pos ≤ x.length - 1) (fun pos hpos => ?_) le_rfl hend
    rw [String.endTurn]
    split
    · exact Or.inr ⟨_, rfl, by omega⟩
    · exact Or.inl ⟨_, rfl, hpos⟩

theorem Placed.moveToStart {startPos : Int} {len : Nat} {bytes : List UInt8}
    (hin : startPos.toNat + len ≤ size) (hmove : x.moveToStart startPos len = some bytes) :
    ∃ t, InMemory.moveToStart mapped s str startPos len = some t ∧
      Becomes str size { x with bytes := bytes } s t := by
  rw [String.moveToStart] at hmove
  rw [InMemory.moveToStart]
  split_ifs at hmove ⊢
  · have hread : (x.bytes.drop startPos.toNat).take len =
        read s.bytes (str + startPos.toNat) len := by
      obtain ⟨rest, hrest⟩ := Nat.exists_eq_add_of_le hin
      have hdrop := @List.drop_left _ (read s.bytes str startPos.toNat)
        (read s.bytes (str + startPos.toNat) (len + rest))
      rw [length_read] at hdrop
      rw [← h.bytes, hrest, Nat.add_assoc, read_add, hdrop, read_take (Nat.le_add_right len rest)]
    have hstr := stringHeader_add h.header
    rw [hread] at hmove
    exact h.sMemCopy hu (hu.readable mapped (by omega) (by omega)) hmove
  · cases hmove
    exact ⟨s, rfl, h, .refl str size s⟩

theorem Placed.stringTrim {first : List UInt8 → UInt8 → Bool} {fuel : Nat} {cutSet : List UInt8}
    (hfits : x.length < size) (hy : x.stringTrim first fuel cutSet = some y) :
    ∃ t, InMemory.stringTrim mapped first fuel s str cutSet = some t ∧
      Becomes str size y s t := by
  have hword : x.length < 2 ^ 32 := h.length ▸ word_lt _ 4
  obtain ⟨hfirst, hsecond⟩ := h.trim_loops first fuel cutSet hfits
  simp only [String.stringTrim, Option.bind_eq_bind, Option.bind_eq_some_iff,
    Option.some.injEq] at hy
  obtain ⟨startPos, hstart, endPos, hend, bytes, hmove, bytes', hstore, rfl⟩ := hy
  obtain ⟨hpos, hle⟩ := trim_bounds hstart hend
  have hstart' : (Loop.run (Loop.guard
      (fun pos => pos ≤ (x.length - 1 : Int) → Readable mapped s (str + pos.toNat))
        (startTurn first s str cutSet (x.length - 1))) fuel 0).join = some startPos :=
    Loop.run_guard_eq (hfirst.trans hstart) fun _ _ => h.trim_reads hu hfits
  have hend' : (Loop.run (Loop.guard
      (fun pos => pos > startPos → Readable mapped s (str + pos.toNat))
        (endTurn first s str cutSet startPos)) fuel (x.length - 1)).join = some endPos :=
    Loop.run_guard_eq ((hsecond startPos).trans hend) fun _ hpos _ =>
      h.trim_reads hu hfits (endTurn_visits hpos)
  simp only [InMemory.stringTrim, h.stringLength hu, hstart', hend', Option.bind_eq_bind,
    Option.bind_some]
  generalize hlen : (if startPos > endPos then 0 else (endPos - startPos + 1).toNat) = len at *
  have hin : startPos.toNat + len ≤ x.length := by split_ifs at hlen <;> omega
  obtain ⟨t, ht, hplaced, hframe⟩ := h.moveToStart hu (by omega) hmove
  obtain ⟨u, hset, hplaced', hframe'⟩ :=
    hplaced.terminate (hframe.usable hu) hstore (show len < 2 ^ 32 by omega)
  rw [ht, Option.bind_some]
  exact ⟨u, hset, hplaced', hframe.trans hframe'⟩

end Functions

/-! ## Making strings -/

section Making

variable {mapped : Nat → Bool} {s : Store} {str size : Nat} {x y : String}

/-- The header is written. -/
theorem Placed.setHeader (h : Placed s.bytes str size x) (hu : Usable s str size) {len cap : Nat}
    (hlen : len < 2 ^ 32) (hcap : cap < 2 ^ 32) :
    ∃ t u, stringSetLength s str len = some t ∧ stringSetCapacity t str cap = some u ∧
      Becomes str size ⟨len, cap, x.bytes⟩ s u := by
  obtain ⟨t, ht, hplaced, hframe⟩ := h.setLength hu hlen
  obtain ⟨u, hset, hplaced', hframe'⟩ := hplaced.setCapacity (hframe.usable hu) hcap
  exact ⟨t, u, ht, hset, hplaced', hframe.trans hframe'⟩

/-- A block that is zeroed, header and all. -/
theorem zero_placed (hstr : headerSize ≤ str) (hu : Usable s str size) :
    ∃ t x, sMemZero s (stringHeader str) (headerSize + size) = some t ∧
      Placed t.bytes str size x ∧ x.bytes = List.replicate size 0 ∧ Frame str size s t := by
  have hadd := stringHeader_add hstr
  refine ⟨{ s with bytes := Memory.put s.bytes (stringHeader str) (headerSize + size) fun _ => 0 },
    ⟨_, _, List.replicate size 0⟩, if_pos hu, ⟨hstr, rfl, rfl, ?_⟩, rfl, rfl, fun a ha => ?_⟩
  · rw [read_eq_iff List.length_replicate]
    intro i hi
    rw [List.length_replicate] at hi
    have haddr : str + i = stringHeader str + (headerSize + i) := by omega
    rw [List.getElem_replicate, haddr]
    exact @put_inside s.bytes (fun _ => 0) _ (headerSize + size) (headerSize + i) (by omega)
  · exact @put_outside s.bytes (fun _ => 0) a _ (headerSize + size) (by omega)

variable {state : Arenas.State} {ptr : Nat}

theorem stringMakeReserve_placed {capacity : Nat} (hword : headerSize + capacity + 1 < 2 ^ 32)
    (hpush : s.state.arenaPush (headerSize + capacity + 1) = (some ptr, state))
    (hu : Usable { s with state := state } (ptr + headerSize) (capacity + 1))
    (hy : Strings.stringMakeReserve capacity = some y) :
    ∃ t, InMemory.stringMakeReserve s capacity = some (some (ptr + headerSize), t) ∧
      Becomes (ptr + headerSize) (capacity + 1) y { s with state := state } t := by
  have hu32 : u32 (headerSize + capacity + 1) = headerSize + capacity + 1 := Nat.mod_eq_of_lt hword
  have hheader : stringHeader (ptr + headerSize) = ptr := Nat.add_sub_cancel ptr headerSize
  have hsize : headerSize + capacity + 1 - headerSize = capacity + 1 := by omega
  simp only [Strings.stringMakeReserve, hu32, zeroBytes, hsize, Option.bind_eq_bind,
    Option.bind_eq_some_iff, Option.some.injEq] at hy
  obtain ⟨bytes, hend, rfl⟩ := hy
  obtain ⟨t₁, x, hzero, hplaced, hx, hframe⟩ := zero_placed (Nat.le_add_left headerSize ptr) hu
  obtain ⟨t₂, t₃, hlen, hcap, hplaced', hframe'⟩ := hplaced.setHeader (hframe.usable hu)
    (show 0 < 2 ^ 32 by decide) (show capacity < 2 ^ 32 by omega)
  have hframe'' := hframe.trans hframe'
  obtain ⟨t₄, hbyte, hplaced'', hframe₄⟩ := hplaced'.setByte (hframe''.usable hu) (hx ▸ hend)
  rw [hheader, ← Nat.add_assoc] at hzero
  refine ⟨t₄, ?_, hplaced'', hframe''.trans hframe₄⟩
  rw [InMemory.stringMakeReserve, hu32, hpush]
  simp only [hzero, hlen, hcap, hbyte, Option.bind_eq_bind, Option.bind_some]

/-- The bytes at `initStr` lie apart from the block that is made. -/
def SourceApart (initStr : Option Nat) (numBytes ptr : Nat) : Prop :=
  ∀ init ∈ initStr, init + numBytes ≤ ptr ∨ ptr + (headerSize + numBytes + 1) ≤ init

/-- The bytes at `initStr` may be loaded. -/
def SourceReadable (mapped : Nat → Bool) (s : Store) (initStr : Option Nat) (numBytes : Nat) :
    Prop :=
  ∀ init ∈ initStr, ∀ i < numBytes, Readable mapped s (init + i)

/-- The block before the header is written: zeroed where there is nothing to copy. -/
theorem zeroWithout_placed (hstr : headerSize ≤ str) (hu : Usable s str size)
    (initStr : Option Nat) :
    ∃ t x, zeroWithout s initStr (stringHeader str) (headerSize + size) = some t ∧
      Placed t.bytes str size x ∧ Frame str size s t ∧
      x.bytes = if initStr.isNone then List.replicate size 0 else read s.bytes str size := by
  rw [zeroWithout]
  split
  · obtain ⟨t, x, hzero, hplaced, hx, hframe⟩ := zero_placed hstr hu
    exact ⟨t, x, hzero, hplaced, hframe, hx⟩
  · obtain ⟨x, hplaced, hx⟩ := exists_placed s size hstr
    exact ⟨s, x, rfl, hplaced, .refl str size s, hx⟩

/-- What the copy and the terminator store. -/
theorem stringMakeLength_stores {initStr : Option (List UInt8)} {numBytes : Nat}
    {fresh : Nat → UInt8} (hword : headerSize + numBytes + 1 < 2 ^ 32)
    (hy : Strings.stringMakeLength initStr numBytes fresh = some y) :
    ∃ bytes bytes', Block.store (if initStr.isNone then List.replicate (numBytes + 1) 0
        else (List.range (numBytes + 1)).map fresh) 0 ((initStr.getD []).take numBytes) =
          some bytes ∧
      Block.store bytes numBytes [0] = some bytes' ∧ y = ⟨numBytes, numBytes, bytes'⟩ := by
  have hu32 : u32 (headerSize + numBytes + 1) = headerSize + numBytes + 1 := Nat.mod_eq_of_lt hword
  have hsize : headerSize + numBytes + 1 - headerSize = numBytes + 1 := by omega
  simp only [Strings.stringMakeLength, hu32, zeroBytes, freshBytes, hsize,
    Option.bind_eq_bind] at hy
  cases initStr with
  | none =>
    obtain ⟨bytes, hsame, hy⟩ := Option.bind_eq_some_iff.mp hy
    obtain ⟨bytes', hend, hy⟩ := Option.bind_eq_some_iff.mp hy
    refine ⟨bytes, bytes', ?_, hend, (Option.some.inj hy).symm⟩
    rw [Option.getD_none, List.take_nil, Block.store_nil, hsame]
  | some init =>
    obtain ⟨bytes, hcopy, hy⟩ := Option.bind_eq_some_iff.mp hy
    obtain ⟨bytes', hend, hy⟩ := Option.bind_eq_some_iff.mp hy
    exact ⟨bytes, bytes', hcopy, hend, (Option.some.inj hy).symm⟩

/-- The bytes of the new string are copied from where they lie. -/
theorem Placed.copyFrom (h : Placed s.bytes str size x) (hu : Usable s str size)
    {initStr : Option Nat} {numBytes : Nat} {bytes : List UInt8}
    (hsource : SourceReadable mapped s initStr numBytes)
    (hstore : Block.store x.bytes 0 ((initStr.map fun init => read s.bytes init numBytes).getD []) =
      some bytes) :
    ∃ t, InMemory.copyFrom mapped s initStr str numBytes = some t ∧
      Becomes str size { x with bytes := bytes } s t := by
  have hnone : Block.store x.bytes 0 [] = some bytes → bytes = x.bytes := fun hsame =>
    Option.some.inj (hsame.symm.trans (Block.store_nil x.bytes))
  cases initStr with
  | none =>
    rw [hnone hstore]
    exact ⟨s, rfl, h, .refl str size s⟩
  | some init =>
    rw [InMemory.copyFrom]
    split_ifs with hzero
    · exact h.sMemCopy hu (hsource init rfl) hstore
    · rw [Decidable.not_not] at hzero
      subst hzero
      rw [hnone hstore]
      exact ⟨s, rfl, h, .refl str size s⟩

theorem stringMakeLength_placed {initStr : Option Nat} {numBytes : Nat}
    (hword : headerSize + numBytes + 1 < 2 ^ 32)
    (hpush : s.state.arenaPush (headerSize + numBytes + 1) = (some ptr, state))
    (hu : Usable { s with state := state } (ptr + headerSize) (numBytes + 1))
    (hapart : SourceApart initStr numBytes ptr)
    (hsource : SourceReadable mapped { s with state := state } initStr numBytes)
    (hy : Strings.stringMakeLength (initStr.map fun init => read s.bytes init numBytes) numBytes
      (fun i => s.bytes (ptr + headerSize + i)) = some y) :
    ∃ t, InMemory.stringMakeLength mapped s initStr numBytes = some (some (ptr + headerSize), t) ∧
      Becomes (ptr + headerSize) (numBytes + 1) y { s with state := state } t := by
  have hu32 : u32 (headerSize + numBytes + 1) = headerSize + numBytes + 1 := Nat.mod_eq_of_lt hword
  have hheader : stringHeader (ptr + headerSize) = ptr := Nat.add_sub_cancel ptr headerSize
  obtain ⟨bytes, bytes', hcopy, hend, rfl⟩ := stringMakeLength_stores hword hy
  obtain ⟨t₁, x, hzero, hplaced, hframe, hx⟩ :=
    zeroWithout_placed (Nat.le_add_left headerSize ptr) hu initStr
  obtain ⟨t₂, t₃, hlen, hcap, hplaced', hframe'⟩ := @Placed.setHeader _ _ _ _ hplaced
    (hframe.usable hu) numBytes numBytes (by omega) (by omega)
  have hframe₃ := hframe.trans hframe'
  -- The source is not touched before it is copied.
  have hcopied : (initStr.map fun init => read t₃.bytes init numBytes).getD [] =
      ((initStr.map fun init => read s.bytes init numBytes).getD []).take numBytes := by
    cases initStr with
    | none => exact List.take_nil.symm
    | some init =>
      have hout := hapart init rfl
      have hsame := hframe₃.read (a := init) (n := numBytes) (by omega)
      rw [Option.map_some, Option.map_some, Option.getD_some, Option.getD_some, hsame,
        List.take_of_length_le (by rw [length_read])]
  rw [Option.isNone_map, ← hcopied] at hcopy
  obtain ⟨t₄, hfrom, hplaced₄, hframe₄⟩ := hplaced'.copyFrom (hframe₃.usable hu)
    (fun init hinit i hi => hframe₃.readable (hsource init hinit i hi)) (hx ▸ hcopy)
  have hframe₅ := hframe₃.trans hframe₄
  obtain ⟨t₅, hbyte, hplaced₅, hframe₆⟩ := hplaced₄.setByte (hframe₅.usable hu) hend
  rw [hheader, ← Nat.add_assoc] at hzero
  refine ⟨t₅, ?_, hplaced₅, hframe₅.trans hframe₆⟩
  rw [InMemory.stringMakeLength, hu32, hpush]
  simp only [hzero, hlen, hcap, hfrom, hbyte, Option.bind_eq_bind, Option.bind_some]

end Making

end ScalBase.Strings.InMemory
