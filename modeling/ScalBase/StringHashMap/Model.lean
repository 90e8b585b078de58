/-
  StringHashMap/Model.lean --- `StringHashMap` of `Lib/StringHashMap.h`.

  Slots and values are two arrays, modelled as functions from indexes.  A `String`
  is the pointer together with the bytes it addresses: `StringAreEqual` and
  `HashString` look at the bytes, and the map stores the pointer.  The hash of a
  byte string is a parameter.

  `Resize` allocates: the slots come zeroed, the values hold whatever the memory
  held, which is the argument `fresh`.  `SAssert`s are compiled out and loops take
  explicit fuel.

  A value is passed as it is and not as the pointer that the source takes.
  `AddAllocator` and `ReplaceAllocator` read `*val` after `Resize` has freed `Values`,
  so the model is that of calls whose pointer does not lead into `Values`.  Then a
  freed array is not read again, and freeing is left out.
-/
import ScalBase.Base
import ScalBase.Foundation.Loop
import ScalBase.Foundation.Run
import ScalBase.Foundation.Cyclic

set_option autoImplicit false

namespace ScalBase.StringHashMaps

open Foundation Foundation.Cyclic

/-- A `String`: its address and the bytes there. -/
structure String where
  address : Nat
  bytes : List UInt8
  deriving DecidableEq, Repr

/-- `StringAreEqual`. -/
def stringAreEqual (lhs rhs : String) : Bool := lhs.bytes == rhs.bytes

instance : BEq String := ⟨stringAreEqual⟩

/-- `HashString`, over a hash of byte strings. -/
def hashString (hash : List UInt8 → UInt64) (string : String) : UInt64 := hash string.bytes

/-- One slot. -/
structure HashStrSlot where
  string : String
  hash : UInt64
  /-- `u16` -/
  probeLength : Nat
  isUsed : Bool
  deriving DecidableEq, Repr

/-- The zeroed slot `{}`. -/
def HashStrSlot.zero : HashStrSlot := ⟨⟨0, []⟩, 0, 0, false⟩

/-- What `Add` answers. -/
structure StrHashMapAddResult where
  index : Nat
  doesExist : Bool
  deriving DecidableEq, Repr

/-- The map.  `hasBuckets` is whether the pointer `Buckets` is not null. -/
structure StringHashMap (V : Type*) where
  buckets : Nat → HashStrSlot
  values : Nat → V
  hasBuckets : Bool
  capacity : Nat
  count : Nat
  maxCount : Nat

variable {V : Type*}

/-- `NOT_FOUND`, which is `UINT32_MAX`. -/
def notFound : Nat := 2 ^ 32 - 1

/-- `(u32)FastModulo(hash, Capacity)` of the hash of a key. -/
def homeIdx (hash : List UInt8 → UInt64) (key : String) (capacity : Nat) : Nat :=
  fastModulo (hashString hash key).toNat capacity

namespace StringHashMap

/-- The zero-initialised map.  It has no values to read. -/
def zero (values : Nat → V) : StringHashMap V :=
  { buckets := fun _ => HashStrSlot.zero, values := values, hasBuckets := false, capacity := 0,
    count := 0, maxCount := 0 }

/-- Store a slot and its value. -/
def setSlot (m : StringHashMap V) (i : Nat) (slot : HashStrSlot) (value : V) : StringHashMap V :=
  { m with buckets := Function.update m.buckets i slot, values := Function.update m.values i value }

/-- `Buckets[i] = {};` -/
def clearSlot (m : StringHashMap V) (i : Nat) : StringHashMap V :=
  { m with buckets := Function.update m.buckets i HashStrSlot.zero }

/-- The four stores that move the entry at `idx` back to `lastIdx`. -/
def moveBack (m : StringHashMap V) (idx lastIdx : Nat) : StringHashMap V :=
  let nextSlot := m.buckets idx
  m.setSlot lastIdx
    { m.buckets lastIdx with
      string := nextSlot.string
      hash := nextSlot.hash
      probeLength := nextSlot.probeLength - 1 }
    (m.values idx)

/-- The pair in slot `i`, if it is used. -/
def cell (m : StringHashMap V) (i : Nat) : Option (String × V) :=
  if (m.buckets i).isUsed then some ((m.buckets i).string, m.values i) else none

/-- The used pairs in the order of their slots. -/
def pairs (m : StringHashMap V) : List (String × V) := (List.range m.capacity).filterMap m.cell

end StringHashMap

/-! ## Add -/

/-- The locals of the loop in `Add`. -/
structure AddLoop (V : Type*) where
  map : StringHashMap V
  swapBucket : HashStrSlot
  swapValue : V
  insertedIdx : Nat
  probeLength : Nat
  idx : Nat

/-- The three swaps in `Add`.  The first exchanges the probe length of the slot with
the one walked, the second the whole slots: the slot ends up with the probe length
of `swapBucket`, and `swapBucket` with the one walked. -/
def AddLoop.displace (s : AddLoop V) : AddLoop V :=
  let slot := s.map.buckets s.idx
  { s with
    insertedIdx := if s.insertedIdx = notFound then s.idx else s.insertedIdx
    map := s.map.setSlot s.idx s.swapBucket s.swapValue
    probeLength := slot.probeLength
    swapBucket := { slot with probeLength := s.probeLength }
    swapValue := s.map.values s.idx }

/-- The end of `Add` at an unused slot. -/
def AddLoop.place (s : AddLoop V) : StrHashMapAddResult × StringHashMap V :=
  let insertedIdx := if s.insertedIdx = notFound then s.idx else s.insertedIdx
  let map := s.map.setSlot s.idx { s.swapBucket with probeLength := s.probeLength } s.swapValue
  (⟨insertedIdx, false⟩, { map with count := map.count + 1 })

/-- `++probeLength; ++idx; if (idx == Capacity) idx = 0;` -/
def AddLoop.advance (s : AddLoop V) : AddLoop V :=
  { s with probeLength := u16 (s.probeLength + 1), idx := next s.map.capacity s.idx }

/-- One turn of the loop in `Add`. -/
def addTurn (s : AddLoop V) : Turn (AddLoop V) (StrHashMapAddResult × StringHashMap V) :=
  let slot := s.map.buckets s.idx
  if slot.isUsed = false then
    .done s.place
  else if slot.hash = s.swapBucket.hash ∧ s.swapBucket.string == slot.string then
    .done (⟨s.idx, true⟩, s.map)
  else if s.probeLength > slot.probeLength then
    .again s.displace.advance
  else
    .again s.advance

/-- `StringHashMap::Add`. -/
def add (hash : List UInt8 → UInt64) (fuel : Nat) (m : StringHashMap V) (key : String)
    (value : V) : Option (StrHashMapAddResult × StringHashMap V) :=
  if m.count = m.maxCount then
    some (⟨notFound, false⟩, m)
  else
    Loop.run addTurn fuel
      { map := m
        swapBucket :=
          { string := key, hash := hashString hash key, probeLength := 0, isUsed := true }
        swapValue := value
        insertedIdx := notFound
        probeLength := 0
        idx := homeIdx hash key m.capacity }

/-- The map after an `Add`. -/
def addStep (hash : List UInt8 → UInt64) (fuel : Nat) (m : StringHashMap V) (p : String × V) :
    Option (StringHashMap V) :=
  (add hash fuel m p.1 p.2).map (·.2)

/-! ## Resize -/

/-- The capacity `Resize` allocates: at least 2, and a power of two. -/
def roundCapacity (capacity : Nat) : Nat :=
  let capacity := if capacity ≤ 1 then 2 else capacity
  if isPowerOf2 capacity then capacity else alignPowTwoCeil32 capacity

/-- `(u32)(((float)Capacity) * LOAD_FACTOR)`.  The float `0.85f` is `14260634 / 2^24`;
its product with a power of two is exact and the cast truncates. -/
def loadLimit (capacity : Nat) : Nat := capacity * 14260634 / 2 ^ 24

/-- `Resize` of a map that has no buckets. -/
def resizeNull (m : StringHashMap V) (capacity : Nat) (fresh : Nat → V) : StringHashMap V :=
  let capacity := roundCapacity capacity
  if capacity ≤ m.capacity then m
  else
    { m with
      buckets := fun _ => HashStrSlot.zero
      values := fresh
      hasBuckets := true
      capacity := capacity
      maxCount := loadLimit capacity }

/-- `StringHashMap::Resize`.  A map that has buckets adds its used pairs, in slot
order, to a temporary map and becomes that map. -/
def resize (hash : List UInt8 → UInt64) (fuel : Nat) (m : StringHashMap V) (capacity : Nat)
    (fresh : Nat → V) : Option (StringHashMap V) :=
  if roundCapacity capacity ≤ m.capacity then some m
  else if m.hasBuckets then
    let tmpMap := resizeNull (StringHashMap.zero m.values) (roundCapacity capacity) fresh
    (exec (addStep hash fuel) tmpMap m.pairs).map fun tmpMap =>
      { tmpMap with
        capacity := roundCapacity capacity
        maxCount := loadLimit (roundCapacity capacity) }
  else some (resizeNull m capacity fresh)

/-! ## AddAllocator -/

/-- The growth in `AddAllocator`: a full map is resized to twice its capacity. -/
def makeRoom (hash : List UInt8 → UInt64) (fuel : Nat) (m : StringHashMap V) (fresh : Nat → V) :
    Option (StringHashMap V) :=
  if m.count = m.maxCount then resize hash fuel m (u32 (m.capacity * 2)) fresh else some m

/-- `StringHashMap::AddAllocator`, with `Add` given the address of the key. -/
def addAllocator (hash : List UInt8 → UInt64) (fuel : Nat) (m : StringHashMap V) (key : String)
    (value : V) (fresh : Nat → V) : Option (StrHashMapAddResult × StringHashMap V) :=
  (makeRoom hash fuel m fresh).bind fun m => add hash fuel m key value

/-! ## Get -/

/-- The locals of the loop in `Get`. -/
structure GetLoop where
  probeLength : Nat
  idx : Nat

/-- One turn of the loop in `Get`.  The result is the index of the value the
returned pointer addresses, or none for a null pointer. -/
def getTurn (hash : List UInt8 → UInt64) (m : StringHashMap V) (key : String) (s : GetLoop) :
    Turn GetLoop (Option Nat) :=
  let slot := m.buckets s.idx
  if slot.isUsed = false ∨ s.probeLength > slot.probeLength then
    .done none
  else if slot.hash = hashString hash key ∧ key == slot.string then
    .done (some s.idx)
  else
    .again { probeLength := s.probeLength + 1, idx := next m.capacity s.idx }

/-- `StringHashMap::Get`. -/
def get (hash : List UInt8 → UInt64) (fuel : Nat) (m : StringHashMap V) (key : String) :
    Option (Option Nat) :=
  if m.count = 0 then some none
  else Loop.run (getTurn hash m key) fuel { probeLength := 0, idx := homeIdx hash key m.capacity }

/-! ## Remove -/

/-- One turn of the search loop in `RemoveAllocator`. -/
def removeTurn (hash : List UInt8 → UInt64) (m : StringHashMap V) (key : String) (idx : Nat) :
    Turn Nat (Option Nat) :=
  let slot := m.buckets idx
  if slot.isUsed = false then
    .done none
  else if slot.hash = hashString hash key ∧ key == slot.string then
    .done (some idx)
  else
    .again (next m.capacity idx)

/-- One turn of the loop in `RemoveAllocator` that moves the entries after `idx`
closer to their home. -/
def shiftTurn (s : StringHashMap V × Nat) : Turn (StringHashMap V × Nat) (StringHashMap V) :=
  let (m, lastIdx) := s
  let idx := next m.capacity lastIdx
  let nextSlot := m.buckets idx
  if nextSlot.isUsed = false ∨ nextSlot.probeLength = 0 then
    .done { m.clearSlot lastIdx with count := m.count - 1 }
  else
    .again (m.moveBack idx lastIdx, idx)

/-- `StringHashMap::RemoveAllocator`, which `Remove` calls. -/
def remove (hash : List UInt8 → UInt64) (fuel : Nat) (m : StringHashMap V) (key : String) :
    Option (Bool × StringHashMap V) :=
  if m.count = 0 then some (false, m)
  else
    match Loop.run (removeTurn hash m key) fuel (homeIdx hash key m.capacity) with
    | none => none
    | some none => some (false, m)
    | some (some idx) => (Loop.run shiftTurn fuel (m, idx)).map fun m => (true, m)

/-! ## Sequences of calls -/

/-- A call that changes the map.  A `Resize` comes with what the memory it is given
for the values held. -/
inductive MapOp (V : Type*) where
  | resize (capacity : UInt32) (fresh : Nat → V)
  | add (key : String) (value : V)
  | remove (key : String)

/-- The map after a call. -/
def step (hash : List UInt8 → UInt64) (fuel : Nat) (m : StringHashMap V) :
    MapOp V → Option (StringHashMap V)
  | .resize capacity fresh => resize hash fuel m capacity.toNat fresh
  | .add key value => addStep hash fuel m (key, value)
  | .remove key => (remove hash fuel m key).map (·.2)

/-- A call on a map that grows as it fills. -/
inductive GrowOp (V : Type*) where
  | addAllocator (key : String) (value : V) (fresh : Nat → V)
  | remove (key : String)
  | get (key : String)

/-- The map after such a call. -/
def growStep (hash : List UInt8 → UInt64) (fuel : Nat) (m : StringHashMap V) :
    GrowOp V → Option (StringHashMap V)
  | .addAllocator key value fresh => (addAllocator hash fuel m key value fresh).map (·.2)
  | .remove key => (remove hash fuel m key).map (·.2)
  | .get key => (get hash fuel m key).map fun _ => m

end ScalBase.StringHashMaps
