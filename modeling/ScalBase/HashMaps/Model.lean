/-
  HashMaps/Model.lean --- `StaticHashMap` of `Lib/HashMaps.h`.

  The bucket memory is a function from indexes to buckets.  A `u16` probe length
  wraps where it is incremented; indexes stay below `Capacity` and the counts
  below `MaxCount`, so those never leave their 32-bit words.  The hash is a
  parameter: the source hashes the bytes of a key with `Hash`.

  Every `while (true)` is a turn function run with explicit fuel, one `fuel` for
  each loop; `none` is a loop that has not ended.  `SAssert`s are compiled out.
-/
import Mathlib.Algebra.Order.Floor.Semifield
import ScalBase.Base
import ScalBase.Foundation.Loop
import ScalBase.Foundation.Run
import ScalBase.Foundation.Cyclic

set_option autoImplicit false

namespace ScalBase.HashMaps

open Foundation Foundation.Cyclic

/-- One bucket. -/
structure StaticHashMapBucket (K V : Type*) where
  key : K
  /-- `u16` -/
  probeLength : Nat
  isUsed : Bool
  value : V

/-- What `Add` answers. -/
structure StaticHashMapAddResult where
  index : Nat
  doesExist : Bool
  isMapFull : Bool
  deriving DecidableEq, Repr

/-- The map: its bucket memory and its three counters. -/
structure StaticHashMap (K V : Type*) where
  buckets : Nat → StaticHashMapBucket K V
  capacity : Nat
  count : Nat
  maxCount : Nat

/-- `NOT_FOUND`, which is `UINT32_MAX`. -/
def notFound : Nat := 2 ^ 32 - 1

variable {K V : Type*}

/-- `HashAndMod`: the home index of a key. -/
def hashAndMod (hash : K → UInt64) (key : K) (capacity : Nat) : Nat :=
  fastModulo (hash key).toNat capacity

/-- Store a bucket. -/
def StaticHashMap.setBucket (m : StaticHashMap K V) (i : Nat) (b : StaticHashMapBucket K V) :
    StaticHashMap K V :=
  { m with buckets := Function.update m.buckets i b }

/-- `Buckets[i].ProbeLength = 0; Buckets[i].IsUsed = false;` -/
def StaticHashMap.vacate (m : StaticHashMap K V) (i : Nat) : StaticHashMap K V :=
  m.setBucket i { m.buckets i with probeLength := 0, isUsed := false }

/-- `--nextBucket->ProbeLength; Buckets[lastIndex] = *nextBucket;` -/
def StaticHashMap.moveBack (m : StaticHashMap K V) (index lastIndex : Nat) : StaticHashMap K V :=
  let nextBucket := { m.buckets index with probeLength := (m.buckets index).probeLength - 1 }
  (m.setBucket index nextBucket).setBucket lastIndex nextBucket

/-! ## Init -/

/-- The capacity `Init` takes: the least power of two that is at least `capacity`. -/
def initCapacity (capacity : Nat) : Nat :=
  if isPowerOf2 capacity then capacity else alignPowTwoCeil32 capacity

/-- `StaticHashMap::Init`.  The buckets are the memory it is given, as it is.  The product
of a power of two with a float is exact and the cast truncates. -/
def init (memory : Nat → StaticHashMapBucket K V) (capacity : Nat) (loadFactor : ℚ) :
    StaticHashMap K V where
  buckets := memory
  capacity := initCapacity capacity
  count := 0
  maxCount := ⌊(initCapacity capacity : ℚ) * loadFactor⌋₊

section Operations

variable [BEq K]

/-! ## Add -/

/-- The locals of the loop in `Add`. -/
structure AddLoop (K V : Type*) where
  map : StaticHashMap K V
  swapBucket : StaticHashMapBucket K V
  insertedIdx : Nat
  probeLength : Nat
  idx : Nat

/-- The displacement in `Add`: the bucket in hand goes into the slot and the
entry of the slot is carried on. -/
def AddLoop.displace (s : AddLoop K V) : AddLoop K V :=
  let bucket := s.map.buckets s.idx
  { s with
    insertedIdx := if s.insertedIdx = notFound then s.idx else s.insertedIdx
    map := s.map.setBucket s.idx { s.swapBucket with probeLength := s.probeLength }
    probeLength := bucket.probeLength
    swapBucket := bucket }

/-- The end of `Add` at an unused bucket: the bucket in hand goes there. -/
def AddLoop.place (s : AddLoop K V) : StaticHashMapAddResult × StaticHashMap K V :=
  let insertedIdx := if s.insertedIdx = notFound then s.idx else s.insertedIdx
  let map := s.map.setBucket s.idx { s.swapBucket with probeLength := s.probeLength }
  (⟨insertedIdx, false, false⟩, { map with count := map.count + 1 })

/-- `++probeLength; ++idx; if (idx == Capacity) idx = 0;` -/
def AddLoop.advance (s : AddLoop K V) : AddLoop K V :=
  { s with probeLength := u16 (s.probeLength + 1), idx := next s.map.capacity s.idx }

/-- One turn of the loop in `Add`. -/
def addTurn (s : AddLoop K V) :
    Turn (AddLoop K V) (StaticHashMapAddResult × StaticHashMap K V) :=
  let bucket := s.map.buckets s.idx
  if bucket.isUsed = false then
    .done s.place
  else if bucket.key == s.swapBucket.key then
    .done (⟨s.idx, true, false⟩, s.map)
  else if s.probeLength > bucket.probeLength then
    .again s.displace.advance
  else
    .again s.advance

/-- `StaticHashMap::Add`. -/
def add (hash : K → UInt64) (fuel : Nat) (m : StaticHashMap K V) (key : K) (value : V) :
    Option (StaticHashMapAddResult × StaticHashMap K V) :=
  if m.count = m.maxCount then
    some (⟨notFound, false, true⟩, m)
  else
    Loop.run addTurn fuel
      { map := m
        swapBucket := { key := key, probeLength := 0, isUsed := true, value := value }
        insertedIdx := notFound
        probeLength := 0
        idx := hashAndMod hash key m.capacity }

/-! ## Replace -/

/-- `StaticHashMap::Replace`.  Its assignment `Buckets[res.Index] = value` is read as in
`StringHashMap::Replace`: the value of the bucket is replaced. -/
def replace (hash : K → UInt64) (fuel : Nat) (m : StaticHashMap K V) (key : K) (value : V) :
    Option (Bool × StaticHashMap K V) :=
  match add hash fuel m key value with
  | none => none
  | some (res, m) =>
      if res.doesExist then
        some (true, m.setBucket res.index { m.buckets res.index with value := value })
      else some (false, m)

/-! ## Get -/

/-- The locals of the loop in `Get`. -/
structure GetLoop where
  probeLength : Nat
  idx : Nat

/-- One turn of the loop in `Get`.  The result is the bucket whose `Value` the
returned pointer addresses, or none for a null pointer. -/
def getTurn (m : StaticHashMap K V) (key : K) (s : GetLoop) : Turn GetLoop (Option Nat) :=
  let bucket := m.buckets s.idx
  if bucket.isUsed = false ∨ s.probeLength > bucket.probeLength then
    .done none
  else if key == bucket.key then
    .done (some s.idx)
  else
    .again { probeLength := s.probeLength + 1, idx := next m.capacity s.idx }

/-- `StaticHashMap::Get`. -/
def get (hash : K → UInt64) (fuel : Nat) (m : StaticHashMap K V) (key : K) : Option (Option Nat) :=
  if m.count = 0 then some none
  else Loop.run (getTurn m key) fuel { probeLength := 0, idx := hashAndMod hash key m.capacity }

/-! ## Remove -/

/-- One turn of the search loop in `Remove`. -/
def removeTurn (m : StaticHashMap K V) (key : K) (index : Nat) : Turn Nat (Option Nat) :=
  let bucket := m.buckets index
  if bucket.isUsed = false then
    .done none
  else if key == bucket.key then
    .done (some index)
  else
    .again (next m.capacity index)

/-- One turn of the loop in `Remove` that moves the entries after `index` closer
to their home. -/
def shiftTurn (s : StaticHashMap K V × Nat) : Turn (StaticHashMap K V × Nat) (StaticHashMap K V) :=
  let (m, lastIndex) := s
  let index := next m.capacity lastIndex
  let nextBucket := m.buckets index
  if nextBucket.isUsed = false ∨ nextBucket.probeLength = 0 then
    .done { m.vacate lastIndex with count := m.count - 1 }
  else
    .again (m.moveBack index lastIndex, index)

/-- `StaticHashMap::Remove`. -/
def remove (hash : K → UInt64) (fuel : Nat) (m : StaticHashMap K V) (key : K) :
    Option (Bool × StaticHashMap K V) :=
  if m.count = 0 then some (false, m)
  else
    match Loop.run (removeTurn m key) fuel (hashAndMod hash key m.capacity) with
    | none => none
    | some none => some (false, m)
    | some (some index) => (Loop.run shiftTurn fuel (m, index)).map fun m => (true, m)

/-! ## Sequences of calls -/

/-- A call that changes the map. -/
inductive MapOp (K V : Type*) where
  | add (key : K) (value : V)
  | remove (key : K)

/-- The map after a call. -/
def step (hash : K → UInt64) (fuel : Nat) (m : StaticHashMap K V) :
    MapOp K V → Option (StaticHashMap K V)
  | .add key value => (add hash fuel m key value).map (·.2)
  | .remove key => (remove hash fuel m key).map (·.2)

end Operations

end ScalBase.HashMaps
