/-
  HeapAllocator/Model.lean --- the allocator of `Lib/HeapAllocator.h`.

  Addresses and sizes are 64-bit words and zero is the null pointer.  `Memory`
  gives the header `MemNode` at every address; headers lie at least
  `GENERAL_PURPOSE_MIN` bytes apart.  A pointer to an `AllocList` of the allocator
  is a `ListName`.

  Loops take `fuel`, a bound on the turns, and `none` is a loop that has not ended
  or an access outside `Buckets`.  `SAssert`s are compiled out, and
  `ConvertAllocSizeToIndex` is that of `_WIN32`, the other branch being text that
  does not compile.
-/
import ScalBase.Base
import ScalBase.Foundation.Loop

set_option autoImplicit false

namespace ScalBase.HeapAllocator

open ScalBase.Foundation

/-! ## Constants -/

def generalPurposeMin : Nat := 512

def generalPurposeMinBitOffset : Nat := 8

/-- `GENERAL_PURPOSE_MIN << GENERALPURPOSE_BUCKETS`, the number of buckets being 16. -/
def generalPurposeMax : Nat := generalPurposeMin <<< 16

def memSplitThreshold : Nat := generalPurposeMax <<< 1

/-- `sizeof(MemNode)`. -/
def sizeofMemNode : Nat := 24

/-! ## Data -/

/-- The header of a block. -/
structure MemNode where
  size : Nat
  next : Nat
  prev : Nat
  deriving DecidableEq, Repr

/-- The headers in memory. -/
abbrev Memory := Nat → MemNode

def setSize (memory : Memory) (node size : Nat) : Memory :=
  Function.update memory node { memory node with size := size }

def setNext (memory : Memory) (node next : Nat) : Memory :=
  Function.update memory node { memory node with next := next }

def setPrev (memory : Memory) (node prev : Nat) : Memory :=
  Function.update memory node { memory node with prev := prev }

structure AllocList where
  head : Nat
  tail : Nat
  length : Nat
  deriving DecidableEq, Repr

/-- `list->Length++`. -/
def AllocList.lengthen (list : AllocList) : AllocList :=
  { list with length := u64 (list.length + 1) }

/-- `list->Length--`. -/
def AllocList.shorten (list : AllocList) : AllocList :=
  { list with length := sub64 list.length 1 }

@[simp] theorem AllocList.head_lengthen (list : AllocList) : list.lengthen.head = list.head := by
  rw [lengthen]

@[simp] theorem AllocList.head_shorten (list : AllocList) : list.shorten.head = list.head := by
  rw [shorten]

structure GeneralPurposeAllocator where
  mem : Nat
  offset : Nat
  size : Nat
  large : AllocList
  buckets : Fin 16 → AllocList

/-- `none` is `Large` and `some i` is `Buckets[i]`. -/
abbrev ListName := Option (Fin 16)

def GeneralPurposeAllocator.list (a : GeneralPurposeAllocator) : ListName → AllocList
  | none => a.large
  | some i => a.buckets i

def GeneralPurposeAllocator.setList (a : GeneralPurposeAllocator) (l : ListName)
    (list : AllocList) : GeneralPurposeAllocator :=
  match l with
  | none => { a with large := list }
  | some i => { a with buckets := Function.update a.buckets i list }

/-! ## Bucket indexes -/

/-- `_BitScanForward`: the lowest bit set, `none` when there is none. -/
def bitScanForward (mask : Nat) : Option Nat := (List.range 32).find? mask.testBit

def convertAllocSizeToIndex (allocSize : Nat) : Option Nat :=
  bitScanForward (u32 (allocSize >>> generalPurposeMinBitOffset))

/-- The bucket of a size, `none` when the index is outside `Buckets`. -/
def bucketOf (allocSize : Nat) : Option (Fin 16) :=
  (convertAllocSizeToIndex allocSize).bind fun index =>
    if h : index < 16 then some ⟨index, h⟩ else none

/-! ## Free lists -/

/-- `SplitMemNode`: the last `bytes` bytes of a node become a block. -/
def splitMemNode (memory : Memory) (node bytes : Nat) : Nat × Memory :=
  let r := u64 (node + sub64 (memory node).size bytes)
  let memory := setSize memory node (sub64 (memory node).size bytes)
  (r, setSize memory r bytes)

/-- `InsertMemNodeBefore`. -/
def insertMemNodeBefore (memory : Memory) (list : AllocList) (insert curr : Nat) :
    Memory × AllocList :=
  let memory := setNext memory insert curr
  if (memory curr).prev = 0 then (setPrev memory curr insert, { list with head := insert })
  else
    let memory := setPrev memory insert (memory curr).prev
    let memory := setNext memory (memory curr).prev insert
    (setPrev memory curr insert, list)

/-- `RemoveMemNode`. -/
def removeMemNode (memory : Memory) (list : AllocList) (node : Nat) : Memory × AllocList :=
  let s :=
    if (memory node).prev ≠ 0 then (setNext memory (memory node).prev (memory node).next, list)
    else
      let head := (memory node).next
      if head ≠ 0 then (setPrev memory head 0, { list with head := head })
      else (memory, { list with head := head, tail := 0 })
  let t :=
    if (s.1 node).next ≠ 0 then (setPrev s.1 (s.1 node).next (s.1 node).prev, s.2)
    else
      let tail := (s.1 node).prev
      if tail ≠ 0 then (setNext s.1 tail 0, { s.2 with tail := tail })
      else (s.1, { s.2 with tail := tail, head := 0 })
  (t.1, t.2.shorten)

/-- The body of the loop of `FindMemNode`; the result is the node found, null if none. -/
def findTurn (memory : Memory) (list : AllocList) (bytes node : Nat) :
    Turn Nat (Nat × Memory × AllocList) :=
  if node = 0 then .done (0, memory, list)
  else if (memory node).size < bytes then .again (memory node).next
  else if (memory node).size ≤ u64 (bytes + memSplitThreshold) then
    .done (node, removeMemNode memory list node)
  else
    let s := splitMemNode memory node bytes
    .done (s.1, s.2, list)

/-- `FindMemNode`. -/
def findMemNode (fuel : Nat) (memory : Memory) (list : AllocList) (bytes : Nat) :
    Option (Nat × Memory × AllocList) :=
  Loop.run (findTurn memory list bytes) fuel list.head

/-- What `InsertMemNode` writes: memory, `freelist->Offset` and `*list`. -/
structure ListState where
  memory : Memory
  offset : Nat
  list : AllocList

/-- The end of the loop body of `InsertMemNode`, where `iter` and `node` are compared. -/
def insertCompare (node : Nat) (isBucket : Bool) (s : ListState) (iter : Nat) :
    Turn (ListState × Nat) ListState :=
  let iterSize := (s.memory iter).size
  let nodeSize := (s.memory node).size
  let iterEnd := u64 (iter + iterSize)
  let nodeEnd := u64 (node + nodeSize)
  if iter = node then .done s
  else if iter < node then
    if iterEnd > node then .done s
    else if iterEnd = node ∧ isBucket = false then
      .done { s with memory := setSize s.memory iter (u64 (iterSize + nodeSize)) }
    else if (s.memory iter).next = 0 then
      .done { s with
        memory := setPrev (setNext s.memory iter node) node iter
        list := s.list.lengthen }
    else .again (s, (s.memory iter).next)
  else
    if iter < nodeEnd then .done s
    else if iter = s.list.head ∧ isBucket = false then
      if iterEnd = node then
        .done { s with memory := setSize s.memory iter (u64 (iterSize + nodeSize)) }
      else if nodeEnd = iter then
        -- The `Prev` of `node->Next` goes on pointing at the old head.
        let memory := setSize s.memory node (u64 (nodeSize + (s.memory s.list.head).size))
        let memory := setNext memory node (memory s.list.head).next
        .done { s with
          memory := setPrev memory node 0
          list := { s.list with head := node } }
      else
        let memory := setPrev (setNext s.memory node iter) node 0
        .done { s with
          memory := setPrev memory iter node
          list := { s.list with head := node }.lengthen }
    else if iterEnd = node ∧ isBucket = false then
      .done { s with memory := setSize s.memory iter (u64 (iterSize + nodeSize)) }
    else
      let t := insertMemNodeBefore s.memory s.list node iter
      .done { s with memory := t.1, list := t.2.lengthen }

/-- The body of the loop of `InsertMemNode`. -/
def insertTurn (node : Nat) (isBucket : Bool) : ListState × Nat → Turn (ListState × Nat) ListState
  | (s, iter) =>
      if iter = 0 then .done s
      else if iter = s.offset then
        let offset := u64 (s.offset + (s.memory iter).size)
        let t := removeMemNode s.memory s.list iter
        let iter := t.2.head
        if iter = 0 then .done ⟨t.1, offset, { t.2 with head := node }⟩
        else insertCompare node isBucket ⟨t.1, offset, t.2⟩ iter
      else insertCompare node isBucket s iter

/-- `InsertMemNode`. -/
def insertMemNode (fuel : Nat) (s : ListState) (node : Nat) (isBucket : Bool) :
    Option ListState :=
  if s.list.head = 0 then some { s with list := { s.list with head := node }.lengthen }
  else Loop.run (insertTurn node isBucket) fuel (s, s.list.head)

/-! ## The calls -/

def AllocList.zero : AllocList := ⟨0, 0, 0⟩

/-- `GeneralPurposeCreate`. -/
def generalPurposeCreate (buffer bytes : Nat) : GeneralPurposeAllocator :=
  if bytes = 0 ∨ bytes ≤ sizeofMemNode ∨ buffer = 0 then
    ⟨0, 0, 0, AllocList.zero, fun _ => AllocList.zero⟩
  else ⟨buffer, u64 (buffer + bytes), bytes, AllocList.zero, fun _ => AllocList.zero⟩

/-- `GENERAL_PURPOSE_ALIGN(size + sizeof(MemNode))`. -/
def requestSize (size : Nat) : Nat :=
  alignSize (u64 (size + sizeofMemNode)) generalPurposeMin

/-- The size that `GeneralPurposeAlloc` allocates for a request. -/
def roundedSize (size : Nat) : Nat :=
  if requestSize size > generalPurposeMax then requestSize size
  else alignPowTwoCeil (requestSize size)

/-- The part of `GeneralPurposeAlloc` that looks for a node in the free lists. -/
def takeFree (fuel : Nat) (memory : Memory) (a : GeneralPurposeAllocator) (size : Nat) :
    Option (Nat × Memory × GeneralPurposeAllocator) :=
  if requestSize size > generalPurposeMax then
    (findMemNode fuel memory a.large (roundedSize size)).map fun t =>
      (t.1, t.2.1, a.setList none t.2.2)
  else
    (bucketOf (roundedSize size)).map fun i =>
      if (a.buckets i).head ≠ 0 then
        let t := removeMemNode memory (a.buckets i) (a.buckets i).head
        ((a.buckets i).head, t.1, a.setList (some i) t.2)
      else (0, memory, a)

/-- `newMemNode->Next = newMemNode->Prev = nullptr`, and the pointer past the header. -/
def handOut (memory : Memory) (a : GeneralPurposeAllocator) (newMemNode : Nat) :
    Nat × Memory × GeneralPurposeAllocator :=
  (u64 (newMemNode + sizeofMemNode), setNext (setPrev memory newMemNode 0) newMemNode 0, a)

/-- `GeneralPurposeAlloc`: the pointer, null when there is no memory. -/
def generalPurposeAlloc (fuel : Nat) (memory : Memory) (a : GeneralPurposeAllocator)
    (size : Nat) : Option (Nat × Memory × GeneralPurposeAllocator) :=
  (takeFree fuel memory a size).map fun t =>
    if t.1 ≠ 0 then handOut t.2.1 t.2.2 t.1
    else if sub64 t.2.2.offset (roundedSize size) < t.2.2.mem then (0, t.2.1, t.2.2)
    else
      let offset := sub64 t.2.2.offset (roundedSize size)
      handOut (setSize t.2.1 offset (roundedSize size)) { t.2.2 with offset := offset } offset

/-- `InsertMemNode(freelist, list, node, is_bucket)`, on a list of the allocator. -/
def insertInto (fuel : Nat) (memory : Memory) (a : GeneralPurposeAllocator) (l : ListName)
    (node : Nat) : Option (Memory × GeneralPurposeAllocator) :=
  (insertMemNode fuel ⟨memory, a.offset, a.list l⟩ node l.isSome).map fun s =>
    (s.memory, { a with offset := s.offset }.setList l s.list)

/-- `GeneralPurposeFree`. -/
def generalPurposeFree (fuel : Nat) (memory : Memory) (a : GeneralPurposeAllocator)
    (ptr : Nat) : Option (Memory × GeneralPurposeAllocator) :=
  if ptr = 0 then some (memory, a)
  else
    let block := sub64 ptr sizeofMemNode
    let size := (memory block).size
    if block < a.offset ∨ sub64 block a.mem > a.size then some (memory, a)
    else if block = a.offset then some (memory, { a with offset := u64 (a.offset + size) })
    else if size ≤ generalPurposeMax then
      (bucketOf size).bind fun i => insertInto fuel memory a (some i) block
    else insertInto fuel memory a none block

/-- The body of the loops of `GeneralPurposeGetFreeMemory`. -/
def sumTurn (memory : Memory) : Nat × Nat → Turn (Nat × Nat) Nat
  | (n, total) =>
      if n = 0 then .done total else .again ((memory n).next, u64 (total + (memory n).size))

/-- `GeneralPurposeGetFreeMemory`. -/
def generalPurposeGetFreeMemory (fuel : Nat) (memory : Memory) (a : GeneralPurposeAllocator) :
    Option Nat :=
  (Loop.run (sumTurn memory) fuel (a.large.head, sub64 a.offset a.mem)).bind fun total =>
    (List.finRange 16).foldlM
      (fun total i => Loop.run (sumTurn memory) fuel ((a.buckets i).head, total)) total

/-! ## Runs -/

/-- The allocator, memory, and the pointers handed out and not freed since. -/
structure State where
  memory : Memory
  allocator : GeneralPurposeAllocator
  live : List Nat

/-- The header of the block that a pointer was handed out for. -/
def header (ptr : Nat) : Nat := ptr - sizeofMemNode

/-- A call, or a store by the program that uses the memory. -/
inductive Call where
  | alloc (size : Nat)
  | free (ptr : Nat)
  | write (address : Nat) (value : MemNode)
  deriving DecidableEq, Repr

/-- The effect of a call. -/
def step (fuel : Nat) (s : State) : Call → Option State
  | .alloc size =>
      (generalPurposeAlloc fuel s.memory s.allocator size).map fun t =>
        ⟨t.2.1, t.2.2, if t.1 = 0 then s.live else t.1 :: s.live⟩
  | .free ptr =>
      (generalPurposeFree fuel s.memory s.allocator ptr).map fun t =>
        ⟨t.1, t.2, s.live.erase ptr⟩
  | .write address value => some { s with memory := Function.update s.memory address value }

/-- A new allocator with nothing handed out. -/
def State.create (memory : Memory) (buffer bytes : Nat) : State :=
  ⟨memory, generalPurposeCreate buffer bytes, []⟩

end ScalBase.HeapAllocator
