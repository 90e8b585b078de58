/-
  Pool.lean --- the pool of equal cells of `Lib/Pool.h`.

  A cell is a union: the bytes of the user's value, or the link to the next free
  cell.  A cell is therefore the list of its bytes, and `Next` is read from and
  written to the first eight of them, whatever they are.  Pointers are addresses,
  null is 0, and the memory maps the address of a cell to its bytes.

  `Get` of a full pool names a variable before its declaration; it is read as
  returning null.  `SAssert`s are compiled out.
-/
import ScalBase.Base
import ScalBase.Foundation.Run
import ScalBase.Foundation.LinkedList

set_option autoImplicit false

namespace ScalBase.Pools

open Foundation

/-! ## Pointers in bytes -/

/-- The `n` bytes of a word, least significant first. -/
def wordBytes : Nat → Nat → List UInt8
  | 0, _ => []
  | n + 1, w => UInt8.ofNat w :: wordBytes n (w / 2 ^ 8)

/-- The word in the first `n` bytes. -/
def bytesWord : Nat → List UInt8 → Nat
  | 0, _ => 0
  | n + 1, bytes => (bytes.headD 0).toNat + 2 ^ 8 * bytesWord n bytes.tail

theorem bytesWord_wordBytes (rest : List UInt8) : ∀ {n w : Nat}, w < (2 ^ 8) ^ n →
    bytesWord n (wordBytes n w ++ rest) = w := by
  intro n
  induction n with
  | zero =>
    intro w hw
    rw [Nat.pow_zero] at hw
    rw [bytesWord]
    omega
  | succ n ih =>
    intro w hw
    rw [Nat.pow_succ] at hw
    rw [wordBytes, List.cons_append, bytesWord, List.headD_cons, List.tail_cons,
      ih (Nat.div_lt_of_lt_mul (by omega)), UInt8.toNat_ofNat']
    omega

/-! ## The pool -/

/-- The pool and the memory of its cells. -/
structure Pool where
  data : Nat
  freeList : Nat
  count : Nat
  capacity : Nat
  memory : Nat → List UInt8

namespace Pool

/-- The zero-initialised pool. -/
def zero : Pool := { data := 0, freeList := 0, count := 0, capacity := 0, memory := fun _ => [] }

/-- `ptr->Next`. -/
def next (pool : Pool) (ptr : Nat) : Nat := bytesWord 8 (pool.memory ptr)

/-- `SLStackPush(FreeList, ptr, Next)`. -/
def slStackPush (pool : Pool) (ptr : Nat) : Pool :=
  { pool with
    memory := Function.update pool.memory ptr
      (wordBytes 8 pool.freeList ++ (pool.memory ptr).drop 8)
    freeList := ptr }

/-- `SLStackPop(FreeList, Next)`. -/
def slStackPop (pool : Pool) : Pool :=
  if pool.freeList = 0 then pool else { pool with freeList := pool.next pool.freeList }

/-- `&Data[i]`, for cells of `size` bytes. -/
def cell (size : Nat) (pool : Pool) (i : Nat) : Nat := pool.data + i * size

/-- `Reset`. -/
def reset (size : Nat) (pool : Pool) : Pool :=
  (List.range pool.capacity).foldl (fun pool i => pool.slStackPush (pool.cell size i)) pool

/-- `Init`, where `ArenaPushArrayZero` returns the array at `data`. -/
def init (size data capacity : Nat) (pool : Pool) : Pool :=
  reset size
    { pool with
      capacity := capacity
      data := data
      memory := fun _ => List.replicate size 0 }

/-- `Get`. -/
def get (pool : Pool) : Nat × Pool :=
  if pool.count = pool.capacity then (0, pool)
  else
    let res := pool.freeList
    let pool := pool.slStackPop
    (res, { pool with count := u64 (pool.count + 1) })

/-- `Return`. -/
def return_ (pool : Pool) (ptr : Nat) : Pool :=
  let pool := pool.slStackPush ptr
  { pool with count := sub64 pool.count 1 }

end Pool

/-! ## Runs -/

/-- A call on the pool, or a user who overwrites a cell. -/
inductive Call where
  | get
  | return_ (ptr : Nat)
  | write (ptr : Nat) (bytes : List UInt8)
  deriving DecidableEq, Repr

/-- The pool together with the pointers that `Get` returned and that have not been
returned since. -/
structure Traced where
  pool : Pool
  held : List Nat

/-- The effect of a call. -/
def Traced.step (s : Traced) : Call → Option Traced
  | .get =>
      let (res, pool) := s.pool.get
      some { pool := pool, held := if res = 0 then s.held else res :: s.held }
  | .return_ ptr => some { pool := s.pool.return_ ptr, held := s.held.erase ptr }
  | .write ptr bytes =>
      some { s with pool :=
        { s.pool with memory := Function.update s.pool.memory ptr bytes } }

/-- A cell is returned and overwritten only by who holds it. -/
def Traced.Ok (size : Nat) (s : Traced) : Call → Prop
  | .get => True
  | .return_ ptr => ptr ∈ s.held
  | .write ptr bytes => ptr ∈ s.held ∧ bytes.length = size

instance (size : Nat) (s : Traced) (call : Call) : Decidable (s.Ok size call) :=
  match call with
  | .get => isTrue trivial
  | .return_ _ => inferInstanceAs (Decidable (_ ∈ _))
  | .write _ _ => inferInstanceAs (Decidable (_ ∧ _))

/-- After `Init` on a zero-initialised pool. -/
def Traced.create (size data capacity : Nat) : Traced :=
  ⟨Pool.zero.init size data capacity, []⟩

/-- The cells of the array. -/
def cells (size data capacity : Nat) : List Nat :=
  (List.range capacity).map fun i => data + i * size

/-- The array that was allocated: it is not at null, it lies below `2 ^ 64`, and a union
with a pointer has room for it. -/
structure Allocated (size data capacity : Nat) : Prop where
  ne_zero : data ≠ 0
  fits : data + capacity * size ≤ 2 ^ 64
  pointer : 8 ≤ size

/-- Each cell has one owner at a time. -/
structure Traced.Owned (size data capacity : Nat) (s : Traced) : Prop where
  count : s.pool.count = s.held.length
  held : s.held.Nodup ∧ ∀ ptr ∈ s.held, ptr ∈ cells size data capacity
  /-- The free list ends, passes no cell twice, and passes exactly the cells not held. -/
  free : ∃ free : List Nat, s.pool.freeList = free.headD 0 ∧ Path s.pool.next free 0 ∧ 0 ∉ free ∧
    free.Nodup ∧ free.length = capacity - s.pool.count ∧
    ∀ ptr, ptr ∈ free ↔ ptr ∈ cells size data capacity ∧ ptr ∉ s.held
  get : s.pool.count < capacity → s.pool.get.1 ≠ 0 ∧
    s.pool.get.1 ∈ cells size data capacity ∧ s.pool.get.1 ∉ s.held

/-! ## The array -/

section Array

variable {size data capacity : Nat}

theorem length_cells : (cells size data capacity).length = capacity := by simp [cells]

theorem Allocated.nodup (h : Allocated size data capacity) : (cells size data capacity).Nodup := by
  refine List.Nodup.map_on (fun i _ j _ heq => ?_) List.nodup_range
  have hsize := h.pointer
  exact Nat.eq_of_mul_eq_mul_right (by omega : 0 < size) (Nat.add_left_cancel heq)

theorem Allocated.mem (h : Allocated size data capacity) {ptr : Nat}
    (hptr : ptr ∈ cells size data capacity) : ptr ≠ 0 ∧ ptr < 2 ^ 64 := by
  obtain ⟨i, hi, rfl⟩ := List.mem_map.mp hptr
  have hne := h.ne_zero
  have hfits := h.fits
  have hsize := h.pointer
  have hle : (i + 1) * size ≤ capacity * size :=
    Nat.mul_le_mul_right size (List.mem_range.mp hi)
  rw [Nat.succ_mul] at hle
  exact ⟨by omega, by omega⟩

theorem Allocated.capacity_lt (h : Allocated size data capacity) : capacity < 2 ^ 64 := by
  have hle : capacity * 8 ≤ capacity * size := Nat.mul_le_mul_left capacity h.pointer
  have hne := h.ne_zero
  have hfits := h.fits
  omega

end Array

/-! ## The free list -/

section FreeList

variable {pool : Pool} {free : List Nat} {ptr : Nat}

theorem Pool.return_count (pool : Pool) (ptr : Nat) :
    (pool.return_ ptr).count = sub64 pool.count 1 := rfl

theorem Pool.return_next (pool : Pool) (ptr : Nat) :
    (pool.return_ ptr).next = (pool.slStackPush ptr).next := by
  funext other
  simp only [Pool.next, Pool.return_]

/-- A cell that is pushed leads to the list that was there. -/
theorem Pool.slStackPush_path (hpath : Path pool.next free 0)
    (hhead : pool.freeList = free.headD 0) (hlt : pool.freeList < 2 ^ 64) (hnew : ptr ∉ free) :
    Path (pool.slStackPush ptr).next (ptr :: free) 0 := by
  constructor
  · rw [Pool.next, Pool.slStackPush]
    simp only [Function.update_self]
    rw [bytesWord_wordBytes _ (by simpa using hlt), hhead]
  · refine hpath.congr fun other hother => ?_
    have hne : other ≠ ptr := by
      rintro rfl
      exact hnew hother
    simp only [Pool.next, Pool.slStackPush, Function.update_of_ne hne]

/-- Bytes stored in a cell off the list do not touch it. -/
theorem Pool.write_path (hpath : Path pool.next free 0) (hoff : ptr ∉ free) (bytes : List UInt8) :
    Path { pool with memory := Function.update pool.memory ptr bytes : Pool }.next free 0 := by
  refine hpath.congr fun other hother => ?_
  have hne : other ≠ ptr := by
    rintro rfl
    exact hoff hother
  simp only [Pool.next, Function.update_of_ne hne]

end FreeList

/-! ## What the calls keep -/

/-- The free list and the held cells make up the array. -/
structure Traced.Shared (cells : List Nat) (s : Traced) (free : List Nat) : Prop where
  capacity : s.pool.capacity = cells.length
  count : s.pool.count = s.held.length
  head : s.pool.freeList = free.headD 0
  path : Path s.pool.next free 0
  perm : (free ++ s.held).Perm cells

section Shared

variable {s : Traced} {size data capacity : Nat} {free : List Nat}

theorem Traced.Shared.length (h : s.Shared (cells size data capacity) free) :
    free.length + s.pool.count = capacity := by
  rw [h.count, ← List.length_append, h.perm.length_eq, length_cells]

theorem Traced.Shared.mem_cells (h : s.Shared (cells size data capacity) free) {ptr : Nat} :
    ptr ∈ cells size data capacity ↔ ptr ∈ free ∨ ptr ∈ s.held := by
  rw [← h.perm.mem_iff, List.mem_append]

variable (ha : Allocated size data capacity)
include ha

theorem Traced.Shared.nodup (h : s.Shared (cells size data capacity) free) :
    (free ++ s.held).Nodup :=
  h.perm.nodup_iff.mpr ha.nodup

theorem Traced.Shared.head_lt (h : s.Shared (cells size data capacity) free) :
    s.pool.freeList < 2 ^ 64 := by
  rw [h.head]
  rcases headD_mem_or free with hzero | hmem
  · rw [hzero]
    decide
  · exact (ha.mem (h.mem_cells.mpr (Or.inl hmem))).2

/-- `Get` of a pool that is not full takes the first cell of the free list. -/
theorem Traced.Shared.get (h : s.Shared (cells size data capacity) free)
    (hroom : s.pool.count < capacity) :
    ∃ ptr rest, free = ptr :: rest ∧ ptr ≠ 0 ∧ s.pool.get.1 = ptr ∧
      s.pool.get.2.freeList = rest.headD 0 ∧ s.pool.get.2.count = s.pool.count + 1 ∧
      s.pool.get.2.memory = s.pool.memory ∧ s.pool.get.2.capacity = s.pool.capacity := by
  have hlength := h.length
  have hsize := ha.capacity_lt
  cases free with
  | nil =>
    rw [List.length_nil] at hlength
    omega
  | cons ptr rest =>
    have hptr : ptr ≠ 0 := (ha.mem (h.mem_cells.mpr (Or.inl (List.mem_cons_self ..)))).1
    have hhead : s.pool.freeList = ptr := h.head
    have hnot : ¬ s.pool.count = s.pool.capacity := by
      rw [h.capacity, length_cells]
      omega
    refine ⟨ptr, rest, rfl, hptr, ?_⟩
    rw [Pool.get, if_neg hnot, Pool.slStackPop, hhead, if_neg hptr]
    have hword : s.pool.count + 1 < 2 ^ 64 := by omega
    exact ⟨rfl, h.path.1, u64_eq hword, rfl, rfl⟩

/-- A pool that is not full has a free list. -/
theorem Traced.Shared.head_ne_zero (h : s.Shared (cells size data capacity) free)
    (hroom : s.pool.count < capacity) : s.pool.freeList ≠ 0 := by
  obtain ⟨ptr, rest, hfree, hptr, -⟩ := h.get ha hroom
  rw [h.head, hfree]
  exact hptr

omit ha in
theorem Traced.step_get : s.step .get = some ⟨s.pool.get.2,
    if s.pool.get.1 = 0 then s.held else s.pool.get.1 :: s.held⟩ := rfl

omit ha in
theorem Traced.step_return (ptr : Nat) :
    s.step (.return_ ptr) = some ⟨s.pool.return_ ptr, s.held.erase ptr⟩ := rfl

/-- Every call keeps it, with the free list it leads to. -/
theorem Traced.Shared.step (h : s.Shared (cells size data capacity) free) {call : Call}
    (hok : s.Ok size call) {t : Traced} (hstep : s.step call = some t) :
    ∃ free', t.Shared (cells size data capacity) free' := by
  have hnodup := List.nodup_append'.mp (h.nodup ha)
  have hlength := h.length
  cases call with
  | get =>
    rw [Traced.step_get, Option.some.injEq] at hstep
    subst hstep
    by_cases hfull : s.pool.count = s.pool.capacity
    · have hget : s.pool.get = (0, s.pool) := by rw [Pool.get, if_pos hfull]
      rw [hget]
      exact ⟨free, h⟩
    · have hroom : s.pool.count < capacity := by
        rw [h.capacity, length_cells] at hfull
        omega
      obtain ⟨ptr, rest, rfl, hptr, hres, hhead, hcount, hmemory, hcap⟩ := h.get ha hroom
      refine ⟨rest, hcap.trans h.capacity, ?_, hhead, ?_, ?_⟩
      · simp only [hres, if_neg hptr, hcount, h.count, List.length_cons]
      · refine h.path.2.congr fun other _ => ?_
        simp only [Pool.next, hmemory]
      · simp only [hres, if_neg hptr]
        exact List.perm_middle.trans h.perm
  | return_ ptr =>
    rw [Traced.step_return, Option.some.injEq] at hstep
    subst hstep
    have hoff : ptr ∉ free := fun hmem => hnodup.2.2 hmem hok
    have hpos : 0 < s.held.length := List.length_pos_of_mem hok
    have hsize := ha.capacity_lt
    refine ⟨ptr :: free, h.capacity, ?_, rfl,
      (Pool.return_next s.pool ptr).symm ▸
        Pool.slStackPush_path h.path h.head (h.head_lt ha) hoff, ?_⟩
    · have hcount := h.count
      have hle : 1 ≤ s.pool.count := by omega
      have hword : s.pool.count < 2 ^ 64 := by omega
      have hfewer : (s.pool.return_ ptr).count = s.pool.count - 1 :=
        (Pool.return_count s.pool ptr).trans (sub64_eq hle hword)
      rw [hfewer, hcount, List.length_erase_of_mem hok]
    · have hsplit : (ptr :: s.held.erase ptr).Perm s.held := (List.perm_cons_erase hok).symm
      exact List.perm_middle.symm.trans ((hsplit.append_left free).trans h.perm)
  | write ptr bytes =>
    cases hstep
    have hoff : ptr ∉ free := fun hmem => hnodup.2.2 hmem hok.1
    exact ⟨free, h.capacity, h.count, h.head, Pool.write_path h.path hoff bytes, h.perm⟩

theorem Traced.Shared.owned (h : s.Shared (cells size data capacity) free) :
    s.Owned size data capacity := by
  have hnodup := List.nodup_append'.mp (h.nodup ha)
  have hlength := h.length
  refine ⟨h.count, ⟨hnodup.2.1, fun ptr hmem => h.mem_cells.mpr (Or.inr hmem)⟩,
    ⟨free, h.head, h.path, ?_, hnodup.1, by omega, fun ptr => ?_⟩, fun hroom => ?_⟩
  · exact fun hzero => (ha.mem (h.mem_cells.mpr (Or.inl hzero))).1 rfl
  · rw [h.mem_cells]
    exact ⟨fun hmem => ⟨Or.inl hmem, fun hheld => hnodup.2.2 hmem hheld⟩,
      fun hmem => hmem.1.resolve_right hmem.2⟩
  · obtain ⟨ptr, rest, rfl, hptr, hres, -⟩ := h.get ha hroom
    rw [hres]
    exact ⟨hptr, h.mem_cells.mpr (Or.inl (List.mem_cons_self ..)),
      fun hheld => hnodup.2.2 (List.mem_cons_self ..) hheld⟩

end Shared

/-! ## Init -/

/-- The loop in `Reset` pushes the cells of the array. -/
theorem reset_eq (size : Nat) (pool : Pool) :
    pool.reset size = (cells size pool.data pool.capacity).foldl Pool.slStackPush pool := by
  have hloop : ∀ (is : List Nat) (q : Pool), q.data = pool.data →
      is.foldl (fun q i => q.slStackPush (q.cell size i)) q =
        is.foldl (fun q i => q.slStackPush (pool.data + i * size)) q := by
    intro is
    induction is with
    | nil => exact fun _ _ => rfl
    | cons i is ih =>
      intro q hq
      rw [List.foldl_cons, List.foldl_cons, Pool.cell, hq, ih (q.slStackPush _) hq]
  rw [Pool.reset, hloop _ pool rfl, cells, List.foldl_map]

/-- Cells that are pushed one after another are the free list, the last one first. -/
theorem push_all : ∀ {ptrs free : List Nat} {pool : Pool}, Path pool.next free 0 →
    pool.freeList = free.headD 0 → pool.freeList < 2 ^ 64 → (∀ ptr ∈ ptrs, ptr < 2 ^ 64) →
    (ptrs.reverse ++ free).Nodup →
    (ptrs.foldl Pool.slStackPush pool).freeList = (ptrs.reverse ++ free).headD 0 ∧
      Path (ptrs.foldl Pool.slStackPush pool).next (ptrs.reverse ++ free) 0 := by
  intro ptrs
  induction ptrs with
  | nil => exact fun hpath hhead _ _ _ => ⟨hhead, hpath⟩
  | cons ptr ptrs ih =>
    intro free pool hpath hhead hlt hptrs hnodup
    rw [List.reverse_cons, List.append_assoc, List.singleton_append] at hnodup ⊢
    have hnew : ptr ∉ free := (List.nodup_cons.mp (List.nodup_append'.mp hnodup).2.1).1
    exact ih (Pool.slStackPush_path hpath hhead hlt hnew) rfl (hptrs ptr (List.mem_cons_self ..))
      (fun other hother => hptrs other (List.mem_cons_of_mem ptr hother)) hnodup

/-- Pushing changes neither the count nor the capacity, nor where the array is. -/
theorem push_all_frame (ptrs : List Nat) (pool : Pool) :
    (ptrs.foldl Pool.slStackPush pool).count = pool.count ∧
      (ptrs.foldl Pool.slStackPush pool).capacity = pool.capacity ∧
      (ptrs.foldl Pool.slStackPush pool).data = pool.data :=
  List.foldlRecOn ptrs Pool.slStackPush
    (motive := fun q : Pool =>
      q.count = pool.count ∧ q.capacity = pool.capacity ∧ q.data = pool.data) ⟨rfl, rfl, rfl⟩
    (fun _ h _ _ => h)

theorem Traced.shared_create {size data capacity : Nat} (ha : Allocated size data capacity) :
    (Traced.create size data capacity).Shared (cells size data capacity)
      (cells size data capacity).reverse := by
  have hreset : (Traced.create size data capacity).pool = _ := reset_eq size _
  obtain ⟨hcount, hcap, -⟩ := push_all_frame (cells size data capacity)
    ⟨data, 0, 0, capacity, fun _ => List.replicate size 0⟩
  obtain ⟨hhead, hpath⟩ := @push_all (cells size data capacity) []
    ⟨data, 0, 0, capacity, fun _ => List.replicate size 0⟩ trivial rfl (Nat.two_pow_pos 64)
    (fun ptr hptr => (ha.mem hptr).2)
    (by rw [List.append_nil]; exact List.nodup_reverse.mpr ha.nodup)
  rw [List.append_nil] at hhead hpath
  refine ⟨?_, ?_, ?_, ?_, ?_⟩
  · rw [hreset]
    exact hcap.trans length_cells.symm
  · rw [hreset]
    exact hcount
  · rw [hreset]
    exact hhead
  · rw [hreset]
    exact hpath
  · rw [Traced.create, List.append_nil]
    exact List.reverse_perm _

theorem Traced.step_returns (s : Traced) (call : Call) : ∃ t, s.step call = some t := by
  cases call <;> exact ⟨_, rfl⟩

/-- No call moves the array. -/
theorem Traced.step_data {s t : Traced} {call : Call} (hstep : s.step call = some t) :
    t.pool.data = s.pool.data := by
  cases call with
  | get =>
    rw [Traced.step_get, Option.some.injEq] at hstep
    subst hstep
    simp only [Pool.get, Pool.slStackPop]
    split_ifs <;> rfl
  | return_ ptr =>
    cases hstep
    rfl
  | write ptr bytes =>
    cases hstep
    rfl

/-- What holds after a sequence of admitted calls: the free list and the held cells make up the
array, which is where it was made. -/
theorem Traced.exec_shared {size data capacity : Nat} (ha : Allocated size data capacity)
    {calls : List Call}
    (hok : AtEach Traced.step (Traced.Ok size) (Traced.create size data capacity) calls) :
    ∃ s free, exec Traced.step (Traced.create size data capacity) calls = some s ∧
      s.Shared (cells size data capacity) free ∧ s.pool.data = data := by
  have hkeep : ∀ (s : Traced) (call : Call),
      (∃ free, s.Shared (cells size data capacity) free) ∧ s.pool.data = data → s.Ok size call →
        ∃ t, s.step call = some t ∧
          (∃ free, t.Shared (cells size data capacity) free) ∧ t.pool.data = data := by
    intro s call hs hok
    obtain ⟨⟨free, h⟩, hdata⟩ := hs
    obtain ⟨t, ht⟩ := s.step_returns call
    exact ⟨t, ht, h.step ha hok ht, (Traced.step_data ht).trans hdata⟩
  have hreset : (Traced.create size data capacity).pool = _ := reset_eq size _
  have hdata : (Traced.create size data capacity).pool.data = data := by
    rw [hreset]
    exact (push_all_frame _ _).2.2
  obtain ⟨s, hs, ⟨free, h⟩, hend⟩ :=
    hok.exec_invariant _ hkeep ⟨⟨_, Traced.shared_create ha⟩, hdata⟩
  exact ⟨s, free, hs, h, hend⟩

/-- After every sequence of gets, of returns of held cells and of writes to held cells on a
new pool, each cell has one owner at a time. -/
theorem pool_owns {size data capacity : Nat} (ha : Allocated size data capacity)
    {calls : List Call}
    (hok : AtEach Traced.step (Traced.Ok size) (Traced.create size data capacity) calls) :
    ∃ s, exec Traced.step (Traced.create size data capacity) calls = some s ∧
      s.Owned size data capacity := by
  obtain ⟨s, free, hs, h, -⟩ := Traced.exec_shared ha hok
  exact ⟨s, hs, h.owned ha⟩

/-- Two cells, one of which is filled with bytes that read as a pointer and returned. -/
theorem pool_owns_two :
    ∃ s, exec Traced.step (Traced.create 8 4096 2)
        [.get, .get, .write 4104 [1, 16, 0, 0, 0, 0, 0, 0], .return_ 4104, .get] = some s ∧
      s.Owned 8 4096 2 :=
  pool_owns ⟨by decide, by decide, by decide⟩ (by decide +kernel)

end ScalBase.Pools
