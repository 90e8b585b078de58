/-
  Pool/Assertions.lean --- the assertions of `Init`, `Get` and `Return`.

  The functions of `Lib/Pool.h` with their `SAssert`s compiled in: one that fails leaves
  no result.  Where all hold they are the functions without them.  `Return` asserts
  `Count < Capacity` before it lowers `Count`, which fails for the pool that is
  completely handed out.
-/
import ScalBase.Pool

set_option autoImplicit false

namespace ScalBase.Pools

open Foundation

namespace Pool

/-- `IsPointerInPool`. -/
def isPointerInPool (size : Nat) (pool : Pool) (ptr : Nat) : Bool :=
  if ptr = 0 then false else decide (ptr ≥ pool.data ∧ ptr < pool.data + pool.capacity * size)

/-- `Init` with its assertions, where `ArenaPushArrayZero` returns the array at `data`. -/
def initAsserting (size data arena capacity : Nat) (pool : Pool) : Option Pool :=
  if arena ≠ 0 ∧ capacity > 0 ∧ pool.data = 0 ∧ pool.count = 0 then
    some (pool.init size data capacity)
  else none

/-- `Get` with its assertion. -/
def getAsserting (pool : Pool) : Option (Nat × Pool) :=
  if pool.count = pool.capacity then some (0, pool)
  else
    let res := pool.freeList
    let pool := pool.slStackPop
    if res ≠ 0 then some (res, { pool with count := u64 (pool.count + 1) }) else none

/-- `Return` with its assertions. -/
def returnAsserting (size : Nat) (pool : Pool) (ptr : Nat) : Option Pool :=
  if ptr ≠ 0 ∧ pool.count < pool.capacity ∧ pool.isPointerInPool size ptr = true then
    let pool := pool.slStackPush ptr
    some { pool with count := sub64 pool.count 1 }
  else none

end Pool

/-- The calls considered: `Get` of a pool that is not full, `Return` of a cell that is
held, and users who overwrite cells they hold. -/
def Traced.Valid (size : Nat) (s : Traced) (call : Call) : Prop :=
  s.Ok size call ∧ (call = .get → s.pool.count < s.pool.capacity)

instance (size : Nat) (s : Traced) (call : Call) : Decidable (s.Valid size call) :=
  inferInstanceAs (Decidable (_ ∧ _))

/-- All assertions of a call hold: it is the call without them. -/
def Traced.Asserts (size : Nat) (s : Traced) : Call → Prop
  | .get => s.pool.getAsserting = some s.pool.get
  | .return_ ptr => s.pool.returnAsserting size ptr = some (s.pool.return_ ptr)
  | .write _ _ => True

/-- A cell that is returned is not the last of all. -/
def Traced.NotFull (s : Traced) : Call → Prop
  | .return_ _ => s.pool.count < s.pool.capacity
  | _ => True

instance (s : Traced) (call : Call) : Decidable (s.NotFull call) :=
  match call with
  | .return_ _ => inferInstanceAs (Decidable (_ < _))
  | .get | .write _ _ => isTrue trivial

section Asserts

variable {size data capacity : Nat}

/-- The assertions of `Init` on a zero-initialised pool. -/
theorem initAsserting_iff (arena : Nat) :
    Pool.zero.initAsserting size data arena capacity = some (Pool.zero.init size data capacity) ↔
      arena ≠ 0 ∧ capacity > 0 := by
  rw [Pool.initAsserting]
  split
  · rename_i hall
    exact iff_of_true rfl ⟨hall.1, hall.2.1⟩
  · rename_i hnot
    exact iff_of_false nofun fun hboth => hnot ⟨hboth.1, hboth.2, rfl, rfl⟩

variable {s : Traced} {free : List Nat}

theorem isPointerInPool_of_mem (ha : Allocated size data capacity) (hdata : s.pool.data = data)
    (hcap : s.pool.capacity = capacity) {ptr : Nat} (hptr : ptr ∈ cells size data capacity) :
    s.pool.isPointerInPool size ptr = true := by
  have hne := (ha.mem hptr).1
  have hsize := ha.pointer
  obtain ⟨i, hi, rfl⟩ := List.mem_map.mp hptr
  have hend : (i + 1) * size ≤ capacity * size := Nat.mul_le_mul_right size (List.mem_range.mp hi)
  rw [Nat.succ_mul] at hend
  rw [Pool.isPointerInPool, if_neg hne, hdata, hcap, decide_eq_true_iff]
  omega

/-- The assertions of a valid call hold exactly when it returns no cell to a full pool. -/
theorem Traced.Shared.asserts_iff (ha : Allocated size data capacity)
    (h : s.Shared (cells size data capacity) free) (hdata : s.pool.data = data) {call : Call}
    (hvalid : s.Valid size call) : s.Asserts size call ↔ s.NotFull call := by
  have hcap : s.pool.capacity = capacity := h.capacity.trans length_cells
  cases call with
  | get =>
    have hroom := hvalid.2 rfl
    have hhead := h.head_ne_zero ha (hcap ▸ hroom)
    refine iff_of_true ?_ trivial
    rw [Asserts, Pool.getAsserting, Pool.get, if_neg hroom.ne, if_neg hroom.ne, if_pos hhead]
  | return_ ptr =>
    have hcell : ptr ∈ cells size data capacity := h.mem_cells.mpr (Or.inr hvalid.1)
    have hinside := isPointerInPool_of_mem ha hdata hcap hcell
    rw [Asserts, NotFull, Pool.returnAsserting]
    split
    · rename_i hall
      exact iff_of_true rfl hall.2.1
    · rename_i hnot
      exact iff_of_false (Option.some_ne_none _).symm fun hroom =>
        hnot ⟨(ha.mem hcell).1, hroom, hinside⟩
  | write ptr bytes => exact Iff.rfl

end Asserts

/-- After `Init` on a zero-initialised pool, all assertions of `Init` and of every sequence of
valid calls hold exactly when there is an arena and a cell, and no `Return` is made while the
pool is full. -/
theorem pool_asserts_iff {size data capacity : Nat} (ha : Allocated size data capacity)
    (arena : Nat) {calls : List Call}
    (hok : AtEach Traced.step (Traced.Valid size) (Traced.create size data capacity) calls) :
    (Pool.zero.initAsserting size data arena capacity =
          some (Traced.create size data capacity).pool ∧
        AtEach Traced.step (Traced.Asserts size) (Traced.create size data capacity) calls) ↔
      (arena ≠ 0 ∧ capacity > 0) ∧
        AtEach Traced.step Traced.NotFull (Traced.create size data capacity) calls := by
  apply and_congr
  · exact initAsserting_iff arena
  · -- In each state reached the free list and the held cells make up the array.
    refine forall_congr' fun done => forall_congr' fun call => forall_congr' fun s =>
      imp_congr_right fun hpre => imp_congr_right fun hexec => ?_
    have hshort : done <+: calls := (List.prefix_append done [call]).trans hpre
    have hdone : AtEach Traced.step (Traced.Ok size) (Traced.create size data capacity) done :=
      fun done' call' t hpre' ht => (hok done' call' t (hpre'.trans hshort) ht).1
    obtain ⟨t, free, ht, h, hdata⟩ := Traced.exec_shared ha hdone
    cases ht.symm.trans hexec
    exact h.asserts_iff ha hdata (hok done call s hpre hexec)

/-- Two cells, one of which is taken and returned. -/
theorem pool_asserts_iff_two :
    (Pool.zero.initAsserting 8 4096 64 2 = some (Traced.create 8 4096 2).pool ∧
        AtEach Traced.step (Traced.Asserts 8) (Traced.create 8 4096 2) [.get, .return_ 4104]) ↔
      (64 ≠ 0 ∧ 2 > 0) ∧
        AtEach Traced.step Traced.NotFull (Traced.create 8 4096 2) [.get, .return_ 4104] :=
  pool_asserts_iff ⟨by decide, by decide, by decide⟩ 64 (by decide +kernel)

/-- The only cell is taken and returned. -/
theorem return_of_last_asserts :
    Allocated 8 4096 1 ∧
      AtEach Traced.step (Traced.Valid 8) (Traced.create 8 4096 1) [.get, .return_ 4096] ∧
      ¬ AtEach Traced.step (Traced.Asserts 8) (Traced.create 8 4096 1) [.get, .return_ 4096] := by
  refine ⟨⟨by decide, by decide, by decide⟩, by decide +kernel, fun hasserts => ?_⟩
  have hreturn := hasserts [.get] (.return_ 4096) _ (List.prefix_refl _) rfl
  have hnone : ((Traced.create 8 4096 1).pool.get.2.returnAsserting 8 4096).isNone = true := by
    decide +kernel
  rw [Option.isNone_iff_eq_none] at hnone
  exact Option.some_ne_none _ (hreturn.symm.trans hnone)

end ScalBase.Pools
