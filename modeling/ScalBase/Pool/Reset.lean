/-
  Pool/Reset.lean --- `Pool::Reset` after a history of calls.

  `Reset` pushes every cell of the array onto the free list that is there, and sets
  neither `FreeList` nor `Count` to 0 first.  `Init` calls it where both are.  On a
  free list that is not empty the first cell that is pushed leads to the head of the
  list, which is one of the cells pushed after it or the cell itself: no cell leads to
  null any more.  The list is empty only where all cells are handed out, and then
  `Count` stays `Capacity`.
-/
import ScalBase.Pool

set_option autoImplicit false

namespace ScalBase.Pools

open Foundation

/-- What `n` calls of `Get` return. -/
def gets : Nat → Pool → List Nat
  | 0, _ => []
  | n + 1, pool => pool.get.1 :: gets n pool.get.2

/-- The pool is as it is after `Init`. -/
structure Pool.Fresh (size data capacity : Nat) (pool : Pool) : Prop where
  count : pool.count = 0
  /-- The free list ends, and passes each cell once. -/
  free : ∃ free : List Nat, pool.freeList = free.headD 0 ∧ Path pool.next free 0 ∧
    free.Perm (cells size data capacity)
  /-- The next `Capacity` calls of `Get` succeed, with different cells. -/
  gets : (gets capacity pool).Nodup ∧ ∀ ptr ∈ gets capacity pool, ptr ≠ 0

section Reset

variable {size data capacity : Nat}

/-- On a list that is not empty, the cells that are pushed lead to cells. -/
theorem push_all_next_ne_zero : ∀ {ptrs : List Nat} {pool : Pool}, pool.freeList ≠ 0 →
    pool.freeList < 2 ^ 64 → (∀ ptr ∈ ptrs, ptr ≠ 0 ∧ ptr < 2 ^ 64) → ∀ other,
    other ∈ ptrs ∨ pool.next other ≠ 0 → (ptrs.foldl Pool.slStackPush pool).next other ≠ 0 := by
  intro ptrs
  induction ptrs with
  | nil => exact fun _ _ _ other hother => hother.resolve_left List.not_mem_nil
  | cons ptr ptrs ih =>
    intro pool hne hlt hptrs other hother
    obtain ⟨hptr, hptrs'⟩ := List.forall_mem_cons.mp hptrs
    apply ih hptr.1 hptr.2 hptrs'
    rcases Decidable.eq_or_ne other ptr with rfl | hother'
    · -- The cell that is pushed leads to the head before it.
      right
      rw [Pool.next, Pool.slStackPush]
      simp only [Function.update_self]
      rwa [bytesWord_wordBytes _ (by simpa using hlt)]
    · refine hother.imp (fun hmem => (List.mem_cons.mp hmem).resolve_left hother') fun hnext => ?_
      rw [Pool.next, Pool.slStackPush]
      simp only [Function.update_of_ne hother']
      exact hnext

/-- A pool with a free cell is not fresh after `Reset`, whatever its count. -/
theorem not_fresh_of_free {pool : Pool} (ha : Allocated size data capacity) (hpos : 0 < capacity)
    (hdata : pool.data = data) (hcap : pool.capacity = capacity) (hne : pool.freeList ≠ 0)
    (hlt : pool.freeList < 2 ^ 64) : ¬ (pool.reset size).Fresh size data capacity := by
  rintro ⟨-, ⟨free, -, hpath, hperm⟩, -⟩
  rw [reset_eq, hdata, hcap] at hpath
  have hfree : free ≠ [] := by
    rintro rfl
    have hlength := hperm.length_eq
    rw [List.length_nil, length_cells] at hlength
    omega
  obtain ⟨ptr, hptr, hend⟩ := hpath.exists_end hfree
  exact push_all_next_ne_zero hne hlt (fun ptr hptr => ha.mem hptr) ptr
    (Or.inl (hperm.mem_iff.mp hptr)) hend

theorem reset_count (pool : Pool) : (pool.reset size).count = pool.count := by
  rw [reset_eq]
  exact (push_all_frame _ _).1

/-- After no history of calls on a pool with a cell is it fresh after `Reset`. -/
theorem Traced.Shared.not_fresh {s : Traced} {free : List Nat} (ha : Allocated size data capacity)
    (h : s.Shared (cells size data capacity) free) (hdata : s.pool.data = data)
    (hpos : 0 < capacity) : ¬ (s.pool.reset size).Fresh size data capacity := by
  intro hfresh
  have hcount := hfresh.count
  rw [reset_count] at hcount
  have hne := h.head_ne_zero ha (hcount.symm ▸ hpos)
  exact not_fresh_of_free ha hpos hdata (h.capacity.trans length_cells) hne (h.head_lt ha) hfresh

/-- A pool without cells is fresh. -/
theorem Traced.Shared.fresh {s : Traced} {free : List Nat}
    (h : s.Shared (cells size data 0) free) : (s.pool.reset size).Fresh size data 0 := by
  have hlength := h.length
  have hfree : free = [] := List.eq_nil_of_length_eq_zero (by omega)
  have hreset : s.pool.reset size = s.pool := by
    rw [reset_eq, h.capacity, length_cells]
    rfl
  rw [hreset]
  refine ⟨by omega, ⟨[], ?_, trivial, .nil⟩, List.nodup_nil, fun _ hptr => nomatch hptr⟩
  rw [h.head, hfree]

end Reset

/-- After every sequence of gets, of returns of held cells and of writes to held cells on a
new pool, `Reset` leaves it as `Init` does exactly when it has no cells at all. -/
theorem pool_reset_iff {size data capacity : Nat} (ha : Allocated size data capacity)
    {calls : List Call}
    (hok : AtEach Traced.step (Traced.Ok size) (Traced.create size data capacity) calls) :
    ∃ s, exec Traced.step (Traced.create size data capacity) calls = some s ∧
      ((s.pool.reset size).Fresh size data capacity ↔ capacity = 0) := by
  obtain ⟨s, free, hs, h, hdata⟩ := Traced.exec_shared ha hok
  refine ⟨s, hs, fun hfresh => ?_, ?_⟩
  · by_contra hne
    exact h.not_fresh ha hdata (Nat.pos_of_ne_zero hne) hfresh
  · rintro rfl
    exact h.fresh

/-- Two cells, one of which is held. -/
theorem pool_reset_iff_two :
    ∃ s, exec Traced.step (Traced.create 8 4096 2) [.get] = some s ∧
      ((s.pool.reset 8).Fresh 8 4096 2 ↔ 2 = 0) :=
  pool_reset_iff ⟨by decide, by decide, by decide⟩ (by decide +kernel)

/-- With one of two cells held, `Reset` leaves `Count` at 1 and a cell that leads to itself. -/
theorem reset_links_cell_to_itself :
    Allocated 8 4096 2 ∧
      AtEach Traced.step (Traced.Ok 8) (Traced.create 8 4096 2) [.get] ∧
      ∃ s, exec Traced.step (Traced.create 8 4096 2) [.get] = some s ∧
        (s.pool.reset 8).count = 1 ∧ (s.pool.reset 8).next 4096 = 4096 ∧
        ¬ (s.pool.reset 8).Fresh 8 4096 2 := by
  refine ⟨⟨by decide, by decide, by decide⟩, by decide +kernel, _, rfl, by decide +kernel,
    by decide +kernel, fun hfresh => ?_⟩
  have hcount := hfresh.count
  revert hcount
  decide +kernel

end ScalBase.Pools
