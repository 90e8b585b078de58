/-
  Handles.lean --- the generational handle pool of `Lib/Handles.h`.

  A `Handle` is a 32-bit word of three bit-fields: a 23-bit `Id`, the bit `Alive`
  and an 8-bit `Gen`.  `Sparse` and `Dense` are functions from indexes.

  `DoesHandleExist` compares a handle, whose `Alive` bit must be set, with an entry
  of `Dense`.  `NewHandle` sets the bit only in the copy it returns and no other
  store sets it, so no entry of `Dense` is ever alive: no handle validates, and
  `ReleaseHandle`, which asks first, does nothing.

  Two more defects are behind that one.  `HandlesPoolCreate` leaves the last entry of
  `Dense` at id 0, the id of the first; and no branch of `ReleaseHandle` lowers
  `Count`.
-/
import ScalBase.Base
import ScalBase.Foundation.Run

set_option autoImplicit false

namespace ScalBase.Handles

open Foundation

/-! ## The pool -/

/-- A handle, `SCAL_BIG_HANDLE` being off. -/
structure Handle where
  id : BitVec 23
  alive : Bool
  gen : BitVec 8
  deriving DecidableEq, Repr

/-- The word `Value` that the bit-fields share, `Id` in the low bits. -/
def Handle.value (h : Handle) : BitVec 32 := h.gen ++ (BitVec.ofBool h.alive ++ h.id)

/-- The zeroed handle `{}`. -/
def Handle.zero : Handle := ⟨0, false, 0⟩

/-- The pool. -/
structure HandlesPool where
  count : Nat
  capacity : Nat
  sparse : Nat → Nat
  dense : Nat → Handle

namespace HandlesPool

/-- `NewHandle`. -/
def newHandle (pool : HandlesPool) : Handle × HandlesPool :=
  if pool.count = pool.capacity then (Handle.zero, pool)
  else
    let idx := pool.count
    let res := { pool.dense idx with alive := true }
    (res, { pool with
      count := pool.count + 1
      sparse := Function.update pool.sparse res.id.toNat idx })

/-- `DoesHandleExist`. -/
def doesHandleExist (pool : HandlesPool) (handle : Handle) : Bool :=
  if handle.id.toNat ≥ pool.capacity ∨ handle.alive = false then false
  else
    let idx := pool.sparse handle.id.toNat
    (pool.dense idx).value == handle.value

/-- `ReleaseHandle`. -/
def releaseHandle (pool : HandlesPool) (handle : Handle) : HandlesPool :=
  if pool.doesHandleExist handle then
    let idx := pool.sparse handle.id.toNat
    let last := u32 (pool.count + (2 ^ 32 - 1))
    let lastHandle := pool.dense last
    let dense := Function.update pool.dense idx lastHandle
    { pool with
      sparse := Function.update pool.sparse lastHandle.id.toNat idx
      dense := Function.update dense last
        { id := handle.id, gen := handle.gen + 1, alive := false } }
  else pool

end HandlesPool

/-- `res.Dense[i].Id = i;` -/
def setId (dense : Nat → Handle) (i : Nat) : Nat → Handle :=
  Function.update dense i { dense i with id := BitVec.ofNat 23 i }

/-- `HandlesPoolCreate`, on zeroed arrays.  The loop stops before the last entry. -/
def handlesPoolCreate (capacity : Nat) : HandlesPool :=
  { count := 0
    capacity := capacity
    sparse := fun _ => 0
    dense := (List.range (capacity - 1)).foldl setId fun _ => Handle.zero }

/-! ## Runs -/

/-- A call on the pool. -/
inductive Call where
  | newHandle
  | releaseHandle (handle : Handle)
  deriving DecidableEq, Repr

/-- The pool together with the handles that successful `NewHandle` calls returned and
that have not been released since. -/
structure Traced where
  pool : HandlesPool
  live : List Handle

/-- The effect of a call. -/
def Traced.step (s : Traced) : Call → Traced
  | .newHandle =>
      { pool := s.pool.newHandle.2
        live := if s.pool.count = s.pool.capacity then s.live else s.pool.newHandle.1 :: s.live }
  | .releaseHandle handle =>
      { pool := s.pool.releaseHandle handle, live := s.live.filter (· ≠ handle) }

/-- The state after a sequence of calls on a new pool. -/
def Traced.run (capacity : Nat) (calls : List Call) : Traced :=
  calls.foldl Traced.step ⟨handlesPoolCreate capacity, []⟩

/-- `DoesHandleExist` tells exactly the live handles. -/
def Traced.Tracks (s : Traced) : Prop :=
  ∀ handle, s.pool.doesHandleExist handle = true ↔ handle ∈ s.live

/-! ## No entry of `Dense` is alive -/

/-- The bit `Alive` of the word. -/
theorem Handle.value_alive (h : Handle) : h.value.getLsbD 23 = h.alive := by
  have hvalue : h.value.getLsbD 23 = (h.gen ++ (BitVec.ofBool h.alive ++ h.id)).getLsbD 23 := rfl
  rw [hvalue, BitVec.getLsbD_append, BitVec.getLsbD_append]
  simp

/-- No entry of `Dense` has its `Alive` bit set. -/
def HandlesPool.Dead (pool : HandlesPool) : Prop := ∀ i, (pool.dense i).alive = false

theorem dead_create (capacity : Nat) : (handlesPoolCreate capacity).Dead := by
  -- Every store of the loop keeps the bit of the entry it writes.
  refine List.foldlRecOn (List.range (capacity - 1)) setId
    (motive := fun dense => ∀ i, (dense i).alive = false) ?_ ?_
  · intro i
    rfl
  · intro dense h j _ i
    unfold setId
    by_cases hi : i = j
    · subst hi
      rw [Function.update_self]
      exact h i
    · rw [Function.update_of_ne hi]
      exact h i

variable {pool : HandlesPool}

/-- With no entry alive no handle validates. -/
theorem HandlesPool.Dead.not_exist (h : pool.Dead) (handle : Handle) :
    pool.doesHandleExist handle = false := by
  unfold HandlesPool.doesHandleExist
  split_ifs with hout
  · rfl
  · push Not at hout
    rw [beq_eq_false_iff_ne]
    intro heq
    have hbit := congrArg (fun w => w.getLsbD 23) heq
    simp only [Handle.value_alive] at hbit
    rw [h] at hbit
    exact hout.2 hbit.symm

/-- `ReleaseHandle` then does nothing. -/
theorem HandlesPool.Dead.release (h : pool.Dead) (handle : Handle) :
    pool.releaseHandle handle = pool := by
  rw [HandlesPool.releaseHandle, if_neg (by simp [h.not_exist])]

theorem HandlesPool.Dead.newHandle (h : pool.Dead) : pool.newHandle.2.Dead := by
  unfold HandlesPool.newHandle
  split_ifs with hfull
  · exact h
  · exact h

theorem Traced.dead_step {s : Traced} (h : s.pool.Dead) (call : Call) :
    (s.step call).pool.Dead := by
  cases call with
  | newHandle => exact h.newHandle
  | releaseHandle handle =>
    rw [Traced.step, h.release]
    exact h

theorem Traced.dead_run (capacity : Nat) (calls : List Call) :
    (Traced.run capacity calls).pool.Dead := by
  refine List.foldlRecOn calls Traced.step (motive := fun s : Traced => s.pool.Dead)
    (dead_create capacity) ?_
  intro s hs call _
  exact Traced.dead_step hs call

/-! ## When the pool tracks liveness -/

/-- A state tracks liveness only when nothing is live. -/
theorem Traced.tracks_iff {s : Traced} (h : s.pool.Dead) : s.Tracks ↔ s.live = [] := by
  constructor
  · intro ht
    rw [List.eq_nil_iff_forall_not_mem]
    intro handle hmem
    have hexist := (ht handle).mpr hmem
    rw [h.not_exist] at hexist
    cases hexist
  · intro hnil handle
    rw [hnil, h.not_exist]
    simp

/-- A sequence without `NewHandle` leaves the new pool as it was. -/
theorem Traced.run_of_no_new {capacity : Nat} : ∀ {calls : List Call}, Call.newHandle ∉ calls →
    Traced.run capacity calls = ⟨handlesPoolCreate capacity, []⟩ := by
  intro calls
  induction calls using List.reverseRecOn with
  | nil => intro _; rfl
  | append_singleton calls call ih =>
    intro hnew
    rw [List.mem_append, not_or] at hnew
    have hrun : Traced.run capacity (calls ++ [call]) = (Traced.run capacity calls).step call := by
      simp [Traced.run]
    rw [hrun, ih hnew.1]
    cases call with
    | newHandle => exact absurd (List.mem_singleton_self _) hnew.2
    | releaseHandle handle =>
      rw [Traced.step, (dead_create capacity).release]
      rfl

/-- In a pool with room, the first handle is returned and does not validate. -/
theorem Traced.live_of_first_new {capacity : Nat} (hcap : 0 < capacity) {calls : List Call}
    (hnone : Call.newHandle ∉ calls) :
    (Traced.run capacity (calls ++ [.newHandle])).live ≠ [] := by
  have hrun : Traced.run capacity (calls ++ [.newHandle]) =
      (Traced.run capacity calls).step .newHandle := by simp [Traced.run]
  have hroom : ¬ (handlesPoolCreate capacity).count = (handlesPoolCreate capacity).capacity :=
    hcap.ne
  rw [hrun, Traced.run_of_no_new hnone, Traced.step, if_neg hroom]
  exact List.cons_ne_nil _ _

/-- One call to `NewHandle`: the handle is live and does not exist. -/
theorem newHandle_not_exist :
    ∃ handle, handle ∈ (Traced.run 1 [.newHandle]).live ∧
      (Traced.run 1 [.newHandle]).pool.doesHandleExist handle = false :=
  ⟨⟨0, true, 0⟩, by decide, by decide⟩

/-- `DoesHandleExist` tells the live handles in every state of a sequence of calls
exactly when the sequence has no call to `NewHandle`. -/
theorem doesHandleExist_iff_live {capacity : Nat} (hcap : 0 < capacity) (calls : List Call) :
    (∀ done, done <+: calls → (Traced.run capacity done).Tracks) ↔ Call.newHandle ∉ calls := by
  constructor
  · intro h hnew
    obtain ⟨done, rest, hsplit, hfirst⟩ := List.eq_append_cons_of_mem hnew
    have hshort : done ++ [Call.newHandle] <+: calls := ⟨rest, by rw [hsplit]; simp⟩
    have htracks := h _ hshort
    rw [Traced.tracks_iff (Traced.dead_run capacity _)] at htracks
    exact Traced.live_of_first_new hcap hfirst htracks
  · intro hnew done hshort
    have hnone : Call.newHandle ∉ done := fun hmem => hnew (hshort.subset hmem)
    rw [Traced.tracks_iff (Traced.dead_run capacity done), Traced.run_of_no_new hnone]

/-- A pool of two: a handle that was never made is released, one is made, and it is released. -/
theorem doesHandleExist_iff_live_two :
    (∀ done, done <+: [.releaseHandle ⟨1, true, 0⟩, .newHandle, .releaseHandle ⟨0, true, 0⟩] →
        (Traced.run 2 done).Tracks) ↔
      Call.newHandle ∉
        [.releaseHandle ⟨1, true, 0⟩, .newHandle, .releaseHandle ⟨0, true, 0⟩] :=
  doesHandleExist_iff_live (by decide) _

/-! ## Live handles are unique -/

/-- The effect of a call, as the step of a run. -/
def Traced.next (s : Traced) (call : Call) : Option Traced := some (s.step call)

theorem Traced.exec_next (s : Traced) (calls : List Call) :
    exec Traced.next s calls = some (calls.foldl Traced.step s) :=
  exec_total Traced.step s calls

/-- What every state passed has, every call leads to. -/
theorem Traced.atEach_next_iff {G : Traced → Prop} {s : Traced} (hs : G s) (calls : List Call) :
    (∀ done, done <+: calls → G (done.foldl Traced.step s)) ↔
      AtEach Traced.next (fun t call => ∀ u, t.next call = some u → G u) s calls := by
  rw [atEach_leads_iff hs]
  constructor
  · intro h done t hpre ht
    rw [Traced.exec_next] at ht
    exact Option.some_injective _ ht ▸ h done hpre
  · intro h done hpre
    exact h done _ hpre (s.exec_next done)

/-- A new pool, with nothing live. -/
def Traced.create (capacity : Nat) : Traced := ⟨handlesPoolCreate capacity, []⟩

/-- No two live handles have the same id. -/
def Traced.Unique (s : Traced) : Prop := (s.live.map Handle.id).Nodup

instance (s : Traced) : Decidable s.Unique := inferInstanceAs (Decidable (List.Nodup _))

/-- A `NewHandle` that takes the last entry of `Dense`, which the loop in
`HandlesPoolCreate` leaves at id 0, finds no live handle of that id. -/
def Traced.LastFree (s : Traced) : Call → Prop
  | .newHandle => s.pool.count + 1 = s.pool.capacity → ∀ handle ∈ s.live, handle.id ≠ 0
  | .releaseHandle _ => True

instance (s : Traced) (call : Call) : Decidable (s.LastFree call) :=
  match call with
  | .newHandle => inferInstanceAs (Decidable (_ → _))
  | .releaseHandle _ => isTrue trivial

theorem setId_foldl (n i : Nat) : (List.range n).foldl setId (fun _ => Handle.zero) i =
    ⟨if i < n then BitVec.ofNat 23 i else 0, false, 0⟩ := by
  induction n with
  | zero => rfl
  | succ n ih =>
    rw [List.range_succ, List.foldl_concat, setId]
    by_cases hi : i = n
    · subst hi
      rw [Function.update_self, ih, if_pos (Nat.lt_succ_self i)]
    · have hiff : i < n + 1 ↔ i < n := by omega
      rw [Function.update_of_ne hi, ih]
      simp only [hiff]

/-- The ids that `HandlesPoolCreate` sets. -/
theorem create_dense_id (capacity i : Nat) : ((handlesPoolCreate capacity).dense i).id =
    if i < capacity - 1 then BitVec.ofNat 23 i else 0 := by
  show ((List.range (capacity - 1)).foldl setId (fun _ => Handle.zero) i).id = _
  rw [setId_foldl]

/-- What the calls keep while no two live handles have the same id: `Dense` is as it was
made, and the live handles were taken from its first `Count` entries. -/
structure Traced.Issued (capacity : Nat) (s : Traced) : Prop where
  dense : s.pool.dense = (handlesPoolCreate capacity).dense
  size : s.pool.capacity = capacity
  count : s.pool.count ≤ capacity
  unique : s.Unique
  live : ∀ handle ∈ s.live, ∃ i < s.pool.count, handle.id = (s.pool.dense i).id

theorem Traced.issued_create (capacity : Nat) : (Traced.create capacity).Issued capacity :=
  ⟨rfl, rfl, Nat.zero_le _, List.nodup_nil, fun _ hmem => absurd hmem List.not_mem_nil⟩

section Issued

variable {s : Traced} {capacity : Nat}

theorem Traced.Issued.dead (h : s.Issued capacity) : s.pool.Dead := by
  intro i
  rw [h.dense]
  exact dead_create capacity i

/-- `NewHandle` in a pool that is not full. -/
theorem Traced.step_newHandle (hroom : s.pool.count ≠ s.pool.capacity) :
    (s.step .newHandle).live = { s.pool.dense s.pool.count with alive := true } :: s.live ∧
      (s.step .newHandle).pool.count = s.pool.count + 1 ∧
      (s.step .newHandle).pool.dense = s.pool.dense ∧
      (s.step .newHandle).pool.capacity = s.pool.capacity := by
  simp only [Traced.step, HandlesPool.newHandle, if_neg hroom, and_self]

theorem Traced.step_newHandle_full (hfull : s.pool.count = s.pool.capacity) :
    s.step .newHandle = s := by
  simp only [Traced.step, HandlesPool.newHandle, if_pos hfull]

/-- The entry a `NewHandle` takes before the last has an id of its own. -/
theorem Traced.Issued.fresh (h : s.Issued capacity) (hcapacity : capacity ≤ 2 ^ 23)
    (hcount : s.pool.count + 1 < capacity) {handle : Handle} (hmem : handle ∈ s.live) :
    handle.id ≠ (s.pool.dense s.pool.count).id := by
  obtain ⟨i, hi, hid⟩ := h.live handle hmem
  rw [hid, h.dense, create_dense_id, create_dense_id, if_pos (by omega), if_pos (by omega)]
  intro heq
  have hnat := congrArg BitVec.toNat heq
  rw [BitVec.toNat_ofNat, BitVec.toNat_ofNat, Nat.mod_eq_of_lt (by omega),
    Nat.mod_eq_of_lt (by omega)] at hnat
  omega

/-- A call leaves the ids different exactly when it does not take the last entry while
a handle of id 0 is live. -/
theorem Traced.Issued.step_unique_iff (h : s.Issued capacity) (hcapacity : capacity ≤ 2 ^ 23)
    (call : Call) : (s.step call).Unique ↔ s.LastFree call := by
  have hcap := h.size
  have hcount := h.count
  cases call with
  | releaseHandle handle =>
    refine iff_of_true ?_ trivial
    exact List.Nodup.sublist (List.filter_sublist.map Handle.id) h.unique
  | newHandle =>
    by_cases hfull : s.pool.count = s.pool.capacity
    · rw [Traced.step_newHandle_full hfull]
      refine iff_of_true h.unique fun hlast => ?_
      omega
    · have hid : (s.step .newHandle).Unique ↔
          ∀ handle ∈ s.live, handle.id ≠ (s.pool.dense s.pool.count).id := by
        have hunique := h.unique
        unfold Traced.Unique at hunique ⊢
        rw [(Traced.step_newHandle hfull).1, List.map_cons, List.nodup_cons]
        simp [hunique]
      rw [hid]
      by_cases hlast : s.pool.count + 1 = s.pool.capacity
      · have hzero : (s.pool.dense s.pool.count).id = 0 := by
          rw [h.dense, create_dense_id, if_neg (by omega)]
        rw [hzero]
        exact ⟨fun hne _ => hne, fun hne => hne hlast⟩
      · exact iff_of_true (fun handle hmem => h.fresh hcapacity (by omega) hmem)
          (fun hl => absurd hl hlast)

/-- A call that leaves the ids different keeps the rest. -/
theorem Traced.Issued.step (h : s.Issued capacity) {call : Call} (hunique : (s.step call).Unique) :
    (s.step call).Issued capacity := by
  have hcap := h.size
  have hcount := h.count
  cases call with
  | releaseHandle handle =>
    have hpool : (s.step (.releaseHandle handle)).pool = s.pool := h.dead.release handle
    refine ⟨hpool ▸ h.dense, hpool ▸ h.size, hpool ▸ h.count, hunique, fun other hmem => ?_⟩
    rw [hpool]
    exact h.live other (List.mem_of_mem_filter hmem)
  | newHandle =>
    by_cases hfull : s.pool.count = s.pool.capacity
    · rw [Traced.step_newHandle_full hfull]
      exact h
    · obtain ⟨hlive, hcount', hdense, hcap'⟩ := Traced.step_newHandle hfull
      refine ⟨hdense.trans h.dense, hcap'.trans hcap, by omega, hunique, fun handle hmem => ?_⟩
      rw [hcount', hdense]
      rw [hlive] at hmem
      rcases List.mem_cons.mp hmem with rfl | hmem
      · exact ⟨s.pool.count, Nat.lt_succ_self _, rfl⟩
      · obtain ⟨i, hi, hid⟩ := h.live handle hmem
        exact ⟨i, Nat.lt_succ_of_lt hi, hid⟩

end Issued

/-- A pool of two hands out id 0 twice. -/
theorem newHandle_repeats_id :
    ¬ ([Call.newHandle, .newHandle].foldl Traced.step (Traced.create 2)).Unique := by
  decide

/-- In every state of a sequence of calls the live handles have different ids, exactly
when no call takes the last entry while a handle of id 0 is live. -/
theorem live_unique_iff {capacity : Nat} (hcapacity : capacity ≤ 2 ^ 23) (calls : List Call) :
    (∀ done, done <+: calls → (done.foldl Traced.step (Traced.create capacity)).Unique) ↔
      AtEach Traced.next Traced.LastFree (Traced.create capacity) calls := by
  have hstart := Traced.issued_create capacity
  have hany : AtEach Traced.next (fun _ _ => True) (Traced.create capacity) calls :=
    fun _ _ _ _ _ => trivial
  rw [Traced.atEach_next_iff hstart.unique]
  refine atEach_iff (Traced.Issued capacity) ?_ ?_ hstart hany
  · intro s call h _ hlast
    exact ⟨_, rfl, h.step ((h.step_unique_iff hcapacity call).mpr hlast)⟩
  · intro s call h _
    simp only [Traced.next, Option.some.injEq, forall_eq']
    exact h.step_unique_iff hcapacity call

/-- A pool of two whose first handle is released before the last is made. -/
theorem live_unique_iff_two :
    (∀ done, done <+: [Call.newHandle, .releaseHandle ⟨0, true, 0⟩, .newHandle] →
        (done.foldl Traced.step (Traced.create 2)).Unique) ↔
      AtEach Traced.next Traced.LastFree (Traced.create 2)
        [.newHandle, .releaseHandle ⟨0, true, 0⟩, .newHandle] :=
  live_unique_iff (by decide) _

/-! ## Capacity is not given back -/

/-- A release is of a live handle. -/
def Traced.OnLive (s : Traced) : Call → Prop
  | .newHandle => True
  | .releaseHandle handle => handle ∈ s.live

instance (s : Traced) (call : Call) : Decidable (s.OnLive call) :=
  match call with
  | .newHandle => isTrue trivial
  | .releaseHandle _ => inferInstanceAs (Decidable (_ ∈ _))

/-- `Count` is the number of live handles, and `NewHandle` fails when there are
`Capacity` of them and only then. -/
structure Traced.Accounts (s : Traced) : Prop where
  count : s.pool.count = s.live.length
  fails : s.pool.newHandle.1 = Handle.zero ↔ s.live.length = s.pool.capacity

/-- `NewHandle` fails in a full pool: a handle it makes is alive. -/
theorem HandlesPool.newHandle_fails_iff (pool : HandlesPool) :
    pool.newHandle.1 = Handle.zero ↔ pool.count = pool.capacity := by
  unfold HandlesPool.newHandle
  split_ifs with hfull
  · exact iff_of_true rfl hfull
  · refine iff_of_false (fun hzero => ?_) hfull
    exact Bool.noConfusion (congrArg Handle.alive hzero)

theorem Traced.accounts_iff (s : Traced) : s.Accounts ↔ s.pool.count = s.live.length := by
  refine ⟨fun h => h.count, fun h => ⟨h, ?_⟩⟩
  rw [HandlesPool.newHandle_fails_iff, h]

/-- No branch of `ReleaseHandle` lowers `Count`. -/
theorem HandlesPool.releaseHandle_count (pool : HandlesPool) (handle : Handle) :
    (pool.releaseHandle handle).count = pool.count := by
  unfold HandlesPool.releaseHandle
  split_ifs <;> rfl

/-- The accounts are kept by `NewHandle` and by no release. -/
theorem Traced.step_accounts_iff {s : Traced} (h : s.Accounts) {call : Call} (hok : s.OnLive call) :
    (s.step call).Accounts ↔ call = .newHandle := by
  rw [Traced.accounts_iff]
  have hcount := h.count
  cases call with
  | newHandle =>
    refine iff_of_true ?_ rfl
    by_cases hfull : s.pool.count = s.pool.capacity
    · rw [Traced.step_newHandle_full hfull]
      exact hcount
    · obtain ⟨hlive, hcount', -, -⟩ := Traced.step_newHandle hfull
      rw [hlive, hcount', List.length_cons, hcount]
  | releaseHandle handle =>
    refine iff_of_false ?_ (fun heq => Call.noConfusion heq)
    have hshorter : (s.live.filter (· ≠ handle)).length < s.live.length :=
      List.length_filter_lt_length_iff_exists.mpr ⟨handle, hok, by simp⟩
    show (s.pool.releaseHandle handle).count ≠ (s.live.filter (· ≠ handle)).length
    rw [HandlesPool.releaseHandle_count]
    omega

/-- A pool of one never makes a second handle, though the first was released. -/
theorem releaseHandle_leaks :
    ¬ ([Call.newHandle, .releaseHandle ⟨0, true, 0⟩].foldl Traced.step
      (Traced.create 1)).Accounts := by
  rw [Traced.accounts_iff]
  decide

/-- From any pool whose `Count` is right, it is right in every state of a sequence of
calls that releases live handles only, exactly when the sequence releases nothing. -/
theorem count_eq_live_iff {s : Traced} (hs : s.pool.count = s.live.length) {calls : List Call}
    (hok : AtEach Traced.next Traced.OnLive s calls) :
    (∀ done, done <+: calls → (done.foldl Traced.step s).Accounts) ↔
      ∀ call ∈ calls, call = .newHandle := by
  have hstart := s.accounts_iff.mpr hs
  have hcalls : AtEach Traced.next (fun _ call => call = .newHandle) s calls ↔
      ∀ call ∈ calls, call = .newHandle := by
    constructor
    · intro h call hmem
      obtain ⟨done, rest, hsplit⟩ := List.append_of_mem hmem
      exact h done call _ ⟨rest, by rw [hsplit]; simp⟩ (s.exec_next done)
    · intro h done call t hpre _
      exact h call (hpre.subset (by simp))
  rw [Traced.atEach_next_iff hstart, ← hcalls]
  refine atEach_iff Traced.Accounts ?_ ?_ hstart hok
  · intro s call h hok hnew
    exact ⟨_, rfl, (Traced.step_accounts_iff h hok).mpr hnew⟩
  · intro s call h hok
    simp only [Traced.next, Option.some.injEq, forall_eq']
    exact Traced.step_accounts_iff h hok

/-- A pool of two, one of whose handles is released. -/
theorem count_eq_live_iff_two :
    (∀ done, done <+: [Call.newHandle, .newHandle, .releaseHandle ⟨0, true, 0⟩] →
        (done.foldl Traced.step (Traced.create 2)).Accounts) ↔
      ∀ call ∈ [Call.newHandle, .newHandle, .releaseHandle ⟨0, true, 0⟩], call = .newHandle :=
  count_eq_live_iff rfl (by decide)

end ScalBase.Handles
