/-
  SparseArray.lean --- `SparseSet` of `Lib/SparseArray.h`.

  The three arrays are functions from indexes; ids, indexes and counts are 16-bit
  words that stay in range.  `Add` tests `Count` against `SparseCapacity`, which is
  read as `Capacity`, and answers a null pointer when the set is full.  `Remove`
  with `Count` zero and an entry in `Sparse` reads `DenseLookup[-1]`: the model has
  no state after that (`none`).

  `Remove` of the last element empties its `Sparse` entry and then, as the entry of
  the last element, sets it again: it is left at the new `Count`.  `Get` takes it
  for absent until an `Add` raises `Count` past it (`remove_last_leaves_value`).
-/
import ScalBase.Base
import ScalBase.Foundation.Run

set_option autoImplicit false

namespace ScalBase.SparseArray

open Foundation

/-! ## The set -/

/-- `EMPTY`. -/
def empty : Nat := 0xffff

/-- The set. -/
structure SparseSet (T : Type*) where
  sparse : Nat → Nat
  denseLookup : Nat → Nat
  dense : Nat → T
  capacity : Nat
  count : Nat

variable {T : Type*}

namespace SparseSet

/-- `Init` on zeroed arrays. -/
def init (capacity : Nat) (zero : T) : SparseSet T :=
  { sparse := fun i => if i < capacity then empty else 0
    denseLookup := fun _ => 0
    dense := fun _ => zero
    capacity := capacity
    count := 0 }

/-- `Add`, with the index of the element it returns a pointer to. -/
def add (s : SparseSet T) (id : Nat) (value : T) : Option Nat × SparseSet T :=
  if s.count = s.capacity then (none, s)
  else
    let idx := s.count
    (some idx, { s with
      count := s.count + 1
      sparse := Function.update s.sparse id idx
      denseLookup := Function.update s.denseLookup idx id
      dense := Function.update s.dense idx value })

/-- `Remove`. -/
def remove (s : SparseSet T) (id : Nat) : Option (SparseSet T) :=
  let idx := s.sparse id
  if idx = empty then some s
  else if s.count = 0 then none
  else
    let sparse := Function.update s.sparse id empty
    let denseLookup := Function.update s.denseLookup idx (s.denseLookup (s.count - 1))
    let dense := Function.update s.dense idx (s.dense (s.count - 1))
    let lastId := denseLookup (s.count - 1)
    some { s with
      sparse := Function.update sparse lastId idx
      denseLookup := denseLookup
      dense := dense
      count := s.count - 1 }

/-- `Get`, with the index of the element it returns a pointer to. -/
def get (s : SparseSet T) (id : Nat) : Option Nat :=
  let idx := s.sparse id
  if idx ≠ empty ∧ idx < s.count then some idx else none

end SparseSet

/-- A call that changes the set. -/
inductive Op (T : Type*) where
  | add (id : Nat) (value : T)
  | remove (id : Nat)

/-- The set after a call. -/
def step (s : SparseSet T) : Op T → Option (SparseSet T)
  | .add id value => some (s.add id value).2
  | .remove id => s.remove id

/-! ## The finite map -/

/-- The finite map after a call. -/
def mapStep (x : Nat → Option T) : Op T → Nat → Option T
  | .add id value => Function.update x id (some value)
  | .remove id => Function.update x id none

/-- A set and the finite map that the same calls build. -/
structure Paired (T : Type*) where
  set : SparseSet T
  map : Nat → Option T

/-- The pair after a call. -/
def Paired.step (s : Paired T) (op : Op T) : Option (Paired T) :=
  (SparseArray.step s.set op).map fun set => ⟨set, mapStep s.map op⟩

/-- An initialised set and the empty map. -/
def Paired.init (capacity : Nat) (zero : T) : Paired T :=
  ⟨SparseSet.init capacity zero, fun _ => none⟩

/-- The calls considered: `Add` of an absent id to a set that is not full, and
`Remove` of any id. -/
def Admissible (s : Paired T) : Op T → Prop
  | .add id _ => id < s.set.capacity ∧ s.map id = none ∧ s.set.count < s.set.capacity
  | .remove id => id < s.set.capacity

/-- `Get` answers what the finite map holds. -/
def Correct (s : Paired T) : Prop :=
  ∀ id < s.set.capacity, (s.set.get id).map s.set.dense = s.map id

/-- A call does what it does to the finite map: it returns, `Get` is right
afterwards, and a removal of an absent id changes nothing. -/
def Refined (s : Paired T) (op : Op T) : Prop :=
  ∃ s', s.step op = some s' ∧ Correct s' ∧
    ∀ id, op = .remove id → s.map id = none → s'.set = s.set

/-- The condition on the state before a call: `Add` finds no other id whose `Sparse`
entry is `Count`, and `Remove` no entry that is neither `EMPTY` nor below `Count`. -/
def Clean (s : SparseSet T) : Op T → Prop
  | .add id _ => ∀ other < s.capacity, other ≠ id → s.sparse other ≠ s.count
  | .remove id => s.sparse id ≠ empty → s.sparse id < s.count

/-! ## The invariant -/

/-- `Sparse` and `DenseLookup` are inverse below `Count`, and the finite map is what
they index. -/
structure Indexed (s : SparseSet T) (x : Nat → Option T) : Prop where
  capacity : s.capacity ≤ 65535
  count : s.count ≤ s.capacity
  lookup : ∀ i < s.count, s.denseLookup i < s.capacity ∧ s.sparse (s.denseLookup i) = i
  present : ∀ id < s.capacity, s.sparse id < s.count →
    s.denseLookup (s.sparse id) = id ∧ x id = some (s.dense (s.sparse id))
  absent : ∀ id < s.capacity, s.count ≤ s.sparse id → x id = none

variable {s : SparseSet T} {x : Nat → Option T}

theorem indexed_init {capacity : Nat} (hcap : capacity ≤ 65535) (zero : T) :
    Indexed (SparseSet.init capacity zero) fun _ => none :=
  ⟨hcap, Nat.zero_le _, fun _ hi => absurd hi (Nat.not_lt_zero _),
    fun _ _ hi => absurd hi (Nat.not_lt_zero _), fun _ _ _ => rfl⟩

theorem get_of_lt (h : Indexed s x) {id : Nat} (hlt : s.sparse id < s.count) :
    s.get id = some (s.sparse id) := by
  have hne : s.sparse id ≠ empty := by
    have := h.capacity
    have := h.count
    unfold empty
    omega
  rw [SparseSet.get, if_pos ⟨hne, hlt⟩]

theorem get_of_ge {id : Nat} (hge : s.count ≤ s.sparse id) : s.get id = none := by
  rw [SparseSet.get, if_neg (fun hc => Nat.not_lt.mpr hge hc.2)]

theorem Indexed.correct (h : Indexed s x) : Correct ⟨s, x⟩ := by
  intro id hid
  rcases Nat.lt_or_ge (s.sparse id) s.count with hlt | hge
  · simp only [get_of_lt h hlt, (h.present id hid hlt).2, Option.map_some]
  · simp only [get_of_ge hge, h.absent id hid hge, Option.map_none]

/-- An id whose entry is not below `Count` is in no place of `DenseLookup`. -/
theorem Indexed.lookup_ne (h : Indexed s x) {id i : Nat} (hge : s.count ≤ s.sparse id)
    (hi : i < s.count) : s.denseLookup i ≠ id := by
  intro heq
  have hback := (h.lookup i hi).2
  rw [heq] at hback
  omega

/-- An absent id has no entry below `Count`. -/
theorem Indexed.ge_of_none (h : Indexed s x) {id : Nat} (hid : id < s.capacity)
    (hnone : x id = none) : s.count ≤ s.sparse id := by
  by_contra hlt
  have hsome := (h.present id hid (Nat.lt_of_not_le hlt)).2
  rw [hnone] at hsome
  cases hsome

/-! ## The calls -/

/-- A clean `Add` keeps the invariant. -/
theorem Indexed.add (h : Indexed s x) {id : Nat} {value : T} (hid : id < s.capacity)
    (hnone : x id = none) (hroom : s.count < s.capacity) (hclean : Clean s (.add id value)) :
    Indexed (s.add id value).2 (mapStep x (.add id value)) := by
  have hge := h.ge_of_none hid hnone
  rw [SparseSet.add, if_neg hroom.ne]
  refine ⟨h.capacity, hroom, ?_, ?_, ?_⟩
  · intro i hi
    simp only at hi ⊢
    by_cases hic : i = s.count
    · subst hic
      simp [hid]
    · have hlt : i < s.count := by omega
      have hne := h.lookup_ne hge hlt
      rw [Function.update_of_ne hic, Function.update_of_ne hne]
      exact h.lookup i hlt
  · intro other hother hlt
    simp only [mapStep] at hlt ⊢
    by_cases hoid : other = id
    · subst hoid
      simp
    · rw [Function.update_of_ne hoid] at hlt
      have hlt' : s.sparse other < s.count :=
        Nat.lt_of_le_of_ne (Nat.le_of_lt_succ hlt) (hclean other hother hoid)
      rw [Function.update_of_ne hoid, Function.update_of_ne hlt'.ne, Function.update_of_ne hoid,
        Function.update_of_ne hlt'.ne]
      exact h.present other hother hlt'
  · intro other hother hle
    simp only [mapStep] at hle ⊢
    by_cases hoid : other = id
    · subst hoid
      rw [Function.update_self] at hle
      omega
    · rw [Function.update_of_ne hoid] at hle ⊢
      exact h.absent other hother (by omega)

/-- What `Remove` leaves of a set when the id is present: the last element moves into
the place of the removed one. -/
def SparseSet.removed (s : SparseSet T) (id : Nat) : SparseSet T :=
  let lastId := s.denseLookup (s.count - 1)
  { s with
    sparse := Function.update (Function.update s.sparse id empty) lastId (s.sparse id)
    denseLookup := Function.update s.denseLookup (s.sparse id) lastId
    dense := Function.update s.dense (s.sparse id) (s.dense (s.count - 1))
    count := s.count - 1 }

section Removed

variable {id : Nat} (h : Indexed s x) (hid : id < s.capacity) (hlt : s.sparse id < s.count)

include h hlt

theorem Indexed.ne_empty : s.sparse id ≠ empty := by
  have hcap := h.capacity
  have hcount := h.count
  unfold empty
  omega

/-- The last entry of `DenseLookup` after its first store is the one before it. -/
theorem Indexed.remove_eq : s.remove id = some (s.removed id) := by
  have hread : Function.update s.denseLookup (s.sparse id) (s.denseLookup (s.count - 1))
      (s.count - 1) = s.denseLookup (s.count - 1) := by
    by_cases heq : s.count - 1 = s.sparse id
    · rw [heq, Function.update_self]
    · rw [Function.update_of_ne heq]
  rw [SparseSet.remove, if_neg (h.ne_empty hlt), if_neg (by omega)]
  simp only [hread]
  rfl

/-- The last element is at home in the last place. -/
theorem Indexed.last : s.denseLookup (s.count - 1) < s.capacity ∧
    s.sparse (s.denseLookup (s.count - 1)) = s.count - 1 :=
  h.lookup _ (by omega)

include hid

/-- An id other than the removed one does not sit in its place. -/
theorem Indexed.sparse_ne {other : Nat} (hother : other < s.capacity) (hne : other ≠ id)
    (hlo : s.sparse other < s.count) : s.sparse other ≠ s.sparse id := by
  intro heq
  have hback := (h.present other hother hlo).1
  rw [heq, (h.present id hid hlt).1] at hback
  exact hne hback.symm

theorem Indexed.removed_lookup {i : Nat} (hi : i < (s.removed id).count) :
    (s.removed id).denseLookup i < s.capacity ∧
      (s.removed id).sparse ((s.removed id).denseLookup i) = i := by
  obtain ⟨hlastId, hlastBack⟩ := h.last hlt
  simp only [SparseSet.removed] at hi ⊢
  by_cases hii : i = s.sparse id
  · rw [hii, Function.update_self, Function.update_self]
    exact ⟨hlastId, rfl⟩
  · obtain ⟨hi₁, hi₂⟩ := h.lookup i (by omega)
    have hne₁ : s.denseLookup i ≠ s.denseLookup (s.count - 1) := by
      intro heq
      rw [heq, hlastBack] at hi₂
      omega
    have hne₂ : s.denseLookup i ≠ id := by
      rintro rfl
      exact hii hi₂.symm
    rw [Function.update_of_ne hii, Function.update_of_ne hne₁, Function.update_of_ne hne₂]
    exact ⟨hi₁, hi₂⟩

theorem Indexed.removed_present {other : Nat} (hother : other < s.capacity)
    (hlo : (s.removed id).sparse other < (s.removed id).count) :
    (s.removed id).denseLookup ((s.removed id).sparse other) = other ∧
      mapStep x (.remove id) other = some ((s.removed id).dense ((s.removed id).sparse other)) := by
  obtain ⟨-, hlastBack⟩ := h.last hlt
  simp only [SparseSet.removed, mapStep] at hlo ⊢
  by_cases hol : other = s.denseLookup (s.count - 1)
  · rw [← hol] at hlastBack hlo ⊢
    rw [Function.update_self] at hlo ⊢
    -- The last element is not the removed one: its place would be the new `Count`.
    have hne : other ≠ id := by
      rintro rfl
      omega
    have hpres := h.present other hother (by omega)
    rw [Function.update_self, Function.update_self, Function.update_of_ne hne]
    exact ⟨rfl, by rw [hpres.2, hlastBack]⟩
  · rw [Function.update_of_ne hol] at hlo ⊢
    have hoid : other ≠ id := by
      rintro rfl
      rw [Function.update_self] at hlo
      have hcap := h.capacity
      have hcount := h.count
      unfold empty at hlo
      omega
    rw [Function.update_of_ne hoid] at hlo ⊢
    have hne := h.sparse_ne hid hlt hother hoid (by omega)
    rw [Function.update_of_ne hne, Function.update_of_ne hne, Function.update_of_ne hoid]
    exact h.present other hother (by omega)

theorem Indexed.removed_absent {other : Nat} (hother : other < s.capacity)
    (hle : (s.removed id).count ≤ (s.removed id).sparse other) :
    mapStep x (.remove id) other = none := by
  simp only [SparseSet.removed, mapStep] at hle ⊢
  by_cases hoid : other = id
  · rw [hoid, Function.update_self]
  · rw [Function.update_of_ne hoid]
    by_cases hol : other = s.denseLookup (s.count - 1)
    · rw [← hol, Function.update_self] at hle
      have hback := (h.present id hid hlt).1
      rw [show s.sparse id = s.count - 1 by omega, ← hol] at hback
      exact absurd hback hoid
    · rw [Function.update_of_ne hol, Function.update_of_ne hoid] at hle
      rcases Nat.lt_or_ge (s.sparse other) s.count with hlo | hge
      · -- Only the last element sits at the new `Count`.
        have hback := (h.present other hother hlo).1
        rw [show s.sparse other = s.count - 1 by omega] at hback
        exact absurd hback.symm hol
      · exact h.absent other hother hge

/-- `Remove` of an id that is present keeps the invariant. -/
theorem Indexed.remove : ∃ s', s.remove id = some s' ∧ Indexed s' (mapStep x (.remove id)) :=
  ⟨s.removed id, h.remove_eq hlt, h.capacity, Nat.le_trans (Nat.sub_le _ _) h.count,
    fun _ => h.removed_lookup hid hlt, fun _ => h.removed_present hid hlt,
    fun _ => h.removed_absent hid hlt⟩

end Removed

/-- A clean call does what it does to the finite map and keeps the invariant. -/
theorem Indexed.step {p : Paired T} (h : Indexed p.set p.map) {op : Op T} (hok : Admissible p op)
    (hc : Clean p.set op) :
    ∃ p', p.step op = some p' ∧ Indexed p'.set p'.map ∧
      ∀ id, op = .remove id → p.map id = none → p'.set = p.set := by
  obtain ⟨s, x⟩ := p
  cases op with
  | add id value => exact ⟨_, rfl, h.add hok.1 hok.2.1 hok.2.2 hc, nofun⟩
  | remove id =>
    simp only at h hc
    rcases Nat.lt_or_ge (s.sparse id) s.count with hlt | hge
    · obtain ⟨s', hs', hinv⟩ := h.remove hok hlt
      refine ⟨⟨s', mapStep x (.remove id)⟩, by simp [Paired.step, SparseArray.step, hs'], hinv, ?_⟩
      rintro _ ⟨⟩ hnone
      have hge := h.ge_of_none hok hnone
      omega
    · -- The entry of an absent id is `EMPTY`.
      have hempty : s.sparse id = empty := by
        by_contra hne
        exact absurd (hc hne) (Nat.not_lt.mpr hge)
      have hsame : mapStep x (.remove id) = x := by
        rw [mapStep, ← h.absent id hok hge, Function.update_eq_self]
      refine ⟨⟨s, x⟩, ?_, h, fun _ _ _ => rfl⟩
      simp [Paired.step, SparseArray.step, SparseSet.remove, hempty, hsame]

/-- A call that is not clean does not do what it does to the finite map. -/
theorem Indexed.clean_of_refined {p : Paired T} (h : Indexed p.set p.map) {op : Op T}
    (hok : Admissible p op) (hr : Refined p op) : Clean p.set op := by
  obtain ⟨s, x⟩ := p
  obtain ⟨p', hp', hcorrect, hsame⟩ := hr
  obtain ⟨s', hs', rfl⟩ := Option.map_eq_some_iff.mp hp'
  simp only at h hs' hsame
  have hcap := h.capacity
  cases op with
  | add id value =>
    obtain ⟨hid, hnone, hroom⟩ := hok
    simp only at hid hroom
    intro other hother hne heq
    -- `Get` of the other id would point at the new element.
    have habs : x other = none := h.absent other hother heq.ge
    cases hs'
    have hget := hcorrect other (by simp only [SparseSet.add, if_neg hroom.ne]; exact hother)
    simp only [mapStep, Function.update_of_ne hne, habs, Option.map_eq_none_iff] at hget
    have hentry : (s.add id value).2.sparse other = s.count := by
      rw [SparseSet.add, if_neg hroom.ne]
      simp only
      rw [Function.update_of_ne hne, heq]
    have hcount : (s.add id value).2.count = s.count + 1 := by
      rw [SparseSet.add, if_neg hroom.ne]
    rw [SparseSet.get, hentry, hcount, if_pos ⟨by unfold empty; omega, Nat.lt_succ_self _⟩] at hget
    cases hget
  | remove id =>
    intro hne
    by_contra hge
    have hnone := h.absent id hok (Nat.le_of_not_lt hge)
    have heq := hsame id rfl hnone
    rw [heq, SparseArray.step, SparseSet.remove, if_neg hne] at hs'
    split at hs'
    · cases hs'
    · -- A removal that goes on lowers `Count`.
      have hcount := congrArg SparseSet.count (Option.some.inj hs')
      simp only at hcount
      omega

/-! ## Whole runs -/

/-- After `Add(0)`, `Remove(0)` and `Add(1)`, `Get(0)` points at the element of 1. -/
theorem remove_last_leaves_value :
    ∃ s, exec Paired.step (Paired.init 2 0) [.add 0 10, .remove 0, .add 1 20] = some s ∧
      (s.set.get 0).map s.set.dense = some 20 ∧ s.map 0 = none :=
  ⟨_, rfl, by decide, by decide⟩

/-- Over every sequence of admissible calls from an initialised set, each call does to
the set what it does to the finite map exactly when no `Add` is made with another id's
`Sparse` entry at `Count` and no `Remove` with an entry that is stale. -/
theorem sparseSet_refines_iff {capacity : Nat} (hcap : capacity ≤ 65535) (zero : T)
    {ops : List (Op T)} (hok : AtEach Paired.step Admissible (Paired.init capacity zero) ops) :
    AtEach Paired.step Refined (Paired.init capacity zero) ops ↔
      AtEach Paired.step (fun s op => Clean s.set op) (Paired.init capacity zero) ops := by
  refine atEach_iff (fun p => Indexed p.set p.map) ?_ ?_ (indexed_init hcap zero) hok
  · intro p op h hop hclean
    obtain ⟨p', hp', hinv, -⟩ := h.step hop hclean
    exact ⟨p', hp', hinv⟩
  · intro p op h hop
    constructor
    · exact h.clean_of_refined hop
    · intro hclean
      obtain ⟨p', hp', hinv, hsame⟩ := h.step hop hclean
      exact ⟨p', hp', hinv.correct, hsame⟩

/-- Two elements, the first of which is removed. -/
theorem sparseSet_refines_iff_three :
    AtEach Paired.step Refined (Paired.init 2 0) [.add 1 10, .add 0 20, .remove 1] ↔
      AtEach Paired.step (fun s op => Clean s.set op) (Paired.init 2 0)
        [.add 1 10, .add 0 20, .remove 1] := by
  refine sparseSet_refines_iff (by decide) 0 (.cons ⟨by decide, rfl, by decide⟩ ?_)
  rintro s ⟨⟩
  refine .cons ⟨by decide, rfl, by decide⟩ ?_
  rintro s ⟨⟩
  refine .cons (show 1 < 2 by decide) ?_
  intro _ _
  exact .nil

end ScalBase.SparseArray
