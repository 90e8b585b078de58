/-
  SparseArray/Adds.lean --- `SparseSet::Add` of ids that may be present.

  `Add` does not look whether the id is present.  It appends: place `i` of the dense
  arrays belongs to call `i`, and `Sparse` holds the place of the latest call with an
  id.  `Get` therefore finds the latest value.  A second `Add` of an id leaves the
  place of the first one in use, with an id whose entry in `Sparse` is elsewhere.
-/
import ScalBase.SparseArray

set_option autoImplicit false

namespace ScalBase.SparseArray

open Foundation

variable {T : Type*}

/-- The set after an `Add`. -/
def addStep (s : SparseSet T) (call : Nat × T) : Option (SparseSet T) :=
  some (s.add call.1 call.2).2

/-- Any id of the range, on a set that is not full. -/
def Addable (s : SparseSet T) (call : Nat × T) : Prop :=
  call.1 < s.capacity ∧ s.count < s.capacity

instance (s : SparseSet T) (call : Nat × T) : Decidable (Addable s call) :=
  inferInstanceAs (Decidable (_ ∧ _))

/-- After the calls `adds`, no id is in two places, each is at home in its place, and
`Get` yields the value of the latest call. -/
structure KeepsIds (adds : List (Nat × T)) (s : SparseSet T) : Prop where
  distinct : ∀ i < s.count, ∀ j < s.count, s.denseLookup i = s.denseLookup j → i = j
  inverse : ∀ i < s.count, s.sparse (s.denseLookup i) = i
  get : ∀ id value, adds.reverse.lookup id = some value → (s.get id).map s.dense = some value

/-- What the set holds after the calls `adds`. -/
structure Recorded (capacity : Nat) (adds : List (Nat × T)) (s : SparseSet T) : Prop where
  capacity : s.capacity = capacity
  count : s.count = adds.length
  room : s.count ≤ s.capacity
  places : ∀ i < adds.length, adds[i]? = some (s.denseLookup i, s.dense i)
  latest : ∀ id value, adds.reverse.lookup id = some value →
    adds[s.sparse id]? = some (id, value)

section Recorded

variable {capacity : Nat} {adds : List (Nat × T)} {s : SparseSet T}

theorem recorded_init (capacity : Nat) (zero : T) :
    Recorded capacity [] (SparseSet.init capacity zero) :=
  ⟨rfl, rfl, Nat.zero_le _, fun _ hi => absurd hi (Nat.not_lt_zero _), nofun⟩

/-- An `Add` is recorded at the end. -/
theorem Recorded.add (h : Recorded capacity adds s) {call : Nat × T} (hok : Addable s call) :
    ∃ s', addStep s call = some s' ∧ Recorded capacity (adds ++ [call]) s' := by
  obtain ⟨id, value⟩ := call
  have hcount := h.count
  refine ⟨_, rfl, ?_⟩
  rw [SparseSet.add, if_neg hok.2.ne]
  constructor
  · exact h.capacity
  · rw [List.length_append, List.length_singleton, ← hcount]
  · exact hok.2
  · intro i hi
    rw [List.length_append, List.length_singleton] at hi
    rcases Nat.lt_or_eq_of_le (Nat.le_of_lt_succ hi) with hlt | rfl
    · have hne : i ≠ s.count := by omega
      simp only [Function.update_of_ne hne, List.getElem?_append_left hlt]
      exact h.places i hlt
    · simp only [hcount, Function.update_self]
      exact List.getElem?_concat_length
  · intro other latest hlatest
    rw [List.reverse_concat, List.lookup_cons] at hlatest
    by_cases hother : other = id
    · subst hother
      rw [beq_self_eq_true] at hlatest
      cases hlatest
      simp only [Function.update_self, hcount]
      exact List.getElem?_concat_length
    · rw [beq_false_of_ne hother] at hlatest
      have hold := h.latest other latest hlatest
      simp only [Function.update_of_ne hother]
      rw [List.getElem?_append_left (List.getElem?_eq_some_iff.mp hold).1, hold]

/-- Every sequence of calls is recorded. -/
theorem exec_recorded (capacity : Nat) (zero : T) :
    ∀ {adds : List (Nat × T)}, AtEach addStep Addable (SparseSet.init capacity zero) adds →
      ∃ s, exec addStep (SparseSet.init capacity zero) adds = some s ∧
        Recorded capacity adds s := by
  intro adds
  induction adds using List.reverseRecOn with
  | nil => exact fun _ => ⟨_, rfl, recorded_init capacity zero⟩
  | append_singleton adds call ih =>
    intro hok
    obtain ⟨s, hs, h⟩ := ih (hok.of_prefix (List.prefix_append adds [call]))
    obtain ⟨s', hs', h'⟩ := h.add (hok adds call s (List.prefix_refl _) hs)
    exact ⟨s', by rw [exec_concat, hs, Option.bind_some, hs'], h'⟩

theorem Recorded.id (h : Recorded capacity adds s) {i : Nat} (hi : i < s.count) :
    (adds.map Prod.fst)[i]? = some (s.denseLookup i) := by
  rw [List.getElem?_map, h.places i (h.count ▸ hi), Option.map_some]

/-- `Get` finds the latest value, whatever the ids are. -/
theorem Recorded.get (h : Recorded capacity adds s) (hcap : s.count ≤ 65535) {id : Nat} {value : T}
    (hlatest : adds.reverse.lookup id = some value) : (s.get id).map s.dense = some value := by
  have hplace := h.latest id value hlatest
  have hlt : s.sparse id < adds.length := (List.getElem?_eq_some_iff.mp hplace).1
  have hvalue := h.places _ hlt
  rw [hplace, Option.some.injEq, Prod.mk.injEq] at hvalue
  rw [← h.count] at hlt
  have hne : s.sparse id ≠ empty := (Nat.lt_of_lt_of_le hlt hcap).ne
  rw [SparseSet.get, if_pos ⟨hne, hlt⟩, Option.map_some, hvalue.2]

/-- The ids are kept exactly when no two calls had the same. -/
theorem Recorded.keepsIds_iff (h : Recorded capacity adds s) (hcap : s.count ≤ 65535) :
    KeepsIds adds s ↔ (adds.map Prod.fst).Nodup := by
  have hlength : (adds.map Prod.fst).length = s.count := by rw [List.length_map, h.count]
  constructor
  · intro hkeeps
    rw [List.nodup_iff_getElem?_ne_getElem?]
    intro i j hij hj heq
    rw [hlength] at hj
    rw [h.id (hij.trans hj), h.id hj, Option.some.injEq] at heq
    exact hij.ne (hkeeps.distinct i (hij.trans hj) j hj heq)
  · intro hnodup
    have hunique : ∀ i j, i < s.count → (adds.map Prod.fst)[i]? = (adds.map Prod.fst)[j]? → i = j :=
      fun i j hi heq => (List.getElem?_inj (hlength.symm ▸ hi) hnodup).mp heq
    refine ⟨fun i hi j hj heq => ?_, fun i hi => ?_, fun id value => h.get hcap⟩
    · apply hunique i j hi
      rw [h.id hi, h.id hj, heq]
    · -- The id has a latest call, which is the one of its place.
      have hmem : (s.denseLookup i, s.dense i) ∈ adds.reverse :=
        List.mem_reverse.mpr (List.mem_of_getElem? (h.places i (h.count ▸ hi)))
      have hsome : (adds.reverse.lookup (s.denseLookup i)).isSome :=
        List.lookup_isSome_iff.mpr ⟨_, hmem, beq_self_eq_true _⟩
      obtain ⟨value, hlatest⟩ := Option.isSome_iff_exists.mp hsome
      apply Eq.symm
      apply hunique _ _ hi
      rw [h.id hi, List.getElem?_map, h.latest _ value hlatest, Option.map_some]

end Recorded

/-- Over every sequence of `Add`s of ids of the range, while there is room, the ids are kept in
every state reached exactly when no id is added twice. -/
theorem sparseSet_keepsIds_iff {capacity : Nat} (hcap : capacity ≤ 65535) (zero : T)
    {adds : List (Nat × T)}
    (hok : AtEach addStep Addable (SparseSet.init capacity zero) adds) :
    (∀ done, done <+: adds → ∃ s, exec addStep (SparseSet.init capacity zero) done = some s ∧
      KeepsIds done s) ↔ (adds.map Prod.fst).Nodup := by
  have hfits : ∀ {done : List (Nat × T)} {s : SparseSet T}, Recorded capacity done s →
      s.count ≤ 65535 :=
    fun h => h.room.trans (h.capacity.le.trans hcap)
  constructor
  · intro hall
    obtain ⟨s, hs, hkeeps⟩ := hall adds (List.prefix_refl adds)
    obtain ⟨s', hs', h⟩ := exec_recorded capacity zero hok
    cases hs.symm.trans hs'
    exact (h.keepsIds_iff (hfits h)).mp hkeeps
  · intro hnodup done hdone
    obtain ⟨s, hs, h⟩ := exec_recorded capacity zero (hok.of_prefix hdone)
    refine ⟨s, hs, (h.keepsIds_iff (hfits h)).mpr ?_⟩
    exact hnodup.sublist (hdone.sublist.map Prod.fst)

/-- Two ids. -/
theorem sparseSet_keepsIds_iff_two :
    (∀ done, done <+: [(1, 10), (0, 20)] → ∃ s, exec addStep (SparseSet.init 2 0) done = some s ∧
      KeepsIds done s) ↔ ([(1, 10), (0, 20)].map Prod.fst).Nodup :=
  sparseSet_keepsIds_iff (by decide) 0 (by decide)

/-- The second `Add` of 0 leaves it in two places. -/
theorem add_twice_two_places :
    AtEach addStep Addable (SparseSet.init 2 0) [(0, 10), (0, 20)] ∧
      ∃ s, exec addStep (SparseSet.init 2 0) [(0, 10), (0, 20)] = some s ∧ s.count = 2 ∧
        s.denseLookup 0 = s.denseLookup 1 ∧ s.sparse (s.denseLookup 0) = 1 ∧
        ¬ KeepsIds [(0, 10), (0, 20)] s := by
  refine ⟨by decide, _, rfl, rfl, rfl, rfl, fun hkeeps => ?_⟩
  exact absurd (hkeeps.distinct 0 Nat.zero_lt_two 1 Nat.one_lt_two rfl) Nat.zero_ne_one

end ScalBase.SparseArray
