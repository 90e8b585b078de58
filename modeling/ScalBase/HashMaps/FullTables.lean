/-
  HashMaps/FullTables.lean --- the Robin Hood order where `MaxCount` may be `Capacity`.

  An `Add` that goes in finds an unused bucket, full as the table may be afterwards.  A
  `Remove` from a full table has none: its search ends at the key, and its shift may go
  all the way round, into the bucket that it started from.  The hole it leaves moves as it
  does elsewhere (`Vacating.move`), and as each turn takes one off the probe lengths it
  ends (`shift_ends`).
-/
import ScalBase.HashMaps.ProbeLengths

set_option autoImplicit false

namespace ScalBase.HashMaps

open Foundation Foundation.Cyclic Foundation.RobinHood Foundation.Slots

variable {K V : Type*} {hash : K → UInt64} {m : StaticHashMap K V} {fuel : Nat}

/-! ## The shift in a full table -/

section Shift

variable {kept : Multiset (K × V)}

/-- A turn of the shift, whatever the other buckets hold.  A single bucket comes after
itself, and its entry is at home. -/
theorem Vacating.turn {s : StaticHashMap K V × Nat} (h : Vacating hash m kept s)
    (hpow : ∃ e < 32, m.capacity = 2 ^ e) (hone : m.capacity = 1 → s.1.probe s.2 = 0) :
    (∃ m', shiftTurn s = .done m' ∧ Removed hash m kept m') ∨
      ∃ s', shiftTurn s = .again s' ∧ Vacating hash m kept s' ∧
        (m.capacity = 1 → s'.1.probe s'.2 = 0) := by
  have hlt := h.probed.order.lt
  by_cases hend : (s.1.buckets (next m.capacity s.2)).isUsed = false ∨
      (s.1.buckets (next m.capacity s.2)).probeLength = 0
  · exact Or.inl (h.close hend)
  · rw [not_or, Bool.not_eq_false] at hend
    have hne : m.capacity ≠ 1 := by
      intro heq
      have hnext := next_lt hlt
      have hself : next m.capacity s.2 = s.2 := by omega
      rw [hself] at hend
      exact hend.2 (hone heq)
    obtain ⟨hagain, hnext⟩ := h.move hpow (next_ne_self (by omega)) hend.1 hend.2
    exact Or.inr ⟨_, hagain, hnext, fun heq => absurd heq hne⟩

/-- In a full table no probe length is as large as the capacity. -/
theorem Shape.sum_probe_lt (hm : Shape hash m) (hpow : ∃ e < 32, m.capacity = 2 ^ e)
    (hpos : 0 < m.capacity) (hfull : ∀ i < m.capacity, (m.buckets i).isUsed = true) :
    ∑ i ∈ Finset.range m.capacity, m.probe i < m.capacity * m.capacity := by
  have hone : ∀ i ∈ Finset.range m.capacity, m.probe i < m.capacity := by
    intro i hi
    have hlt := Finset.mem_range.mp hi
    rw [hm.exact i hlt _ (StaticHashMap.cell_of_used (hfull i hlt))]
    exact dist_lt (home_lt hpow _) hlt
  have hsum := Finset.sum_lt_sum_of_nonempty ⟨0, Finset.mem_range.mpr hpos⟩ hone
  rwa [Finset.sum_const, Finset.card_range, smul_eq_mul] at hsum

/-- The shift removes exactly the entry that was in the bucket, in a full table too. -/
theorem shift_removes_full (hm : Shape hash m) (hpow : ∃ e < 32, m.capacity = 2 ^ e)
    (hfull : ∀ i < m.capacity, (m.buckets i).isUsed = true) {i : Nat} {p : K × V}
    (hi : i < m.capacity) (hp : m.cell i = some p) (hfuel : m.capacity * m.capacity ≤ fuel) :
    ∃ m' kept, Loop.run shiftTurn fuel (m, i) = some m' ∧ Removed hash m kept m' ∧
      m.entries = p ::ₘ kept := by
  have hsum := hm.sum_probe_lt hpow (by omega) hfull
  obtain ⟨m', hrun⟩ := shift_ends hi (hsum.trans_le hfuel)
  refine ⟨m', _, hrun, ?_, held_update_none hi hp⟩
  apply Loop.run_result (fun s => Vacating hash m _ s ∧ (m.capacity = 1 → s.1.probe s.2 = 0))
    (Removed hash m _) (fun s hs => hs.1.turn hpow hs.2) ⟨Vacating.start hm hi hp, ?_⟩ hrun
  intro heq
  have hexact : m.probe i = dist m.capacity (home hash m.capacity p) i := hm.exact i hi p hp
  have hdist := dist_lt (@home_lt K V hash m.capacity hpow p) hi
  show m.probe i = 0
  omega

end Shift

/-! ## One call -/

section Calls

variable [BEq K]

/-- `Remove` is called on a key that some bucket holds. -/
def Present (m : StaticHashMap K V) : MapOp K V → Prop
  | .add _ _ => True
  | .remove key => ∃ i < m.capacity, (m.buckets i).isUsed = true ∧ ((m.buckets i).key == key) = true

instance Present.decidable (m : StaticHashMap K V) : ∀ op : MapOp K V, Decidable (Present m op)
  | .add _ _ => isTrue trivial
  | .remove _ => inferInstanceAs (Decidable (∃ i < m.capacity, _ ∧ _))

variable [EquivBEq K] {size bound : Nat} {x : KeyMap K V}
  (hhash : ∀ a b : K, (a == b) = true → hash a = hash b) (hpow : ∃ e < 32, size = 2 ^ e)

omit [EquivBEq K] in
/-- A table that takes one more has an unused bucket. -/
theorem Refines.exists_unused (h : Refines hash size bound m x) (hmax : bound ≤ size)
    (hroom : m.count ≠ m.maxCount) : ∃ u < m.capacity, m.cell u = none := by
  apply Slots.exists_free
  have hcount := h.count
  have hfull := h.full
  have hcapacity := h.capacity
  have hbound := h.maxCount
  rw [StaticHashMap.entries] at hcount
  omega

include hhash hpow

/-- `Remove` of a key that is held takes it out, from a full table too. -/
theorem Refines.step_remove (h : Refines hash size bound m x) (hfuel : size * size ≤ fuel) {key : K}
    (hkey : Present m (.remove key)) :
    ∃ m', HashMaps.step hash fuel m (.remove key) = some m' ∧
      Refines hash size bound m' (mapStep x (.remove key)) := by
  obtain ⟨i, hi, hused, hk⟩ := hkey
  have hp := StaticHashMap.cell_of_used hused
  have hpow' : ∃ e < 32, m.capacity = 2 ^ e := h.capacity ▸ hpow
  have hsquare : m.capacity * m.capacity ≤ fuel := by
    rw [h.capacity]
    exact hfuel
  have hfuel' : m.capacity ≤ fuel := (Nat.le_mul_self m.capacity).trans hsquare
  have hsearch := removeSearch_held hpow' hhash h.shape h.distinct hi hp hk hfuel'
  obtain ⟨m', kept, hrun, hrem, hsplit⟩ : ∃ m' kept, Loop.run shiftTurn fuel (m, i) = some m' ∧
      Removed hash m kept m' ∧ m.entries = _ ::ₘ kept := by
    by_cases hfull : ∀ j < m.capacity, (m.buckets j).isUsed = true
    · exact shift_removes_full h.shape hpow' hfull hi hp hsquare
    · push Not at hfull
      obtain ⟨u, hu, hunused⟩ := hfull
      have hfree := (m.cell_eq_none_iff u).mpr (Bool.eq_false_of_not_eq_true hunused)
      exact shift_removes h.shape hpow' hi hp hu hfree hfuel'
  refine ⟨m', ?_, h.removed hk hsplit hrem⟩
  rw [HashMaps.step, HashMaps.remove, if_neg (h.count_ne_zero hi hp), hsearch]
  simp only [hrun, Option.map_some]

/-- A call on a table that may be full returns and does what it does to the finite map. -/
theorem Refines.step_present (h : Refines hash size bound m x) (hcap : size ≤ 2 ^ 16)
    (hmax : bound ≤ size) (hfuel : size * size ≤ fuel) (op : MapOp K V) (hop : Present m op) :
    ∃ m', HashMaps.step hash fuel m op = some m' ∧ Refines hash size bound m' (mapStep x op) := by
  cases op with
  | add key value =>
    have hunused := h.exists_unused hmax
    refine h.step_add hhash hpow ((Nat.le_mul_self size).trans hfuel) (h.narrow hpow hcap) key value
      hunused fun hroom _ => ?_
    obtain ⟨u, hu, hfree⟩ := hunused hroom
    exact not_wraps_of_le (h.capacity ▸ hcap) hu hfree (h.capacity ▸ hpow) key
  | remove key => exact h.step_remove hhash hpow hfuel hop

end Calls

/-! ## Whole runs -/

/-- The buckets in Robin Hood order: the used ones hold different keys and their distances
from home, and one that is not at home comes after a used one that is at most one nearer. -/
structure InOrder [BEq K] (hash : K → UInt64) (m : StaticHashMap K V) : Prop where
  distinct : ∀ i < m.capacity, ∀ j < m.capacity, (m.buckets i).isUsed = true →
    (m.buckets j).isUsed = true → ((m.buckets i).key == (m.buckets j).key) = true → i = j
  exact : ExactProbes hash m
  follows : ∀ i < m.capacity, (m.buckets i).isUsed = true → 0 < (m.buckets i).probeLength →
    (m.buckets (prev m.capacity i)).isUsed = true ∧
      (m.buckets i).probeLength - 1 ≤ (m.buckets (prev m.capacity i)).probeLength

theorem Shape.follows (hm : Shape hash m) {i : Nat} (hi : i < m.capacity)
    (hused : (m.buckets i).isUsed = true) (hpos : 0 < (m.buckets i).probeLength) :
    (m.buckets (prev m.capacity i)).isUsed = true ∧
      (m.buckets i).probeLength - 1 ≤ (m.buckets (prev m.capacity i)).probeLength := by
  have hp := StaticHashMap.cell_of_used hused
  have hexact : (m.buckets i).probeLength = disp m.capacity (home hash m.capacity) _ i :=
    hm.exact i hi _ hp
  rcases hm.ordered i hi _ hp with hzero | ⟨q, hq, hle⟩
  · omega
  · have hexact' : (m.buckets (prev m.capacity i)).probeLength =
        disp m.capacity (home hash m.capacity) q _ := hm.exact _ (prev_lt hi) q hq
    exact ⟨((m.cell_eq_some_iff _ q).mp hq).1, by omega⟩

variable [BEq K]

theorem Refines.inOrder {size bound : Nat} {x : KeyMap K V} (h : Refines hash size bound m x) :
    InOrder hash m where
  distinct := by
    intro i hi j hj husedi husedj hkey
    exact h.distinct.slot_unique hi hj (StaticHashMap.cell_of_used husedi)
      (StaticHashMap.cell_of_used husedj) hkey
  exact := h.shape.exactProbes
  follows := fun _ hi hused hpos => h.shape.follows hi hused hpos

/-- From unused buckets, with a `MaxCount` up to `Capacity`, every `Add` and every `Remove`
of a key that is held returns and leaves the buckets in order. -/
theorem buckets_inOrder [EquivBEq K] (hhash : ∀ a b : K, (a == b) = true → hash a = hash b)
    {m₀ : StaticHashMap K V} (hpow : ∃ e, m₀.capacity = 2 ^ e) (hcap : m₀.capacity ≤ 65536)
    (hmax : m₀.maxCount ≤ m₀.capacity) (hcount : m₀.count = 0)
    (hunused : ∀ i < m₀.capacity, (m₀.buckets i).isUsed = false)
    (hfuel : m₀.capacity * m₀.capacity ≤ fuel) {ops : List (MapOp K V)}
    (hpresent : AtEach (step hash fuel) Present m₀ ops) :
    ∀ done, done <+: ops → ∃ m, exec (step hash fuel) m₀ done = some m ∧ InOrder hash m := by
  intro done hdone
  have hpow' := exponent_lt hpow hcap
  obtain ⟨m, hm, hrel⟩ := (hpresent.of_prefix hdone).exec_simulates
    (fun m x => Refines hash m₀.capacity m₀.maxCount m x)
    (fun _ _ op h hop => h.step_present hhash hpow' hcap hmax hfuel op hop)
    (refines_empty m₀ hcount hunused)
  exact ⟨m, hm, hrel.inOrder⟩

/-- Two buckets, every key hashed to the second; a key is removed when both are used. -/
theorem buckets_inOrder_full :
    ∃ m, exec (step (fun _ : Nat => 1) 4)
        { buckets := fun _ => ⟨0, 0, false, 0⟩, capacity := 2, count := 0, maxCount := 2 }
        [.add 1 10, .add 2 20, .remove 1, .add 3 30, .remove 3] = some m ∧
      InOrder (fun _ => 1) m :=
  buckets_inOrder (fun _ _ _ => rfl) ⟨1, rfl⟩ (by decide) (Nat.le_refl 2) rfl (fun _ _ => rfl)
    (Nat.le_refl 4) (by decide) _ (List.prefix_refl _)

end ScalBase.HashMaps
