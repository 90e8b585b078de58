/-
  HashMaps/Replace.lean --- when `Replace` overwrites a key.

  `Replace` is an `Add` whose answer it looks at.  `Add` finds a key that is there, and
  stops at its bucket, only after the test for a full map; so in a map with `Count` at
  `MaxCount` a `Replace` of a present key is refused (`replace_iff`).  Otherwise one
  `Value` is stored, which no lookup takes notice of on its way.
-/
import ScalBase.HashMaps.Refinement

set_option autoImplicit false

namespace ScalBase.HashMaps

open Foundation Foundation.Slots

variable {K V : Type*} [BEq K] {hash : K → UInt64}

/-- The value that the pointer of `Get` addresses. -/
def getValue (hash : K → UInt64) (fuel : Nat) (m : StaticHashMap K V) (key : K) :
    Option (Option V) :=
  (get hash fuel m key).map fun i => i.map fun i => (m.buckets i).value

/-- A call of `Replace` does what its name says: a key that is there gets the value, the
other keys keep theirs, and a key that is not there is answered with false. -/
structure Replaces (hash : K → UInt64) (fuel : Nat) (m : StaticHashMap K V) (key : K) (value : V) :
    Prop where
  present : HasKey m.entries key → ∃ m', replace hash fuel m key value = some (true, m') ∧
    getValue hash fuel m' key = some (some value) ∧
    ∀ key', (key' == key) = false → getValue hash fuel m' key' = getValue hash fuel m key'
  absent : ¬ HasKey m.entries key → ∃ m', replace hash fuel m key value = some (false, m')

/-! ## A store of one value -/

/-- `Buckets[i].Value = value;` -/
def StaticHashMap.setValue (m : StaticHashMap K V) (i : Nat) (value : V) : StaticHashMap K V :=
  m.setBucket i { m.buckets i with value := value }

omit [BEq K] in
theorem StaticHashMap.setValue_value (m : StaticHashMap K V) (i : Nat) (value : V) :
    ((m.setValue i value).buckets i).value = value := by
  rw [setValue, setBucket_buckets, Function.update_self]

omit [BEq K] in
theorem StaticHashMap.setValue_value_of_ne (m : StaticHashMap K V) {i j : Nat} (hne : j ≠ i)
    (value : V) : ((m.setValue i value).buckets j).value = (m.buckets j).value := by
  rw [setValue, setBucket_buckets, Function.update_of_ne hne]

omit [BEq K] in
/-- All but the value stays. -/
theorem StaticHashMap.setValue_rest (m : StaticHashMap K V) (i j : Nat) (value : V) :
    ((m.setValue i value).buckets j).isUsed = (m.buckets j).isUsed ∧
      ((m.setValue i value).buckets j).probeLength = (m.buckets j).probeLength ∧
      ((m.setValue i value).buckets j).key = (m.buckets j).key := by
  rw [setValue, setBucket_buckets]
  rcases eq_or_ne j i with rfl | hne
  · rw [Function.update_self]
    exact ⟨rfl, rfl, rfl⟩
  · rw [Function.update_of_ne hne]
    exact ⟨rfl, rfl, rfl⟩

/-- `Get` does not look at values. -/
theorem get_setValue (fuel : Nat) (m : StaticHashMap K V) (i : Nat) (value : V) (key : K) :
    get hash fuel (m.setValue i value) key = get hash fuel m key := by
  have hturn : getTurn (m.setValue i value) key = getTurn m key := by
    funext s
    obtain ⟨hused, hprobe, hkey⟩ := m.setValue_rest i s.idx value
    simp only [getTurn, hused, hprobe, hkey]
    rfl
  unfold HashMaps.get
  rw [hturn]
  rfl

/-! ## Replace -/

variable {size bound : Nat} {m : StaticHashMap K V} {x : KeyMap K V} {fuel : Nat}

theorem Refines.hasKey_iff (h : Refines hash size bound m x) (key : K) :
    HasKey m.entries key ↔ (x.lookup key).isSome = true := by
  rw [x.lookup_isSome_iff, h.entries]

theorem replace_full (hfull : m.count = m.maxCount) (key : K) (value : V) :
    replace hash fuel m key value = some (false, m) := by
  rw [replace, HashMaps.add, if_pos hfull]
  rfl

section Below

variable [EquivBEq K] (hhash : ∀ a b : K, (a == b) = true → hash a = hash b)
  (hpow : ∃ e < 32, size = 2 ^ e) (hcap : size ≤ 2 ^ 16) (hmax : bound < size) (hfuel : size ≤ fuel)

include hhash hpow hcap hfuel

/-- Below `MaxCount` a present key gets the value, in its bucket. -/
theorem Refines.replace_mem (h : Refines hash size bound m x) (hroom : m.count ≠ m.maxCount)
    {key : K} (value : V) (hk : HasKey m.entries key) :
    ∃ i, replace hash fuel m key value = some (true, m.setValue i value) ∧
      HashMaps.get hash fuel m key = some (some i) := by
  obtain ⟨i, hi, hadd, hused, hkey⟩ := h.add_mem hhash hpow hfuel (h.narrow hpow hcap) hroom value
    ((h.hasKey_iff key).mp hk)
  have hcell := StaticHashMap.cell_of_used hused
  refine ⟨i, ?_, get_held (h.capacity ▸ hpow) hhash h.shape h.distinct (h.count_ne_zero hi hcell) hi
    hcell hkey (h.capacity ▸ hfuel)⟩
  rw [replace, hadd]
  rfl

include hmax

omit hcap in
/-- The bucket that `Get` answers holds the key. -/
theorem Refines.get_key (h : Refines hash size bound m x) {key : K} {i : Nat}
    (hget : HashMaps.get hash fuel m key = some (some i)) :
    i < m.capacity ∧ (m.buckets i).isUsed = true ∧ ((m.buckets i).key == key) = true := by
  obtain ⟨u, hu, hfree⟩ := h.exists_free hmax
  have hpow' : ∃ e < 32, m.capacity = 2 ^ e := h.capacity ▸ hpow
  have hfuel' : m.capacity ≤ fuel := h.capacity ▸ hfuel
  by_cases hk : HasKey m.entries key
  · obtain ⟨j, hj, p, hp, hpk⟩ := hasKey_held_iff.mp hk
    obtain ⟨hused, hkey, -⟩ := (m.cell_eq_some_iff j p).mp hp
    rw [get_held hpow' hhash h.shape h.distinct (h.count_ne_zero hj hp) hj hp hpk hfuel'] at hget
    cases hget
    exact ⟨hj, hused, hkey ▸ hpk⟩
  · rw [get_absent hpow' hu hfree hk hfuel'] at hget
    cases hget

/-- Below `MaxCount` the call does what its name says. -/
theorem Refines.replaces (h : Refines hash size bound m x) (hroom : m.count ≠ m.maxCount)
    (key : K) (value : V) : Replaces hash fuel m key value := by
  constructor
  · intro hk
    obtain ⟨i, hrun, hget⟩ := h.replace_mem hhash hpow hcap hfuel hroom value hk
    obtain ⟨hi, hused, hkey⟩ := h.get_key hhash hpow hmax hfuel hget
    refine ⟨_, hrun, ?_, ?_⟩
    · rw [getValue, get_setValue, hget, Option.map_some, Option.map_some, m.setValue_value]
    · intro key' hne
      rw [getValue, getValue, get_setValue]
      obtain ⟨o, ho, -⟩ := h.get hhash hpow hmax hfuel key'
      rw [ho, Option.map_some, Option.map_some]
      cases o with
      | none => rfl
      | some j =>
        -- Another key is in another bucket.
        obtain ⟨-, -, hkey'⟩ := h.get_key hhash hpow hmax hfuel ho
        have hji : j ≠ i := by
          rintro rfl
          rw [BEq.trans (BEq.symm hkey') hkey] at hne
          cases hne
        rw [Option.map_some, Option.map_some, m.setValue_value_of_ne hji]
  · intro hk
    have hnone : x.lookup key = none := by
      rw [x.lookup_eq_none_iff, h.entries]
      exact hk
    obtain ⟨r, hr, hadded, -⟩ := h.add_new hpow hmax hfuel (h.narrow hpow hcap) hroom
      (h.not_wraps hpow hcap hmax key) value hnone
    refine ⟨r.2, ?_⟩
    rw [replace, hr]
    simp only [hadded.notExist, Bool.false_eq_true, if_false]

theorem Refines.replaces_iff (h : Refines hash size bound m x) (key : K) (value : V) :
    Replaces hash fuel m key value ↔ (HasKey m.entries key → m.count ≠ m.maxCount) := by
  constructor
  · intro hrep hk hfull
    obtain ⟨m', hrun, -⟩ := hrep.present hk
    rw [replace_full hfull] at hrun
    cases hrun
  · intro hcond
    by_cases hroom : m.count = m.maxCount
    · refine ⟨fun hk => absurd hroom (hcond hk), fun _ => ⟨m, replace_full hroom key value⟩⟩
    · exact h.replaces hhash hpow hcap hmax hfuel hroom key value

end Below

/-- Over every sequence of `Add` and `Remove` calls from unused buckets, `Replace` does
what its name says exactly when the key is not there or `Count` is below `MaxCount`. -/
theorem replace_iff [EquivBEq K] (hhash : ∀ a b : K, (a == b) = true → hash a = hash b)
    {m₀ : StaticHashMap K V} (hpow : ∃ e, m₀.capacity = 2 ^ e) (hcap : m₀.capacity ≤ 65536)
    (hmax : m₀.maxCount < m₀.capacity) (hcount : m₀.count = 0)
    (hunused : ∀ i < m₀.capacity, (m₀.buckets i).isUsed = false) (hfuel : m₀.capacity ≤ fuel)
    (ops : List (MapOp K V)) :
    ∃ m, exec (step hash fuel) m₀ ops = some m ∧ ∀ key value,
      Replaces hash fuel m key value ↔ (HasKey m.entries key → m.count ≠ m.maxCount) := by
  have hpow' := exponent_lt hpow hcap
  obtain ⟨m, hm, hrel⟩ := exec_simulates (Refines hash m₀.capacity m₀.maxCount)
    (fun m x op h => h.step hhash hpow' hmax hfuel (h.narrow hpow' hcap) op
      (h.fits hpow' hcap hmax op)) ops (refines_empty m₀ hcount hunused)
  exact ⟨m, hm, hrel.replaces_iff hhash hpow' hcap hmax hfuel⟩

theorem replace_iff_two :
    ∃ m, exec (step (fun _ : Nat => 0) 2)
        { buckets := fun _ => ⟨0, 0, false, 0⟩, capacity := 2, count := 0, maxCount := 1 }
        [.add 7 10] = some m ∧ ∀ key value,
      Replaces (fun _ => 0) 2 m key value ↔ (HasKey m.entries key → m.count ≠ m.maxCount) :=
  replace_iff (fun _ _ _ => rfl) ⟨1, rfl⟩ (by decide) (by decide) rfl (fun _ _ => rfl) (by decide) _

/-- The only key of a map with room for one entry. -/
theorem replace_refused :
    ∃ m, exec (step (fun _ : Nat => 0) 2)
        { buckets := fun _ => ⟨0, 0, false, 0⟩, capacity := 2, count := 0, maxCount := 1 }
        [.add 7 10] = some m ∧
      getValue (fun _ => 0) 2 m 7 = some (some 10) ∧
      replace (fun _ => 0) 2 m 7 20 = some (false, m) ∧
      ¬ Replaces (fun _ => 0) 2 m 7 20 := by
  refine ⟨_, rfl, rfl, rfl, ?_⟩
  intro hrep
  obtain ⟨m', hrun, -⟩ := hrep.present (hasKey_held_iff.mpr ⟨0, by decide, (7, 10), rfl, rfl⟩)
  cases hrun

end ScalBase.HashMaps
