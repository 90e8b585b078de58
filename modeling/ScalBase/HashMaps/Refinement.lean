/-
  HashMaps/Refinement.lean --- `StaticHashMap` is a finite map.

  `Refines` relates a table with the finite map of its used pairs.  Every `Add` and
  `Remove` whose probe lengths fit (`Fits`) returns and keeps the relation with the map
  operation of the same name.  They always fit up to 65536 buckets, so there a table
  reached by any sequence of calls answers like the finite map that the same calls build.
-/
import ScalBase.HashMaps.Invariant

set_option autoImplicit false

namespace ScalBase.HashMaps

open Foundation Foundation.Cyclic Foundation.RobinHood Foundation.Slots

variable {K V : Type*} [BEq K]

/-- The abstract step of a call. -/
def mapStep (x : KeyMap K V) : MapOp K V → KeyMap K V
  | .add key value => x.add key value
  | .remove key => x.remove key

/-- The table stands for the finite map `x`. -/
structure Refines (hash : K → UInt64) (size bound : Nat) (m : StaticHashMap K V)
    (x : KeyMap K V) : Prop where
  capacity : m.capacity = size
  maxCount : m.maxCount = bound
  limit : x.limit = bound
  shape : Shape hash m
  entries : (x.entries : Multiset (K × V)) = m.entries
  distinct : DistinctKeys m.entries
  count : m.count = m.entries.card
  full : m.count ≤ bound

/-- The probe lengths of the call stay within their 16 bits: an `Add` that goes in does not
come by a bucket with the largest one after a way as long. -/
def Fits (hash : K → UInt64) (m : StaticHashMap K V) : MapOp K V → Prop
  | .add key _ => m.count ≠ m.maxCount → ¬ HasKey m.entries key → ¬ Wraps hash m key
  | .remove _ => True

section Calls

variable {hash : K → UInt64}
variable (hhash : ∀ a b : K, (a == b) = true → hash a = hash b)
variable {size bound : Nat} (hpow : ∃ e < 32, size = 2 ^ e) (hmax : bound < size)
variable {m : StaticHashMap K V} {x : KeyMap K V} {fuel : Nat} (hfuel : size ≤ fuel)

include hmax in
/-- A table that is not full has an unused bucket. -/
theorem Refines.exists_free (h : Refines hash size bound m x) :
    ∃ u < m.capacity, m.cell u = none := by
  apply Slots.exists_free
  have hc := h.count
  have hf := h.full
  have hcap := h.capacity
  rw [StaticHashMap.entries] at hc
  omega

/-- A key of the finite map is in some bucket. -/
theorem Refines.exists_slot (h : Refines hash size bound m x) {key : K}
    (hk : (x.lookup key).isSome = true) :
    ∃ i < m.capacity, ∃ p, m.cell i = some p ∧ (p.1 == key) = true :=
  x.exists_slot h.entries hk

theorem Refines.not_hasKey (h : Refines hash size bound m x) {key : K}
    (hk : x.lookup key = none) : ¬ HasKey m.entries key := by
  rw [← h.entries]
  exact (x.lookup_eq_none_iff key).mp hk

theorem Refines.count_ne_zero (h : Refines hash size bound m x) {i : Nat} {p : K × V}
    (hi : i < m.capacity) (hp : m.cell i = some p) : m.count ≠ 0 := by
  have hmem : p ∈ m.entries := mem_held.mpr ⟨i, hi, hp⟩
  obtain ⟨rest, hrest⟩ := Multiset.exists_cons_of_mem hmem
  rw [h.count, hrest, Multiset.card_cons]
  omega

theorem Refines.length_eq (h : Refines hash size bound m x) : x.entries.length = m.count := by
  rw [h.count, ← h.entries, Multiset.coe_card]

variable [EquivBEq K]

include hhash hpow hfuel in
/-- `Add` of a key the map has answers its bucket and changes nothing. -/
theorem Refines.add_mem (h : Refines hash size bound m x) (hnarrow : Narrow m)
    (hroom : m.count ≠ m.maxCount) {key : K} (value : V) (hk : (x.lookup key).isSome = true) :
    ∃ i < m.capacity, HashMaps.add hash fuel m key value = some (⟨i, true, false⟩, m) ∧
      (m.buckets i).isUsed = true ∧ ((m.buckets i).key == key) = true := by
  obtain ⟨i, hi, p, hp, hpk⟩ := h.exists_slot hk
  obtain ⟨hused, hikey, -⟩ := (m.cell_eq_some_iff i p).mp hp
  exact ⟨i, hi, add_held (h.capacity ▸ hpow) hhash h.shape h.distinct hroom value hi hp hpk
    (hnarrow i hi hused) (h.capacity ▸ hfuel), hused, hikey ▸ hpk⟩

include hpow hfuel in
/-- `Add` of a key the map has not inserts it where a bucket is unused. -/
theorem Refines.add_free (h : Refines hash size bound m x) (hnarrow : Narrow m)
    (hroom : m.count ≠ m.maxCount) {u : Nat} (hu : u < m.capacity) (hfree : m.cell u = none)
    {key : K} (hwraps : ¬ Wraps hash m key) (value : V) (hk : x.lookup key = none) :
    ∃ r, HashMaps.add hash fuel m key value = some r ∧ Added hash m key value r ∧
      Refines hash size bound r.2 (x.add key value) := by
  have habs := h.not_hasKey hk
  obtain ⟨r, hr, hadd⟩ :=
    add_absent (h.capacity ▸ hpow) h.shape h.distinct hroom hu hfree value habs
      hnarrow hwraps (h.capacity ▸ hfuel)
  have hlen : x.entries.length ≠ x.limit := by
    rw [h.length_eq, h.limit, ← h.maxCount]; exact hroom
  have hadds : x.add key value = { x with entries := (key, value) :: x.entries } := by
    rw [KeyMap.add, if_neg hlen, hk]
    rfl
  refine ⟨r, hr, hadd, ⟨hadd.capacity.trans h.capacity, hadd.maxCount.trans h.maxCount, ?_,
    hadd.shape, ?_, ?_, ?_, ?_⟩⟩
  · rw [hadds]; exact h.limit
  · rw [hadds, hadd.entries, ← h.entries]; rfl
  · rw [hadd.entries]; exact h.distinct.cons habs
  · rw [hadd.entries, hadd.count, Multiset.card_cons, h.count]
  · have hfull := h.full
    have hmx := h.maxCount
    rw [hadd.count]
    omega

include hhash hpow hfuel in
/-- `Add`, where a bucket is unused unless the table refuses, does what it does to the map. -/
theorem Refines.step_add (h : Refines hash size bound m x) (hnarrow : Narrow m) (key : K)
    (value : V) (hunused : m.count ≠ m.maxCount → ∃ u < m.capacity, m.cell u = none)
    (hfits : Fits hash m (.add key value)) :
    ∃ m', HashMaps.step hash fuel m (.add key value) = some m' ∧
      Refines hash size bound m' (mapStep x (.add key value)) := by
  by_cases hroom : m.count = m.maxCount
  · refine ⟨m, by simp [HashMaps.step, HashMaps.add, hroom], ?_⟩
    have hlen : x.entries.length = x.limit := by
      rw [h.length_eq, h.limit, ← h.maxCount]; exact hroom
    rw [mapStep, KeyMap.add, if_pos hlen]
    exact h
  · cases hl : x.lookup key with
    | none =>
      obtain ⟨u, hu, hfree⟩ := hunused hroom
      obtain ⟨r, hr, -, hrel⟩ :=
        h.add_free hpow hfuel hnarrow hroom hu hfree (hfits hroom (h.not_hasKey hl)) value hl
      exact ⟨r.2, by rw [HashMaps.step, hr]; rfl, hrel⟩
    | some v =>
      have hsome : (x.lookup key).isSome = true := by rw [hl]; rfl
      obtain ⟨i, -, hadd, -⟩ := h.add_mem hhash hpow hfuel hnarrow hroom value hsome
      refine ⟨m, by rw [HashMaps.step, hadd]; rfl, ?_⟩
      have hlen : x.entries.length ≠ x.limit := by
        rw [h.length_eq, h.limit, ← h.maxCount]; exact hroom
      rw [mapStep, KeyMap.add, if_neg hlen, if_pos hsome]
      exact h

/-- What the shift leaves stands for the map without the key. -/
theorem Refines.removed (h : Refines hash size bound m x) {key : K} {p : K × V}
    {kept : Multiset (K × V)} {m' : StaticHashMap K V} (hpk : (p.1 == key) = true)
    (hsplit : m.entries = p ::ₘ kept) (hrem : Removed hash m kept m') :
    Refines hash size bound m' (x.remove key) := by
  have hpmem : p ∈ x.entries := by
    have hp' : p ∈ (x.entries : Multiset (K × V)) := by
      rw [h.entries, hsplit]; exact Multiset.mem_cons_self ..
    exact Multiset.mem_coe.mp hp'
  have habs := x.remove_entries_of_mem (h.entries ▸ h.distinct) hpmem hpk
  have hkept : ((x.remove key).entries : Multiset (K × V)) = kept := by
    rw [h.entries, hsplit] at habs
    exact ((Multiset.cons_inj_right p).mp habs).symm
  refine ⟨hrem.capacity.trans h.capacity, hrem.maxCount.trans h.maxCount, h.limit, hrem.shape,
    ?_, ?_, ?_, ?_⟩
  · rw [hrem.entries, hkept]
  · rw [hrem.entries]
    exact (hsplit ▸ h.distinct).tail
  · rw [hrem.entries, hrem.count, h.count, hsplit, Multiset.card_cons]
    omega
  · have hfull := h.full
    rw [hrem.count]
    omega

include hpow hmax hfuel

/-- `Remove` of a key the map has not changes nothing. -/
theorem Refines.remove_new (h : Refines hash size bound m x) {key : K}
    (hk : x.lookup key = none) : HashMaps.remove hash fuel m key = some (false, m) := by
  obtain ⟨u, hu, hfree⟩ := h.exists_free hmax
  have hsearch : Loop.run (removeTurn m key) fuel (hashAndMod hash key m.capacity) = some none :=
    removeSearch_absent (h.capacity ▸ hpow) hu hfree (h.not_hasKey hk) (h.capacity ▸ hfuel)
  unfold HashMaps.remove
  split
  · rfl
  · rw [hsearch]

/-- `Add` of a key the map has not inserts it. -/
theorem Refines.add_new (h : Refines hash size bound m x) (hnarrow : Narrow m)
    (hroom : m.count ≠ m.maxCount) {key : K} (hwraps : ¬ Wraps hash m key) (value : V)
    (hk : x.lookup key = none) :
    ∃ r, HashMaps.add hash fuel m key value = some r ∧ Added hash m key value r ∧
      Refines hash size bound r.2 (x.add key value) := by
  obtain ⟨u, hu, hfree⟩ := h.exists_free hmax
  exact h.add_free hpow hfuel hnarrow hroom hu hfree hwraps value hk

include hhash

/-- `Get` answers what the finite map holds. -/
theorem Refines.get (h : Refines hash size bound m x) (key : K) :
    ∃ i, HashMaps.get hash fuel m key = some i ∧
      i.map (fun i => (m.buckets i).value) = x.lookup key := by
  obtain ⟨u, hu, hfree⟩ := h.exists_free hmax
  have hpow' : ∃ e < 32, m.capacity = 2 ^ e := h.capacity ▸ hpow
  have hfuel' : m.capacity ≤ fuel := h.capacity ▸ hfuel
  cases hl : x.lookup key with
  | none => exact ⟨none, get_absent hpow' hu hfree (h.not_hasKey hl) hfuel', rfl⟩
  | some v =>
    obtain ⟨i, hi, p, hp, hk⟩ := h.exists_slot (by rw [hl]; rfl)
    refine ⟨some i,
      get_held hpow' hhash h.shape h.distinct (h.count_ne_zero hi hp) hi hp hk hfuel', ?_⟩
    have hholds : HoldsAt (x.entries : Multiset (K × V)) key p.2 := by
      rw [h.entries]
      exact ⟨p.1, mem_held.mpr ⟨i, hi, hp⟩, hk⟩
    have hv := (x.lookup_eq_some_iff (h.entries ▸ h.distinct) key p.2).mpr hholds
    rw [Option.map_some, ((m.cell_eq_some_iff i p).mp hp).2.2, ← hv, hl]

/-- `Remove` of a key the map has takes it out. -/
theorem Refines.remove_mem (h : Refines hash size bound m x) {key : K}
    (hk : (x.lookup key).isSome = true) :
    ∃ m', HashMaps.remove hash fuel m key = some (true, m') ∧
      Refines hash size bound m' (x.remove key) := by
  obtain ⟨u, hu, hfree⟩ := h.exists_free hmax
  have hpow' : ∃ e < 32, m.capacity = 2 ^ e := h.capacity ▸ hpow
  have hfuel' : m.capacity ≤ fuel := h.capacity ▸ hfuel
  obtain ⟨i, hi, p, hp, hpk⟩ := h.exists_slot hk
  have hsearch := removeSearch_held hpow' hhash h.shape h.distinct hi hp hpk hfuel'
  obtain ⟨m', kept, hrun, hrem, hsplit⟩ := shift_removes h.shape hpow' hi hp hu hfree hfuel'
  refine ⟨m', ?_, h.removed hpk hsplit hrem⟩
  rw [HashMaps.remove, if_neg (h.count_ne_zero hi hp), hsearch]
  simp only [hrun, Option.map_some]

/-- Every call whose probe lengths fit returns and keeps the relation. -/
theorem Refines.step (h : Refines hash size bound m x) (hnarrow : Narrow m) (op : MapOp K V)
    (hfits : Fits hash m op) :
    ∃ m', HashMaps.step hash fuel m op = some m' ∧
      Refines hash size bound m' (mapStep x op) := by
  cases op with
  | add key value =>
    exact h.step_add hhash hpow hfuel hnarrow key value (fun _ => h.exists_free hmax) hfits
  | remove key =>
    cases hl : x.lookup key with
    | none =>
      have hrem := h.remove_new hpow hmax hfuel hl
      refine ⟨m, by rw [HashMaps.step, hrem]; rfl, ?_⟩
      rw [mapStep, x.remove_of_not_hasKey ((x.lookup_eq_none_iff key).mp hl)]
      exact h
    | some v =>
      obtain ⟨m', hrem, hrel⟩ := h.remove_mem hhash hpow hmax hfuel (by rw [hl]; rfl)
      exact ⟨m', by rw [HashMaps.step, hrem]; rfl, hrel⟩

end Calls

/-! ## Up to 2^16 buckets -/

section Small

variable {hash : K → UInt64} {size bound : Nat} (hpow : ∃ e < 32, size = 2 ^ e)
variable (hcap : size ≤ 2 ^ 16) {m : StaticHashMap K V} {x : KeyMap K V}

include hpow hcap

theorem Refines.narrow (h : Refines hash size bound m x) : Narrow m :=
  h.shape.narrow (h.capacity ▸ hcap) (h.capacity ▸ hpow)

theorem Refines.not_wraps (h : Refines hash size bound m x) (hmax : bound < size) (key : K) :
    ¬ Wraps hash m key := by
  obtain ⟨u, hu, hfree⟩ := h.exists_free hmax
  exact not_wraps_of_le (h.capacity ▸ hcap) hu hfree (h.capacity ▸ hpow) key

theorem Refines.fits (h : Refines hash size bound m x) (hmax : bound < size) (op : MapOp K V) :
    Fits hash m op := by
  cases op with
  | add key value => exact fun _ _ => h.not_wraps hpow hcap hmax key
  | remove key => trivial

end Small

/-! ## The map over whole runs -/

/-- The number of used buckets. -/
def StaticHashMap.usedCount {K V : Type*} (m : StaticHashMap K V) : Nat :=
  ((List.range m.capacity).filter fun i => (m.buckets i).isUsed).length

omit [BEq K] in
theorem StaticHashMap.card_entries (m : StaticHashMap K V) : m.entries.card = m.usedCount := by
  have hused : ∀ i, (m.cell i).isSome = (m.buckets i).isUsed := by
    intro i
    cases hused : (m.buckets i).isUsed with
    | false => rw [(m.cell_eq_none_iff i).mpr hused]; rfl
    | true => rw [StaticHashMap.cell_of_used hused]; rfl
  simp only [StaticHashMap.entries, StaticHashMap.usedCount, card_held, hused]

/-- The table answers every call as the finite map `x` does. -/
structure Answers (hash : K → UInt64) (fuel : Nat) (m : StaticHashMap K V) (x : KeyMap K V) :
    Prop where
  /-- `Get` points at the value of the map, and is null where the map has none. -/
  get : ∀ key, ∃ i, HashMaps.get hash fuel m key = some i ∧
    i.map (fun i => (m.buckets i).value) = x.lookup key
  /-- `Add` below `MaxCount` reports a key exactly when the map has it.  It then
  changes nothing and `Index` is the bucket of the key; otherwise `Index` is where
  the key is in the new table. -/
  add : m.count < m.maxCount → ∀ key value, ∃ r m',
    HashMaps.add hash fuel m key value = some (r, m') ∧
    (r.doesExist = true ↔ (x.lookup key).isSome = true) ∧
    (r.doesExist = true → m' = m) ∧
    r.index < m'.capacity ∧ (m'.buckets r.index).isUsed = true ∧
    ((m'.buckets r.index).key == key) = true
  /-- `Remove` succeeds exactly on the keys of the map. -/
  remove : ∀ key, ∃ b m', HashMaps.remove hash fuel m key = some (b, m') ∧
    (b = true ↔ (x.lookup key).isSome = true)
  /-- `Count` is the number of used buckets. -/
  count : m.count = m.usedCount

variable [EquivBEq K] {hash : K → UInt64}

theorem Refines.answers {size bound : Nat} {m : StaticHashMap K V} {x : KeyMap K V}
    (h : Refines hash size bound m x) (hhash : ∀ a b : K, (a == b) = true → hash a = hash b)
    (hpow : ∃ e < 32, size = 2 ^ e) (hcap : size ≤ 2 ^ 16) (hmax : bound < size) {fuel : Nat}
    (hfuel : size ≤ fuel) : Answers hash fuel m x where
  get := h.get hhash hpow hmax hfuel
  add := by
    intro hroom key value
    cases hl : x.lookup key with
    | none =>
      obtain ⟨⟨r, m'⟩, hr, hadd, -⟩ := h.add_new hpow hmax hfuel (h.narrow hpow hcap) hroom.ne
        (h.not_wraps hpow hcap hmax key) value hl
      obtain ⟨hlt, hused, hkey⟩ := hadd.index
      have hnot : r.doesExist = false := hadd.notExist
      refine ⟨r, m', hr, by simp [hnot], by simp [hnot], ?_, hused, ?_⟩
      · rw [hadd.capacity]; exact hlt
      · rw [hkey]; exact BEq.rfl
    | some v =>
      obtain ⟨i, hi, hadd, hused, hkey⟩ :=
        h.add_mem hhash hpow hfuel (h.narrow hpow hcap) hroom.ne value (by rw [hl]; rfl)
      exact ⟨_, m, hadd, by simp, fun _ => rfl, hi, hused, hkey⟩
  remove := by
    intro key
    cases hl : x.lookup key with
    | none => exact ⟨false, m, h.remove_new hpow hmax hfuel hl, by simp⟩
    | some v =>
      have hmem : (x.lookup key).isSome := by rw [hl]; rfl
      obtain ⟨m', hrem, -⟩ := h.remove_mem hhash hpow hmax hfuel hmem
      exact ⟨true, m', hrem, by simp⟩
  count := by rw [h.count, m.card_entries]

omit [EquivBEq K] in
/-- A table whose buckets are unused stands for the empty map. -/
theorem refines_empty (m : StaticHashMap K V) (hcount : m.count = 0)
    (hunused : ∀ i < m.capacity, (m.buckets i).isUsed = false) :
    Refines hash m.capacity m.maxCount m ⟨[], m.maxCount⟩ := by
  have hcell : ∀ i < m.capacity, m.cell i = none :=
    fun i hi => (m.cell_eq_none_iff i).mpr (hunused i hi)
  have hentries : m.entries = 0 := held_eq_zero hcell
  refine ⟨rfl, rfl, rfl, probed_of_empty hcell, ?_, ?_, ?_, ?_⟩
  · rw [hentries]; rfl
  · rw [hentries]; exact distinctKeys_zero
  · rw [hentries, hcount]; rfl
  · omega

theorem exponent_lt {capacity : Nat} (hpow : ∃ e, capacity = 2 ^ e) (hcap : capacity ≤ 2 ^ 16) :
    ∃ e < 32, capacity = 2 ^ e := by
  obtain ⟨e, rfl⟩ := hpow
  have he : e ≤ 16 := (Nat.pow_le_pow_iff_right (by decide)).mp hcap
  exact ⟨e, Nat.lt_of_le_of_lt he (by decide), rfl⟩

/-- Over every sequence of `Add` and `Remove` calls from unused buckets, a
`StaticHashMap` is the finite map that the calls build: every call returns, and the
table reached answers every further call as that map. -/
theorem staticHashMap_refines_keyMap (hhash : ∀ a b : K, (a == b) = true → hash a = hash b)
    {m₀ : StaticHashMap K V} (hpow : ∃ e, m₀.capacity = 2 ^ e) (hcap : m₀.capacity ≤ 65536)
    (hmax : m₀.maxCount < m₀.capacity) (hcount : m₀.count = 0)
    (hunused : ∀ i < m₀.capacity, (m₀.buckets i).isUsed = false) {fuel : Nat}
    (hfuel : m₀.capacity ≤ fuel) (ops : List (MapOp K V)) :
    ∃ m, exec (step hash fuel) m₀ ops = some m ∧
      Answers hash fuel m (ops.foldl mapStep ⟨[], m₀.maxCount⟩) := by
  have hpow' := exponent_lt hpow hcap
  obtain ⟨m, hm, hrel⟩ := exec_simulates (Refines hash m₀.capacity m₀.maxCount)
    (fun m x op h => h.step hhash hpow' hmax hfuel (h.narrow hpow' hcap) op
      (h.fits hpow' hcap hmax op)) ops (refines_empty m₀ hcount hunused)
  exact ⟨m, hm, hrel.answers hhash hpow' hcap hmax hfuel⟩

/-- Four buckets, every key hashed to the last one, and a chain that wraps round. -/
theorem staticHashMap_refines_keyMap_wrapping :
    ∃ m, exec (step (fun _ : Nat => 3) 4)
        { buckets := fun _ => ⟨0, 0, false, 0⟩, capacity := 4, count := 0, maxCount := 3 }
        [.add 1 10, .add 2 20, .remove 1, .add 3 30, .add 3 31] = some m ∧
      Answers (fun _ => 3) 4 m ⟨[(3, 30), (2, 20)], 3⟩ :=
  staticHashMap_refines_keyMap (fun _ _ _ => rfl) ⟨2, rfl⟩ (by decide) (by decide) rfl
    (fun _ _ => rfl) (by decide) _

end ScalBase.HashMaps
