/-
  HashMaps/Invariant.lean --- what the loops of `StaticHashMap` keep.

  A bucket memory is read as slots holding key and value pairs (`cell`).  `Shape`
  says that the slots are in Robin Hood order and that every stored probe length is
  the true displacement.  Each loop below is proved once against it:

      get_held, get_absent         the lookup
      add_held, add_absent         the insertion, with its chain of displacements
      remove_held, remove_absent   the search and the backward shift

  An unused slot `u` bounds every loop: no loop passes it.  `Vacating` is the shift in a
  table that may have none.  The insertion counts probes in 16 bits; it keeps the order
  where no count starts again (`Wraps`).
-/
import ScalBase.HashMaps.Model
import ScalBase.Foundation.RobinHood
import ScalBase.Foundation.Slots
import ScalBase.Foundation.KeyMap

set_option autoImplicit false

namespace ScalBase.HashMaps

open Foundation Foundation.Cyclic Foundation.RobinHood Foundation.Slots

variable {K V : Type*}

/-! ## The slots -/

/-- The pair a bucket holds, if it is used. -/
def cellOf (b : StaticHashMapBucket K V) : Option (K × V) :=
  if b.isUsed then some (b.key, b.value) else none

namespace StaticHashMap

/-- The pair in bucket `i`. -/
def cell (m : StaticHashMap K V) (i : Nat) : Option (K × V) := cellOf (m.buckets i)

/-- The probe length stored in bucket `i`. -/
def probe (m : StaticHashMap K V) (i : Nat) : Nat := (m.buckets i).probeLength

/-- The multiset of used pairs. -/
def entries (m : StaticHashMap K V) : Multiset (K × V) := held m.capacity m.cell

variable (m : StaticHashMap K V) (i : Nat)

theorem cell_eq_none_iff : m.cell i = none ↔ (m.buckets i).isUsed = false := by
  simp [cell, cellOf]

theorem cell_eq_some_iff (p : K × V) :
    m.cell i = some p ↔
      (m.buckets i).isUsed = true ∧ (m.buckets i).key = p.1 ∧ (m.buckets i).value = p.2 := by
  cases p
  simp [cell, cellOf, Prod.ext_iff]

theorem cell_of_used {m : StaticHashMap K V} {i : Nat} (h : (m.buckets i).isUsed = true) :
    m.cell i = some ((m.buckets i).key, (m.buckets i).value) := by
  simp [cell, cellOf, h]

@[simp] theorem setBucket_capacity (b : StaticHashMapBucket K V) :
    (m.setBucket i b).capacity = m.capacity := rfl

@[simp] theorem setBucket_count (b : StaticHashMapBucket K V) :
    (m.setBucket i b).count = m.count := rfl

@[simp] theorem setBucket_maxCount (b : StaticHashMapBucket K V) :
    (m.setBucket i b).maxCount = m.maxCount := rfl

@[simp] theorem setBucket_buckets (b : StaticHashMapBucket K V) :
    (m.setBucket i b).buckets = Function.update m.buckets i b := rfl

theorem cell_setBucket (b : StaticHashMapBucket K V) :
    (m.setBucket i b).cell = Function.update m.cell i (cellOf b) := by
  funext j
  by_cases h : j = i
  · subst h; simp [cell]
  · simp [cell, h]

theorem cell_vacate : (m.vacate i).cell = Function.update m.cell i none := by
  rw [vacate, cell_setBucket, cellOf]
  rfl

/-- After a move the two slots hold the same pair. -/
theorem cell_moveBack {m : StaticHashMap K V} {i j : Nat} (hne : i ≠ j) {p : K × V}
    (hp : m.cell i = some p) : (m.moveBack i j).cell = Function.update m.cell j (some p) := by
  have hcell :
      cellOf { m.buckets i with probeLength := (m.buckets i).probeLength - 1 } = some p := by
    rw [← hp]; rfl
  simp only [moveBack, cell_setBucket]
  rw [hcell]
  funext k
  by_cases hki : k = i
  · subst hki; simp [hne, hp]
  · by_cases hkj : k = j <;> simp [hki, hkj]

end StaticHashMap

section Search

variable (hash : K → UInt64)

/-- The home slot of a pair. -/
def home (capacity : Nat) (p : K × V) : Nat := hashAndMod hash p.1 capacity

/-- The order of the slots and the exactness of the stored probe lengths. -/
def Shape (m : StaticHashMap K V) : Prop :=
  Probed m.capacity (home hash m.capacity) m.cell m.probe

variable {hash}

theorem hashAndMod_lt {capacity : Nat} (hpow : ∃ e < 32, capacity = 2 ^ e) (key : K) :
    hashAndMod hash key capacity < capacity := by
  obtain ⟨e, he, rfl⟩ := hpow
  exact fastModulo_lt he

theorem home_lt {capacity : Nat} (hpow : ∃ e < 32, capacity = 2 ^ e) (p : K × V) :
    home hash capacity p < capacity := hashAndMod_lt hpow p.1

variable {m : StaticHashMap K V} (hm : Shape hash m) (hpow : ∃ e < 32, m.capacity = 2 ^ e)

include hm hpow

/-- On the way from the home of a pair to its slot every bucket is used, with a
probe length of at least the distance walked. -/
theorem Shape.passes {i j : Nat} {p : K × V} (hi : i < m.capacity) (hp : m.cell i = some p)
    (hj : Between m.capacity (home hash m.capacity p) i j) :
    (m.buckets j).isUsed = true ∧
      dist m.capacity (home hash m.capacity p) j ≤ (m.buckets j).probeLength := by
  obtain ⟨q, hq, hd⟩ := Probed.passes hm hi (home_lt hpow p) hp hj
  exact ⟨((m.cell_eq_some_iff j q).mp hq).1, hd⟩

end Search

section Loops

variable [BEq K] {hash : K → UInt64} {m : StaticHashMap K V}

/-- No bucket of the map holds a key equal to `key`. -/
theorem key_ne_of_absent {key : K} (habs : ¬ HasKey m.entries key) {i : Nat}
    (hi : i < m.capacity) (hused : (m.buckets i).isUsed = true) :
    ((m.buckets i).key == key) = false := by
  rw [Bool.eq_false_iff]
  intro hk
  exact habs ⟨_, mem_held.mpr ⟨i, hi, StaticHashMap.cell_of_used hused⟩, hk⟩

theorem home_eq (hhash : ∀ a b : K, (a == b) = true → hash a = hash b) {p : K × V} {key : K}
    (hk : (p.1 == key) = true) (capacity : Nat) :
    home hash capacity p = hashAndMod hash key capacity := by
  rw [home, hashAndMod, hashAndMod, hhash _ _ hk]

/-! ## Lookup -/

theorem getTurn_null {key : K} {s : GetLoop} (h : (m.buckets s.idx).isUsed = false) :
    getTurn m key s = .done none := by
  simp [getTurn, h]

theorem getTurn_found {key : K} {s : GetLoop} (hused : (m.buckets s.idx).isUsed = true)
    (hle : s.probeLength ≤ (m.buckets s.idx).probeLength)
    (hk : (key == (m.buckets s.idx).key) = true) : getTurn m key s = .done (some s.idx) := by
  simp [getTurn, hused, hk, Nat.not_lt.mpr hle]

theorem getTurn_pass {key : K} {s : GetLoop} (hused : (m.buckets s.idx).isUsed = true)
    (hle : s.probeLength ≤ (m.buckets s.idx).probeLength)
    (hk : (key == (m.buckets s.idx).key) = false) :
    getTurn m key s =
      .again { probeLength := s.probeLength + 1, idx := next m.capacity s.idx } := by
  simp [getTurn, hused, hk, Nat.not_lt.mpr hle]

theorem removeTurn_null {key : K} {index : Nat} (h : (m.buckets index).isUsed = false) :
    removeTurn m key index = .done none := by
  simp [removeTurn, h]

theorem removeTurn_found {key : K} {index : Nat} (hused : (m.buckets index).isUsed = true)
    (hk : (key == (m.buckets index).key) = true) : removeTurn m key index = .done (some index) := by
  simp [removeTurn, hused, hk]

theorem removeTurn_pass {key : K} {index : Nat} (hused : (m.buckets index).isUsed = true)
    (hk : (key == (m.buckets index).key) = false) :
    removeTurn m key index = .again (next m.capacity index) := by
  simp [removeTurn, hused, hk]

variable (hpow : ∃ e < 32, m.capacity = 2 ^ e)
variable (hhash : ∀ a b : K, (a == b) = true → hash a = hash b)
variable [EquivBEq K]

/-- A used bucket other than the one that holds `key` holds a different key. -/
theorem key_ne_of_slot_ne (hd : DistinctKeys m.entries) {key : K} {i j : Nat} {p : K × V}
    (hi : i < m.capacity) (hj : j < m.capacity) (hp : m.cell j = some p)
    (hk : (p.1 == key) = true) (hused : (m.buckets i).isUsed = true) (hne : i ≠ j) :
    ((m.buckets i).key == key) = false := by
  rw [Bool.eq_false_iff]
  intro hc
  exact hne
    (hd.slot_unique hi hj (StaticHashMap.cell_of_used hused) hp (BEq.trans hc (BEq.symm hk)))

include hhash hpow in
/-- A lookup of a key that is held finds its bucket: the distance walked is never
above the probe length of a bucket on the way. -/
theorem get_held (hm : Shape hash m) (hd : DistinctKeys m.entries) (hcount : m.count ≠ 0)
    {key : K} {j : Nat} {p : K × V} (hj : j < m.capacity) (hp : m.cell j = some p)
    (hk : (p.1 == key) = true) {fuel : Nat} (hfuel : m.capacity ≤ fuel) :
    get hash fuel m key = some (some j) := by
  have hhome := home_eq hhash hk m.capacity
  have hstart : hashAndMod hash key m.capacity < m.capacity := hashAndMod_lt hpow key
  have hpass := fun i => hm.passes hpow hj hp (j := i)
  obtain ⟨hjused, hjkey, -⟩ := (m.cell_eq_some_iff j p).mp hp
  rw [get, if_neg hcount]
  rw [hhome] at hpass
  generalize hashAndMod hash key m.capacity = start at hstart hpass
  refine run_scan_eq hj GetLoop.idx
    (fun s => Between m.capacity start j s.idx ∧ s.probeLength = dist m.capacity start s.idx)
    (some j) (fun s hs => hs.1.lt) ?_ ?_ hfuel ⟨Between.start hstart, by simp⟩
  · rintro s ⟨hb, hpl⟩ hsj
    obtain ⟨hused, hle⟩ := hpass s.idx hb
    rw [getTurn_found hused (hpl ▸ hle) (by rw [hsj, hjkey]; exact BEq.symm hk), hsj]
  · rintro s ⟨hb, hpl⟩ hsj
    obtain ⟨hused, hle⟩ := hpass s.idx hb
    have hne : (key == (m.buckets s.idx).key) = false := by
      rw [BEq.comm]
      exact key_ne_of_slot_ne hd hb.lt hj hp hk hused hsj
    obtain ⟨hb', hstep⟩ := hb.next hstart hj hsj
    exact Or.inr ⟨_, getTurn_pass hused (hpl ▸ hle) hne, rfl, hb', by simp only [hstep, hpl]⟩

include hpow in
/-- A lookup of a key that is not held ends with a null pointer, at an unused
bucket at the latest. -/
theorem get_absent {u : Nat} (hu : u < m.capacity) (hfree : m.cell u = none) {key : K}
    (habs : ¬ HasKey m.entries key) {fuel : Nat} (hfuel : m.capacity ≤ fuel) :
    get hash fuel m key = some none := by
  have hstart : hashAndMod hash key m.capacity < m.capacity := hashAndMod_lt hpow key
  have hunused := (m.cell_eq_none_iff u).mp hfree
  unfold get
  split
  · rfl
  · refine run_scan_eq hu GetLoop.idx (fun s => s.idx < m.capacity) none (fun s hs => hs)
      ?_ ?_ hfuel hstart
    · intro s _ hsu
      exact getTurn_null (hsu ▸ hunused)
    · intro s hs _
      cases hused : (m.buckets s.idx).isUsed with
      | false => exact Or.inl (getTurn_null hused)
      | true =>
        by_cases hle : s.probeLength ≤ (m.buckets s.idx).probeLength
        · have hk : (key == (m.buckets s.idx).key) = false := by
            rw [BEq.comm]
            exact key_ne_of_absent habs hs hused
          exact Or.inr ⟨_, getTurn_pass hused hle hk, rfl, next_lt hs⟩
        · exact Or.inl (by simp [getTurn, hused, Nat.lt_of_not_le hle])

/-! ## Removal: the search -/

include hhash hpow in
theorem removeSearch_held (hm : Shape hash m) (hd : DistinctKeys m.entries) {key : K} {j : Nat}
    {p : K × V} (hj : j < m.capacity) (hp : m.cell j = some p) (hk : (p.1 == key) = true)
    {fuel : Nat} (hfuel : m.capacity ≤ fuel) :
    Loop.run (removeTurn m key) fuel (hashAndMod hash key m.capacity) = some (some j) := by
  have hhome := home_eq hhash hk m.capacity
  have hstart : hashAndMod hash key m.capacity < m.capacity := hashAndMod_lt hpow key
  have hpass := fun i => hm.passes hpow hj hp (j := i)
  obtain ⟨-, hjkey, -⟩ := (m.cell_eq_some_iff j p).mp hp
  rw [hhome] at hpass
  generalize hashAndMod hash key m.capacity = start at hstart hpass ⊢
  refine run_scan_eq hj id (Between m.capacity start j) (some j) (fun i hi => hi.lt) ?_ ?_
    hfuel (Between.start hstart)
  · intro i hb hij
    subst hij
    have hki : (key == (m.buckets i).key) = true := hjkey ▸ BEq.symm hk
    exact removeTurn_found (hpass i hb).1 hki
  · intro i hb hij
    have hused := (hpass i hb).1
    have hne : (key == (m.buckets i).key) = false := by
      rw [BEq.comm]
      exact key_ne_of_slot_ne hd hb.lt hj hp hk hused hij
    exact Or.inr ⟨_, removeTurn_pass hused hne, rfl, (hb.next hstart hj hij).1⟩

include hpow in
theorem removeSearch_absent {u : Nat} (hu : u < m.capacity) (hfree : m.cell u = none) {key : K}
    (habs : ¬ HasKey m.entries key) {fuel : Nat} (hfuel : m.capacity ≤ fuel) :
    Loop.run (removeTurn m key) fuel (hashAndMod hash key m.capacity) = some none := by
  have hstart : hashAndMod hash key m.capacity < m.capacity := hashAndMod_lt hpow key
  have hunused := (m.cell_eq_none_iff u).mp hfree
  refine run_scan_eq hu id (fun i => i < m.capacity) none (fun i hi => hi) ?_ ?_ hfuel hstart
  · intro i _ hiu
    subst hiu
    exact removeTurn_null hunused
  · intro i hi _
    cases hused : (m.buckets i).isUsed with
    | false => exact Or.inl (removeTurn_null hused)
    | true =>
      have hk : (key == (m.buckets i).key) = false := by
        rw [BEq.comm]
        exact key_ne_of_absent habs hi hused
      exact Or.inr ⟨_, removeTurn_pass hused hk, rfl, next_lt hi⟩

end Loops

/-! ## Removal: the shift -/

section Shift

variable (hash : K → UInt64)

/-- The loop that moves entries back, with the vacated bucket at `s.2`.  The bucket
still has its old contents, so the slots are read with that one blanked out. -/
structure Shifting (m : StaticHashMap K V) (kept : Multiset (K × V)) (u : Nat)
    (s : StaticHashMap K V × Nat) : Prop where
  capacity : s.1.capacity = m.capacity
  count : s.1.count = m.count
  maxCount : s.1.maxCount = m.maxCount
  probed : ProbedHole m.capacity (home hash m.capacity) s.1.cell s.1.probe s.2
  held : held m.capacity (Function.update s.1.cell s.2 none) = kept
  free : s.1.cell u = none
  ne : s.2 ≠ u
  bound : u < m.capacity

/-- What the removal of a bucket leaves: the shape, the remaining entries, and the
counters. -/
structure Removed (m : StaticHashMap K V) (kept : Multiset (K × V)) (m' : StaticHashMap K V) :
    Prop where
  capacity : m'.capacity = m.capacity
  maxCount : m'.maxCount = m.maxCount
  count : m'.count = m.count - 1
  shape : Shape hash m'
  entries : m'.entries = kept

/-- The same loop, with nothing said of the bucket where it ends. -/
structure Vacating (m : StaticHashMap K V) (kept : Multiset (K × V)) (s : StaticHashMap K V × Nat) :
    Prop where
  capacity : s.1.capacity = m.capacity
  count : s.1.count = m.count
  maxCount : s.1.maxCount = m.maxCount
  probed : ProbedHole m.capacity (home hash m.capacity) s.1.cell s.1.probe s.2
  held : held m.capacity (Function.update s.1.cell s.2 none) = kept

variable {hash} {m : StaticHashMap K V} {kept : Multiset (K × V)} {u : Nat}

theorem Vacating.start (hm : Shape hash m) {i : Nat} {p : K × V} (hi : i < m.capacity)
    (hp : m.cell i = some p) :
    Vacating hash m (Slots.held m.capacity (Function.update m.cell i none)) (m, i) :=
  ⟨rfl, rfl, rfl, Probed.vacate hm hi hp, rfl⟩

/-- The last turn: the bucket after the hole is unused or at home. -/
theorem Vacating.close {s : StaticHashMap K V × Nat} (h : Vacating hash m kept s)
    (hend : (s.1.buckets (next m.capacity s.2)).isUsed = false ∨
      (s.1.buckets (next m.capacity s.2)).probeLength = 0) :
    ∃ m', shiftTurn s = .done m' ∧ Removed hash m kept m' := by
  obtain ⟨m₁, i⟩ := s
  obtain ⟨hcap, hcount, hmax, hprobed, hheld⟩ := h
  simp only at hcap hcount hmax hprobed hheld hend
  have hcell : StaticHashMap.cell { m₁.vacate i with count := m₁.count - 1 } =
      Function.update m₁.cell i none := m₁.cell_vacate i
  refine ⟨{ m₁.vacate i with count := m₁.count - 1 },
    by rw [shiftTurn, hcap, if_pos hend], ⟨hcap, hmax, by rw [← hcount], ?_, ?_⟩⟩
  · show Probed m₁.capacity (home hash m₁.capacity) _ _
    rw [hcell, hcap]
    refine hprobed.close (hend.imp_left (m₁.cell_eq_none_iff _).mpr) ?_
    intro j hj
    simp [StaticHashMap.probe, StaticHashMap.vacate, hj]
  · show Slots.held m₁.capacity _ = kept
    rw [hcell, hcap]
    exact hheld

/-- A turn that moves the entry after the hole into it. -/
theorem Vacating.move {s : StaticHashMap K V × Nat} (h : Vacating hash m kept s)
    (hpow : ∃ e < 32, m.capacity = 2 ^ e) (hni : next m.capacity s.2 ≠ s.2)
    (hused : (s.1.buckets (next m.capacity s.2)).isUsed = true)
    (hpos : (s.1.buckets (next m.capacity s.2)).probeLength ≠ 0) :
    shiftTurn s =
        .again (s.1.moveBack (next m.capacity s.2) s.2, next m.capacity s.2) ∧
      Vacating hash m kept (s.1.moveBack (next m.capacity s.2) s.2, next m.capacity s.2) := by
  obtain ⟨m₁, i⟩ := s
  obtain ⟨hcap, hcount, hmax, hprobed, hheld⟩ := h
  simp only at hcap hcount hmax hprobed hheld hni hused hpos
  have hlt := hprobed.order.lt
  have hnlt : next m.capacity i < m.capacity := next_lt hlt
  -- The entry after the hole.
  obtain ⟨p, hp⟩ : ∃ p, m₁.cell (next m.capacity i) = some p :=
    ⟨_, StaticHashMap.cell_of_used hused⟩
  have hcell := m₁.cell_moveBack hni hp
  refine ⟨?_, hcap, hcount, hmax, ?_, ?_⟩
  · rw [shiftTurn, hcap, if_neg]
    simp [hused, hpos]
  · simp only [hcell]
    refine hprobed.move (home_lt hpow p) hni hp hpos ?_ ?_
    · simp [StaticHashMap.probe, StaticHashMap.moveBack]
    · intro j hj hjn
      simp [StaticHashMap.probe, StaticHashMap.moveBack, hj, hjn]
  · simp only [hcell]
    rw [held_move hlt hnlt hni hp, hheld]

theorem Shifting.vacating {s : StaticHashMap K V × Nat} (h : Shifting hash m kept u s) :
    Vacating hash m kept s :=
  ⟨h.capacity, h.count, h.maxCount, h.probed, h.held⟩

/-- A turn that moves an entry leaves the unused bucket. -/
theorem Shifting.move {s : StaticHashMap K V × Nat} (h : Shifting hash m kept u s)
    (hpow : ∃ e < 32, m.capacity = 2 ^ e)
    (hused : (s.1.buckets (next m.capacity s.2)).isUsed = true)
    (hpos : (s.1.buckets (next m.capacity s.2)).probeLength ≠ 0) :
    ∃ s', shiftTurn s = .again s' ∧ s'.2 = next m.capacity s.2 ∧ Shifting hash m kept u s' := by
  have hlt := h.probed.order.lt
  have hu := h.bound
  have hne := h.ne
  have hni : next m.capacity s.2 ≠ s.2 := next_ne_self (by omega)
  obtain ⟨hagain, hcap, hcount, hmax, hprobed, hheld⟩ := h.vacating.move hpow hni hused hpos
  have hp := StaticHashMap.cell_of_used hused
  have hun : next m.capacity s.2 ≠ u := by
    rintro rfl
    rw [h.free] at hp
    cases hp
  refine ⟨_, hagain, rfl, hcap, hcount, hmax, hprobed, hheld, ?_, hun, hu⟩
  rw [s.1.cell_moveBack hni hp, Function.update_of_ne hne.symm, h.free]

/-- The shift from a vacated bucket removes exactly the entry that was there. -/
theorem shift_removes (hm : Shape hash m) (hpow : ∃ e < 32, m.capacity = 2 ^ e) {i : Nat}
    {p : K × V} (hi : i < m.capacity) (hp : m.cell i = some p) (hu : u < m.capacity)
    (hfree : m.cell u = none) {fuel : Nat} (hfuel : m.capacity ≤ fuel) :
    ∃ m' kept, Loop.run shiftTurn fuel (m, i) = some m' ∧ Removed hash m kept m' ∧
      m.entries = p ::ₘ kept := by
  have hiu : i ≠ u := by rintro rfl; rw [hfree] at hp; cases hp
  have hstart : Shifting hash m (held m.capacity (Function.update m.cell i none)) u (m, i) := by
    obtain ⟨hcap, hcount, hmax, hprobed, hheld⟩ := Vacating.start hm hi hp
    exact ⟨hcap, hcount, hmax, hprobed, hheld, hfree, hiu, hu⟩
  obtain ⟨m', hrun, hrem⟩ := run_scan (prev_lt hu) Prod.snd
    (Shifting hash m (held m.capacity (Function.update m.cell i none)) u) (Removed hash m _)
    (fun s hs => hs.probed.order.lt)
    (fun s hs hpos => hs.vacating.close (Or.inl (by
      rw [hpos, next_prev hu]
      exact (s.1.cell_eq_none_iff u).mp hs.free)))
    (fun s hs _ => by
      by_cases hend : (s.1.buckets (next m.capacity s.2)).isUsed = false ∨
          (s.1.buckets (next m.capacity s.2)).probeLength = 0
      · exact Or.inl (hs.vacating.close hend)
      · push Not at hend
        exact Or.inr (hs.move hpow (by simpa using hend.1) hend.2))
    hfuel hstart
  exact ⟨m', _, hrun, hrem, held_update_none hi hp⟩

end Shift

/-! ## Insertion -/

section Insert

variable {hash : K → UInt64}

variable {m : StaticHashMap K V} (hpow : ∃ e < 32, m.capacity = 2 ^ e)

/-- The pair in hand. -/
def AddLoop.pair (s : AddLoop K V) : K × V := (s.swapBucket.key, s.swapBucket.value)

variable (hash) in
/-- The insertion of an absent key: the pair in hand together with the slots is the
old map with the new pair, and the predecessor of `idx` supports the pair there. -/
structure Adding (m : StaticHashMap K V) (key : K) (value : V) (u : Nat) (s : AddLoop K V) :
    Prop where
  capacity : s.map.capacity = m.capacity
  count : s.map.count = m.count
  maxCount : s.map.maxCount = m.maxCount
  probed : Probed m.capacity (home hash m.capacity) s.map.cell s.map.probe
  used : s.swapBucket.isUsed = true
  probe : s.probeLength = disp m.capacity (home hash m.capacity) s.pair s.idx
  way : Between m.capacity (home hash m.capacity s.pair) u s.idx
  follows : Follows m.capacity (home hash m.capacity) s.map.cell s.idx s.probeLength
  held : s.pair ::ₘ held m.capacity s.map.cell = (key, value) ::ₘ m.entries
  free : s.map.cell u = none
  bound : u < m.capacity
  inserted : (s.insertedIdx = notFound ∧ s.swapBucket.key = key) ∨
    (s.insertedIdx < m.capacity ∧ dist m.capacity s.idx u < dist m.capacity s.insertedIdx u ∧
      (s.map.buckets s.insertedIdx).isUsed = true ∧ (s.map.buckets s.insertedIdx).key = key)

variable (hash) in
/-- What an insertion leaves. -/
structure Added (m : StaticHashMap K V) (key : K) (value : V)
    (r : StaticHashMapAddResult × StaticHashMap K V) : Prop where
  capacity : r.2.capacity = m.capacity
  maxCount : r.2.maxCount = m.maxCount
  count : r.2.count = m.count + 1
  shape : Shape hash r.2
  entries : r.2.entries = (key, value) ::ₘ m.entries
  notExist : r.1.doesExist = false
  notFull : r.1.isMapFull = false
  index : r.1.index < m.capacity ∧ (r.2.buckets r.1.index).isUsed = true ∧
    (r.2.buckets r.1.index).key = key

/-- Where the loop of `Add` starts. -/
def AddLoop.start (hash : K → UInt64) (m : StaticHashMap K V) (key : K) (value : V) :
    AddLoop K V where
  map := m
  swapBucket := { key := key, probeLength := 0, isUsed := true, value := value }
  insertedIdx := notFound
  probeLength := 0
  idx := hashAndMod hash key m.capacity

theorem Adding.start (hm : Shape hash m) {key : K}
    (hstart : hashAndMod hash key m.capacity < m.capacity) (value : V) {u : Nat}
    (hu : u < m.capacity) (hfree : m.cell u = none) :
    Adding hash m key value u (AddLoop.start hash m key value) :=
  ⟨rfl, rfl, rfl, hm, rfl, by simp [AddLoop.start, disp, home, AddLoop.pair],
    Between.start hstart, Or.inl rfl, rfl, hfree, hu, Or.inl ⟨rfl, rfl⟩⟩

/-- A write of the pair in hand at `idx`. -/
theorem cell_write {s : AddLoop K V} (hused : s.swapBucket.isUsed = true)
    (map : StaticHashMap K V) :
    (map.setBucket s.idx { s.swapBucket with probeLength := s.probeLength }).cell =
      Function.update map.cell s.idx (some s.pair) := by
  rw [StaticHashMap.cell_setBucket, cellOf]
  simp [hused, AddLoop.pair]

theorem notFound_ne {capacity : Nat} (hpow : ∃ e < 32, capacity = 2 ^ e) {i : Nat}
    (hi : i < capacity) : i ≠ notFound := by
  obtain ⟨e, he, rfl⟩ := hpow
  have hle : 2 ^ e ≤ 2 ^ 31 := Nat.pow_le_pow_right (by decide) (Nat.le_of_lt_succ he)
  unfold notFound
  omega

/-- The bucket in hand, as it is written into the table. -/
def AddLoop.written (s : AddLoop K V) : StaticHashMapBucket K V :=
  { s.swapBucket with probeLength := s.probeLength }

/-- The write keeps the stored probe lengths exact where the slots stay ordered. -/
theorem Adding.probed_write {key : K} {value : V} {u : Nat} {s : AddLoop K V}
    (h : Adding hash m key value u s) {map : StaticHashMap K V}
    (hbuckets : map.buckets = Function.update s.map.buckets s.idx s.written)
    (hordered : Ordered m.capacity (home hash m.capacity)
      (Function.update s.map.cell s.idx (some s.pair))) :
    Probed m.capacity (home hash m.capacity)
      (Function.update s.map.cell s.idx (some s.pair)) map.probe := by
  refine h.probed.write hordered ?_ ?_
  · rw [StaticHashMap.probe, hbuckets, Function.update_self]
    exact h.probe
  · intro j hj
    rw [StaticHashMap.probe, hbuckets, Function.update_of_ne hj]
    rfl

include hpow in
/-- After the write the recorded index is that of the new key's bucket, and no nearer to
`u` than the written bucket is. -/
theorem Adding.recorded {key : K} {value : V} {u : Nat} {s : AddLoop K V}
    (h : Adding hash m key value u s) {map : StaticHashMap K V}
    (hbuckets : map.buckets = Function.update s.map.buckets s.idx s.written) {i : Nat}
    (hi : i = if s.insertedIdx = notFound then s.idx else s.insertedIdx) :
    i < m.capacity ∧ dist m.capacity s.idx u ≤ dist m.capacity i u ∧
      (map.buckets i).isUsed = true ∧ (map.buckets i).key = key := by
  rcases h.inserted with ⟨hnot, hkey⟩ | ⟨hlt, hdist, hiused, hikey⟩
  · rw [hi, if_pos hnot, hbuckets, Function.update_self]
    exact ⟨h.way.lt, Nat.le_refl _, h.used, hkey⟩
  · have hne : s.insertedIdx ≠ s.idx := by intro heq; rw [heq] at hdist; omega
    rw [hi, if_neg (notFound_ne hpow hlt), hbuckets, Function.update_of_ne hne]
    exact ⟨hlt, hdist.le, hiused, hikey⟩

include hpow in
/-- The last turn: an unused bucket takes the pair in hand. -/
theorem Adding.place {key : K} {value : V} {u : Nat} {s : AddLoop K V}
    (h : Adding hash m key value u s) (hunused : (s.map.buckets s.idx).isUsed = false) :
    Added hash m key value s.place := by
  have hidx := h.way.lt
  have hcellNone := (s.map.cell_eq_none_iff s.idx).mpr hunused
  have hcell : s.place.2.cell = Function.update s.map.cell s.idx (some s.pair) :=
    cell_write h.used s.map
  have hbuckets : s.place.2.buckets = Function.update s.map.buckets s.idx s.written := rfl
  have hcapacity : s.place.2.capacity = m.capacity := h.capacity
  obtain ⟨hilt, -, hiused, hikey⟩ := h.recorded hpow hbuckets (i := s.place.1.index) rfl
  refine ⟨hcapacity, h.maxCount, by rw [← h.count]; rfl, ?_, ?_, rfl, rfl, hilt, hiused, hikey⟩
  · rw [Shape, hcapacity, hcell]
    exact h.probed_write hbuckets (h.probed.ordered.fill hidx hcellNone (h.probe ▸ h.follows))
  · rw [StaticHashMap.entries, hcapacity, hcell, held_update_some hidx hcellNone, h.held]

include hpow in
/-- A turn past a bucket whose entry is at least as far from home. -/
theorem Adding.pass {key : K} {value : V} {u : Nat} {s : AddLoop K V}
    (h : Adding hash m key value u s) (hne : s.idx ≠ u)
    (hused : (s.map.buckets s.idx).isUsed = true)
    (hle : s.probeLength ≤ (s.map.buckets s.idx).probeLength)
    (hprobe : u16 (s.probeLength + 1) = s.probeLength + 1) :
    Adding hash m key value u s.advance := by
  have hidx := h.way.lt
  have hhome : home hash m.capacity s.pair < m.capacity := home_lt hpow s.pair
  obtain ⟨q, hq⟩ : ∃ q, s.map.cell s.idx = some q := ⟨_, StaticHashMap.cell_of_used hused⟩
  obtain ⟨hway, hstep⟩ := h.way.next hhome h.bound hne
  have hcloser := dist_next_add_one hidx h.bound hne
  obtain ⟨hcap, hcount, hmax, hprobed, hsused, hpl, -, -, hheld, hfree, hu, hins⟩ := h
  refine ⟨hcap, hcount, hmax, hprobed, hsused, ?_, ?_, ?_, hheld, hfree, hu, ?_⟩
  · simp only [AddLoop.advance, hprobe, hcap]
    rw [hpl]
    exact hstep.symm
  · simp only [AddLoop.advance, hcap]
    exact hway
  · simp only [AddLoop.advance, hprobe, hcap]
    refine follows_next hq ?_
    rw [← hprobed.exact s.idx hidx q hq]
    exact hle
  · rcases hins with hnot | ⟨hlt, hdist, hrest⟩
    · exact Or.inl hnot
    · refine Or.inr ⟨hlt, ?_, hrest⟩
      simp only [AddLoop.advance, hcap]
      omega

include hpow in
/-- A turn that displaces an entry: it goes on as the pair in hand. -/
theorem Adding.displace {key : K} {value : V} {u : Nat} {s : AddLoop K V}
    (h : Adding hash m key value u s) (hne : s.idx ≠ u)
    (hused : (s.map.buckets s.idx).isUsed = true)
    (hlt : (s.map.buckets s.idx).probeLength < s.probeLength)
    (hprobe : u16 ((s.map.buckets s.idx).probeLength + 1) =
      (s.map.buckets s.idx).probeLength + 1) :
    Adding hash m key value u s.displace.advance := by
  have hidx := h.way.lt
  have hcap := h.capacity
  have hcloser := dist_next_add_one hidx h.bound hne
  -- `q` is the displaced pair; it is nearer to its home than the unused bucket is.
  generalize hqdef : ((s.map.buckets s.idx).key, (s.map.buckets s.idx).value) = q
  have hq : s.map.cell s.idx = some q := hqdef ▸ StaticHashMap.cell_of_used hused
  have hqpl : (s.map.buckets s.idx).probeLength = disp m.capacity (home hash m.capacity) q s.idx :=
    h.probed.exact s.idx hidx q hq
  have hhome : home hash m.capacity q < m.capacity := home_lt hpow q
  have hwayq : Between m.capacity (home hash m.capacity q) u s.idx :=
    ⟨hidx, (h.probed.ordered.disp_lt_free hidx h.bound hhome hq h.free).le⟩
  obtain ⟨hway, hstep⟩ := hwayq.next hhome h.bound hne
  -- The table with the pair in hand written over `q`.
  have hcell : s.displace.advance.map.cell = Function.update s.map.cell s.idx (some s.pair) :=
    cell_write h.used s.map
  have hbuckets : s.displace.advance.map.buckets =
      Function.update s.map.buckets s.idx s.written := rfl
  have hpair : s.displace.advance.pair = q := hqdef
  have hnext : s.displace.advance.idx = next m.capacity s.idx := by rw [← hcap]; rfl
  have hnextProbe : s.displace.advance.probeLength = (s.map.buckets s.idx).probeLength + 1 := hprobe
  have hidxPair : Function.update s.map.cell s.idx (some s.pair) s.idx = some s.pair :=
    Function.update_self ..
  have hqle : disp m.capacity (home hash m.capacity) q s.idx ≤
      disp m.capacity (home hash m.capacity) s.pair s.idx := by
    rw [← hqpl, ← h.probe]; exact hlt.le
  refine ⟨hcap, h.count, h.maxCount, ?_, hused, ?_, ?_, ?_, ?_, ?_, h.bound, ?_⟩
  · rw [hcell]
    exact h.probed_write hbuckets (h.probed.ordered.replace hq hqle (h.probe ▸ h.follows))
  · rw [hnextProbe, hpair, hnext, hqpl]
    exact hstep.symm
  · rw [hpair, hnext]
    exact hway
  · rw [hcell, hnext, hnextProbe, hqpl]
    exact follows_next hidxPair hqle
  · rw [hpair, hcell, held_swap hidx hq, h.held]
  · rw [hcell, Function.update_of_ne hne.symm, h.free]
  · right
    obtain ⟨hilt, hdist, hiused, hikey⟩ :=
      h.recorded hpow hbuckets (i := s.displace.advance.insertedIdx) rfl
    rw [hnext]
    exact ⟨hilt, by omega, hiused, hikey⟩

/-! ### Probe lengths and their 16 bits -/

/-- Every probe length of a used bucket is below 2^16. -/
def Narrow (m : StaticHashMap K V) : Prop :=
  ∀ i < m.capacity, (m.buckets i).isUsed = true → (m.buckets i).probeLength < 2 ^ 16

variable (hash) in
/-- An `Add` of the key comes, over used buckets only and after at least 2^16 - 1 of them, to
one with the largest probe length. -/
def Wraps (m : StaticHashMap K V) (key : K) : Prop :=
  ∃ i < m.capacity,
    (∀ j < m.capacity, dist m.capacity (hashAndMod hash key m.capacity) j ≤
      dist m.capacity (hashAndMod hash key m.capacity) i → (m.buckets j).isUsed = true) ∧
    (m.buckets i).probeLength = 2 ^ 16 - 1 ∧
    2 ^ 16 - 1 ≤ dist m.capacity (hashAndMod hash key m.capacity) i

/-- The loop of `Add` on its way from `start` to the unused bucket `u`: the buckets passed
were used, those ahead are as they were, and what is in hand is no further from its home than
the loop is from `start`. -/
structure Probing (m : StaticHashMap K V) (start u : Nat) (s : AddLoop K V) : Prop where
  capacity : s.map.capacity = m.capacity
  way : Between m.capacity start u s.idx
  passed : ∀ j < m.capacity, dist m.capacity start j < dist m.capacity start s.idx →
    (m.buckets j).isUsed = true
  ahead : ∀ j < m.capacity, dist m.capacity start s.idx ≤ dist m.capacity start j →
    s.map.buckets j = m.buckets j
  probe : s.probeLength ≤ dist m.capacity start s.idx
  small : s.probeLength < 2 ^ 16

theorem Probing.start {key : K} (hstart : hashAndMod hash key m.capacity < m.capacity) (value : V)
    (u : Nat) :
    Probing m (hashAndMod hash key m.capacity) u (AddLoop.start hash m key value) := by
  refine ⟨rfl, Between.start hstart, fun j _ hj => ?_, fun _ _ _ => rfl, Nat.zero_le _,
    Nat.two_pow_pos 16⟩
  rw [AddLoop.start, dist_self] at hj
  exact absurd hj (Nat.not_lt_zero _)

section Probing

variable {start u : Nat} {s : AddLoop K V} (h : Probing m start u s)

include h

theorem Probing.bucket : s.map.buckets s.idx = m.buckets s.idx :=
  h.ahead s.idx h.way.lt (Nat.le_refl _)

/-- One bucket further on, with a hand that has come no further than the one before. -/
theorem Probing.step (hstart : start < m.capacity) (hu : u < m.capacity) (hne : s.idx ≠ u)
    (hused : (s.map.buckets s.idx).isUsed = true) {t : AddLoop K V}
    (hcap : t.map.capacity = s.map.capacity) (hidx : t.idx = next s.map.capacity s.idx)
    (hmap : ∀ j, j ≠ s.idx → t.map.buckets j = s.map.buckets j) {p : Nat}
    (hp : p ≤ s.probeLength) (hprobe : t.probeLength = u16 (p + 1)) : Probing m start u t := by
  obtain ⟨hway, hstep⟩ := h.way.next hstart hu hne
  have hprobe_le : t.probeLength ≤ p + 1 := by
    rw [hprobe]
    exact Nat.mod_le _ _
  have hown := h.probe
  rw [h.capacity] at hidx
  refine ⟨hcap.trans h.capacity, hidx ▸ hway, ?_, ?_, ?_, ?_⟩
  · intro j hj hlt
    rw [hidx, hstep] at hlt
    rcases Nat.lt_or_eq_of_le (Nat.le_of_lt_succ hlt) with hbefore | hat
    · exact h.passed j hj hbefore
    · rw [dist_injective hstart hj h.way.lt hat, ← h.bucket]
      exact hused
  · intro j hj hle
    rw [hidx, hstep] at hle
    have hji : j ≠ s.idx := by
      rintro rfl
      omega
    rw [hmap j hji]
    exact h.ahead j hj (by omega)
  · rw [hidx, hstep]
    omega
  · rw [hprobe]
    exact Nat.mod_lt _ (by decide)

theorem Probing.advance (hstart : start < m.capacity) (hu : u < m.capacity) (hne : s.idx ≠ u)
    (hused : (s.map.buckets s.idx).isUsed = true) : Probing m start u s.advance :=
  h.step hstart hu hne hused rfl rfl (fun _ _ => rfl) (Nat.le_refl _) rfl

theorem Probing.displace (hstart : start < m.capacity) (hu : u < m.capacity) (hne : s.idx ≠ u)
    (hused : (s.map.buckets s.idx).isUsed = true)
    (hlt : (s.map.buckets s.idx).probeLength < s.probeLength) :
    Probing m start u s.displace.advance :=
  h.step hstart hu hne hused rfl rfl (fun _ hj => Function.update_of_ne hj _ _) hlt.le rfl

/-- The hand that goes on past a bucket has room for one more step, unless the key wraps. -/
theorem Probing.room {key : K} (hstart : start < m.capacity)
    (hhome : hashAndMod hash key m.capacity = start) (hnarrow : Narrow m)
    (hwraps : ¬ Wraps hash m key) (hused : (s.map.buckets s.idx).isUsed = true)
    (hle : s.probeLength ≤ (s.map.buckets s.idx).probeLength) :
    u16 (s.probeLength + 1) = s.probeLength + 1 := by
  rw [h.bucket] at hused hle
  have hbucket := hnarrow s.idx h.way.lt hused
  have hown := h.probe
  apply u16_eq
  by_contra hfull
  subst hhome
  refine hwraps ⟨s.idx, h.way.lt, ?_, by omega, by omega⟩
  intro j hj hdist
  rcases Nat.lt_or_eq_of_le hdist with hbefore | hat
  · exact h.passed j hj hbefore
  · rw [dist_injective hstart hj h.way.lt hat]
    exact hused

end Probing

section Small

variable (hcap : m.capacity ≤ 2 ^ 16)

include hcap

/-- In up to 2^16 buckets no entry is further from home than 16 bits can say. -/
theorem Shape.narrow (hm : Shape hash m) (hpow : ∃ e < 32, m.capacity = 2 ^ e) : Narrow m := by
  intro i hi hused
  have hp := StaticHashMap.cell_of_used hused
  have hexact : (m.buckets i).probeLength = disp m.capacity (home hash m.capacity) _ i :=
    hm.exact i hi _ hp
  rw [hexact]
  exact Nat.lt_of_lt_of_le (dist_lt (home_lt hpow _) hi) hcap

/-- In up to 2^16 buckets a way that long leads over all buckets. -/
theorem not_wraps_of_le {u : Nat} (hu : u < m.capacity) (hfree : m.cell u = none)
    (hpow : ∃ e < 32, m.capacity = 2 ^ e) (key : K) : ¬ Wraps hash m key := by
  rintro ⟨i, hi, hway, -, hlong⟩
  have hstart : hashAndMod hash key m.capacity < m.capacity := hashAndMod_lt hpow key
  have hdist := dist_lt hstart hu
  rw [StaticHashMap.cell_eq_none_iff, hway u hu (by omega)] at hfree
  cases hfree

end Small

variable [BEq K]

theorem addTurn_place {s : AddLoop K V} (h : (s.map.buckets s.idx).isUsed = false) :
    addTurn s = .done s.place := by
  simp [addTurn, h]

theorem addTurn_exists {s : AddLoop K V} (hused : (s.map.buckets s.idx).isUsed = true)
    (hk : ((s.map.buckets s.idx).key == s.swapBucket.key) = true) :
    addTurn s = .done (⟨s.idx, true, false⟩, s.map) := by
  simp [addTurn, hused, hk]

theorem addTurn_pass {s : AddLoop K V} (hused : (s.map.buckets s.idx).isUsed = true)
    (hk : ((s.map.buckets s.idx).key == s.swapBucket.key) = false)
    (hle : s.probeLength ≤ (s.map.buckets s.idx).probeLength) :
    addTurn s = .again s.advance := by
  simp [addTurn, hused, hk, Nat.not_lt.mpr hle]

theorem addTurn_displace {s : AddLoop K V} (hused : (s.map.buckets s.idx).isUsed = true)
    (hk : ((s.map.buckets s.idx).key == s.swapBucket.key) = false)
    (hlt : (s.map.buckets s.idx).probeLength < s.probeLength) :
    addTurn s = .again s.displace.advance := by
  simp [addTurn, hused, hk, hlt]

include hpow in
/-- Adding a key that is held stops at its bucket before anything is displaced. -/
theorem add_held [EquivBEq K] (hhash : ∀ a b : K, (a == b) = true → hash a = hash b)
    (hm : Shape hash m) (hd : DistinctKeys m.entries) (hroom : m.count ≠ m.maxCount)
    {key : K} (value : V) {j : Nat} {p : K × V} (hj : j < m.capacity) (hp : m.cell j = some p)
    (hk : (p.1 == key) = true) (hsmall : m.probe j < 2 ^ 16) {fuel : Nat}
    (hfuel : m.capacity ≤ fuel) :
    add hash fuel m key value = some (⟨j, true, false⟩, m) := by
  have hhome := home_eq hhash hk m.capacity
  have hstart : hashAndMod hash key m.capacity < m.capacity := hashAndMod_lt hpow key
  have hpass := fun i => hm.passes hpow hj hp (j := i)
  obtain ⟨-, hjkey, -⟩ := (m.cell_eq_some_iff j p).mp hp
  rw [hm.exact j hj p hp, disp, hhome] at hsmall
  rw [add, if_neg hroom]
  rw [hhome] at hpass
  generalize hashAndMod hash key m.capacity = start at hstart hpass hsmall
  refine run_scan_eq hj AddLoop.idx
    (fun s => s.map = m ∧ s.swapBucket.key = key ∧ Between m.capacity start j s.idx ∧
      s.probeLength = dist m.capacity start s.idx)
    ((⟨j, true, false⟩ : StaticHashMapAddResult), m) (fun s hs => hs.2.2.1.lt) ?_ ?_ hfuel
    ⟨rfl, rfl, Between.start hstart, by simp⟩
  · rintro s ⟨hmap, hkey, hb, hpl⟩ hsj
    obtain ⟨hused, -⟩ := hpass s.idx hb
    rw [addTurn_exists (by rw [hmap]; exact hused) (by rw [hmap, hkey, hsj, hjkey]; exact hk),
      hmap, hsj]
  · rintro s ⟨hmap, hkey, hb, hpl⟩ hsj
    obtain ⟨hused, hle⟩ := hpass s.idx hb
    have hne := key_ne_of_slot_ne hd hb.lt hj hp hk hused hsj
    obtain ⟨hb', hstep⟩ := hb.next hstart hj hsj
    refine Or.inr ⟨_, addTurn_pass (by rw [hmap]; exact hused) (by rw [hmap, hkey]; exact hne)
      (by rw [hmap, hpl]; exact hle), by rw [AddLoop.advance, hmap], hmap, hkey, ?_, ?_⟩
    · simp only [AddLoop.advance, hmap]
      exact hb'
    · simp only [AddLoop.advance, hmap, hpl]
      rw [← hstep, u16_eq (Nat.lt_of_le_of_lt hb'.le hsmall)]

/-- The key in hand is in no bucket. -/
theorem hand_key_ne [EquivBEq K] {key : K} {value : V} {s : AddLoop K V}
    (hheld : s.pair ::ₘ held m.capacity s.map.cell = (key, value) ::ₘ m.entries)
    (hd : DistinctKeys ((key, value) ::ₘ m.entries)) (hlt : s.idx < m.capacity)
    (hused : (s.map.buckets s.idx).isUsed = true) :
    ((s.map.buckets s.idx).key == s.swapBucket.key) = false := by
  obtain ⟨rest, hrest⟩ := Multiset.exists_cons_of_mem
    (mem_held.mpr ⟨s.idx, hlt, StaticHashMap.cell_of_used hused⟩)
  have hfalse := hd s.pair _ rest (by rw [← hheld, hrest])
  rw [BEq.comm]
  exact hfalse

include hpow in
/-- Adding an absent key to a map with an unused bucket inserts it. -/
theorem add_absent [EquivBEq K] (hm : Shape hash m) (hd : DistinctKeys m.entries)
    (hroom : m.count ≠ m.maxCount) {u : Nat} (hu : u < m.capacity) (hfree : m.cell u = none)
    {key : K} (value : V) (habs : ¬ HasKey m.entries key) (hnarrow : Narrow m)
    (hwraps : ¬ Wraps hash m key) {fuel : Nat} (hfuel : m.capacity ≤ fuel) :
    ∃ r, add hash fuel m key value = some r ∧ Added hash m key value r := by
  have hstart : hashAndMod hash key m.capacity < m.capacity := hashAndMod_lt hpow key
  have hdist : DistinctKeys ((key, value) ::ₘ m.entries) := hd.cons habs
  rw [add, if_neg hroom]
  show ∃ r, Loop.run addTurn fuel (AddLoop.start hash m key value) = some r ∧ _
  refine run_scan hu AddLoop.idx
    (fun s => Adding hash m key value u s ∧ Probing m (hashAndMod hash key m.capacity) u s)
    (Added hash m key value) (fun s hs => hs.1.way.lt) ?_ ?_ hfuel
    ⟨Adding.start hm hstart value hu hfree, Probing.start hstart value u⟩
  · rintro s ⟨hs, -⟩ hsu
    have hunused := (s.map.cell_eq_none_iff s.idx).mp (hsu ▸ hs.free)
    exact ⟨_, addTurn_place hunused, hs.place hpow hunused⟩
  · rintro s ⟨hs, hpr⟩ hsu
    cases hused : (s.map.buckets s.idx).isUsed with
    | false => exact Or.inl ⟨_, addTurn_place hused, hs.place hpow hused⟩
    | true =>
      right
      have hk := hand_key_ne hs.held hdist hs.way.lt hused
      by_cases hle : s.probeLength ≤ (s.map.buckets s.idx).probeLength
      · have hroom := hpr.room hstart rfl hnarrow hwraps hused hle
        exact ⟨_, addTurn_pass hused hk hle, by rw [AddLoop.advance, hs.capacity],
          hs.pass hpow hsu hused hle hroom, hpr.advance hstart hu hsu hused⟩
      · have hlt := Nat.lt_of_not_le hle
        have hroom := u16_eq (Nat.lt_of_le_of_lt (Nat.succ_le_of_lt hlt) hpr.small)
        refine ⟨_, addTurn_displace hused hk hlt, ?_, hs.displace hpow hsu hused hlt hroom,
          hpr.displace hstart hu hsu hused hlt⟩
        show next s.map.capacity s.idx = next m.capacity s.idx
        rw [hs.capacity]

end Insert

end ScalBase.HashMaps
