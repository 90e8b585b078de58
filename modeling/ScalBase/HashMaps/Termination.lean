/-
  HashMaps/Termination.lean --- when `Remove` ends.

  In every table that `Add` and `Remove` reach from unused buckets, `Count` is the
  number of used buckets and at most `Capacity` (`Counted`).  Nothing else is needed
  here, neither a lawful `==` nor true probe lengths.

  The shift always ends, as each turn takes one off the probe lengths outside the
  bucket to be vacated.  The search ends at an unused bucket or at an equal key, so it
  goes round for ever in a full table without that key (`remove_returns_iff`).
-/
import ScalBase.HashMaps.Refinement

set_option autoImplicit false

namespace ScalBase.HashMaps

open Foundation Foundation.Cyclic Foundation.Slots

variable {K V : Type*} {hash : K → UInt64} {m : StaticHashMap K V} {fuel : Nat}

/-! ## Counting used buckets -/

namespace StaticHashMap

variable {i : Nat} {b : StaticHashMapBucket K V}

theorem isUsed_store {j : Nat} (hb : b.isUsed = true) :
    ((m.setBucket i b).buckets j).isUsed = true ↔ j = i ∨ (m.buckets j).isUsed = true := by
  rw [setBucket_buckets]
  by_cases heq : j = i
  · rw [heq, Function.update_self]
    exact iff_of_true hb (Or.inl rfl)
  · rw [Function.update_of_ne heq, or_iff_right heq]

/-- A used bucket is stored over. -/
theorem card_store (hi : i < m.capacity) (hold : (m.buckets i).isUsed = true)
    (hb : b.isUsed = true) : (m.setBucket i b).entries.card = m.entries.card := by
  have hcell : cellOf b = some (b.key, b.value) := if_pos hb
  have hswap := held_swap hi (cell_of_used hold) (e := (b.key, b.value))
  rw [← hcell, ← m.cell_setBucket] at hswap
  have hcard := congrArg Multiset.card hswap
  rw [Multiset.card_cons, Multiset.card_cons] at hcard
  exact Nat.succ.inj hcard

/-- A bucket goes into an unused one. -/
theorem card_fill (hi : i < m.capacity) (hold : (m.buckets i).isUsed = false)
    (hb : b.isUsed = true) : (m.setBucket i b).entries.card = m.entries.card + 1 := by
  have hcell : cellOf b = some (b.key, b.value) := if_pos hb
  rw [entries, cell_setBucket, hcell, setBucket_capacity,
    held_update_some hi ((m.cell_eq_none_iff i).mpr hold), Multiset.card_cons]
  rfl

/-- A used bucket is vacated. -/
theorem card_vacate (hi : i < m.capacity) (hold : (m.buckets i).isUsed = true) :
    (m.vacate i).entries.card + 1 = m.entries.card := by
  have hcell := cell_of_used hold
  rw [entries, cell_vacate, entries, held_update_none hi hcell, Multiset.card_cons]
  rfl

/-- There are fewer used buckets than buckets exactly when one is unused. -/
theorem usedCount_lt_iff :
    m.usedCount < m.capacity ↔ ∃ u < m.capacity, (m.buckets u).isUsed = false := by
  have hlt := @List.length_filter_lt_length_iff_exists Nat (fun i => (m.buckets i).isUsed)
    (List.range m.capacity)
  rw [List.length_range] at hlt
  rw [usedCount, hlt]
  simp

end StaticHashMap

/-- `Count` is the number of used buckets, and `MaxCount` keeps it within `Capacity`. -/
structure Counted (m : StaticHashMap K V) : Prop where
  capacity : m.capacity = 0 ∨ ∃ e < 32, m.capacity = 2 ^ e
  count : m.count = m.entries.card
  full : m.count ≤ m.maxCount
  bound : m.maxCount ≤ m.capacity

theorem Counted.hashAndMod_lt (h : Counted m) (hpos : m.capacity ≠ 0) (key : K) :
    hashAndMod hash key m.capacity < m.capacity := by
  rcases h.capacity with hzero | ⟨e, he, hpow⟩
  · exact absurd hzero hpos
  · rw [hpow]
    exact fastModulo_lt he

theorem Counted.usedCount_eq (h : Counted m) : m.usedCount = m.count := by
  rw [h.count, m.card_entries]

theorem counted_init {memory : Nat → StaticHashMapBucket K V} {capacity : Nat} {loadFactor : ℚ}
    (hcapacity : capacity < 2 ^ 32) (hload : loadFactor ≤ 1)
    (hunused : ∀ i < initCapacity capacity, (memory i).isUsed = false) :
    Counted (init memory capacity loadFactor) := by
  have hempty : (init memory capacity loadFactor).entries = 0 := by
    apply held_eq_zero
    intro i hi
    exact (StaticHashMap.cell_eq_none_iff _ i).mpr (hunused i hi)
  refine ⟨?_, by rw [hempty]; rfl, Nat.zero_le _, ?_⟩
  · rcases roundUp32_spec hcapacity with hzero | ⟨e, he, hpow, -⟩
    · exact Or.inl hzero
    · exact Or.inr ⟨e, he, hpow⟩
  · show ⌊(initCapacity capacity : ℚ) * loadFactor⌋₊ ≤ initCapacity capacity
    apply Nat.floor_le_of_le
    exact mul_le_of_le_one_right (Nat.cast_nonneg _) hload

/-! ## Add -/

/-- The loop of `Add` stores used buckets over used ones. -/
structure AddCounts (m : StaticHashMap K V) (s : AddLoop K V) : Prop where
  capacity : s.map.capacity = m.capacity
  maxCount : s.map.maxCount = m.maxCount
  count : s.map.count = m.count
  card : s.map.entries.card = m.entries.card
  used : s.swapBucket.isUsed = true
  lt : s.idx < m.capacity

theorem AddCounts.advance {s : AddLoop K V} (h : AddCounts m s) : AddCounts m s.advance := by
  refine ⟨h.capacity, h.maxCount, h.count, h.card, h.used, ?_⟩
  rw [AddLoop.advance, h.capacity]
  exact next_lt h.lt

theorem AddCounts.displace {s : AddLoop K V} (h : AddCounts m s)
    (hused : (s.map.buckets s.idx).isUsed = true) : AddCounts m s.displace := by
  refine ⟨h.capacity, h.maxCount, h.count, ?_, hused, h.lt⟩
  have hcard := StaticHashMap.card_store (b := { s.swapBucket with probeLength := s.probeLength })
    (show s.idx < s.map.capacity by rw [h.capacity]; exact h.lt) hused h.used
  exact hcard.trans h.card

theorem AddCounts.place {s : AddLoop K V} (h : AddCounts m s) (hm : Counted m)
    (hroom : m.count < m.maxCount) (hunused : (s.map.buckets s.idx).isUsed = false) :
    Counted s.place.2 := by
  have hcard := StaticHashMap.card_fill (b := { s.swapBucket with probeLength := s.probeLength })
    (show s.idx < s.map.capacity by rw [h.capacity]; exact h.lt) hunused h.used
  have hcapacity : s.place.2.capacity = m.capacity := h.capacity
  have hmax : s.place.2.maxCount = m.maxCount := h.maxCount
  have hcount : s.place.2.count = m.count + 1 := congrArg (· + 1) h.count
  refine ⟨by rw [hcapacity]; exact hm.capacity, ?_, by rw [hcount, hmax]; exact hroom,
    by rw [hmax, hcapacity]; exact hm.bound⟩
  rw [hcount, hm.count, ← h.card]
  exact hcard.symm

/-! ## The shift -/

/-- The loop that moves entries back stores used buckets over used ones. -/
structure ShiftCounts (m : StaticHashMap K V) (s : StaticHashMap K V × Nat) : Prop where
  capacity : s.1.capacity = m.capacity
  maxCount : s.1.maxCount = m.maxCount
  count : s.1.count = m.count
  card : s.1.entries.card = m.entries.card
  used : (s.1.buckets s.2).isUsed = true
  lt : s.2 < m.capacity

/-- A turn ends with the last bucket vacated, or goes on at the next one. -/
theorem shiftTurn_cases (s : StaticHashMap K V × Nat) :
    shiftTurn s = .done { s.1.vacate s.2 with count := s.1.count - 1 } ∨
      (s.1.buckets (next s.1.capacity s.2)).isUsed = true ∧
        (s.1.buckets (next s.1.capacity s.2)).probeLength ≠ 0 ∧
        shiftTurn s =
          .again (s.1.moveBack (next s.1.capacity s.2) s.2, next s.1.capacity s.2) := by
  by_cases hend : (s.1.buckets (next s.1.capacity s.2)).isUsed = false ∨
      (s.1.buckets (next s.1.capacity s.2)).probeLength = 0
  · left
    rw [shiftTurn, if_pos hend]
  · right
    rw [not_or] at hend
    refine ⟨Bool.eq_true_of_not_eq_false hend.1, hend.2, ?_⟩
    rw [shiftTurn, if_neg (not_or.mpr hend)]

theorem ShiftCounts.move {s : StaticHashMap K V × Nat} (h : ShiftCounts m s)
    (hused : (s.1.buckets (next s.1.capacity s.2)).isUsed = true) :
    ShiftCounts m (s.1.moveBack (next s.1.capacity s.2) s.2, next s.1.capacity s.2) := by
  have hlt : s.2 < s.1.capacity := by rw [h.capacity]; exact h.lt
  let b : StaticHashMapBucket K V :=
    { s.1.buckets (next s.1.capacity s.2) with
      probeLength := (s.1.buckets (next s.1.capacity s.2)).probeLength - 1 }
  have hb : b.isUsed = true := hused
  have hfirst := StaticHashMap.card_store (b := b) (next_lt hlt) hused hb
  have hlast : ((s.1.setBucket (next s.1.capacity s.2) b).buckets s.2).isUsed = true :=
    (StaticHashMap.isUsed_store hb).mpr (Or.inr h.used)
  have hsecond := StaticHashMap.card_store (b := b)
    (show s.2 < (s.1.setBucket (next s.1.capacity s.2) b).capacity from hlt) hlast hb
  refine ⟨h.capacity, h.maxCount, h.count, (hsecond.trans hfirst).trans h.card, ?_, ?_⟩
  · exact (StaticHashMap.isUsed_store hb).mpr
      (Or.inr ((StaticHashMap.isUsed_store hb).mpr (Or.inl rfl)))
  · show next s.1.capacity s.2 < m.capacity
    rw [← h.capacity]
    exact next_lt hlt

/-- The last bucket is vacated, and the count is one less. -/
theorem ShiftCounts.close {s : StaticHashMap K V × Nat} (h : ShiftCounts m s) (hm : Counted m) :
    Counted { s.1.vacate s.2 with count := s.1.count - 1 } := by
  have hcard := StaticHashMap.card_vacate
    (show s.2 < s.1.capacity by rw [h.capacity]; exact h.lt) h.used
  have hcapacity : (s.1.vacate s.2).capacity = m.capacity := h.capacity
  have hmax : (s.1.vacate s.2).maxCount = m.maxCount := h.maxCount
  have hcount := h.count
  have hold := h.card
  have hmcount := hm.count
  have hfull := hm.full
  have hbound := hm.bound
  refine ⟨by rw [hcapacity]; exact hm.capacity, ?_, ?_, ?_⟩
  · show s.1.count - 1 = (s.1.vacate s.2).entries.card
    omega
  · show s.1.count - 1 ≤ (s.1.vacate s.2).maxCount
    omega
  · show (s.1.vacate s.2).maxCount ≤ (s.1.vacate s.2).capacity
    omega

/-- The shift keeps the count. -/
theorem Counted.after_shift (hm : Counted m) {i : Nat} (hi : i < m.capacity)
    (hused : (m.buckets i).isUsed = true) {m' : StaticHashMap K V}
    (hrun : Loop.run shiftTurn fuel (m, i) = some m') : Counted m' := by
  refine Loop.run_result (ShiftCounts m) Counted ?_ ⟨rfl, rfl, rfl, rfl, hused, hi⟩ hrun
  intro s hs
  rcases shiftTurn_cases s with hdone | ⟨hnext, -, hagain⟩
  · exact Or.inl ⟨_, hdone, hs.close hm⟩
  · exact Or.inr ⟨_, hagain, hs.move hnext⟩

/-- What the shift takes one off in each turn: the probe lengths outside the bucket that
is to be vacated, or that of the only bucket. -/
def shiftMeasure (n : Nat) (s : StaticHashMap K V × Nat) : Nat :=
  if n = 1 then s.1.probe s.2 else ∑ k ∈ (Finset.range n).erase s.2, s.1.probe k

theorem shiftMeasure_le {n : Nat} {s : StaticHashMap K V × Nat} (hlt : s.2 < n) :
    shiftMeasure n s ≤ ∑ k ∈ Finset.range n, s.1.probe k := by
  unfold shiftMeasure
  split_ifs
  · exact Finset.single_le_sum (fun _ _ => Nat.zero_le _) (Finset.mem_range.mpr hlt)
  · apply Finset.sum_le_sum_of_subset
    exact Finset.erase_subset s.2 (Finset.range n)

theorem StaticHashMap.probe_moveBack (m : StaticHashMap K V) (i j k : Nat) :
    (m.moveBack i j).probe k = if k = j ∨ k = i then m.probe i - 1 else m.probe k := by
  unfold StaticHashMap.probe StaticHashMap.moveBack
  simp only [setBucket_buckets]
  by_cases hj : k = j
  · rw [if_pos (Or.inl hj), hj, Function.update_self]
  · rw [Function.update_of_ne hj]
    by_cases hi : k = i
    · rw [if_pos (Or.inr hi), hi, Function.update_self]
    · rw [if_neg (not_or.mpr ⟨hj, hi⟩), Function.update_of_ne hi]

/-- A turn that moves an entry makes the measure smaller. -/
theorem shiftMeasure_move {n : Nat} {s : StaticHashMap K V × Nat} (hlt : s.2 < n)
    (hpos : s.1.probe (next n s.2) ≠ 0) :
    shiftMeasure n (s.1.moveBack (next n s.2) s.2, next n s.2) < shiftMeasure n s := by
  have hnext := next_lt hlt
  unfold shiftMeasure
  split_ifs with hone
  · have heq : next n s.2 = s.2 := by omega
    rw [s.1.probe_moveBack, if_pos (Or.inr rfl), heq]
    rw [heq] at hpos
    omega
  · have hne : next n s.2 ≠ s.2 := next_ne_self (by omega)
    -- The entry moved is counted at its new place instead of its old one.
    have hnew : s.2 ∈ (Finset.range n).erase (next n s.2) :=
      Finset.mem_erase.mpr ⟨hne.symm, Finset.mem_range.mpr hlt⟩
    have hold : next n s.2 ∈ (Finset.range n).erase s.2 :=
      Finset.mem_erase.mpr ⟨hne, Finset.mem_range.mpr hnext⟩
    have hrest : ∑ k ∈ ((Finset.range n).erase (next n s.2)).erase s.2,
          (s.1.moveBack (next n s.2) s.2).probe k =
        ∑ k ∈ ((Finset.range n).erase s.2).erase (next n s.2), s.1.probe k := by
      rw [Finset.erase_right_comm]
      apply Finset.sum_congr rfl
      intro k hk
      rw [Finset.mem_erase, Finset.mem_erase] at hk
      rw [s.1.probe_moveBack, if_neg (not_or.mpr ⟨hk.2.1, hk.1⟩)]
    rw [← Finset.add_sum_erase _ _ hnew, ← Finset.add_sum_erase _ _ hold, hrest,
      s.1.probe_moveBack, if_pos (Or.inl rfl)]
    omega

/-- The shift ends. -/
theorem shift_ends {i : Nat} (hi : i < m.capacity)
    (hfuel : ∑ k ∈ Finset.range m.capacity, m.probe k < fuel) :
    ∃ m', Loop.run shiftTurn fuel (m, i) = some m' := by
  let I : StaticHashMap K V × Nat → Prop := fun s => s.1.capacity = m.capacity ∧ s.2 < m.capacity
  have hturn : ∀ s, I s → (∃ r, shiftTurn s = .done r ∧ True) ∨
      ∃ s', shiftTurn s = .again s' ∧ I s' ∧
        shiftMeasure m.capacity s' < shiftMeasure m.capacity s := by
    rintro s ⟨hcapacity, hlt⟩
    rcases shiftTurn_cases s with hdone | ⟨-, hpos, hagain⟩
    · exact Or.inl ⟨_, hdone, trivial⟩
    · rw [hcapacity] at hpos hagain
      exact Or.inr ⟨_, hagain, ⟨hcapacity, next_lt hlt⟩, shiftMeasure_move hlt hpos⟩
  obtain ⟨m', hrun, -⟩ := Loop.run_total I (shiftMeasure m.capacity) (fun _ => True) hturn
    (show I (m, i) from ⟨rfl, hi⟩) (Nat.lt_of_le_of_lt (shiftMeasure_le hi) hfuel)
  exact ⟨m', hrun⟩

variable [BEq K]

/-- `Add` keeps the count. -/
theorem Counted.after_add (hm : Counted m) {key : K} {value : V}
    {r : StaticHashMapAddResult × StaticHashMap K V} (hr : add hash fuel m key value = some r) :
    Counted r.2 := by
  unfold HashMaps.add at hr
  split_ifs at hr with hfull
  · cases hr
    exact hm
  · have hroom : m.count < m.maxCount := Nat.lt_of_le_of_ne hm.full hfull
    have hbound := hm.bound
    refine Loop.run_result (AddCounts m) (fun r => Counted r.2) ?_ ?_ hr
    · intro s hs
      unfold addTurn
      simp only
      split_ifs with hunused hkey hswap
      · exact Or.inl ⟨_, rfl, hs.place hm hroom hunused⟩
      · exact Or.inl ⟨_, rfl, by rw [hs.capacity]; exact hm.capacity,
          by rw [hs.count, hs.card]; exact hm.count, by rw [hs.count, hs.maxCount]; exact hm.full,
          by rw [hs.maxCount, hs.capacity]; exact hm.bound⟩
      · exact Or.inr ⟨_, rfl, (hs.displace (Bool.eq_true_of_not_eq_false hunused)).advance⟩
      · exact Or.inr ⟨_, rfl, hs.advance⟩
    · exact ⟨rfl, rfl, rfl, rfl, rfl, hm.hashAndMod_lt (by omega) key⟩

/-! ## Remove -/

/-- The search of `Remove` ends at the bucket. -/
def StopsAt (m : StaticHashMap K V) (key : K) (i : Nat) : Prop :=
  (m.buckets i).isUsed = false ∨ (key == (m.buckets i).key) = true

theorem removeTurn_stops {key : K} {i : Nat} (h : StopsAt m key i) :
    removeTurn m key i = .done none ∨
      removeTurn m key i = .done (some i) ∧ (m.buckets i).isUsed = true := by
  cases hused : (m.buckets i).isUsed with
  | false => exact Or.inl (removeTurn_null hused)
  | true =>
    have hkey : (key == (m.buckets i).key) = true :=
      h.resolve_left (by rw [hused]; exact Bool.noConfusion)
    exact Or.inr ⟨removeTurn_found hused hkey, rfl⟩

theorem removeTurn_goes_on {key : K} {i : Nat} (h : ¬ StopsAt m key i) :
    removeTurn m key i = .again (next m.capacity i) := by
  rw [StopsAt, not_or] at h
  exact removeTurn_pass (Bool.eq_true_of_not_eq_false h.1) (Bool.eq_false_of_not_eq_true h.2)

/-- A bucket that the search has found is used. -/
theorem removeSearch_found {key : K} {start : Nat} (hstart : start < m.capacity) {r : Option Nat}
    (hrun : Loop.run (removeTurn m key) fuel start = some r) :
    ∀ i ∈ r, i < m.capacity ∧ (m.buckets i).isUsed = true := by
  refine Loop.run_result (fun i => i < m.capacity)
    (fun r => ∀ i ∈ r, i < m.capacity ∧ (m.buckets i).isUsed = true) ?_ hstart hrun
  intro i hi
  by_cases hstop : StopsAt m key i
  · left
    rcases removeTurn_stops hstop with hdone | ⟨hdone, hused⟩
    · exact ⟨_, hdone, fun j hj => by cases hj⟩
    · refine ⟨_, hdone, fun j hj => ?_⟩
      cases hj
      exact ⟨hi, hused⟩
  · exact Or.inr ⟨_, removeTurn_goes_on hstop, next_lt hi⟩

/-- The search ends when some bucket stops it. -/
theorem removeSearch_ends {key : K} {start j : Nat} (hstart : start < m.capacity)
    (hj : j < m.capacity) (hstop : StopsAt m key j) (hfuel : m.capacity ≤ fuel) :
    ∃ r, Loop.run (removeTurn m key) fuel start = some r := by
  have hdone : ∀ {i}, StopsAt m key i → ∃ r, removeTurn m key i = .done r ∧ True := fun h =>
    (removeTurn_stops h).elim (fun hd => ⟨_, hd, trivial⟩) fun hd => ⟨_, hd.1, trivial⟩
  have hpass : ∀ i, i < m.capacity → id i ≠ j → (∃ r, removeTurn m key i = .done r ∧ True) ∨
      ∃ i', removeTurn m key i = .again i' ∧ id i' = next m.capacity (id i) ∧ i' < m.capacity := by
    intro i hi _
    by_cases hi' : StopsAt m key i
    · exact Or.inl (hdone hi')
    · exact Or.inr ⟨_, removeTurn_goes_on hi', rfl, next_lt hi⟩
  obtain ⟨r, hrun, -⟩ := run_scan hj id (fun i => i < m.capacity) (fun _ => True) (fun _ hi => hi)
    (fun i _ (heq : i = j) => hdone (heq ▸ hstop)) hpass hfuel hstart
  exact ⟨r, hrun⟩

/-- The search goes round for ever when no bucket stops it. -/
theorem removeSearch_goes_on {key : K} {start : Nat} (hstart : start < m.capacity)
    (hall : ∀ i < m.capacity, ¬ StopsAt m key i) :
    Loop.run (removeTurn m key) fuel start = none := by
  cases hrun : Loop.run (removeTurn m key) fuel start with
  | none => rfl
  | some r =>
    refine False.elim (Loop.run_result (fun i => i < m.capacity) (fun _ => False) ?_ hstart hrun)
    exact fun i hi => Or.inr ⟨_, removeTurn_goes_on (hall i hi), next_lt hi⟩

/-- `Remove` keeps the count. -/
theorem Counted.after_remove (hm : Counted m) {key : K} {r : Bool × StaticHashMap K V}
    (hr : remove hash fuel m key = some r) : Counted r.2 := by
  unfold HashMaps.remove at hr
  split_ifs at hr with hempty
  · cases hr
    exact hm
  · have hfull := hm.full
    have hbound := hm.bound
    have hstart : hashAndMod hash key m.capacity < m.capacity := hm.hashAndMod_lt (by omega) key
    cases hsearch : Loop.run (removeTurn m key) fuel (hashAndMod hash key m.capacity) with
    | none => simp [hsearch] at hr
    | some o =>
      cases o with
      | none =>
        simp only [hsearch] at hr
        cases hr
        exact hm
      | some i =>
        simp only [hsearch] at hr
        obtain ⟨m', hrun, rfl⟩ := Option.map_eq_some_iff.mp hr
        obtain ⟨hi, hused⟩ := removeSearch_found hstart hsearch i rfl
        exact hm.after_shift hi hused hrun

/-- The table is not full, or empty, or it holds the key. -/
def EndsFor (m : StaticHashMap K V) (key : K) : Prop :=
  m.count < m.capacity ∨ m.count = 0 ∨
    ∃ i < m.capacity, (m.buckets i).isUsed = true ∧ (key == (m.buckets i).key) = true

instance (m : StaticHashMap K V) (key : K) : Decidable (EndsFor m key) :=
  inferInstanceAs (Decidable (_ ∨ _ ∨ ∃ i < m.capacity, _ ∧ _))

/-- Some bucket stops the search exactly when the table is not full or holds the key. -/
theorem Counted.stops_iff (hm : Counted m) {key : K} (hpos : m.count ≠ 0) :
    (∃ j < m.capacity, StopsAt m key j) ↔ EndsFor m key := by
  rw [EndsFor, or_iff_right hpos, ← hm.usedCount_eq, StaticHashMap.usedCount_lt_iff]
  constructor
  · rintro ⟨j, hj, hunused | hkey⟩
    · exact Or.inl ⟨j, hj, hunused⟩
    · cases hused : (m.buckets j).isUsed with
      | false => exact Or.inl ⟨j, hj, hused⟩
      | true => exact Or.inr ⟨j, hj, hused, hkey⟩
  · rintro (⟨j, hj, hunused⟩ | ⟨j, hj, -, hkey⟩)
    · exact ⟨j, hj, Or.inl hunused⟩
    · exact ⟨j, hj, Or.inr hkey⟩

/-- `Remove` on a table that goes round for ever. -/
theorem Counted.remove_goes_on (hm : Counted m) {key : K} (h : ¬ EndsFor m key) :
    remove hash fuel m key = none := by
  have hpos : m.count ≠ 0 := fun hzero => h (Or.inr (Or.inl hzero))
  have hfull := hm.full
  have hbound := hm.bound
  have hstart : hashAndMod hash key m.capacity < m.capacity := hm.hashAndMod_lt (by omega) key
  have hall : ∀ i < m.capacity, ¬ StopsAt m key i := fun i hi hstop =>
    h ((hm.stops_iff hpos).mp ⟨i, hi, hstop⟩)
  rw [HashMaps.remove, if_neg hpos, removeSearch_goes_on hstart hall]

/-- `Remove` on a table in which it ends. -/
theorem Counted.remove_ends (hm : Counted m) {key : K} (h : EndsFor m key) :
    ∃ fuel, (remove hash fuel m key).isSome := by
  by_cases hpos : m.count = 0
  · exact ⟨0, by rw [HashMaps.remove, if_pos hpos]; rfl⟩
  · have hfull := hm.full
    have hbound := hm.bound
    have hstart : hashAndMod hash key m.capacity < m.capacity := hm.hashAndMod_lt (by omega) key
    obtain ⟨j, hj, hstop⟩ := (hm.stops_iff hpos).mpr h
    -- One bound for the turns of both loops.
    let turns := m.capacity + ∑ k ∈ Finset.range m.capacity, m.probe k
    obtain ⟨r, hsearch⟩ := @removeSearch_ends K V m (turns + 1) _ key _ j hstart hj hstop (by omega)
    refine ⟨turns + 1, ?_⟩
    rw [HashMaps.remove, if_neg hpos, hsearch]
    cases r with
    | none => rfl
    | some i =>
      obtain ⟨hi, -⟩ := removeSearch_found hstart hsearch i rfl
      obtain ⟨m', hshift⟩ := @shift_ends K V m (turns + 1) i hi (by omega)
      simp only [hshift]
      rfl

/-- In every table that `Add` and `Remove` reach from unused buckets, `Remove` ends exactly
when the table is not full, is empty or holds the key. -/
theorem remove_returns_iff {memory : Nat → StaticHashMapBucket K V} {capacity : Nat}
    {loadFactor : ℚ} (hcapacity : capacity < 2 ^ 32) (hload : loadFactor ≤ 1)
    (hunused : ∀ i < initCapacity capacity, (memory i).isUsed = false) {ops : List (MapOp K V)}
    (hm : exec (step hash fuel) (init memory capacity loadFactor) ops = some m) (key : K) :
    (∃ fuel, (remove hash fuel m key).isSome) ↔ EndsFor m key := by
  have hcounted : Counted m := by
    have hrun := (AtEach.run (P := fun _ _ => True) (fun _ _ _ _ _ => trivial) hm)
    refine hrun.invariant Counted ?_ (counted_init hcapacity hload hunused)
    intro s op t hs _ hstep
    cases op with
    | add key value =>
      obtain ⟨r, hr, rfl⟩ := Option.map_eq_some_iff.mp hstep
      exact hs.after_add hr
    | remove key =>
      obtain ⟨r, hr, rfl⟩ := Option.map_eq_some_iff.mp hstep
      exact hs.after_remove hr
  refine ⟨fun hends => ?_, hcounted.remove_ends⟩
  by_contra h
  obtain ⟨fuel', hsome⟩ := hends
  rw [hcounted.remove_goes_on h] at hsome
  cases hsome

/-- Unused memory for two buckets. -/
def twoUnused : Nat → StaticHashMapBucket Nat Nat := fun _ => ⟨0, 0, false, 0⟩

/-- Two buckets, both used. -/
def twoUsed : StaticHashMap Nat Nat where
  buckets := Function.update (Function.update twoUnused 0 ⟨1, 0, true, 10⟩) 1 ⟨2, 1, true, 20⟩
  capacity := 2
  count := 2
  maxCount := 2

theorem exec_twoUsed :
    exec (step (fun _ => 0) 2) (init twoUnused 2 1) [.add 1 10, .add 2 20] = some twoUsed := by
  have hinit : init twoUnused 2 1 = ⟨twoUnused, 2, 0, 2⟩ := by
    have hcapacity : initCapacity 2 = 2 := by decide
    have hmax : ⌊(2 : ℚ) * 1⌋₊ = 2 := by norm_num
    rw [init, hcapacity]
    exact congrArg _ hmax
  rw [hinit]
  rfl

/-- A key of a full table is removed. -/
theorem remove_returns_held :
    (∃ fuel, (remove (fun _ => 0) fuel twoUsed 1).isSome) ↔ EndsFor twoUsed 1 :=
  remove_returns_iff (by decide) (Rat.le_refl) (fun _ _ => rfl) exec_twoUsed 1

/-- The search for a third key does not end. -/
theorem remove_never_returns :
    exec (step (fun _ => 0) 2) (init twoUnused 2 1) [.add 1 10, .add 2 20] = some twoUsed ∧
      ∀ fuel, remove (fun _ => 0) fuel twoUsed 3 = none := by
  refine ⟨exec_twoUsed, fun fuel => ?_⟩
  have hcounted : Counted twoUsed :=
    ⟨Or.inr ⟨1, by decide, rfl⟩, by decide, Nat.le_refl 2, Nat.le_refl 2⟩
  exact hcounted.remove_goes_on (by decide)

end ScalBase.HashMaps
