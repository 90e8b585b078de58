/-
  StringHashMap/Growth.lean --- a map that grows as it fills.

  `AddAllocator` doubles the capacity of a full map before it adds.  The capacity
  is then a power of two that is at least two, `MaxCount` lies strictly between
  zero and the capacity, and the count never passes it: there is always an unused
  slot, so no probe loop goes round for ever.

  Nothing here depends on the probe lengths that the slots store.
-/
import Mathlib.Algebra.Order.Floor.Semifield
import ScalBase.StringHashMap.Conservation

set_option autoImplicit false

namespace ScalBase.StringHashMaps

open Foundation Foundation.Cyclic Foundation.Slots

variable {V : Type*} {hash : List UInt8 → UInt64}

/-- `LOAD_FACTOR`: the value of the float `0.85f`. -/
def loadFactor : ℚ := 14260634 / 2 ^ 24

/-- The integer arithmetic of `loadLimit` is the product with the load factor, rounded
down. -/
theorem loadLimit_eq_floor (capacity : Nat) :
    loadLimit capacity = ⌊(capacity : ℚ) * loadFactor⌋₊ := by
  have hquot : (capacity : ℚ) * loadFactor =
      ((capacity * 14260634 : Nat) : ℚ) / ((2 ^ 24 : Nat) : ℚ) := by
    rw [loadFactor]
    push_cast
    ring
  rw [hquot, Nat.floor_div_eq_div, loadLimit]

/-! ## Every call returns -/

section Calls

variable {m : StringHashMap V}

/-- `Get` ends, at an unused slot at the latest. -/
theorem Wf.get_returns (h : Wf hash m) (key : String) {fuel : Nat} (hfuel : m.capacity ≤ fuel) :
    ∃ r, StringHashMaps.get hash fuel m key = some r := by
  rw [StringHashMaps.get]
  split_ifs with hempty
  · exact ⟨none, rfl⟩
  · have hfull := h.full
    have hpos : 0 < m.capacity := h.capacity_pos (by omega)
    obtain ⟨u, hu, hfree⟩ := h.exists_free hpos
    have hunused := (m.cell_eq_none_iff u).mp hfree
    have hstop : ∀ s : GetLoop, s.idx < m.capacity → s.idx = u →
        ∃ r, getTurn hash m key s = .done r ∧ True := fun s _ hsu =>
      ⟨none, by simp [getTurn, hsu, hunused], trivial⟩
    have hpass : ∀ s : GetLoop, s.idx < m.capacity → s.idx ≠ u →
        (∃ r, getTurn hash m key s = .done r ∧ True) ∨
          ∃ s', getTurn hash m key s = .again s' ∧ s'.idx = next m.capacity s.idx ∧
            s'.idx < m.capacity := by
      intro s hs _
      rw [getTurn]
      split_ifs
      · exact Or.inl ⟨_, rfl, trivial⟩
      · exact Or.inl ⟨_, rfl, trivial⟩
      · exact Or.inr ⟨_, rfl, rfl, next_lt hs⟩
    obtain ⟨r, hr, -⟩ := run_scan hu GetLoop.idx (fun s => s.idx < m.capacity) (fun _ => True)
      (fun _ hs => hs) hstop hpass hfuel (s := ⟨0, homeIdx hash key m.capacity⟩)
      (h.homeIdx_lt hpos key)
    exact ⟨r, hr⟩

/-- `Add` returns. -/
theorem Wf.add_returns (h : Wf hash m) (key : String) (value : V) {fuel : Nat}
    (hfuel : m.capacity ≤ fuel) : ∃ r, StringHashMaps.add hash fuel m key value = some r := by
  by_cases hroom : m.count = m.maxCount
  · exact ⟨_, add_full fuel key value hroom⟩
  · obtain ⟨r, hr, -⟩ := h.add hroom key value hfuel
    exact ⟨r, hr⟩

/-- After an `Add` that is not refused some slot has the key: the new pair is in, or the
pair in hand at the end met a slot with its key. -/
theorem Added.hasKey {key : String} {value : V} {r : StrHashMapAddResult × StringHashMap V}
    (h : Added hash m key value r) : HasKey r.2.entries key := by
  rcases h.outcome with ⟨-, -, hentries⟩ | ⟨-, -, p, hentries, hp⟩
  · rw [hentries]
    exact ⟨_, Multiset.mem_cons_self .., BEq.rfl⟩
  · have hmem : (key, value) ∈ p ::ₘ r.2.entries := by
      rw [hentries]
      exact Multiset.mem_cons_self ..
    rcases Multiset.mem_cons.mp hmem with heq | hmem
    · rwa [← heq] at hp
    · exact ⟨_, hmem, BEq.rfl⟩

theorem Wf.addStep_count (h : Wf hash m) {fuel : Nat} (hfuel : m.capacity ≤ fuel) {p : String × V}
    {m' : StringHashMap V} (hstep : StringHashMaps.addStep hash fuel m p = some m') :
    Wf hash m' ∧ m'.capacity = m.capacity ∧ m'.count ≤ m.count + 1 := by
  by_cases hroom : m.count = m.maxCount
  · rw [StringHashMaps.addStep, add_full fuel _ _ hroom] at hstep
    cases hstep
    exact ⟨h, rfl, Nat.le_succ _⟩
  · obtain ⟨r, hr, hadd⟩ := h.add hroom p.1 p.2 hfuel
    rw [StringHashMaps.addStep, hr] at hstep
    cases hstep
    refine ⟨h.of_added hroom hadd, hadd.frame.capacity, ?_⟩
    show r.2.count ≤ m.count + 1
    rcases hadd.outcome with ⟨-, hcount, -⟩ | ⟨-, hcount, -⟩ <;> omega

/-- Adding pairs raises the count by at most their number. -/
theorem Wf.addAll_count {fuel : Nat} : ∀ {ps : List (String × V)} {t t' : StringHashMap V},
    Wf hash t → t.capacity ≤ fuel → exec (StringHashMaps.addStep hash fuel) t ps = some t' →
    t'.count ≤ t.count + ps.length := by
  intro ps
  induction ps with
  | nil =>
    intro t t' _ _ hexec
    cases hexec
    exact Nat.le_refl _
  | cons p ps ih =>
    intro t t' ht hfuel hexec
    obtain ⟨t₁, hstep, hrest⟩ := Option.bind_eq_some_iff.mp hexec
    obtain ⟨ht₁, hcap, hle⟩ := ht.addStep_count hfuel hstep
    have hrec := ih ht₁ (hcap ▸ hfuel) hrest
    rw [List.length_cons]
    omega

end Calls

/-! ## The growth -/

section Growth

variable {m : StringHashMap V}

/-- `Resize` to a larger capacity: the map has that capacity, and no more used slots than
before. -/
theorem Wf.resize_larger (h : Wf hash m) {capacity : Nat} (hcapacity : capacity < 2 ^ 32)
    (hlt : m.capacity < roundCapacity capacity) (fresh : Nat → V) {fuel : Nat}
    (hfuel : 2 ^ 32 ≤ fuel) :
    ∃ m', StringHashMaps.resize hash fuel m capacity fresh = some m' ∧ Wf hash m' ∧
      m'.capacity = roundCapacity capacity ∧ m'.count ≤ m.count := by
  cases hbuckets : m.hasBuckets with
  | true =>
    obtain ⟨m', hexec, hm', hwf, hcap, -⟩ := h.rehash hcapacity hlt hbuckets fresh hfuel
    obtain ⟨hsize, -⟩ := roundCapacity_grown hcapacity hlt
    obtain ⟨htmp, hzero, -, -⟩ := wf_resizeNull (wf_zero hash m.values) rfl rfl hsize fresh
    have hle := htmp.addAll_count (Nat.le_trans htmp.capacity_le hfuel) hexec
    have hlength : m.pairs.length = m.count := by
      rw [h.count, m.entries_eq_pairs, Multiset.coe_card]
    exact ⟨m', hm', hwf, hcap, by omega⟩
  | false =>
    have hcount : m.count = 0 := by
      rw [h.count, StringHashMap.entries, h.null hbuckets]
      rfl
    obtain ⟨hwf, hzero, -, -⟩ := wf_resizeNull h hcount hbuckets hcapacity fresh
    refine ⟨_, ?_, hwf, resizeNull_capacity hlt, by omega⟩
    rw [StringHashMaps.resize, if_neg (Nat.not_le.mpr hlt), if_neg (by simp [hbuckets])]

variable (hash) in
/-- What a map keeps that only grows by doubling. -/
structure Grown (m : StringHashMap V) : Prop where
  wf : Wf hash m
  capacity : m.capacity = 0 ∨ ∃ k, 1 ≤ k ∧ m.capacity = 2 ^ k

theorem Grown.two_le (h : Grown hash m) (hpos : 0 < m.capacity) : 2 ≤ m.capacity := by
  obtain ⟨k, hk, hcap⟩ := h.capacity.resolve_left (Nat.pos_iff_ne_zero.mp hpos)
  calc 2 = 2 ^ 1 := rfl
    _ ≤ 2 ^ k := Nat.pow_le_pow_right (by decide : 0 < 2) hk
    _ = m.capacity := hcap.symm

/-- Twice the capacity is a capacity, and leaves room for one more. -/
theorem Grown.double (h : Grown hash m) (hcap : m.capacity < 2 ^ 31) :
    (∃ k, 1 ≤ k ∧ roundCapacity (m.capacity * 2) = 2 ^ k) ∧
      m.capacity < roundCapacity (m.capacity * 2) ∧
      loadLimit m.capacity < loadLimit (roundCapacity (m.capacity * 2)) := by
  rcases h.capacity with hzero | ⟨k, hk, hpow⟩
  · have hround : roundCapacity (m.capacity * 2) = 2 ^ 1 := by
      rw [hzero]
      decide
    rw [hround, hzero]
    exact ⟨⟨1, Nat.le_refl 1, rfl⟩, by decide, by decide⟩
  · have hdouble : m.capacity * 2 = 2 ^ (k + 1) := by rw [hpow, Nat.pow_succ]
    have hround : roundCapacity (m.capacity * 2) = m.capacity * 2 := by
      rw [hdouble, roundCapacity_two_pow (Nat.succ_le_succ (Nat.zero_le k))]
    have htwo := h.two_le (by rw [hpow]; exact Nat.two_pow_pos k)
    rw [hround]
    refine ⟨⟨k + 1, Nat.succ_le_succ (Nat.zero_le k), hdouble⟩, by omega, ?_⟩
    unfold loadLimit
    omega

/-- After the growth in `AddAllocator` the map is not full. -/
theorem Grown.makeRoom (h : Grown hash m) (hcap : m.capacity < 2 ^ 31) (fresh : Nat → V)
    {fuel : Nat} (hfuel : 2 ^ 32 ≤ fuel) :
    ∃ m₁, StringHashMaps.makeRoom hash fuel m fresh = some m₁ ∧ Grown hash m₁ ∧
      m₁.count ≠ m₁.maxCount := by
  unfold StringHashMaps.makeRoom
  split_ifs with hfull
  · have hword : u32 (m.capacity * 2) = m.capacity * 2 := Nat.mod_eq_of_lt (by omega)
    obtain ⟨hpow, hlt, hroom⟩ := h.double hcap
    rw [hword]
    obtain ⟨m₁, hm₁, hwf, hcap₁, hcount⟩ := h.wf.resize_larger (by omega) hlt fresh hfuel
    refine ⟨m₁, hm₁, ⟨hwf, Or.inr (hcap₁ ▸ hpow)⟩, ?_⟩
    have hlimit := h.wf.limit
    rw [hwf.limit, hcap₁]
    omega
  · exact ⟨m, rfl, h, hfull⟩

/-- `AddAllocator` returns, and some slot then has the key. -/
theorem Grown.addAllocator (h : Grown hash m) (hcap : m.capacity < 2 ^ 31) (key : String)
    (value : V) (fresh : Nat → V) {fuel : Nat} (hfuel : 2 ^ 32 ≤ fuel) :
    ∃ m₁ r, StringHashMaps.makeRoom hash fuel m fresh = some m₁ ∧ m₁.count ≠ m₁.maxCount ∧
      StringHashMaps.addAllocator hash fuel m key value fresh = some r ∧ Grown hash r.2 ∧
      HasKey r.2.entries key := by
  obtain ⟨m₁, hm₁, hgrown, hroom⟩ := h.makeRoom hcap fresh hfuel
  obtain ⟨r, hr, hadd⟩ :=
    hgrown.wf.add hroom key value (Nat.le_trans hgrown.wf.capacity_le hfuel)
  refine ⟨m₁, r, hm₁, hroom, ?_, ⟨hgrown.wf.of_added hroom hadd, ?_⟩, hadd.hasKey⟩
  · rw [StringHashMaps.addAllocator, hm₁]
    exact hr
  · rw [hadd.frame.capacity]
    exact hgrown.capacity

/-- A removal keeps the capacity. -/
theorem Grown.remove (h : Grown hash m) (key : String) {fuel : Nat} (hfuel : m.capacity ≤ fuel) :
    ∃ r, StringHashMaps.remove hash fuel m key = some r ∧ Grown hash r.2 := by
  obtain ⟨b, m', hm', hfalse, htrue⟩ := h.wf.remove key hfuel
  refine ⟨(b, m'), hm', ?_⟩
  cases b with
  | false => exact hfalse rfl ▸ h
  | true =>
    obtain ⟨p, kept, -, hsplit, hremoved⟩ := htrue rfl
    refine ⟨h.wf.of_removed hsplit hremoved, ?_⟩
    rw [hremoved.frame.capacity]
    exact h.capacity

/-- Every call on a map below the largest capacity returns and keeps the shape of its
growth. -/
theorem Grown.step (h : Grown hash m) (hcap : m.capacity < 2 ^ 31) {fuel : Nat}
    (hfuel : 2 ^ 32 ≤ fuel) (op : GrowOp V) :
    ∃ m', growStep hash fuel m op = some m' ∧ Grown hash m' := by
  have hfuel' := Nat.le_trans h.wf.capacity_le hfuel
  cases op with
  | addAllocator key value fresh =>
    obtain ⟨-, r, -, -, hr, hgrown, -⟩ := h.addAllocator hcap key value fresh hfuel
    exact ⟨r.2, by rw [growStep, hr]; rfl, hgrown⟩
  | remove key =>
    obtain ⟨r, hr, hgrown⟩ := h.remove key hfuel'
    exact ⟨r.2, by rw [growStep, hr]; rfl, hgrown⟩
  | get key =>
    obtain ⟨r, hr⟩ := h.wf.get_returns key hfuel'
    exact ⟨m, by rw [growStep, hr]; rfl, h⟩

end Growth

/-! ## Whole runs -/

variable (hash) in
/-- The bounds on the counters, and that the loops of the next call end. -/
structure Growable (fuel : Nat) (m : StringHashMap V) : Prop where
  capacity : m.capacity = 0 ∨ ∃ k, 1 ≤ k ∧ m.capacity = 2 ^ k
  maxCount : m.maxCount = ⌊(m.capacity : ℚ) * loadFactor⌋₊
  limit : 0 < m.capacity → 1 ≤ m.maxCount ∧ m.maxCount < m.capacity
  count : m.count ≤ m.maxCount
  unused : 0 < m.capacity → ∃ i < m.capacity, (m.buckets i).isUsed = false
  add : ∀ key value, ∃ r, StringHashMaps.add hash fuel m key value = some r
  get : ∀ key, ∃ r, StringHashMaps.get hash fuel m key = some r
  remove : ∀ key, ∃ r, StringHashMaps.remove hash fuel m key = some r
  /-- The map that the `Add` in `AddAllocator` is made on is not full, and a used slot
  has the key afterwards. -/
  addAllocator : m.capacity < 2 ^ 31 → ∀ key value fresh, ∃ m₁ r,
    StringHashMaps.makeRoom hash fuel m fresh = some m₁ ∧ m₁.count ≠ m₁.maxCount ∧
    StringHashMaps.addAllocator hash fuel m key value fresh = some r ∧
    ∃ i < r.2.capacity, (r.2.buckets i).isUsed = true ∧ ((r.2.buckets i).string == key) = true

theorem Grown.growable {m : StringHashMap V} (h : Grown hash m) {fuel : Nat}
    (hfuel : 2 ^ 32 ≤ fuel) : Growable hash fuel m := by
  have hfuel' := Nat.le_trans h.wf.capacity_le hfuel
  have hlimit := h.wf.limit
  refine ⟨h.capacity, by rw [hlimit, loadLimit_eq_floor], fun hpos => ?_, h.wf.full,
    fun hpos => ?_, fun key value => h.wf.add_returns key value hfuel',
    fun key => h.wf.get_returns key hfuel', fun key => ?_, fun hcap key value fresh => ?_⟩
  · have htwo := h.two_le hpos
    have hlt := loadLimit_lt hpos
    rw [hlimit]
    refine ⟨?_, hlt⟩
    unfold loadLimit
    omega
  · obtain ⟨u, hu, hfree⟩ := h.wf.exists_free hpos
    exact ⟨u, hu, (m.cell_eq_none_iff u).mp hfree⟩
  · obtain ⟨r, hr, -⟩ := h.remove key hfuel'
    exact ⟨r, hr⟩
  · obtain ⟨m₁, r, hm₁, hroom, hr, -, hkey⟩ := h.addAllocator hcap key value fresh hfuel
    obtain ⟨i, hi, p, hp, hk⟩ := hasKey_held_iff.mp hkey
    obtain ⟨hused, hstring, -⟩ := (r.2.cell_eq_some_iff i p).mp hp
    exact ⟨m₁, r, hm₁, hroom, hr, i, hi, hused, hstring ▸ hk⟩

variable (hash) in
theorem grown_zero (values : Nat → V) : Grown hash (StringHashMap.zero values) :=
  ⟨wf_zero hash values, Or.inl rfl⟩

/-- Every sequence of `AddAllocator`, `Remove` and `Get` calls from the zero-initialised
map returns, as long as the capacity is below `2 ^ 31` before each call, and the bounds
hold in the state it leads to. -/
theorem stringHashMap_grows (hash : List UInt8 → UInt64) (values : Nat → V) {fuel : Nat}
    (hfuel : 2 ^ 32 ≤ fuel) {ops : List (GrowOp V)}
    (hcap : AtEach (growStep hash fuel) (fun m _ => m.capacity < 2 ^ 31)
      (StringHashMap.zero values) ops) :
    ∃ m, exec (growStep hash fuel) (StringHashMap.zero values) ops = some m ∧
      Growable hash fuel m := by
  obtain ⟨m, hm, hgrown⟩ := hcap.exec_invariant (Grown hash)
    (fun m op h hcap => h.step hcap hfuel op) (grown_zero hash values)
  exact ⟨m, hm, hgrown.growable hfuel⟩

/-- Three keys of one hash, which make the map grow twice, and a removal. -/
theorem stringHashMap_grows_twice :
    ∃ m, exec (growStep (fun _ => 1) (2 ^ 32)) (StringHashMap.zero fun _ => 0)
        [.addAllocator ⟨8, [1]⟩ 10 fun _ => 7, .addAllocator ⟨16, [2]⟩ 20 fun _ => 7,
          .remove ⟨24, [1]⟩, .addAllocator ⟨32, [3]⟩ 30 fun _ => 7] = some m ∧
      Growable (fun _ => 1) (2 ^ 32) m := by
  refine stringHashMap_grows (fun _ => 1) (fun _ => 0) (Nat.le_refl _) ?_
  decide +kernel

end ScalBase.StringHashMaps
