/-
  StringHashMap/Refinement.lean --- when `StringHashMap` is a finite map.

  The displacement in `Add` swaps the probe length of the slot with the one walked
  and then swaps the whole slots, which leaves the slot with the probe length of
  `swapBucket`, zero for a new key.  `Get` stops at such a slot: the key it holds is
  not found again (`stringHashMap_loses_key`).

  `Clear` says that the walk of an `Add` does not come to that branch.  Over runs
  whose `Add`s are clear, those that `Resize` makes on its temporary map included,
  the stored probe lengths are the displacements and the map answers like a finite
  map.
-/
import ScalBase.StringHashMap.Conservation

set_option autoImplicit false

namespace ScalBase.StringHashMaps

open Foundation Foundation.Cyclic Foundation.RobinHood Foundation.Slots

variable {V : Type*}

/-! ## The condition -/

section Condition

variable (hash : List UInt8 → UInt64)

/-- The slot `d` steps from the home of `key`. -/
def slotAt (m : StringHashMap V) (key : String) (d : Nat) : HashStrSlot :=
  m.buckets (walk m.capacity (homeIdx hash key m.capacity) d)

/-- `Add` of `key` refuses, or walks to an unused slot or the slot of the key, less
than 65536 steps from home, before it meets a slot whose probe length is smaller than
the distance walked. -/
def Clear (m : StringHashMap V) (key : String) : Prop :=
  m.count = m.maxCount ∨
    ∃ d < m.capacity, d < 65536 ∧
      ((slotAt hash m key d).isUsed = false ∨ (key == (slotAt hash m key d).string) = true) ∧
      ∀ e < d, (slotAt hash m key e).isUsed = true ∧
        (key == (slotAt hash m key e).string) = false ∧ e ≤ (slotAt hash m key e).probeLength

/-- No `Add` of the call displaces an entry. -/
def Undisplaced (fuel : Nat) (m : StringHashMap V) : MapOp V → Prop
  | .resize capacity fresh =>
      m.capacity < roundCapacity capacity.toNat → m.hasBuckets = true →
        ∃ tmpMap, Run (addStep hash fuel) (fun t p => Clear hash t p.1)
          (resizeNull (StringHashMap.zero m.values) (roundCapacity capacity.toNat) fresh)
          m.pairs tmpMap
  | .add key _ => Clear hash m key
  | .remove _ => True

end Condition

/-! ## A clear Add -/

section ClearAdd

variable {hash : List UInt8 → UInt64} {m : StringHashMap V}

/-- The loop of `Add` after `e` slots that it passes. -/
def passed (hash : List UInt8 → UInt64) (m : StringHashMap V) (key : String) (value : V)
    (e : Nat) : AddLoop V :=
  { map := m
    swapBucket := { string := key, hash := hashString hash key, probeLength := 0, isUsed := true }
    swapValue := value
    insertedIdx := notFound
    probeLength := e
    idx := walk m.capacity (homeIdx hash key m.capacity) e }

theorem addTurn_passed {key : String} {value : V} {d e : Nat}
    (hhome : homeIdx hash key m.capacity < m.capacity) (hd : d < m.capacity) (hword : d < 65536)
    (he : e < d) (hused : (slotAt hash m key e).isUsed = true)
    (hk : (key == (slotAt hash m key e).string) = false)
    (hle : e ≤ (slotAt hash m key e).probeLength) :
    addTurn (passed hash m key value e) = .again (passed hash m key value (e + 1)) := by
  have hstep : (passed hash m key value e).advance = passed hash m key value (e + 1) := by
    simp only [AddLoop.advance, passed]
    rw [u16_eq (by omega), next_walk hhome (by omega)]
  unfold slotAt at hused hk hle
  rw [← hstep, addTurn]
  simp [passed, hused, hk, Nat.not_lt.mpr hle]

/-- A clear `Add` passes slots until it leaves at the one it stops at. -/
theorem add_path (h : Wf hash m) (hroom : m.count ≠ m.maxCount) {key : String} {value : V}
    {d : Nat} (hd : d < m.capacity) (hword : d < 65536)
    (hway : ∀ e < d, (slotAt hash m key e).isUsed = true ∧
      (key == (slotAt hash m key e).string) = false ∧ e ≤ (slotAt hash m key e).probeLength)
    {r : StrHashMapAddResult × StringHashMap V}
    (hdone : addTurn (passed hash m key value d) = .done r) {fuel : Nat}
    (hfuel : m.capacity ≤ fuel) : add hash fuel m key value = some r := by
  have hhome := h.homeIdx_lt (Nat.zero_lt_of_lt hd) key
  have hpath := Loop.run_path (passed hash m key value) (fun e he => by
    obtain ⟨hused, hk, hle⟩ := hway e he
    exact addTurn_passed hhome hd hword he hused hk hle) hdone (Nat.lt_of_lt_of_le hd hfuel)
  rw [add, if_neg hroom, ← hpath, passed, walk_zero hhome]

/-- It either finds the key and changes nothing, or takes the unused slot. -/
theorem add_clear (h : Wf hash m) (hroom : m.count ≠ m.maxCount) {key : String} (value : V)
    {d : Nat} (hd : d < m.capacity) (hword : d < 65536)
    (hstop : (slotAt hash m key d).isUsed = false ∨ (key == (slotAt hash m key d).string) = true)
    (hway : ∀ e < d, (slotAt hash m key e).isUsed = true ∧
      (key == (slotAt hash m key e).string) = false ∧ e ≤ (slotAt hash m key e).probeLength)
    {fuel : Nat} (hfuel : m.capacity ≤ fuel) :
    ((slotAt hash m key d).isUsed = true ∧ add hash fuel m key value =
        some (⟨walk m.capacity (homeIdx hash key m.capacity) d, true⟩, m)) ∨
      ((slotAt hash m key d).isUsed = false ∧ add hash fuel m key value =
        some (passed hash m key value d).place) := by
  cases hused : (slotAt hash m key d).isUsed with
  | false =>
    refine Or.inr ⟨rfl, add_path h hroom hd hword hway ?_ hfuel⟩
    unfold slotAt at hused
    simp [addTurn, passed, hused]
  | true =>
    have hk := hstop.resolve_left (by simp [hused])
    have hmatch := (match_iff ((h.sound _).1 hused)).mpr hk
    refine Or.inl ⟨rfl, add_path h hroom hd hword hway ?_ hfuel⟩
    unfold slotAt at hused hmatch
    simp [addTurn, passed, hused, hmatch]

/-- An unused slot reached without a displacement takes the key in Robin Hood shape:
the entry before it is displaced at least as far as the walk had come there. -/
theorem Shape.place (hs : Shape hash m) {key : String} {value : V} {d : Nat}
    (hhome : homeIdx hash key m.capacity < m.capacity) (hd : d < m.capacity)
    (hunused : (slotAt hash m key d).isUsed = false)
    (hway : ∀ e < d, (slotAt hash m key e).isUsed = true ∧
      (key == (slotAt hash m key e).string) = false ∧ e ≤ (slotAt hash m key e).probeLength) :
    Shape hash (passed hash m key value d).place.2 := by
  generalize hj : walk m.capacity (homeIdx hash key m.capacity) d = j
  have hjlt : j < m.capacity := hj ▸ walk_lt hhome hd
  have hdisp : disp m.capacity (home hash m.capacity) (key, value) j = d := by
    rw [← hj]
    exact dist_walk hhome hd
  have hfree : m.cell j = none := by rw [m.cell_eq_none_iff, ← hunused, slotAt, hj]
  have hfollows : Follows m.capacity (home hash m.capacity) m.cell j d := by
    cases d with
    | zero => exact Or.inl rfl
    | succ d =>
      obtain ⟨hused, -, hle⟩ := hway d (Nat.lt_succ_self d)
      have hcell := StringHashMap.cell_of_used hused
      rw [← hj, ← next_walk hhome hd]
      refine follows_next hcell ?_
      rw [← hs.exact _ (walk_lt hhome (by omega)) _ hcell]
      exact hle
  have hcell : (passed hash m key value d).place.2.cell =
      Function.update m.cell j (some (key, value)) := by
    rw [← hj]
    exact m.cell_setSlot _ ⟨key, hashString hash key, d, true⟩ value rfl
  have hbuckets : (passed hash m key value d).place.2.buckets =
      Function.update m.buckets j ⟨key, hashString hash key, d, true⟩ := by
    rw [← hj]
    rfl
  show Probed m.capacity (home hash m.capacity) _ _
  rw [hcell, hbuckets]
  refine Probed.write hs (hs.ordered.fill hjlt hfree (hdisp.symm ▸ hfollows)) ?_ ?_
  · simp [hdisp]
  · intro i hi
    simp [hi]

/-- A clear `Add` keeps the Robin Hood shape. -/
theorem Shape.addStep (hs : Shape hash m) (h : Wf hash m) {p : String × V}
    (hc : Clear hash m p.1) {fuel : Nat} (hfuel : m.capacity ≤ fuel) {m' : StringHashMap V}
    (hstep : addStep hash fuel m p = some m') : Shape hash m' := by
  obtain ⟨key, value⟩ := p
  unfold StringHashMaps.addStep at hstep
  by_cases hroom : m.count = m.maxCount
  · rw [add_full fuel _ _ hroom] at hstep
    cases hstep
    exact hs
  · obtain ⟨d, hd, hword, hstop, hway⟩ := hc.resolve_left hroom
    rcases add_clear h hroom value hd hword hstop hway hfuel with ⟨-, hadd⟩ | ⟨hunused, hadd⟩
    · rw [hadd] at hstep
      cases hstep
      exact hs
    · rw [hadd] at hstep
      cases hstep
      exact hs.place (h.homeIdx_lt (Nat.zero_lt_of_lt hd) key) hd hunused hway

end ClearAdd

/-! ## The map as a finite map -/

/-- The abstract step of a call.  `Resize` may raise the number of entries allowed. -/
def mapStep (x : KeyMap String V) : MapOp V → KeyMap String V
  | .resize capacity _ => x.grow (max x.limit (loadLimit (roundCapacity capacity.toNat)))
  | .add key value => x.add key value
  | .remove key => x.remove key

/-- The map stands for the finite map `x`. -/
structure Refines (hash : List UInt8 → UInt64) (m : StringHashMap V) (x : KeyMap String V) :
    Prop where
  wf : Wf hash m
  shape : Shape hash m
  limit : x.limit = m.maxCount
  entries : (x.entries : Multiset (String × V)) = m.entries
  distinct : DistinctKeys m.entries

section Calls

variable {hash : List UInt8 → UInt64} {m : StringHashMap V} {x : KeyMap String V}

theorem Refines.length_eq (h : Refines hash m x) : x.entries.length = m.count := by
  rw [h.wf.count, ← h.entries, Multiset.coe_card]

theorem Refines.not_hasKey (h : Refines hash m x) {key : String} (hk : x.lookup key = none) :
    ¬ HasKey m.entries key := by
  rw [← h.entries]
  exact (x.lookup_eq_none_iff key).mp hk

/-- A key of the finite map is in some slot. -/
theorem Refines.exists_slot (h : Refines hash m x) {key : String}
    (hk : (x.lookup key).isSome = true) :
    ∃ i < m.capacity, ∃ p, m.cell i = some p ∧ (p.1 == key) = true :=
  x.exists_slot h.entries hk

/-- On the way from the home of a key to its slot every slot is used, with a probe
length of at least the distance walked, and has another key. -/
theorem Refines.way (h : Refines hash m x) {key : String} {i : Nat} {p : String × V}
    (hi : i < m.capacity) (hp : m.cell i = some p) (hk : (p.1 == key) = true) :
    ∃ d < m.capacity, d < 65536 ∧ walk m.capacity (homeIdx hash key m.capacity) d = i ∧
      ∀ e ≤ d, (slotAt hash m key e).isUsed = true ∧ e ≤ (slotAt hash m key e).probeLength ∧
        ((key == (slotAt hash m key e).string) = true → e = d) := by
  have hhome := h.wf.homeIdx_lt (Nat.zero_lt_of_lt hi) key
  have heq : home hash m.capacity p = homeIdx hash key m.capacity := by
    rw [home, homeIdx, homeIdx, hashString_eq hash hk]
  have hdlt := dist_lt hhome hi
  have hword : dist m.capacity (homeIdx hash key m.capacity) i < 65536 := by
    have hexact := h.shape.exact i hi p hp
    have hw := (h.wf.sound i).2
    rw [disp, heq] at hexact
    omega
  refine ⟨_, hdlt, hword, walk_dist hhome hi, ?_⟩
  intro e he
  have helt : e < m.capacity := Nat.lt_of_le_of_lt he hdlt
  have hway : Between m.capacity (home hash m.capacity p) i
      (walk m.capacity (homeIdx hash key m.capacity) e) := by
    refine ⟨walk_lt hhome helt, ?_⟩
    rw [heq, dist_walk hhome helt]
    exact he
  obtain ⟨q, hq, hle⟩ := Probed.passes h.shape hi (heq ▸ hhome) hp hway
  obtain ⟨hused, hstring, -⟩ := (m.cell_eq_some_iff _ q).mp hq
  rw [heq, dist_walk hhome helt] at hle
  refine ⟨hused, hle, ?_⟩
  intro hkq
  have hpq : (p.1 == q.1) = true := BEq.trans hk (by rw [← hstring]; exact hkq)
  have hsame := h.distinct.slot_unique hi (walk_lt hhome helt) hp hq hpq
  rw [hsame, dist_walk hhome helt]

theorem Refines.exists_free (h : Refines hash m x) (hcount : m.count ≠ 0) :
    ∃ u < m.capacity, m.cell u = none := by
  have hfull := h.wf.full
  exact h.wf.exists_free (h.wf.capacity_pos (by omega))

theorem Refines.count_ne_zero (h : Refines hash m x) {i : Nat} {p : String × V}
    (hi : i < m.capacity) (hp : m.cell i = some p) : m.count ≠ 0 := by
  obtain ⟨rest, hrest⟩ := Multiset.exists_cons_of_mem (mem_held.mpr ⟨i, hi, hp⟩)
  rw [h.wf.count, StringHashMap.entries, hrest, Multiset.card_cons]
  omega

/-! ### Get -/

/-- A lookup of a key that is held finds its slot. -/
theorem Refines.get_held (h : Refines hash m x) {key : String} {i : Nat} {p : String × V}
    (hi : i < m.capacity) (hp : m.cell i = some p) (hk : (p.1 == key) = true) {fuel : Nat}
    (hfuel : m.capacity ≤ fuel) : get hash fuel m key = some (some i) := by
  have hhome := h.wf.homeIdx_lt (Nat.zero_lt_of_lt hi) key
  obtain ⟨d, hd, -, hwalk, hway⟩ := h.way hi hp hk
  have hpath : Loop.run (getTurn hash m key) fuel
      ⟨0, walk m.capacity (homeIdx hash key m.capacity) 0⟩ = some (some i) := by
    refine Loop.run_path
      (fun e => (⟨e, walk m.capacity (homeIdx hash key m.capacity) e⟩ : GetLoop)) ?_ ?_
      (Nat.lt_of_lt_of_le hd hfuel)
    · intro e he
      obtain ⟨hused, hle, hne⟩ := hway e he.le
      have hk' : (key == (slotAt hash m key e).string) = false :=
        Bool.eq_false_iff.mpr fun hc => absurd (hne hc) he.ne
      unfold slotAt at hused hle hk'
      simp [getTurn, hused, hk', Nat.not_lt.mpr hle, next_walk hhome (show e + 1 < _ by omega)]
    · obtain ⟨hused, hle, -⟩ := hway d le_rfl
      have hk' : (key == (slotAt hash m key d).string) = true := by
        rw [slotAt, hwalk, ((m.cell_eq_some_iff i p).mp hp).2.1]
        exact BEq.symm hk
      have hmatch := (match_iff ((h.wf.sound _).1 hused)).mpr hk'
      simp only [slotAt, hwalk] at hused hle hmatch
      simp [getTurn, hwalk, hused, hmatch, Nat.not_lt.mpr hle]
  rw [get, if_neg (h.count_ne_zero hi hp), ← hpath, walk_zero hhome]

/-- A lookup of a key that is not held ends with a null pointer. -/
theorem Refines.get_absent (h : Refines hash m x) {key : String} (habs : ¬ HasKey m.entries key)
    {fuel : Nat} (hfuel : m.capacity ≤ fuel) : get hash fuel m key = some none := by
  unfold get
  split
  · rfl
  · rename_i hcount
    obtain ⟨u, hu, hfree⟩ := h.exists_free hcount
    refine run_scan_eq hu GetLoop.idx (fun s => s.idx < m.capacity) none (fun s hs => hs) ?_ ?_
      hfuel (h.wf.homeIdx_lt (Nat.zero_lt_of_lt hu) key)
    · rintro s - rfl
      simp [getTurn, (m.cell_eq_none_iff _).mp hfree]
    · intro s hs _
      unfold getTurn
      simp only
      split_ifs with hnull hmatch
      · exact Or.inl rfl
      · push Not at hnull
        exact absurd (hasKey_held_iff.mpr ⟨s.idx, hs, _,
          StringHashMap.cell_of_used (by simpa using hnull.1), BEq.symm hmatch.2⟩) habs
      · exact Or.inr ⟨_, rfl, rfl, next_lt hs⟩

/-- `Get` answers what the finite map holds. -/
theorem Refines.get (h : Refines hash m x) (key : String) {fuel : Nat}
    (hfuel : m.capacity ≤ fuel) :
    ∃ i, StringHashMaps.get hash fuel m key = some i ∧ i.map m.values = x.lookup key := by
  cases hl : x.lookup key with
  | none => exact ⟨none, h.get_absent (h.not_hasKey hl) hfuel, rfl⟩
  | some v =>
    obtain ⟨i, hi, p, hp, hk⟩ := h.exists_slot (by rw [hl]; rfl)
    refine ⟨some i, h.get_held hi hp hk hfuel, ?_⟩
    have hholds : HoldsAt (x.entries : Multiset (String × V)) key p.2 := by
      rw [h.entries]
      exact ⟨p.1, mem_held.mpr ⟨i, hi, hp⟩, hk⟩
    have hv := (x.lookup_eq_some_iff (h.entries ▸ h.distinct) key p.2).mpr hholds
    rw [Option.map_some, ((m.cell_eq_some_iff i p).mp hp).2.2, ← hv, hl]

/-! ### Add -/

/-- `Add` of a key the map has answers its slot and changes nothing. -/
theorem Refines.add_mem (h : Refines hash m x) (hroom : m.count ≠ m.maxCount) {key : String}
    (value : V) (hk : (x.lookup key).isSome = true) {fuel : Nat} (hfuel : m.capacity ≤ fuel) :
    ∃ i, add hash fuel m key value = some (⟨i, true⟩, m) := by
  obtain ⟨i, hi, p, hp, hpk⟩ := h.exists_slot hk
  obtain ⟨d, hd, hword, hwalk, hway⟩ := h.way hi hp hpk
  have hstring : (key == (slotAt hash m key d).string) = true := by
    rw [slotAt, hwalk, ((m.cell_eq_some_iff i p).mp hp).2.1]
    exact BEq.symm hpk
  have hpass : ∀ e < d, (slotAt hash m key e).isUsed = true ∧
      (key == (slotAt hash m key e).string) = false ∧ e ≤ (slotAt hash m key e).probeLength := by
    intro e he
    obtain ⟨hused, hle, hne⟩ := hway e he.le
    exact ⟨hused, Bool.eq_false_iff.mpr fun hc => absurd (hne hc) he.ne, hle⟩
  rcases add_clear h.wf hroom value hd hword (Or.inr hstring) hpass hfuel with ⟨-, hadd⟩ | ⟨hun, -⟩
  · exact ⟨_, hadd⟩
  · rw [(hway d le_rfl).1] at hun
    cases hun

/-- `Add` of a key the map has not inserts it, with or without displacements. -/
theorem Refines.add_new (h : Refines hash m x) (hroom : m.count ≠ m.maxCount) {key : String}
    (value : V) (hk : x.lookup key = none) {fuel : Nat} (hfuel : m.capacity ≤ fuel) :
    ∃ r, add hash fuel m key value = some r ∧ Added hash m key value r ∧
      r.1.doesExist = false ∧ r.2.entries = (key, value) ::ₘ m.entries := by
  obtain ⟨r, hr, hadd⟩ := h.wf.add hroom key value hfuel
  obtain ⟨hnot, -, hentries⟩ := hadd.fresh h.distinct (h.not_hasKey hk)
  exact ⟨r, hr, hadd, hnot, hentries⟩

/-- A clear `Add` keeps the relation. -/
theorem Refines.addStep (h : Refines hash m x) {key : String} (value : V)
    (hc : Clear hash m key) {fuel : Nat} (hfuel : m.capacity ≤ fuel) {m' : StringHashMap V}
    (hstep : StringHashMaps.addStep hash fuel m (key, value) = some m') :
    Refines hash m' (x.add key value) := by
  have hshape := h.shape.addStep h.wf hc hfuel hstep
  unfold StringHashMaps.addStep at hstep
  by_cases hroom : m.count = m.maxCount
  · rw [add_full fuel _ _ hroom] at hstep
    cases hstep
    rw [KeyMap.add, if_pos (by rw [h.length_eq, h.limit, hroom])]
    exact h
  · have hlen : x.entries.length ≠ x.limit := by rwa [h.length_eq, h.limit]
    rw [KeyMap.add, if_neg hlen]
    cases hl : x.lookup key with
    | some v =>
      obtain ⟨i, hadd⟩ := h.add_mem hroom value (by rw [hl]; rfl) hfuel
      rw [hadd] at hstep
      cases hstep
      exact h
    | none =>
      obtain ⟨r, hr, hadd, -, hentries⟩ := h.add_new hroom value hl hfuel
      rw [hr] at hstep
      cases hstep
      refine ⟨h.wf.of_added hroom hadd, hshape, ?_, ?_, ?_⟩
      · exact h.limit.trans hadd.frame.maxCount.symm
      · rw [hentries, ← h.entries]
        rfl
      · rw [hentries]
        exact h.distinct.cons (h.not_hasKey hl)

/-! ### Remove -/

/-- The search of `Remove` finds a key that is held. -/
theorem Refines.removeSearch_held (h : Refines hash m x) {key : String} {i : Nat} {p : String × V}
    (hi : i < m.capacity) (hp : m.cell i = some p) (hk : (p.1 == key) = true) {fuel : Nat}
    (hfuel : m.capacity ≤ fuel) :
    Loop.run (removeTurn hash m key) fuel (homeIdx hash key m.capacity) = some (some i) := by
  have hhome := h.wf.homeIdx_lt (Nat.zero_lt_of_lt hi) key
  obtain ⟨d, hd, -, hwalk, hway⟩ := h.way hi hp hk
  have hk' : (key == (m.buckets i).string) = true := by
    rw [((m.cell_eq_some_iff i p).mp hp).2.1]
    exact BEq.symm hk
  have hfound : removeTurn hash m key (walk m.capacity (homeIdx hash key m.capacity) d) =
      .done (some i) := by
    rw [hwalk, removeTurn_found h.wf.sound ((m.cell_eq_some_iff i p).mp hp).1 hk']
  have hpass : ∀ e < d, removeTurn hash m key (walk m.capacity (homeIdx hash key m.capacity) e) =
      .again (walk m.capacity (homeIdx hash key m.capacity) (e + 1)) := by
    intro e he
    obtain ⟨hused, -, hne⟩ := hway e he.le
    rw [removeTurn_pass hused (Bool.eq_false_iff.mpr fun hc => absurd (hne hc) he.ne),
      next_walk hhome (by omega)]
  have hpath := Loop.run_path (walk m.capacity (homeIdx hash key m.capacity)) hpass hfound
    (Nat.lt_of_lt_of_le hd hfuel)
  rwa [walk_zero hhome] at hpath

/-- `Remove` succeeds on a key that is held. -/
theorem Refines.remove_mem (h : Refines hash m x) {key : String}
    (hk : (x.lookup key).isSome = true) {fuel : Nat} (hfuel : m.capacity ≤ fuel) {b : Bool}
    {m' : StringHashMap V} (hrem : remove hash fuel m key = some (b, m')) : b = true := by
  obtain ⟨i, hi, p, hp, hpk⟩ := h.exists_slot hk
  rw [remove, if_neg (h.count_ne_zero hi hp), h.removeSearch_held hi hp hpk hfuel] at hrem
  simp only [Option.map_eq_some_iff, Prod.mk.injEq] at hrem
  obtain ⟨-, -, hb, -⟩ := hrem
  exact hb.symm

/-- `Remove` keeps the relation. -/
theorem Refines.removeStep (h : Refines hash m x) {key : String} {fuel : Nat}
    (hfuel : m.capacity ≤ fuel) {b : Bool} {m' : StringHashMap V}
    (hrem : StringHashMaps.remove hash fuel m key = some (b, m')) :
    Refines hash m' (x.remove key) := by
  obtain ⟨b', m'', hrem', hfalse, htrue⟩ := h.wf.remove key hfuel
  rw [hrem] at hrem'
  cases hrem'
  cases b with
  | false =>
    rw [hfalse rfl]
    have hnone : x.lookup key = none := by
      by_contra hsome
      have hb := h.remove_mem (Option.isSome_iff_ne_none.mpr hsome) hfuel hrem
      cases hb
    rw [x.remove_of_not_hasKey ((x.lookup_eq_none_iff key).mp hnone)]
    exact h
  | true =>
    obtain ⟨p, kept, hk, hsplit, hremoved⟩ := htrue rfl
    have hmem : p ∈ x.entries := by
      have hp : p ∈ (x.entries : Multiset (String × V)) := by
        rw [h.entries, hsplit]
        exact Multiset.mem_cons_self ..
      exact Multiset.mem_coe.mp hp
    have hdrop := x.remove_entries_of_mem (h.entries ▸ h.distinct) hmem hk
    rw [h.entries, hsplit] at hdrop
    refine ⟨h.wf.of_removed hsplit hremoved, hremoved.shape h.shape, ?_, ?_, ?_⟩
    · exact h.limit.trans hremoved.frame.maxCount.symm
    · rw [hremoved.entries, (Multiset.cons_inj_right p).mp hdrop]
    · rw [hremoved.entries]
      exact (hsplit ▸ h.distinct).tail

/-! ### Resize -/

theorem shape_of_unused (h : ∀ i, (m.buckets i).isUsed = false) : Shape hash m :=
  probed_of_empty fun i _ => (m.cell_eq_none_iff i).mpr (h i)

theorem resizeNull_unused {capacity : Nat} {fresh : Nat → V}
    (hlt : m.capacity < roundCapacity capacity) (i : Nat) :
    ((resizeNull m capacity fresh).buckets i).isUsed = false := by
  rw [resizeNull, if_neg (Nat.not_le.mpr hlt)]
  rfl

/-- Clear `Add`s keep the shape. -/
theorem Shape.addAll {t t' : StringHashMap V} (ht : Wf hash t) (hs : Shape hash t) {fuel : Nat}
    (hfuel : 2 ^ 32 ≤ fuel) {ps : List (String × V)}
    (hrun : Run (StringHashMaps.addStep hash fuel) (fun t p => Clear hash t p.1) t ps t') :
    Shape hash t' := by
  refine (hrun.invariant (fun t => Wf hash t ∧ Shape hash t) ?_ ⟨ht, hs⟩).2
  rintro t p t' ⟨ht, hs⟩ hc hadd
  have hfuel' := Nat.le_trans ht.capacity_le hfuel
  obtain ⟨t'', ht'', hwf'⟩ := ht.addStep hfuel' p
  rw [hadd] at ht''
  cases ht''
  exact ⟨hwf', hs.addStep ht hc hfuel' hadd⟩

/-- `Resize` whose `Add`s are clear keeps the shape. -/
theorem Shape.resize (hs : Shape hash m) (h : Wf hash m) {capacity : Nat}
    (hcapacity : capacity < 2 ^ 32) {fresh : Nat → V} {fuel : Nat} (hfuel : 2 ^ 32 ≤ fuel)
    (hclear : m.capacity < roundCapacity capacity → m.hasBuckets = true →
      ∃ tmpMap, Run (StringHashMaps.addStep hash fuel) (fun t p => Clear hash t p.1)
        (resizeNull (StringHashMap.zero m.values) (roundCapacity capacity) fresh) m.pairs tmpMap)
    {m' : StringHashMap V} (hstep : StringHashMaps.resize hash fuel m capacity fresh = some m') :
    Shape hash m' := by
  by_cases hle : roundCapacity capacity ≤ m.capacity
  · rw [StringHashMaps.resize, if_pos hle] at hstep
    cases hstep
    exact hs
  · have hlt := Nat.lt_of_not_le hle
    cases hbuckets : m.hasBuckets with
    | false =>
      rw [StringHashMaps.resize, if_neg hle, if_neg (by simp [hbuckets])] at hstep
      cases hstep
      exact shape_of_unused (resizeNull_unused hlt)
    | true =>
      obtain ⟨tmpMap, hrun⟩ := hclear hlt hbuckets
      obtain ⟨m₂, hexec, hm₂, -⟩ := h.rehash hcapacity hlt hbuckets fresh hfuel
      rw [hrun.exec_eq] at hexec
      rw [hstep] at hm₂
      cases hm₂
      cases hexec
      obtain ⟨hsize, hsame⟩ := roundCapacity_grown hcapacity hlt
      have hgrow : 0 < roundCapacity (roundCapacity capacity) := by
        rw [hsame]
        exact Nat.zero_lt_of_lt hlt
      exact Shape.addAll (wf_resizeNull (wf_zero hash m.values) rfl rfl hsize fresh).1
        (shape_of_unused (resizeNull_unused hgrow)) hfuel hrun

/-- `Resize` whose `Add`s are clear keeps the relation. -/
theorem Refines.resizeStep (h : Refines hash m x) {capacity : Nat} (hcapacity : capacity < 2 ^ 32)
    {fresh : Nat → V} {fuel : Nat} (hfuel : 2 ^ 32 ≤ fuel)
    (hclear : m.capacity < roundCapacity capacity → m.hasBuckets = true →
      ∃ tmpMap, Run (StringHashMaps.addStep hash fuel) (fun t p => Clear hash t p.1)
        (resizeNull (StringHashMap.zero m.values) (roundCapacity capacity) fresh) m.pairs tmpMap)
    {m' : StringHashMap V} (hstep : resize hash fuel m capacity fresh = some m') :
    Refines hash m' (x.grow (max x.limit (loadLimit (roundCapacity capacity)))) := by
  obtain ⟨m₁, hm₁, hwf, hmax, hentries⟩ := h.wf.resize hcapacity fresh hfuel
  rw [hstep] at hm₁
  cases hm₁
  refine ⟨hwf, h.shape.resize h.wf hcapacity hfuel hclear hstep, ?_, ?_, ?_⟩
  · rw [hmax, ← h.limit]
    rfl
  · rw [hentries h.distinct, ← h.entries]
    rfl
  · rw [hentries h.distinct]
    exact h.distinct

/-! ### Whole runs -/

/-- Every call without a displacement keeps the relation. -/
theorem Refines.step (h : Refines hash m x) {fuel : Nat} (hfuel : 2 ^ 32 ≤ fuel) {op : MapOp V}
    (hok : Undisplaced hash fuel m op) {m' : StringHashMap V}
    (hstep : StringHashMaps.step hash fuel m op = some m') : Refines hash m' (mapStep x op) := by
  have hfuel' : m.capacity ≤ fuel := Nat.le_trans h.wf.capacity_le hfuel
  cases op with
  | resize capacity fresh => exact h.resizeStep (UInt32.toNat_lt capacity) hfuel hok hstep
  | add key value => exact h.addStep value hok hfuel' hstep
  | remove key =>
    obtain ⟨⟨b, m''⟩, hrem, hm''⟩ := Option.map_eq_some_iff.mp hstep
    cases hm''
    exact h.removeStep hfuel' hrem

end Calls

/-- The map answers `Get` and `Add` as the finite map `x` does. -/
structure Answers (hash : List UInt8 → UInt64) (fuel : Nat) (m : StringHashMap V)
    (x : KeyMap String V) : Prop where
  /-- `Get` points at the value of the map, and is null where the map has none. -/
  get : ∀ key, ∃ i, StringHashMaps.get hash fuel m key = some i ∧ i.map m.values = x.lookup key
  /-- `Add` below `MaxCount` reports a key exactly when the map has it. -/
  add : m.count < m.maxCount → ∀ key value, ∃ r m',
    StringHashMaps.add hash fuel m key value = some (r, m') ∧
    (r.doesExist = true ↔ (x.lookup key).isSome = true)

theorem Refines.answers {hash : List UInt8 → UInt64} {m : StringHashMap V} {x : KeyMap String V}
    (h : Refines hash m x) {fuel : Nat} (hfuel : 2 ^ 32 ≤ fuel) : Answers hash fuel m x where
  get := fun key => h.get key (Nat.le_trans h.wf.capacity_le hfuel)
  add := by
    intro hroom key value
    have hfuel' := Nat.le_trans h.wf.capacity_le hfuel
    cases hl : x.lookup key with
    | none =>
      obtain ⟨r, hr, -, hnot, -⟩ := h.add_new hroom.ne value hl hfuel'
      exact ⟨r.1, r.2, hr, by simp [hnot]⟩
    | some v =>
      obtain ⟨i, hadd⟩ := h.add_mem hroom.ne value (by rw [hl]; rfl) hfuel'
      exact ⟨_, m, hadd, by simp⟩

/-- A hash that tells keys apart by their first byte. -/
def firstByte (bytes : List UInt8) : UInt64 := (bytes.headD 0).toUInt64

/-- Three keys in four slots, the third of which displaces the second: `Get` of the
third is then null. -/
theorem stringHashMap_loses_key :
    ∃ m, exec (step firstByte (2 ^ 32)) (StringHashMap.zero fun _ => 0)
        [.resize 4 fun _ => 0, .add ⟨8, [0]⟩ 10, .add ⟨16, [1]⟩ 20, .add ⟨24, [0, 0]⟩ 30] = some m ∧
      m.capacity = 4 ∧ get firstByte (2 ^ 32) m ⟨24, [0, 0]⟩ = some none ∧
      ([.resize 4 fun _ => 0, .add ⟨8, [0]⟩ 10, .add ⟨16, [1]⟩ 20,
        .add ⟨24, [0, 0]⟩ 30].foldl mapStep ⟨[], 0⟩).lookup ⟨24, [0, 0]⟩ = some 30 :=
  ⟨_, rfl, by decide, by decide, by decide⟩

/-- Over every run from the zero-initialised map in which no `Add` displaces an entry,
the map answers as the finite map that the calls build. -/
theorem stringHashMap_refines_keyMap (hash : List UInt8 → UInt64) (values : Nat → V) {fuel : Nat}
    (hfuel : 2 ^ 32 ≤ fuel) {ops : List (MapOp V)} {m : StringHashMap V}
    (hrun : Run (step hash fuel) (Undisplaced hash fuel) (StringHashMap.zero values) ops m) :
    Answers hash fuel m (ops.foldl mapStep ⟨[], 0⟩) := by
  have hzero : Refines hash (StringHashMap.zero values) ⟨[], 0⟩ :=
    ⟨wf_zero hash values, shape_of_unused fun _ => rfl, rfl, rfl, distinctKeys_zero⟩
  have hkeep : ∀ (s : StringHashMap V) x op t, Refines hash s x → Undisplaced hash fuel s op →
      step hash fuel s op = some t → Refines hash t (mapStep x op) :=
    fun _ _ _ _ hR hok hstep => hR.step hfuel hok hstep
  exact (hrun.simulates (Refines hash) hkeep hzero).answers hfuel

/-- Two keys of one home slot, a growth that adds them again, and a removal. -/
theorem stringHashMap_refines_keyMap_growing :
    ∃ m, Run (step firstByte (2 ^ 32)) (Undisplaced firstByte (2 ^ 32))
        (StringHashMap.zero fun _ => 0)
        [.resize 4 fun _ => 0, .add ⟨8, [1]⟩ 10, .add ⟨16, [1, 0]⟩ 20, .resize 8 fun _ => 0,
          .remove ⟨8, [1]⟩] m ∧
      Answers firstByte (2 ^ 32) m ⟨[(⟨16, [1, 0]⟩, 20)], 6⟩ := by
  have hrun : ∃ m, Run (step firstByte (2 ^ 32)) (Undisplaced firstByte (2 ^ 32))
      (StringHashMap.zero fun _ => 0)
      [.resize 4 fun _ => 0, .add ⟨8, [1]⟩ 10, .add ⟨16, [1, 0]⟩ 20, .resize 8 fun _ => 0,
        .remove ⟨8, [1]⟩] m := by
    refine ⟨_, .cons nofun rfl <| .cons ?_ rfl <| .cons ?_ rfl <| .cons ?_ rfl <|
      .cons trivial rfl <| .nil _⟩
    · exact Or.inr ⟨0, by decide, by decide, by decide, nofun⟩
    · exact Or.inr ⟨1, by decide, by decide, by decide, by decide⟩
    · intro _ _
      refine ⟨_, .cons (Or.inr ⟨0, by decide, by decide, by decide, nofun⟩) rfl <|
        .cons ?_ rfl <| .nil _⟩
      exact Or.inr ⟨1, by decide, by decide, by decide, by decide⟩
  obtain ⟨m, hm⟩ := hrun
  exact ⟨m, hm, stringHashMap_refines_keyMap firstByte (fun _ => 0) (Nat.le_refl _) hm⟩

end ScalBase.StringHashMaps
