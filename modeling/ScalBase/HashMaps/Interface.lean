/-
  HashMaps/Interface.lean --- every call of a `StaticHashMap`.

  `Clear` marks the buckets as unused; its `map->Capacity`, which names no variable, is
  read as `Capacity`.  A table of at most 65536 buckets with a load factor below one
  answers every call, `Clear` and `Replace` included, as a finite map does
  (`staticHashMap_serves_keyMap`).

  Whatever the buffer holds, no call reads or writes a bucket past the capacity, which
  are the buckets that `GetMemSize` counts (`graft` and the lockstep lemmas below).
-/
import ScalBase.HashMaps.Replace
import ScalBase.HashMaps.Memory

set_option autoImplicit false

namespace ScalBase.HashMaps

open Foundation Foundation.Cyclic Foundation.RobinHood Foundation.Slots

variable {K V : Type*}

/-- `StaticHashMap::GetMemSize`. -/
def getMemSize (sizeofBucket capacity : Nat) : Nat := sizeofBucket * initCapacity capacity

/-- `StaticHashMap::Clear`. -/
def clear (m : StaticHashMap K V) : StaticHashMap K V :=
  { (List.range m.capacity).foldl (fun m i => m.vacate i) m with count := 0 }

/-- A call of the whole interface. -/
inductive TableCall (K V : Type*) where
  | call (c : MapCall K V)
  | clear

/-- The result of a call, as a caller sees it who does not look at indexes. -/
inductive TableReply (V : Type*) where
  | added (doesExist isMapFull : Bool)
  | got (value : Option V)
  | removed (found : Bool)
  | replaced (found : Bool)
  | cleared
  deriving DecidableEq, Repr

/-- The index of a bucket is left out. -/
def MapReply.seen : MapReply V → TableReply V
  | .added result => .added result.doesExist result.isMapFull
  | .got value => .got (value.map Prod.snd)
  | .removed found => .removed found
  | .replaced found => .replaced found

/-- A call: what the caller sees, the count after it, and the map after it. -/
def serve [BEq K] (hash : K → UInt64) (fuel : Nat) (m : StaticHashMap K V) :
    TableCall K V → Option ((TableReply V × Nat) × StaticHashMap K V)
  | .call c => (call hash fuel m c).map fun r => ((r.1.1.seen, r.1.2), r.2)
  | .clear => some ((.cleared, 0), clear m)

/-- The same call on a finite map. -/
def mapServe [BEq K] (x : KeyMap K V) : TableCall K V → (TableReply V × Nat) × KeyMap K V
  | .call (.add key value) =>
      let full := decide (x.entries.length = x.limit)
      let after := x.add key value
      ((.added (!full && (x.lookup key).isSome) full, after.entries.length), after)
  | .call (.get key) => ((.got (x.lookup key), x.entries.length), x)
  | .call (.remove key) =>
      let after := x.remove key
      ((.removed (x.lookup key).isSome, after.entries.length), after)
  | .call (.replace key value) =>
      -- A full map is not looked at, and a key that is not there goes in.
      let found := !decide (x.entries.length = x.limit) && (x.lookup key).isSome
      let after := if found then x.set key value else x.add key value
      ((.replaced found, after.entries.length), after)
  | .clear => ((.cleared, 0), ⟨[], x.limit⟩)

/-! ## Clear -/

/-- The buckets below `n` have been cleared. -/
theorem foldl_vacate (m : StaticHashMap K V) (n : Nat) :
    let m' := (List.range n).foldl (fun m i => m.vacate i) m
    m'.capacity = m.capacity ∧ m'.maxCount = m.maxCount ∧
      (∀ i < n, (m'.buckets i).isUsed = false) ∧ ∀ i, n ≤ i → m'.buckets i = m.buckets i := by
  induction n with
  | zero => exact ⟨rfl, rfl, fun i hi => absurd hi (Nat.not_lt_zero i), fun _ _ => rfl⟩
  | succ n ih =>
    obtain ⟨hcapacity, hmax, hbelow, habove⟩ := ih
    rw [List.range_succ, List.foldl_append, List.foldl_cons, List.foldl_nil]
    refine ⟨hcapacity, hmax, fun i hi => ?_, fun i hi => ?_⟩
    · rcases Nat.lt_succ_iff_lt_or_eq.mp hi with hlt | rfl
      · rw [StaticHashMap.vacate, StaticHashMap.setBucket_buckets, Function.update_of_ne hlt.ne]
        exact hbelow i hlt
      · rw [StaticHashMap.vacate, StaticHashMap.setBucket_buckets, Function.update_self]
    · rw [StaticHashMap.vacate, StaticHashMap.setBucket_buckets, Function.update_of_ne (by omega)]
      exact habove i (by omega)

theorem clear_spec (m : StaticHashMap K V) :
    (clear m).capacity = m.capacity ∧ (clear m).maxCount = m.maxCount ∧ (clear m).count = 0 ∧
      (∀ i < m.capacity, ((clear m).buckets i).isUsed = false) ∧
      ∀ i, m.capacity ≤ i → (clear m).buckets i = m.buckets i := by
  obtain ⟨hcapacity, hmax, hbelow, habove⟩ := foldl_vacate m m.capacity
  exact ⟨hcapacity, hmax, rfl, hbelow, habove⟩

/-! ## A table and its map -/

section Serve

variable [BEq K] {hash : K → UInt64} {size bound : Nat} {m : StaticHashMap K V} {x : KeyMap K V}

theorem Refines.clear (h : Refines hash size bound m x) :
    Refines hash size bound (HashMaps.clear m) ⟨[], x.limit⟩ := by
  obtain ⟨hcapacity, hmax, hcount, hunused, -⟩ := clear_spec m
  have hempty := @refines_empty K V _ hash (HashMaps.clear m) hcount
    fun i hi => hunused i (hcapacity ▸ hi)
  rw [hcapacity, h.capacity, hmax, h.maxCount] at hempty
  rw [h.limit]
  exact hempty

/-- A store of one value under a key that is there. -/
theorem Refines.setValue [EquivBEq K] (h : Refines hash size bound m x) {i : Nat} {key : K}
    (hi : i < m.capacity) (hused : (m.buckets i).isUsed = true)
    (hkey : ((m.buckets i).key == key) = true) (value : V) :
    Refines hash size bound (m.setValue i value) (x.set key value) := by
  have hcell := StaticHashMap.cell_of_used hused
  have hcells : (m.setValue i value).cell =
      Function.update m.cell i (some ((m.buckets i).key, value)) := by
    rw [StaticHashMap.setValue, StaticHashMap.cell_setBucket]
    congr 1
    exact if_pos hused
  have hsplit := held_update_none hi hcell
  have hentries : (m.setValue i value).entries =
      ((m.buckets i).key, value) ::ₘ held m.capacity (Function.update m.cell i none) := by
    have hswap := held_swap hi hcell (e := ((m.buckets i).key, value))
    rw [hsplit, Multiset.cons_swap] at hswap
    rw [StaticHashMap.entries, hcells]
    exact (Multiset.cons_inj_right _).mp hswap
  have hset := x.set_entries_of_mem (h.entries ▸ h.distinct) (h.entries.trans hsplit) hkey value
  have hcard : (m.setValue i value).entries.card = m.entries.card := by
    rw [hentries, StaticHashMap.entries, hsplit, Multiset.card_cons, Multiset.card_cons]
  refine ⟨h.capacity, h.maxCount, h.limit, ?_, ?_, ?_, ?_, h.full⟩
  · -- The pair keeps its home, hence its place in the order.
    have hfollows := h.shape.ordered i hi _ hcell
    have hexact := h.shape.exact i hi _ hcell
    have hord : Ordered m.capacity (home hash m.capacity)
        (Function.update m.cell i (some ((m.buckets i).key, value))) :=
      h.shape.ordered.replace hcell (Nat.le_refl _) hfollows
    have hprobe : (m.setValue i value).probe = m.probe :=
      funext fun j => (m.setValue_rest i j value).2.1
    rw [Shape, hcells, hprobe]
    exact h.shape.write hord hexact fun _ _ => rfl
  · rw [hset, hentries]
  · rw [hentries]
    have hdistinct := h.distinct
    rw [StaticHashMap.entries, hsplit] at hdistinct
    exact hdistinct.tail.cons (hdistinct.not_hasKey_tail BEq.rfl)
  · rw [hcard]
    exact h.count

/-! ## Runs -/

variable (hhash : ∀ a b : K, (a == b) = true → hash a = hash b)
  (hpow : ∃ e < 32, size = 2 ^ e) (hcap : size ≤ 2 ^ 16) (hmax : bound < size) {fuel : Nat}
  (hfuel : size ≤ fuel)

/-- A call answers what the finite map answers, and leaves a table that stands for the map
after the call. -/
def Serves (hash : K → UInt64) (fuel size bound : Nat) (m : StaticHashMap K V) (x : KeyMap K V)
    (c : TableCall K V) : Prop :=
  ∃ m', serve hash fuel m c = some ((mapServe x c).1, m') ∧
    Refines hash size bound m' (mapServe x c).2

theorem Refines.full_iff (h : Refines hash size bound m x) :
    x.entries.length = x.limit ↔ m.count = m.maxCount := by
  rw [h.length_eq, h.limit, h.maxCount]

variable [EquivBEq K]

include hhash hpow hcap hmax hfuel

theorem Refines.serves_add (h : Refines hash size bound m x) (key : K) (value : V) :
    Serves hash fuel size bound m x (.call (.add key value)) := by
  have hadd := h.full_iff
  by_cases hroom : m.count = m.maxCount
  · have hlen := hadd.mpr hroom
    refine ⟨m, ?_, ?_⟩
    · simp [serve, call, mapServe, HashMaps.add, KeyMap.add, MapReply.seen, hroom, hlen,
        h.limit, h.maxCount]
    · simpa [mapServe, KeyMap.add, hlen] using h
  · have hlen := mt hadd.mp hroom
    cases hl : x.lookup key with
    | none =>
      obtain ⟨r, hr, hadded, hrel⟩ := h.add_new hpow hmax hfuel (h.narrow hpow hcap) hroom
        (h.not_wraps hpow hcap hmax key) value hl
      have hcount := hrel.length_eq
      refine ⟨r.2, ?_, hrel⟩
      simp [serve, call, mapServe, hr, MapReply.seen, hadded.notExist, hadded.notFull, hl, hlen,
        hcount]
    | some v =>
      have hsome : (x.lookup key).isSome = true := by rw [hl]; rfl
      obtain ⟨i, -, hrun, -⟩ := h.add_mem hhash hpow hfuel (h.narrow hpow hcap) hroom value hsome
      have hsame : x.add key value = x := by rw [KeyMap.add, if_neg hlen, if_pos hsome]
      refine ⟨m, ?_, by rw [mapServe, hsame]; exact h⟩
      simp [serve, call, mapServe, hrun, MapReply.seen, hsame, hsome, hlen]
      exact h.length_eq.symm

omit hcap in
theorem Refines.serves_get (h : Refines hash size bound m x) (key : K) :
    Serves hash fuel size bound m x (.call (.get key)) := by
  obtain ⟨i, hget, hvalue⟩ := h.get hhash hpow hmax hfuel key
  refine ⟨m, ?_, h⟩
  rw [serve, call, hget, mapServe, ← hvalue, h.length_eq]
  simp [MapReply.seen, Function.comp_def]

omit hcap in
theorem Refines.serves_remove (h : Refines hash size bound m x) (key : K) :
    Serves hash fuel size bound m x (.call (.remove key)) := by
  cases hl : x.lookup key with
  | none =>
    have hrun := h.remove_new hpow hmax hfuel hl
    have hsame := x.remove_of_not_hasKey ((x.lookup_eq_none_iff key).mp hl)
    refine ⟨m, ?_, by rw [mapServe, hsame]; exact h⟩
    simp [serve, call, mapServe, hrun, MapReply.seen, hsame, hl, h.length_eq]
  | some v =>
    obtain ⟨m', hrun, hrel⟩ := h.remove_mem hhash hpow hmax hfuel (by rw [hl]; rfl)
    refine ⟨m', ?_, hrel⟩
    simp [serve, call, mapServe, hrun, MapReply.seen, hl, hrel.length_eq]

theorem Refines.serves_replace (h : Refines hash size bound m x) (key : K) (value : V) :
    Serves hash fuel size bound m x (.call (.replace key value)) := by
  by_cases hroom : m.count = m.maxCount
  · have hlen := h.full_iff.mpr hroom
    have hsame : x.add key value = x := by rw [KeyMap.add, if_pos hlen]
    refine ⟨m, ?_, ?_⟩
    · simp [serve, call, mapServe, replace_full hroom, MapReply.seen, hsame, hlen, ← h.length_eq]
    · simpa [mapServe, hsame, hlen] using h
  · have hlen := mt h.full_iff.mp hroom
    cases hl : x.lookup key with
    | none =>
      obtain ⟨r, hr, hadded, hrel⟩ := h.add_new hpow hmax hfuel (h.narrow hpow hcap) hroom
        (h.not_wraps hpow hcap hmax key) value hl
      have hrun : HashMaps.replace hash fuel m key value = some (false, r.2) := by
        rw [replace, hr]
        simp only [hadded.notExist, Bool.false_eq_true, if_false]
      refine ⟨r.2, ?_, by simpa [mapServe, hl] using hrel⟩
      simp [serve, call, mapServe, hrun, MapReply.seen, hl, hrel.length_eq]
    | some v =>
      have hk : HasKey m.entries key := (h.hasKey_iff key).mpr (by rw [hl]; rfl)
      obtain ⟨i, hrun, hget⟩ := h.replace_mem hhash hpow hcap hfuel hroom value hk
      obtain ⟨hi, hused, hkey⟩ := h.get_key hhash hpow hmax hfuel hget
      have hrel := h.setValue hi hused hkey value
      refine ⟨m.setValue i value, ?_, by simpa [mapServe, hl, hlen] using hrel⟩
      simp [serve, call, mapServe, hrun, MapReply.seen, hl, hlen, hrel.length_eq]

theorem Refines.serves (h : Refines hash size bound m x) (c : TableCall K V) :
    Serves hash fuel size bound m x c := by
  cases c with
  | call c =>
    cases c with
    | add key value => exact h.serves_add hhash hpow hcap hmax hfuel key value
    | get key => exact h.serves_get hhash hpow hmax hfuel key
    | remove key => exact h.serves_remove hhash hpow hmax hfuel key
    | replace key value => exact h.serves_replace hhash hpow hcap hmax hfuel key value
  | clear => exact ⟨HashMaps.clear m, rfl, h.clear⟩

end Serve

section Runs

variable [BEq K] {hash : K → UInt64} {capacity fuel : Nat} {loadFactor : ℚ}
  {memory : Nat → StaticHashMapBucket K V}

/-- `Init` over unused buckets stands for the empty map. -/
theorem init_refines (hunused : Unused capacity memory) :
    Refines hash (initCapacity capacity) (init memory capacity loadFactor).maxCount
      (init memory capacity loadFactor) ⟨[], (init memory capacity loadFactor).maxCount⟩ :=
  refines_empty (init memory capacity loadFactor) rfl hunused

/-- Over every sequence of calls, `Clear` and `Replace` included, from an `Init` over unused
buckets, every call returns and answers as the finite map that the same calls build. -/
theorem staticHashMap_serves_keyMap [EquivBEq K]
    (hhash : ∀ a b : K, (a == b) = true → hash a = hash b) (hcapacity : capacity < 2 ^ 32)
    (hcap : initCapacity capacity ≤ 65536) (hfactor : loadFactor < 1)
    (hpos : 0 < (init memory capacity loadFactor).maxCount) (hunused : Unused capacity memory)
    (hfuel : initCapacity capacity ≤ fuel) (calls : List (TableCall K V)) :
    replies (serve hash fuel) (init memory capacity loadFactor) calls =
      replies (fun x c => some (mapServe x c))
        ⟨[], (init memory capacity loadFactor).maxCount⟩ calls := by
  have hpow := initCapacity_spec hcapacity hpos
  have hmax : (init memory capacity loadFactor).maxCount < initCapacity capacity := by
    obtain ⟨k, -, hk⟩ := hpow
    have hsize : (0 : ℚ) < initCapacity capacity := by
      rw [hk]
      positivity
    have hne : initCapacity capacity ≠ 0 := by
      rw [hk]
      exact (Nat.two_pow_pos k).ne'
    exact (Nat.floor_lt' hne).mpr (mul_lt_of_lt_one_right hsize hfactor)
  refine replies_eq
    (Refines hash (initCapacity capacity) (init memory capacity loadFactor).maxCount)
    (fun m x c h => ?_) calls (init_refines hunused)
  obtain ⟨m', hserve, hrel⟩ := h.serves hhash hpow hcap hmax hfuel c
  rw [hserve]
  exact .some ⟨rfl, hrel⟩

/-- Four buckets, two of which may be used, over a buffer with old keys and values. -/
theorem staticHashMap_serves_keyMap_four :
    let memory : Nat → StaticHashMapBucket Nat Nat := fun i => ⟨i, 5, false, 9⟩
    let calls : List (TableCall Nat Nat) := [.call (.add 1 10), .call (.replace 1 11),
      .call (.add 2 20), .call (.replace 2 21), .clear, .call (.get 1), .call (.replace 1 12)]
    replies (serve (fun _ => 3) 4) (init memory 3 (1 / 2)) calls =
      replies (fun x c => some (mapServe x c)) ⟨[], (init memory 3 (1 / 2)).maxCount⟩ calls :=
  staticHashMap_serves_keyMap (fun _ _ _ => rfl) (by decide) (by decide) (by norm_num)
    (by decide +kernel) (fun _ _ => rfl) (by decide) _

end Runs

/-! ## Nothing past the capacity -/

section Within

/-- The table has `size` buckets and the memory from there on is `outer`. -/
structure Within (size : Nat) (outer : Nat → StaticHashMapBucket K V) (m : StaticHashMap K V) :
    Prop where
  capacity : m.capacity = size
  outer : ∀ i, size ≤ i → m.buckets i = outer i

variable {size : Nat} {outer : Nat → StaticHashMapBucket K V} {m : StaticHashMap K V}

theorem Within.setBucket (h : Within size outer m) {i : Nat} (hi : i < size)
    (b : StaticHashMapBucket K V) : Within size outer (m.setBucket i b) := by
  refine ⟨h.capacity, fun j hj => ?_⟩
  rw [StaticHashMap.setBucket_buckets, Function.update_of_ne (by omega)]
  exact h.outer j hj

theorem Within.setCount (h : Within size outer m) (count : Nat) :
    Within size outer { m with count := count } := ⟨h.capacity, h.outer⟩

theorem Within.clear (h : Within size outer m) : Within size outer (HashMaps.clear m) := by
  obtain ⟨hcapacity, -, -, -, habove⟩ := clear_spec m
  exact ⟨hcapacity.trans h.capacity, fun i hi => (habove i (h.capacity ▸ hi)).trans (h.outer i hi)⟩

theorem Within.advance_lt (h : Within size outer m) {i : Nat} (hi : i < size) :
    next m.capacity i < size := by
  rw [h.capacity]
  exact next_lt hi

theorem Within.moveBack (h : Within size outer m) {index lastIndex : Nat} (hindex : index < size)
    (hlast : lastIndex < size) : Within size outer (m.moveBack index lastIndex) :=
  (h.setBucket hindex _).setBucket hlast _

/-- Every turn of `Add` is at a bucket of the table. -/
theorem addTurn_within [BEq K] {s : AddLoop K V} (h : Within size outer s.map ∧ s.idx < size) :
    (∃ r, addTurn s = .done r ∧ Within size outer r.2 ∧
        (r.1.doesExist = true → r.1.index < size)) ∨
      ∃ s', addTurn s = .again s' ∧ Within size outer s'.map ∧ s'.idx < size := by
  obtain ⟨hmap, hidx⟩ := h
  have hnext := hmap.advance_lt hidx
  cases hused : (s.map.buckets s.idx).isUsed with
  | false =>
    refine .inl ⟨_, addTurn_place hused, ?_, fun hexist => by cases hexist⟩
    exact (hmap.setBucket hidx _).setCount _
  | true =>
    cases hk : (s.map.buckets s.idx).key == s.swapBucket.key with
    | true => exact .inl ⟨_, addTurn_exists hused hk, hmap, fun _ => hidx⟩
    | false =>
      rcases Nat.lt_or_ge (s.map.buckets s.idx).probeLength s.probeLength with hlt | hle
      · exact .inr ⟨_, addTurn_displace hused hk hlt, hmap.setBucket hidx _, hnext⟩
      · exact .inr ⟨_, addTurn_pass hused hk hle, hmap, hnext⟩

theorem removeTurn_within [BEq K] (h : Within size outer m) {key : K} {index : Nat}
    (hindex : index < size) :
    (∃ r, removeTurn m key index = .done r ∧ ∀ i ∈ r, i < size) ∨
      ∃ i, removeTurn m key index = .again i ∧ i < size := by
  have hnext := h.advance_lt hindex
  cases hused : (m.buckets index).isUsed with
  | false => exact .inl ⟨none, removeTurn_null hused, fun i hi => by cases hi⟩
  | true =>
    cases hk : key == (m.buckets index).key with
    | true =>
      exact .inl ⟨some index, removeTurn_found hused hk, fun i hi => by cases hi; exact hindex⟩
    | false => exact .inr ⟨_, removeTurn_pass hused hk, hnext⟩

theorem shiftTurn_within {s : StaticHashMap K V × Nat} (h : Within size outer s.1 ∧ s.2 < size) :
    (∃ m', shiftTurn s = .done m' ∧ Within size outer m') ∨
      ∃ s', shiftTurn s = .again s' ∧ Within size outer s'.1 ∧ s'.2 < size := by
  obtain ⟨hmap, hlast⟩ := h
  have hnext := hmap.advance_lt hlast
  unfold shiftTurn
  dsimp only
  split
  · exact .inl ⟨_, rfl, (hmap.setBucket hlast _).setCount _⟩
  · exact .inr ⟨_, rfl, hmap.moveBack hnext hlast, hnext⟩

section Calls

variable [BEq K] {hash : K → UInt64} {fuel : Nat} (hpow : ∃ k < 32, size = 2 ^ k)

include hpow

omit [BEq K] in
theorem Within.start_lt (h : Within size outer m) (hash : K → UInt64) (key : K) :
    hashAndMod hash key m.capacity < size := by
  rw [h.capacity]
  exact hashAndMod_lt_two_pow hash key hpow

theorem Within.add (h : Within size outer m) (key : K) (value : V)
    {r : StaticHashMapAddResult × StaticHashMap K V}
    (hadd : HashMaps.add hash fuel m key value = some r) :
    Within size outer r.2 ∧ (r.1.doesExist = true → r.1.index < size) := by
  rw [HashMaps.add] at hadd
  split at hadd
  · cases hadd
    exact ⟨h, fun hexist => by cases hexist⟩
  · exact Loop.run_result (fun s : AddLoop K V => Within size outer s.map ∧ s.idx < size)
      (fun r => Within size outer r.2 ∧ (r.1.doesExist = true → r.1.index < size))
      (fun s hs => addTurn_within hs) ⟨h, h.start_lt hpow hash key⟩ hadd

theorem Within.replace (h : Within size outer m) (key : K) (value : V)
    {r : Bool × StaticHashMap K V} (hreplace : HashMaps.replace hash fuel m key value = some r) :
    Within size outer r.2 := by
  rw [HashMaps.replace] at hreplace
  cases hadd : HashMaps.add hash fuel m key value with
  | none =>
    rw [hadd] at hreplace
    cases hreplace
  | some a =>
    obtain ⟨hwithin, hindex⟩ := h.add hpow key value hadd
    rw [hadd] at hreplace
    dsimp only at hreplace
    split at hreplace
    · cases hreplace
      exact hwithin.setBucket (hindex ‹_›) _
    · cases hreplace
      exact hwithin

theorem Within.remove (h : Within size outer m) (key : K) {r : Bool × StaticHashMap K V}
    (hremove : HashMaps.remove hash fuel m key = some r) : Within size outer r.2 := by
  rw [HashMaps.remove] at hremove
  split at hremove
  · cases hremove
    exact h
  · cases hsearch : Loop.run (removeTurn m key) fuel (hashAndMod hash key m.capacity) with
    | none =>
      rw [hsearch] at hremove
      cases hremove
    | some found =>
      have hfound : ∀ i ∈ found, i < size :=
        Loop.run_result (fun i => i < size) (fun found : Option Nat => ∀ i ∈ found, i < size)
          (fun i hi => removeTurn_within h hi) (h.start_lt hpow hash key) hsearch
      rw [hsearch] at hremove
      cases found with
      | none =>
        cases hremove
        exact h
      | some index =>
        obtain ⟨m', hshift, rfl⟩ := Option.map_eq_some_iff.mp hremove
        exact Loop.run_result
          (fun s : StaticHashMap K V × Nat => Within size outer s.1 ∧ s.2 < size)
          (Within size outer) (fun s hs => shiftTurn_within hs) ⟨h, hfound index rfl⟩ hshift

theorem Within.serve (h : Within size outer m) (c : TableCall K V)
    {r : (TableReply V × Nat) × StaticHashMap K V} (hserve : serve hash fuel m c = some r) :
    Within size outer r.2 := by
  cases c with
  | clear =>
    cases hserve
    exact h.clear
  | call c =>
    obtain ⟨a, hcall, rfl⟩ := Option.map_eq_some_iff.mp hserve
    cases c with
    | add key value =>
      obtain ⟨b, hadd, rfl⟩ := Option.map_eq_some_iff.mp hcall
      exact (h.add hpow key value hadd).1
    | get key =>
      obtain ⟨b, -, rfl⟩ := Option.map_eq_some_iff.mp hcall
      exact h
    | remove key =>
      obtain ⟨b, hremove, rfl⟩ := Option.map_eq_some_iff.mp hcall
      exact h.remove hpow key hremove
    | replace key value =>
      obtain ⟨b, hreplace, rfl⟩ := Option.map_eq_some_iff.mp hcall
      exact h.replace hpow key value hreplace

end Calls

end Within

section Reads

variable [BEq K] {hash : K → UInt64} {fuel size : Nat} {m m' : StaticHashMap K V}

omit [BEq K] in
theorem Agree.clear (h : Agree size m m') : Agree size (HashMaps.clear m) (HashMaps.clear m') := by
  obtain ⟨hcapacity, hmax, -, hunused, -⟩ := clear_spec m
  obtain ⟨hcapacity', hmax', -, hunused', -⟩ := clear_spec m'
  refine ⟨hcapacity.trans h.size_eq, ?_, rfl, ?_, fun i hi => Or.inr ⟨hunused i ?_, hunused' i ?_⟩⟩
  · rw [hcapacity', hcapacity, h.capacity]
  · rw [hmax', hmax, h.maxCount]
  · rwa [hcapacity] at hi
  · rwa [hcapacity, ← h.capacity] at hi

theorem Agree.serve (h : Agree size m m') (hpow : ∃ k < 32, size = 2 ^ k) (c : TableCall K V) :
    Option.Rel (AgreeWith size) (HashMaps.serve hash fuel m c) (HashMaps.serve hash fuel m' c) := by
  cases c with
  | call c =>
    refine rel_map (h.call hpow c) fun x y hxy => ⟨?_, hxy.2⟩
    dsimp only
    rw [hxy.1]
  | clear => exact .some ⟨rfl, h.clear⟩

end Reads

theorem lt_getMemSize_iff {sizeofBucket : Nat} (hsize : 0 < sizeofBucket) (capacity i : Nat) :
    sizeofBucket * i < getMemSize sizeofBucket capacity ↔ i < initCapacity capacity :=
  Nat.mul_lt_mul_left hsize

/-- A buffer of `GetMemSize` bytes is enough.  Whatever it holds, and whatever lies behind
it, the results of a sequence of calls depend on the buckets that begin in it only, and
those behind it are as they were. -/
theorem calls_within_memory [BEq K] {hash : K → UInt64} {capacity fuel sizeofBucket : Nat}
    {loadFactor : ℚ} {memory memory' : Nat → StaticHashMapBucket K V}
    (hcapacity : capacity < 2 ^ 32)
    (hpos : 0 < (init memory capacity loadFactor).maxCount) (hsize : 0 < sizeofBucket)
    (hsame : ∀ i, sizeofBucket * i < getMemSize sizeofBucket capacity → memory' i = memory i)
    (calls : List (TableCall K V)) :
    replies (serve hash fuel) (init memory' capacity loadFactor) calls =
        replies (serve hash fuel) (init memory capacity loadFactor) calls ∧
      ∀ m, exec (fun m c => (serve hash fuel m c).map (·.2)) (init memory capacity loadFactor)
          calls = some m →
        ∀ i, getMemSize sizeofBucket capacity ≤ sizeofBucket * i → m.buckets i = memory i := by
  have hpow := initCapacity_spec hcapacity hpos
  constructor
  · refine replies_eq (Agree (initCapacity capacity)) (fun m m' c h => h.serve hpow c) calls ?_
    refine ⟨rfl, rfl, rfl, rfl, fun i hi => Or.inl (hsame i ?_)⟩
    exact (lt_getMemSize_iff hsize capacity i).mpr hi
  · intro m hexec i hbehind
    have hwithin : Within (initCapacity capacity) memory m := by
      refine exec_keeps (Within (initCapacity capacity) memory) ?_ ⟨rfl, fun _ _ => rfl⟩ hexec
      intro m c m' h hstep
      obtain ⟨r, hserve, rfl⟩ := Option.map_eq_some_iff.mp hstep
      exact h.serve hpow c hserve
    refine hwithin.outer i (Nat.le_of_not_lt fun hlt => ?_)
    exact Nat.not_lt_of_le hbehind ((lt_getMemSize_iff hsize capacity i).mpr hlt)

/-- Four stale buckets of 24 bytes with different memory behind them. -/
theorem calls_within_memory_four :
    let memory : Nat → StaticHashMapBucket Nat Nat := fun i => ⟨i, 0, i == 1, 9⟩
    let memory' : Nat → StaticHashMapBucket Nat Nat :=
      fun i => if i < 4 then memory i else ⟨7, 7, true, 7⟩
    let calls : List (TableCall Nat Nat) := [.call (.add 1 10), .call (.remove 1), .clear]
    replies (serve (fun _ => 0) 8) (init memory' 3 (1 / 2)) calls =
        replies (serve (fun _ => 0) 8) (init memory 3 (1 / 2)) calls ∧
      ∀ m, exec (fun m c => (serve (fun _ => 0) 8 m c).map (·.2)) (init memory 3 (1 / 2))
          calls = some m → ∀ i, getMemSize 24 3 ≤ 24 * i → m.buckets i = memory i :=
  calls_within_memory (show 3 < 2 ^ 32 by decide)
    (show 0 < (init (fun i => ⟨i, 0, i == 1, 9⟩) 3 (1 / 2)).maxCount by decide +kernel)
    (by decide) (fun i hi => if_pos ((lt_getMemSize_iff (by decide) 3 i).mp hi)) _

end ScalBase.HashMaps
