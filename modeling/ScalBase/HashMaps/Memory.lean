/-
  HashMaps/Memory.lean --- what a `StaticHashMap` does with the memory it is given.

  `Init` takes the memory as its buckets without clearing them.  No loop looks at a
  field of an unused bucket other than `IsUsed`, so two memories in which the same
  buckets are used, with the same contents, give runs that no caller can tell apart
  (`Agree` and the lockstep lemmas below).  A used bucket below the capacity is seen:
  the first `Add` that hashes to it does not put its key there.
-/
import Mathlib.Data.Set.Basic
import ScalBase.HashMaps.Invariant

set_option autoImplicit false

namespace ScalBase.HashMaps

open Foundation Foundation.Cyclic

variable {K V : Type*}

/-! ## Sequences of calls -/

/-- A call of the map. -/
inductive MapCall (K V : Type*) where
  | add (key : K) (value : V)
  | get (key : K)
  | remove (key : K)
  | replace (key : K) (value : V)

/-- The result of a call.  `Get` returns a pointer: the bucket it points into and the
value it points at, or none for null. -/
inductive MapReply (V : Type*) where
  | added (result : StaticHashMapAddResult)
  | got (value : Option (Nat × V))
  | removed (found : Bool)
  | replaced (found : Bool)
  deriving DecidableEq

/-- A call: its result with the count after it, and the map after it. -/
def call [BEq K] (hash : K → UInt64) (fuel : Nat) (m : StaticHashMap K V) :
    MapCall K V → Option ((MapReply V × Nat) × StaticHashMap K V)
  | .add key value =>
      (add hash fuel m key value).map fun (res, m) => ((.added res, m.count), m)
  | .get key =>
      (get hash fuel m key).map fun i =>
        ((.got (i.map fun i => (i, (m.buckets i).value)), m.count), m)
  | .remove key => (remove hash fuel m key).map fun (found, m) => ((.removed found, m.count), m)
  | .replace key value =>
      (replace hash fuel m key value).map fun (found, m) => ((.replaced found, m.count), m)

/-- The runs from two contents of the buffer: every sequence of calls has the same results
and counts, and stops at the same call. -/
def SameRuns [BEq K] (capacity : Nat) (loadFactor : ℚ)
    (memory memory' : Nat → StaticHashMapBucket K V) : Prop :=
  ∀ (hash : K → UInt64) (fuel : Nat) (calls : List (MapCall K V)),
    replies (call hash fuel) (init memory capacity loadFactor) calls =
      replies (call hash fuel) (init memory' capacity loadFactor) calls

/-- No bucket of the buffer is marked as used. -/
def Unused (capacity : Nat) (memory : Nat → StaticHashMapBucket K V) : Prop :=
  ∀ i < initCapacity capacity, (memory i).isUsed = false

/-! ## Memories that look alike -/

/-- Two buckets that no loop tells apart. -/
def Alike (b b' : StaticHashMapBucket K V) : Prop :=
  b = b' ∨ (b.isUsed = false ∧ b'.isUsed = false)

theorem Alike.isUsed {b b' : StaticHashMapBucket K V} (h : Alike b b') : b'.isUsed = b.isUsed := by
  rcases h with rfl | ⟨hb, hb'⟩
  · rfl
  · rw [hb, hb']

theorem Alike.eq_of_used {b b' : StaticHashMapBucket K V} (h : Alike b b')
    (hused : b.isUsed = true) : b' = b := by
  rcases h with rfl | ⟨hb, -⟩
  · rfl
  · rw [hb] at hused; cases hused

/-- Two maps of `size` buckets with equal counters and buckets that look alike. -/
structure Agree (size : Nat) (m m' : StaticHashMap K V) : Prop where
  size_eq : m.capacity = size
  capacity : m'.capacity = m.capacity
  count : m'.count = m.count
  maxCount : m'.maxCount = m.maxCount
  buckets : ∀ i < m.capacity, Alike (m.buckets i) (m'.buckets i)

section Agreement

variable {size : Nat} {m m' : StaticHashMap K V} (h : Agree size m m')

include h

theorem Agree.setBucket (i : Nat) {b b' : StaticHashMapBucket K V} (hb : Alike b b') :
    Agree size (m.setBucket i b) (m'.setBucket i b') := by
  refine ⟨h.size_eq, h.capacity, h.count, h.maxCount, fun j hj => ?_⟩
  by_cases hji : j = i
  · subst hji; simpa using hb
  · simpa [hji] using h.buckets j hj

theorem Agree.setCount (count : Nat) :
    Agree size { m with count := count } { m' with count := count } :=
  ⟨h.size_eq, h.capacity, rfl, h.maxCount, h.buckets⟩

theorem Agree.vacate (i : Nat) : Agree size (m.vacate i) (m'.vacate i) :=
  h.setBucket i (Or.inr ⟨rfl, rfl⟩)

theorem Agree.moveBack {index : Nat} (hbucket : m'.buckets index = m.buckets index)
    (lastIndex : Nat) : Agree size (m.moveBack index lastIndex) (m'.moveBack index lastIndex) := by
  rw [StaticHashMap.moveBack, StaticHashMap.moveBack, hbucket]
  exact (h.setBucket index (Or.inl rfl)).setBucket lastIndex (Or.inl rfl)

end Agreement

/-- The same result, and maps that agree. -/
def AgreeWith {ρ : Type*} (size : Nat) (x y : ρ × StaticHashMap K V) : Prop :=
  x.1 = y.1 ∧ Agree size x.2 y.2

/-- The same result and the same count, and maps that agree. -/
theorem AgreeWith.counted {ρ : Type*} {size : Nat} {x y : ρ × StaticHashMap K V}
    (h : AgreeWith size x y) (f : ρ → MapReply V) :
    AgreeWith size ((f x.1, x.2.count), x.2) ((f y.1, y.2.count), y.2) :=
  ⟨by rw [h.1, h.2.count], h.2⟩

/-- The relation of two results of `Add`: the bucket of a key that exists is the same. -/
def AddedAgree (size : Nat) (x y : StaticHashMapAddResult × StaticHashMap K V) : Prop :=
  AgreeWith size x y ∧ (x.1.doesExist = true → y.2.buckets x.1.index = x.2.buckets x.1.index)

/-! ## The loops in lockstep -/

section Loops

/-- Two states of the loop in `Add` over maps that agree. -/
structure AddAgree (size : Nat) (s s' : AddLoop K V) : Prop where
  locals : s' = { s with map := s'.map }
  map : Agree size s.map s'.map
  bound : s.idx < s.map.capacity

theorem AddAgree.advance {size : Nat} {s s' : AddLoop K V} (h : AddAgree size s s') :
    AddAgree size s.advance s'.advance := by
  obtain ⟨hlocals, hmap, hbound⟩ := h
  generalize s'.map = m' at hlocals hmap
  subst hlocals
  refine ⟨?_, hmap, next_lt hbound⟩
  simp only [AddLoop.advance, hmap.capacity]

theorem AddAgree.displace {size : Nat} {s s' : AddLoop K V} (h : AddAgree size s s')
    (hbucket : s'.map.buckets s.idx = s.map.buckets s.idx) :
    AddAgree size s.displace s'.displace := by
  obtain ⟨hlocals, hmap, hbound⟩ := h
  generalize s'.map = m' at hlocals hmap hbucket
  subst hlocals
  refine ⟨?_, hmap.setBucket s.idx (Or.inl rfl), hbound⟩
  simp only [AddLoop.displace, hbucket]

theorem AddAgree.place {size : Nat} {s s' : AddLoop K V} (h : AddAgree size s s') :
    AddedAgree size s.place s'.place := by
  obtain ⟨hlocals, hmap, hbound⟩ := h
  generalize s'.map = m' at hlocals hmap
  subst hlocals
  have hset := hmap.setBucket s.idx
    (Or.inl (Eq.refl { s.swapBucket with probeLength := s.probeLength }))
  refine ⟨⟨rfl, ?_⟩, fun hexist => by cases hexist⟩
  have hcount := hset.count
  simp only [AddLoop.place, hcount]
  exact hset.setCount _

variable [BEq K]

theorem addTurn_lift {size : Nat} {s s' : AddLoop K V} (h : AddAgree size s s') :
    Turn.Lift (AddAgree size) (AddedAgree size) (addTurn s) (addTurn s') := by
  have hidx : s'.idx = s.idx := by rw [h.locals]
  have hkey : s'.swapBucket = s.swapBucket := by rw [h.locals]
  have hprobe : s'.probeLength = s.probeLength := by rw [h.locals]
  have halike := h.map.buckets s.idx h.bound
  cases hused : (s.map.buckets s.idx).isUsed with
  | false =>
    have hused' : (s'.map.buckets s'.idx).isUsed = false := by rw [hidx, halike.isUsed, hused]
    rw [addTurn_place hused, addTurn_place hused']
    exact .done h.place
  | true =>
    have hbucket := halike.eq_of_used hused
    have hused' : (s'.map.buckets s'.idx).isUsed = true := by rw [hidx, hbucket, hused]
    cases hk : (s.map.buckets s.idx).key == s.swapBucket.key with
    | true =>
      rw [addTurn_exists hused hk, addTurn_exists hused' (by rw [hidx, hbucket, hkey, hk]), hidx]
      exact .done ⟨⟨rfl, h.map⟩, fun _ => hbucket⟩
    | false =>
      have hk' : ((s'.map.buckets s'.idx).key == s'.swapBucket.key) = false := by
        rw [hidx, hbucket, hkey, hk]
      by_cases hle : s.probeLength ≤ (s.map.buckets s.idx).probeLength
      · rw [addTurn_pass hused hk hle,
          addTurn_pass hused' hk' (by rw [hprobe, hidx, hbucket]; exact hle)]
        exact .again h.advance
      · have hlt := Nat.lt_of_not_le hle
        rw [addTurn_displace hused hk hlt,
          addTurn_displace hused' hk' (by rw [hprobe, hidx, hbucket]; exact hlt)]
        exact .again (h.displace hbucket).advance

variable {size : Nat} {m m' : StaticHashMap K V} (h : Agree size m m')

include h

theorem getTurn_lift {key : K} {s : GetLoop} (hs : s.idx < m.capacity) :
    Turn.Lift (fun s s' => s = s' ∧ s.idx < m.capacity)
      (fun i i' : Option Nat => i = i' ∧ ∀ j ∈ i, m'.buckets j = m.buckets j)
      (getTurn m key s) (getTurn m' key s) := by
  have halike := h.buckets s.idx hs
  cases hused : (m.buckets s.idx).isUsed with
  | false =>
    rw [getTurn_null hused, getTurn_null (by rw [halike.isUsed, hused])]
    exact .done ⟨rfl, fun j hj => by cases hj⟩
  | true =>
    have hbucket := halike.eq_of_used hused
    simp only [getTurn, hbucket, h.capacity]
    split_ifs
    · exact .done ⟨rfl, fun j hj => by cases hj⟩
    · exact .done ⟨rfl, fun j hj => by cases hj; exact hbucket⟩
    · exact .again ⟨rfl, next_lt hs⟩

theorem removeTurn_lift {key : K} {index : Nat} (hindex : index < m.capacity) :
    Turn.Lift (fun i i' => i = i' ∧ i < m.capacity)
      (fun i i' : Option Nat => i = i' ∧ ∀ j ∈ i, j < m.capacity)
      (removeTurn m key index) (removeTurn m' key index) := by
  have halike := h.buckets index hindex
  cases hused : (m.buckets index).isUsed with
  | false =>
    rw [removeTurn_null hused, removeTurn_null (by rw [halike.isUsed, hused])]
    exact .done ⟨rfl, fun j hj => by cases hj⟩
  | true =>
    have hbucket := halike.eq_of_used hused
    have hused' : (m'.buckets index).isUsed = true := halike.isUsed.trans hused
    cases hk : key == (m.buckets index).key with
    | true =>
      rw [removeTurn_found hused hk, removeTurn_found hused' (by rw [hbucket, hk])]
      exact .done ⟨rfl, fun j hj => by cases hj; exact hindex⟩
    | false =>
      rw [removeTurn_pass hused hk, removeTurn_pass hused' (by rw [hbucket, hk]), h.capacity]
      exact .again ⟨rfl, next_lt hindex⟩

omit [BEq K] in
theorem shiftTurn_lift {lastIndex : Nat} (hlast : lastIndex < m.capacity) :
    Turn.Lift
      (fun s s' : StaticHashMap K V × Nat => Agree size s.1 s'.1 ∧ s.2 = s'.2 ∧ s.2 < s.1.capacity)
      (Agree size) (shiftTurn (m, lastIndex)) (shiftTurn (m', lastIndex)) := by
  have hindex : next m.capacity lastIndex < m.capacity := next_lt hlast
  have halike := h.buckets _ hindex
  have hend : Agree size { m.vacate lastIndex with count := m.count - 1 }
      { m'.vacate lastIndex with count := m'.count - 1 } := by
    rw [h.count]
    exact (h.vacate lastIndex).setCount _
  cases hused : (m.buckets (next m.capacity lastIndex)).isUsed with
  | false =>
    have hused' := halike.isUsed.trans hused
    simp only [shiftTurn, h.capacity, hused, hused', true_or, if_true]
    exact .done hend
  | true =>
    have hbucket := halike.eq_of_used hused
    simp only [shiftTurn, h.capacity, hbucket]
    split_ifs
    · exact .done hend
    · exact .again ⟨h.moveBack hbucket lastIndex, rfl, hindex⟩

end Loops

/-! ## The calls in lockstep -/

theorem hashAndMod_lt_two_pow (hash : K → UInt64) (key : K) {capacity : Nat}
    (hpow : ∃ k < 32, capacity = 2 ^ k) : hashAndMod hash key capacity < capacity := by
  obtain ⟨k, hk, rfl⟩ := hpow
  exact fastModulo_lt hk

section Calls

theorem Agree.start_lt {size : Nat} {m m' : StaticHashMap K V} (h : Agree size m m')
    (hpow : ∃ k < 32, size = 2 ^ k) (hash : K → UInt64) (key : K) :
    hashAndMod hash key m.capacity < m.capacity :=
  hashAndMod_lt_two_pow hash key (h.size_eq ▸ hpow)

variable [BEq K] {hash : K → UInt64} {fuel : Nat} {size : Nat} {m m' : StaticHashMap K V}
variable (h : Agree size m m') (hpow : ∃ k < 32, size = 2 ^ k)

include h hpow

theorem Agree.add (key : K) (value : V) :
    Option.Rel (AddedAgree size) (HashMaps.add hash fuel m key value)
      (HashMaps.add hash fuel m' key value) := by
  rw [HashMaps.add, HashMaps.add, h.count, h.maxCount]
  split_ifs
  · exact .some ⟨⟨rfl, h⟩, fun hexist => by cases hexist⟩
  · refine Loop.run_lift (AddAgree size) (AddedAgree size) (fun s s' hs => addTurn_lift hs) fuel
      ⟨?_, h, ?_⟩
    · rw [h.capacity]
    · exact h.start_lt hpow hash key

theorem Agree.replace (key : K) (value : V) :
    Option.Rel (AgreeWith size) (HashMaps.replace hash fuel m key value)
      (HashMaps.replace hash fuel m' key value) := by
  have hadd := @Agree.add K V _ hash fuel size m m' h hpow key value
  rw [HashMaps.replace, HashMaps.replace]
  generalize HashMaps.add hash fuel m key value = x at hadd
  generalize HashMaps.add hash fuel m' key value = y at hadd
  cases hadd with
  | none => exact .none
  | @some x y hxy =>
    obtain ⟨res, t⟩ := x
    obtain ⟨res', t'⟩ := y
    obtain ⟨⟨rfl, ht⟩, hbucket⟩ := hxy
    cases hexist : res.doesExist with
    | true =>
      simp only [hexist, if_true]
      refine .some ⟨rfl, ht.setBucket res.index (Or.inl ?_)⟩
      rw [hbucket hexist]
    | false =>
      simp only [hexist]
      exact .some ⟨rfl, ht⟩

theorem Agree.get (key : K) :
    Option.Rel (fun i i' : Option Nat => i = i' ∧ ∀ j ∈ i, m'.buckets j = m.buckets j)
      (HashMaps.get hash fuel m key) (HashMaps.get hash fuel m' key) := by
  rw [HashMaps.get, HashMaps.get, h.count, h.capacity]
  split_ifs
  · exact .some ⟨rfl, fun j hj => by cases hj⟩
  · refine Loop.run_lift (fun s s' => s = s' ∧ s.idx < m.capacity) _ ?_ fuel
      ⟨rfl, h.start_lt hpow hash key⟩
    rintro s _ ⟨rfl, hs⟩
    exact getTurn_lift h hs

theorem Agree.remove (key : K) :
    Option.Rel (AgreeWith size) (HashMaps.remove hash fuel m key)
      (HashMaps.remove hash fuel m' key) := by
  rw [HashMaps.remove, HashMaps.remove, h.count, h.capacity]
  split_ifs
  · exact .some ⟨rfl, h⟩
  · have hsearch : Option.Rel (fun i i' : Option Nat => i = i' ∧ ∀ j ∈ i, j < m.capacity)
        (Loop.run (removeTurn m key) fuel (hashAndMod hash key m.capacity))
        (Loop.run (removeTurn m' key) fuel (hashAndMod hash key m.capacity)) := by
      refine Loop.run_lift (fun i i' => i = i' ∧ i < m.capacity) _ ?_ fuel
        ⟨rfl, h.start_lt hpow hash key⟩
      rintro i _ ⟨rfl, hi⟩
      exact removeTurn_lift h hi
    generalize Loop.run (removeTurn m key) fuel (hashAndMod hash key m.capacity) = x at hsearch
    generalize Loop.run (removeTurn m' key) fuel (hashAndMod hash key m.capacity) = y at hsearch
    cases hsearch with
    | none => exact .none
    | @some i i' hi =>
      obtain ⟨rfl, hbound⟩ := hi
      cases i with
      | none => exact .some ⟨rfl, h⟩
      | some index =>
        have hshift : Option.Rel (Agree size) (Loop.run shiftTurn fuel (m, index))
            (Loop.run shiftTurn fuel (m', index)) := by
          refine Loop.run_lift
            (fun s s' => Agree size s.1 s'.1 ∧ s.2 = s'.2 ∧ s.2 < s.1.capacity) (Agree size) ?_ fuel
            ⟨h, rfl, hbound index rfl⟩
          rintro ⟨t, i⟩ ⟨t', _⟩ ⟨ht, rfl, hi⟩
          exact shiftTurn_lift ht hi
        exact rel_map hshift fun t t' ht => ⟨rfl, ht⟩

/-- Every call has the same result and count on two maps that agree, and leaves maps that
agree, or returns on neither. -/
theorem Agree.call (c : MapCall K V) :
    Option.Rel (AgreeWith size) (HashMaps.call hash fuel m c) (HashMaps.call hash fuel m' c) := by
  cases c with
  | add key value => exact rel_map (h.add hpow key value) fun x y hxy => hxy.1.counted .added
  | get key =>
    refine rel_map (h.get hpow key) ?_
    rintro i _ ⟨rfl, hbucket⟩
    cases i with
    | none => exact ⟨by rw [h.count]; rfl, h⟩
    | some i => exact ⟨by simp only [Option.map_some, h.count, hbucket i rfl], h⟩
  | remove key => exact rel_map (h.remove hpow key) fun x y hxy => hxy.counted .removed
  | replace key value =>
    exact rel_map (h.replace hpow key value) fun x y hxy => hxy.counted .replaced

end Calls

/-! ## The two runs -/

section Runs

variable [BEq K] {capacity : Nat} {loadFactor : ℚ} {memory memory' : Nat → StaticHashMapBucket K V}

omit [BEq K] in
/-- `SAssert(MaxCount > 0)` rules out a capacity that overflows. -/
theorem initCapacity_spec (hcapacity : capacity < 2 ^ 32)
    (hmax : 0 < (init memory capacity loadFactor).maxCount) :
    ∃ k < 32, initCapacity capacity = 2 ^ k := by
  rcases roundUp32_spec hcapacity with hzero | ⟨k, hk, heq, -⟩
  · have hround : initCapacity capacity = 0 := hzero
    simp [init, hround] at hmax
  · exact ⟨k, hk, heq⟩

/-- Two contents in which no bucket is used give the same runs. -/
theorem sameRuns_of_unused (hpow : ∃ k < 32, initCapacity capacity = 2 ^ k)
    (hmemory : Unused capacity memory) (hmemory' : Unused capacity memory') :
    SameRuns capacity loadFactor memory memory' := by
  intro hash fuel calls
  refine replies_eq (Agree (initCapacity capacity)) (fun m m' c h => h.call hpow c) calls ?_
  exact ⟨rfl, rfl, rfl, rfl, fun i hi => Or.inr ⟨hmemory i hi, hmemory' i hi⟩⟩

section OneTurn

variable {hash : K → UInt64} {m : StaticHashMap K V} (hroom : m.count ≠ m.maxCount) {key : K}
  {i : Nat}
variable (hhome : hashAndMod hash key m.capacity = i)

include hroom hhome

/-- `Add` of a key whose home is unused ends in one turn, there. -/
theorem add_home_unused (value : V) (hunused : (m.buckets i).isUsed = false) :
    ∃ t, add hash 1 m key value = some (⟨i, false, false⟩, t) := by
  subst hhome
  rw [add, if_neg hroom, Loop.run_succ_done 0 (addTurn_place hunused)]
  exact ⟨_, rfl⟩

/-- `Add` of a key whose home is used ends in one turn only if the key is there. -/
theorem add_home_used {value : V} (hused : (m.buckets i).isUsed = true)
    {r : StaticHashMapAddResult × StaticHashMap K V} (hadd : add hash 1 m key value = some r) :
    r.1.doesExist = true := by
  subst hhome
  rw [add, if_neg hroom, Loop.run, addTurn, if_neg (by simp [hused])] at hadd
  split_ifs at hadd
  · cases hadd
    rfl
  · cases hadd
  · cases hadd

end OneTurn

omit [BEq K] in
/-- Some hash takes every key to bucket `i`. -/
theorem exists_hash {size : Nat} (hpow : ∃ k < 32, size = 2 ^ k) {i : Nat} (hi : i < size) :
    ∃ hash : K → UInt64, ∀ key, hashAndMod hash key size = i := by
  obtain ⟨k, hk, rfl⟩ := hpow
  have hlt : i < 2 ^ 64 := hi.trans (Nat.pow_lt_pow_right (by decide) (by omega))
  refine ⟨fun _ => UInt64.ofNat i, fun key => ?_⟩
  rw [hashAndMod, fastModulo_eq hk, UInt64.toNat_ofNat_of_lt' hlt, Nat.mod_eq_of_lt hi]

/-- A bucket that is used in one memory and not in the other shows in the first call: an
`Add` with that home ends in one turn with a new key in one of the runs only. -/
theorem unused_of_sameRuns (hpow : ∃ k < 32, initCapacity capacity = 2 ^ k)
    (hmax : 0 < (init memory capacity loadFactor).maxCount)
    (hsame : SameRuns capacity loadFactor memory memory') {i : Nat} (hi : i < initCapacity capacity)
    (hunused : (memory i).isUsed = false) : (memory' i).isUsed = false := by
  rw [← Bool.not_eq_true]
  intro hused
  obtain ⟨hash, hhome⟩ := @exists_hash K _ hpow i hi
  generalize hkey : (memory' i).key = key
  generalize hvalue : (memory' i).value = value
  have hsee := hsame hash 1 [.add key value]
  obtain ⟨t, hadd⟩ := @add_home_unused K V _ hash (init memory capacity loadFactor) hmax.ne key i
    (hhome key) value hunused
  rw [replies, replies, call, call, hadd] at hsee
  cases hadd' : add hash 1 (init memory' capacity loadFactor) key value with
  | none =>
    rw [hadd'] at hsee
    cases hsee
  | some r =>
    have hexist := @add_home_used K V _ hash (init memory' capacity loadFactor) hmax.ne key i
      (hhome key) value hused r hadd'
    rw [hadd'] at hsee
    simp only [Option.map_some, List.cons.injEq, Prod.mk.injEq, MapReply.added.injEq] at hsee
    rw [← hsee.1.1] at hexist
    cases hexist

/-- Among the contents that a buffer may have, an unused one being one of them, any two give
the same runs exactly when every one is unused. -/
theorem init_sameRuns_iff (hcapacity : capacity < 2 ^ 32)
    {contents : Set (Nat → StaticHashMapBucket K V)} {fresh : Nat → StaticHashMapBucket K V}
    (hmax : 0 < (init fresh capacity loadFactor).maxCount) (hmem : fresh ∈ contents)
    (hfresh : Unused capacity fresh) :
    (∀ memory ∈ contents, ∀ memory' ∈ contents, SameRuns capacity loadFactor memory memory') ↔
      ∀ memory ∈ contents, Unused capacity memory := by
  have hpow := initCapacity_spec hcapacity hmax
  constructor
  · intro hsame memory hmemory i hi
    exact unused_of_sameRuns hpow hmax (hsame fresh hmem memory hmemory) hi (hfresh i hi)
  · intro hunused memory hmemory memory' hmemory'
    exact sameRuns_of_unused hpow (hunused memory hmemory) (hunused memory' hmemory')

/-- Two contents that differ in the keys and values of unused buckets. -/
theorem init_sameRuns_iff_two :
    let zeroed : Nat → StaticHashMapBucket Nat Nat := fun _ => ⟨0, 0, false, 0⟩
    let stale : Nat → StaticHashMapBucket Nat Nat := fun i => ⟨i, 3, false, 7⟩
    (∀ memory ∈ ({zeroed, stale} : Set _), ∀ memory' ∈ ({zeroed, stale} : Set _),
        SameRuns 48 (14260634 / 2 ^ 24) memory memory') ↔
      ∀ memory ∈ ({zeroed, stale} : Set _), Unused 48 memory :=
  init_sameRuns_iff (by decide)
    (show 0 < (init (fun _ => ⟨0, 0, false, 0⟩) 48 (14260634 / 2 ^ 24)).maxCount by decide +kernel)
    (Or.inl rfl) (fun _ _ => rfl)

/-- `Add` of a key that a used bucket of the memory happens to have finds it there; in a
zeroed memory it inserts the key. -/
theorem init_keeps_stale_bucket :
    ¬ SameRuns 2 (14260634 / 2 ^ 24) (fun _ => (⟨0, 0, false, 0⟩ : StaticHashMapBucket Nat Nat))
      (fun i => ⟨1, 0, i == 0, 10⟩) := by
  intro h
  have hsee := h (fun _ => 0) 2 [.add 1 20]
  revert hsee
  decide +kernel

end Runs

end ScalBase.HashMaps
