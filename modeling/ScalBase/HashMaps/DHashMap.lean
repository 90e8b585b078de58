/-
  HashMaps/DHashMap.lean --- `DHashMap` of `Lib/HashMaps.h`, the map that should grow.

  `AddResize` and `ReplaceResize` grow the map when `Capacity == MaxCount`, where the
  `AddAllocator` of `StringHashMap` tests `Count == MaxCount`.  With a load factor of
  0.85 the two are equal only while both are zero, so a zero-initialised map becomes
  one of two buckets with room for one key, and stays so.

  `Resize` as it stands names members that do not exist.  It is read as adding every
  used bucket, in order, to a map of the new capacity.
-/
import ScalBase.HashMaps.Refinement

set_option autoImplicit false

namespace ScalBase.HashMaps

open Foundation Foundation.Cyclic Foundation.Slots

variable {K V : Type*}

/-! ## The model -/

/-- The key and the value whose bytes are all zero. -/
structure ZeroBytes (K V : Type*) where
  key : K
  value : V

/-- Zeroed memory, as buckets. -/
def ZeroBytes.memory (zero : ZeroBytes K V) : Nat → StaticHashMapBucket K V :=
  fun _ => { key := zero.key, probeLength := 0, isUsed := false, value := zero.value }

/-- The map.  `hasBuckets` says that `Buckets` is not null. -/
structure DHashMap (K V : Type*) extends StaticHashMap K V where
  hasBuckets : Bool

namespace DHashMap

/-- `LOAD_FACTOR`: the value of the float `0.85f`. -/
def loadFactor : ℚ := 14260634 / 2 ^ 24

/-- A zero-initialised map. -/
def zero (zero : ZeroBytes K V) : DHashMap K V :=
  { buckets := zero.memory, capacity := 0, count := 0, maxCount := 0, hasBuckets := false }

@[simp] theorem zero_capacity (zero : ZeroBytes K V) : (DHashMap.zero zero).capacity = 0 := rfl

@[simp] theorem zero_maxCount (zero : ZeroBytes K V) : (DHashMap.zero zero).maxCount = 0 := rfl

@[simp] theorem zero_hasBuckets (zero : ZeroBytes K V) :
    (DHashMap.zero zero).hasBuckets = false := rfl

/-- The used pairs in the order of their buckets. -/
def pairs (m : DHashMap K V) : List (K × V) := (List.range m.capacity).filterMap m.cell

/-- The capacity `Resize` allocates. -/
def roundCapacity (capacity : Nat) : Nat :=
  let capacity := if capacity = 0 then 2 else capacity
  if isPowerOf2 capacity then capacity else u32 (alignPowTwoCeil capacity)

section Operations

variable [BEq K] (hash : K → UInt64) (fuel : Nat) (zero : ZeroBytes K V)

/-- The temporary map after `tempMap.Add`. -/
def addStep (m : StaticHashMap K V) (p : K × V) : Option (StaticHashMap K V) :=
  (add hash fuel m p.1 p.2).map (·.2)

/-- `DHashMap::Resize`, with an allocation that succeeds and is zeroed. -/
def resize (m : DHashMap K V) (capacity : Nat) : Option (DHashMap K V) :=
  if roundCapacity capacity ≤ m.capacity then some m
  else
    let tempMap := init zero.memory (roundCapacity capacity) loadFactor
    if m.hasBuckets then
      (exec (addStep hash fuel) tempMap m.pairs).map fun tempMap =>
        { toStaticHashMap := tempMap, hasBuckets := true }
    else some { toStaticHashMap := tempMap, hasBuckets := true }

/-- `if (Capacity == MaxCount) Resize(Allocator, Capacity * 2);` -/
def makeRoom (m : DHashMap K V) : Option (DHashMap K V) :=
  if m.capacity = m.maxCount then resize hash fuel zero m (u32 (m.capacity * 2)) else some m

/-- `DHashMap::AddResize`. -/
def addResize (m : DHashMap K V) (key : K) (value : V) : Option (Nat × DHashMap K V) :=
  (makeRoom hash fuel zero m).bind fun m =>
    (add hash fuel m.toStaticHashMap key value).map fun (res, map) =>
      (res.index, { m with toStaticHashMap := map })

/-- `DHashMap::ReplaceResize`. -/
def replaceResize (m : DHashMap K V) (key : K) (value : V) : Option (Bool × DHashMap K V) :=
  (makeRoom hash fuel zero m).bind fun m =>
    (replace hash fuel m.toStaticHashMap key value).map fun (found, map) =>
      (found, { m with toStaticHashMap := map })

/-- A call on a map that should grow. -/
inductive Call (K V : Type*) where
  | addResize (key : K) (value : V)
  | replaceResize (key : K) (value : V)

/-- The key of a call. -/
def Call.key : Call K V → K
  | .addResize key _ => key
  | .replaceResize key _ => key

/-- The map after a call. -/
def step (m : DHashMap K V) : Call K V → Option (DHashMap K V)
  | .addResize key value => (addResize hash fuel zero m key value).map (·.2)
  | .replaceResize key value => (replaceResize hash fuel zero m key value).map (·.2)

end Operations

/-- The map holds the key, with a value: some used bucket has it. -/
def holds [BEq K] (m : DHashMap K V) (key : K) : Bool :=
  (List.range m.capacity).any fun i => (m.buckets i).isUsed && (m.buckets i).key == key

/-- What a call should do: it returns, the map after it holds its key, and every key that
the map held before. -/
def Keeps [BEq K] (hash : K → UInt64) (fuel : Nat) (zero : ZeroBytes K V) (m : DHashMap K V)
    (c : Call K V) : Prop :=
  ∃ t, step hash fuel zero m c = some t ∧ t.holds c.key = true ∧
    ∀ key, m.holds key = true → t.holds key = true

end DHashMap

/-! ## What the calls do -/

theorem DHashMap.holds_iff [BEq K] (m : DHashMap K V) (key : K) :
    m.holds key = true ↔ HasKey m.entries key := by
  rw [DHashMap.holds, List.any_eq_true, StaticHashMap.entries, hasKey_held_iff]
  constructor
  · rintro ⟨i, hi, hb⟩
    obtain ⟨hused, hkey⟩ := Bool.and_eq_true_iff.mp hb
    exact ⟨i, List.mem_range.mp hi, _, StaticHashMap.cell_of_used hused, hkey⟩
  · rintro ⟨i, hi, p, hp, hkey⟩
    obtain ⟨hused, hp', -⟩ := (m.cell_eq_some_iff i p).mp hp
    exact ⟨i, List.mem_range.mpr hi, by rw [hused, hp', hkey]; rfl⟩

namespace DHashMap

variable [BEq K] {hash : K → UInt64} {fuel : Nat} {zero : ZeroBytes K V}

/-- A map whose memory has just been zeroed. -/
theorem refines_init (hash : K → UInt64) (zero : ZeroBytes K V) (capacity : Nat) :
    Refines hash (initCapacity capacity) (init zero.memory capacity loadFactor).maxCount
      (init zero.memory capacity loadFactor)
      ⟨[], (init zero.memory capacity loadFactor).maxCount⟩ :=
  refines_empty (init zero.memory capacity loadFactor) rfl fun _ _ => rfl

/-- Two buckets and one key: the map after the first call. -/
structure Single (m : DHashMap K V) (key : K) : Prop where
  capacity : m.capacity = 2
  maxCount : m.maxCount = 1
  count : m.count = 1
  holds : ∀ k, m.holds k = (key == k)

/-- From then on the map neither grows nor takes a key. -/
theorem Single.step {m : DHashMap K V} {key : K} (h : m.Single key) (c : Call K V) :
    DHashMap.step hash fuel zero m c = some m := by
  have hroom : makeRoom hash fuel zero m = some m := by
    rw [makeRoom, if_neg (by rw [h.capacity, h.maxCount]; decide)]
  have hadd : ∀ k v, add hash fuel m.toStaticHashMap k v =
      some (⟨notFound, false, true⟩, m.toStaticHashMap) := fun k v => by
    rw [add, if_pos (h.count.trans h.maxCount.symm)]
  cases c with
  | addResize k v => simp [DHashMap.step, addResize, hroom, hadd]
  | replaceResize k v => simp [DHashMap.step, replaceResize, replace, hroom, hadd]

omit [BEq K] in
theorem init_two : (init zero.memory 2 loadFactor).maxCount = 1 := by
  have hround : initCapacity 2 = 2 := rfl
  rw [init, hround, Nat.floor_eq_iff (by norm_num [loadFactor])]
  norm_num [loadFactor]

/-- Doubling the capacity of a zero-initialised map gives two buckets. -/
theorem makeRoom_zero : makeRoom hash fuel zero (DHashMap.zero zero) =
    some { toStaticHashMap := init zero.memory 2 loadFactor, hasBuckets := true } := by
  have hround : roundCapacity (u32 0) = 2 := by decide
  simp [makeRoom, resize, hround]

/-- The first call of a zero-initialised map gives it two buckets and puts the key there. -/
theorem step_zero [EquivBEq K] (hfuel : 2 ≤ fuel) (c : Call K V) :
    ∃ m, DHashMap.step hash fuel zero (DHashMap.zero zero) c = some m ∧ m.Single c.key := by
  have hcapacity : (init zero.memory 2 loadFactor).capacity = 2 := rfl
  have hmax : (init zero.memory 2 loadFactor).maxCount = 1 := init_two
  have hcount : (init zero.memory 2 loadFactor).count = 0 := rfl
  have hempty : (init zero.memory 2 loadFactor).entries = 0 :=
    held_eq_zero fun i _ => (StaticHashMap.cell_eq_none_iff _ i).mpr rfl
  have hrefines : Refines hash 2 1 (init zero.memory 2 loadFactor) ⟨[], 1⟩ :=
    hmax ▸ refines_init hash zero 2
  have hroom := @makeRoom_zero K V _ hash fuel zero
  generalize init zero.memory 2 loadFactor = t at hroom hcapacity hmax hcount hempty hrefines
  have hadd : ∀ key value, ∃ r, add hash fuel t key value = some r ∧ r.1.doesExist = false ∧
      ({ toStaticHashMap := r.2, hasBuckets := true } : DHashMap K V).Single key := by
    intro key value
    have habsent : (⟨[], 1⟩ : KeyMap K V).lookup key = none := rfl
    have hpow : ∃ e < 32, 2 = 2 ^ e := ⟨1, by decide, rfl⟩
    have hcap : 2 ≤ 2 ^ 16 := by decide
    obtain ⟨r, hr, hadded, -⟩ := hrefines.add_new hpow (by decide) hfuel (hrefines.narrow hpow hcap)
      (by rw [hcount, hmax]; decide) (hrefines.not_wraps hpow hcap (by decide) key) value habsent
    refine ⟨r, hr, hadded.notExist, hadded.capacity.trans hcapacity, hadded.maxCount.trans hmax,
      by rw [hadded.count, hcount], fun k => ?_⟩
    rw [Bool.eq_iff_iff, holds_iff, hadded.entries, hempty]
    simp [HasKey]
  cases c with
  | addResize key value =>
    obtain ⟨r, hr, -, hsingle⟩ := hadd key value
    exact ⟨_, by rw [DHashMap.step, addResize, hroom, Option.bind_some, hr]; rfl, hsingle⟩
  | replaceResize key value =>
    obtain ⟨r, hr, hnew, hsingle⟩ := hadd key value
    refine ⟨_, ?_, hsingle⟩
    rw [DHashMap.step, replaceResize, hroom, Option.bind_some, replace, hr]
    simp only [hnew]
    rfl

theorem zero_holds (key : K) : (DHashMap.zero zero).holds key = false := rfl

/-- The first call does what it should. -/
theorem step_zero_keeps [EquivBEq K] (hfuel : 2 ≤ fuel) (c : Call K V) :
    Keeps hash fuel zero (DHashMap.zero zero) c := by
  obtain ⟨m, hm, hsingle⟩ := @step_zero K V _ hash fuel zero _ hfuel c
  refine ⟨m, hm, by rw [hsingle.holds]; exact BEq.rfl, fun key hkey => ?_⟩
  rw [zero_holds] at hkey
  cases hkey

/-- A later call does what it should exactly when its key is the one the map holds. -/
theorem Single.keeps_iff {m : DHashMap K V} {key : K} (h : m.Single key) (c : Call K V) :
    Keeps hash fuel zero m c ↔ (key == c.key) = true := by
  constructor
  · rintro ⟨t, ht, hholds, -⟩
    rw [h.step] at ht
    cases ht
    rwa [h.holds] at hholds
  · intro hkey
    exact ⟨m, h.step c, by rw [h.holds, hkey], fun _ hk => hk⟩

/-- A zero-initialised map holds after every call of a sequence what it should exactly when
all keys of the sequence are equal: it never has room for a second one. -/
theorem dHashMap_keeps_iff [EquivBEq K] (hash : K → UInt64) (zero : ZeroBytes K V) {fuel : Nat}
    (hfuel : 2 ≤ fuel) (calls : List (Call K V)) :
    AtEach (DHashMap.step hash fuel zero) (Keeps hash fuel zero) (DHashMap.zero zero) calls ↔
      ∀ c ∈ calls, ∀ d ∈ calls, (c.key == d.key) = true := by
  cases calls with
  | nil => simp [AtEach.nil]
  | cons c calls =>
    obtain ⟨m, hm, hsingle⟩ := @step_zero K V _ hash fuel zero _ hfuel c
    rw [atEach_cons_iff hm, atEach_fixed_iff fun d _ => hsingle.step d]
    simp only [step_zero_keeps hfuel, hsingle.keeps_iff, true_and]
    constructor
    · intro h
      have hall : ∀ d ∈ c :: calls, (c.key == d.key) = true := by
        intro d hd
        rcases List.mem_cons.mp hd with rfl | hd
        · exact BEq.rfl
        · exact h d hd
      exact fun a ha b hb => BEq.trans (BEq.symm (hall a ha)) (hall b hb)
    · exact fun h d hd => h c (List.mem_cons_self ..) d (List.mem_cons_of_mem c hd)

/-- One key stored, stored again and replaced. -/
theorem dHashMap_keeps_iff_one :
    AtEach (DHashMap.step (fun _ : Nat => 0) 2 ⟨0, 0⟩) (Keeps (fun _ : Nat => 0) 2 ⟨0, (0 : Nat)⟩)
        (DHashMap.zero ⟨0, 0⟩) [.addResize 1 10, .addResize 1 20, .replaceResize 1 30] ↔
      ∀ c ∈ [Call.addResize 1 10, .addResize 1 20, .replaceResize 1 30],
        ∀ d ∈ [Call.addResize 1 10, .addResize 1 20, .replaceResize 1 30],
          (Call.key c == Call.key d) = true :=
  dHashMap_keeps_iff (fun _ => 0) ⟨0, 0⟩ (Nat.le_refl 2) _

/-- The second key is refused. -/
theorem addResize_drops_key :
    ¬ AtEach (DHashMap.step (fun _ : Nat => 0) 2 ⟨0, 0⟩) (Keeps (fun _ : Nat => 0) 2 ⟨0, (0 : Nat)⟩)
      (DHashMap.zero ⟨0, 0⟩) [.addResize 1 10, .addResize 2 20] := by
  intro h
  have hsecond : ((exec (DHashMap.step (fun _ : Nat => 0) 2 ⟨0, (0 : Nat)⟩) (DHashMap.zero ⟨0, 0⟩)
      [.addResize 1 10, .addResize 2 20]).map fun m => m.holds 2) = some false := by decide +kernel
  cases ht : DHashMap.step (fun _ : Nat => 0) 2 ⟨0, (0 : Nat)⟩ (DHashMap.zero ⟨0, 0⟩)
      (.addResize 1 10) with
  | none => rw [exec, ht] at hsecond; cases hsecond
  | some t =>
    obtain ⟨m, hm, hholds, -⟩ := (h.tail ht).head
    rw [exec_cons _ ht, exec_cons _ hm, exec, Option.map_some, Option.some_inj] at hsecond
    have hkey : m.holds 2 = true := hholds
    rw [hkey] at hsecond
    cases hsecond

end DHashMap

end ScalBase.HashMaps
