/-
  StringHashMap/Ownership.lean --- the strings that the map frees.

  `Add` copies the pointer of its key, and `RemoveAllocator` and `ClearAllocator` free the
  strings of the slots that they empty: they pass the pointer to the characters to
  `SAllocatorFree`, and that pointer is what the model records.  A caller that hands its
  strings over to the map wants each of them to be held or freed, and freed once.

  `ClearAllocator` frees the string of every slot, whether the slot is used or not, and leaves
  the pointer there.  An unused slot is null until then.  So the strings are freed once
  exactly if no slot that was emptied by a `ClearAllocator` is met, still unused, by another
  one (`strings_freed_once_iff`).
-/
import ScalBase.StringHashMap.Conservation

set_option autoImplicit false

namespace ScalBase.StringHashMaps

open Foundation Foundation.Cyclic Foundation.Slots

variable {V : Type*}

/-! ## The calls that free -/

/-- `RemoveAllocator`, with the strings it frees. -/
def removeAllocator (hash : List UInt8 → UInt64) (fuel : Nat) (m : StringHashMap V) (key : String) :
    Option ((Bool × List String) × StringHashMap V) :=
  if m.count = 0 then some ((false, []), m)
  else
    match Loop.run (removeTurn hash m key) fuel (homeIdx hash key m.capacity) with
    | none => none
    | some none => some ((false, []), m)
    | some (some idx) =>
        (Loop.run shiftTurn fuel (m, idx)).map fun m' => ((true, [(m.buckets idx).string]), m')

/-- `ClearAllocator`, with the strings it frees. -/
def clearAllocator (m : StringHashMap V) : List String × StringHashMap V :=
  ((List.range m.capacity).map fun i => (m.buckets i).string,
    { m with
      buckets := fun i =>
        if i < m.capacity then { m.buckets i with probeLength := 0, isUsed := false }
        else m.buckets i
      count := 0 })

/-- `RemoveAllocator` is `Remove` with an allocator that frees. -/
theorem removeAllocator_remove (hash : List UInt8 → UInt64) (fuel : Nat) (m : StringHashMap V)
    (key : String) :
    (removeAllocator hash fuel m key).map (fun r => (r.1.1, r.2)) = remove hash fuel m key := by
  unfold removeAllocator remove
  split
  · rfl
  · cases Loop.run (removeTurn hash m key) fuel (homeIdx hash key m.capacity) with
    | none => rfl
    | some found =>
      cases found with
      | none => rfl
      | some idx =>
        rw [Option.map_map]
        rfl

/-! ## Strings handed over, held and freed -/

/-- The map, the strings freed so far, and those handed over. -/
structure Ledger (V : Type*) where
  map : StringHashMap V
  freed : List String
  given : List String

/-- A call on a map that is given strings to free. -/
inductive Call (V : Type*) where
  | resize (capacity : UInt32) (fresh : Nat → V)
  | add (key : String) (value : V)
  | addAllocator (key : String) (value : V) (fresh : Nat → V)
  | removeAllocator (key : String)
  | clearAllocator

namespace Ledger

variable (hash : List UInt8 → UInt64) (fuel : Nat)

/-- An `Add` to the map `m`.  A key that raises `Count` is handed over. -/
def add (s : Ledger V) (m : StringHashMap V) (key : String) (value : V) : Option (Ledger V) :=
  (StringHashMaps.add hash fuel m key value).map fun r =>
    { s with map := r.2, given := if r.2.count = m.count then s.given else key :: s.given }

/-- The ledger after a call. -/
def step (s : Ledger V) : Call V → Option (Ledger V)
  | .resize capacity fresh =>
      (resize hash fuel s.map capacity.toNat fresh).map fun m => { s with map := m }
  | .add key value => s.add hash fuel s.map key value
  | .addAllocator key value fresh =>
      (makeRoom hash fuel s.map fresh).bind fun m => s.add hash fuel m key value
  | .removeAllocator key =>
      (removeAllocator hash fuel s.map key).map fun r =>
        { s with map := r.2, freed := r.1.2 ++ s.freed }
  | .clearAllocator =>
      some { s with
        map := (clearAllocator s.map).2
        freed := (clearAllocator s.map).1 ++ s.freed }

/-- The strings handed over are those that were freed, apart from nulls, and those that the
map holds. -/
def Balanced (s : Ledger V) : Prop :=
  (s.freed : Multiset String).filter (fun string => string.address ≠ 0) +
    s.map.entries.map Prod.fst = (s.given : Multiset String)

/-- A key that is added is not null, and is not in the map. -/
def Ok (s : Ledger V) : Call V → Prop
  | .add key _ => key.address ≠ 0 ∧ ¬ HasKey s.map.entries key
  | .addAllocator key _ _ => key.address ≠ 0 ∧ ¬ HasKey s.map.entries key
  | _ => True

/-- The unused slots that a `ClearAllocator` meets are null. -/
def Clean (s : Ledger V) : Call V → Prop
  | .clearAllocator => ∀ i < s.map.capacity, (s.map.buckets i).isUsed = false →
      (s.map.buckets i).string.address = 0
  | _ => True

end Ledger

variable {hash : List UInt8 → UInt64} {fuel : Nat}

/-- If no string is handed over twice, then none is freed twice, and none is freed that the map
still holds. -/
theorem Ledger.Balanced.once {s : Ledger V} (h : s.Balanced) (hgiven : s.given.Nodup) :
    (s.freed.filter fun string => string.address ≠ 0).Nodup ∧
      ∀ p ∈ s.map.entries, p.1.address ≠ 0 → p.1 ∉ s.freed := by
  have hnodup : ((s.freed : Multiset String).filter (fun string => string.address ≠ 0) +
      s.map.entries.map Prod.fst).Nodup := by
    rw [h]
    exact Multiset.coe_nodup.mpr hgiven
  obtain ⟨hfreed, -, hdisjoint⟩ := Multiset.nodup_add.mp hnodup
  refine ⟨?_, fun p hp hnull hmem => ?_⟩
  · rwa [Multiset.filter_coe, Multiset.coe_nodup] at hfreed
  · have hheld := Multiset.mem_map_of_mem Prod.fst hp
    exact Multiset.disjoint_left.mp hdisjoint
      (Multiset.mem_filter.mpr ⟨Multiset.mem_coe.mpr hmem, hnull⟩) hheld

/-! ## Each call -/

variable (hash) in
/-- What every ledger keeps: the keys of the map are distinct and not null. -/
structure Ledger.Kept (s : Ledger V) : Prop where
  wf : Wf hash s.map
  distinct : DistinctKeys s.map.entries
  named : ∀ p ∈ s.map.entries, p.1.address ≠ 0

/-- The map after a call has the same pairs. -/
theorem Ledger.Kept.same {s : Ledger V} (h : s.Kept hash) {m : StringHashMap V} (hwf : Wf hash m)
    (hentries : m.entries = s.map.entries) : Ledger.Kept hash { s with map := m } :=
  ⟨hwf, hentries ▸ h.distinct, hentries ▸ h.named⟩

/-- `RemoveAllocator` frees the string of the pair that it drops, and nothing else. -/
theorem Wf.removeAllocator {m : StringHashMap V} (h : Wf hash m) (key : String)
    (hfuel : m.capacity ≤ fuel) :
    ∃ b frees m', StringHashMaps.removeAllocator hash fuel m key = some ((b, frees), m') ∧
      ((frees = [] ∧ m' = m) ∨
        ∃ p kept, frees = [p.1] ∧ m.entries = p ::ₘ kept ∧ Removed hash m kept m') := by
  unfold StringHashMaps.removeAllocator
  split
  · exact ⟨false, [], m, rfl, Or.inl ⟨rfl, rfl⟩⟩
  · have hfull := h.full
    obtain ⟨u, hu, hfree⟩ := h.exists_free (h.capacity_pos (by omega))
    obtain ⟨r, hrun, hfound⟩ := h.removeSearch hu hfree key hfuel
    rw [hrun]
    cases r with
    | none => exact ⟨false, [], m, rfl, Or.inl ⟨rfl, rfl⟩⟩
    | some idx =>
      obtain ⟨hidx, p, hp, -⟩ := hfound idx rfl
      obtain ⟨m', kept, hshift, hrem, hsplit⟩ := h.shift hidx hp hu hfree hfuel
      have hstring := ((m.cell_eq_some_iff idx p).mp hp).2.1
      exact ⟨true, [p.1], m', by simp only [hshift, Option.map_some, hstring],
        Or.inr ⟨p, kept, rfl, hsplit, hrem⟩⟩

section Clear

/-- The strings of some slots are those of the pairs there, and those of the unused ones. -/
theorem strings_split (m : StringHashMap V) (slots : List Nat) :
    ((slots.map fun i => (m.buckets i).string : List String) : Multiset String) =
      (((slots.filterMap m.cell).map Prod.fst : List String) : Multiset String) +
        (((slots.filter fun i => !(m.buckets i).isUsed).map fun i => (m.buckets i).string :
          List String) : Multiset String) := by
  induction slots with
  | nil => rfl
  | cons i slots ih =>
    cases hused : (m.buckets i).isUsed with
    | false =>
      rw [List.filterMap_cons_none ((m.cell_eq_none_iff i).mpr hused),
        List.filter_cons_of_pos (by rw [hused]; rfl), List.map_cons, List.map_cons,
        ← Multiset.cons_coe, ← Multiset.cons_coe, ih, Multiset.add_cons]
    | true =>
      rw [List.filterMap_cons_some (StringHashMap.cell_of_used hused),
        List.filter_cons_of_neg (by rw [hused]; simp), List.map_cons, List.map_cons,
        ← Multiset.cons_coe, ← Multiset.cons_coe, ih, Multiset.cons_add]

/-- The strings in unused slots. -/
def StringHashMap.stale (m : StringHashMap V) : List String :=
  ((List.range m.capacity).filter fun i => !(m.buckets i).isUsed).map fun i => (m.buckets i).string

theorem clearAllocator_frees (m : StringHashMap V) :
    ((clearAllocator m).1 : Multiset String) =
      m.entries.map Prod.fst + (m.stale : Multiset String) := by
  rw [clearAllocator, strings_split, m.entries_eq_pairs, Multiset.map_coe]
  rfl

theorem clean_clear_iff (s : Ledger V) : s.Clean .clearAllocator ↔
    (s.map.stale : Multiset String).filter (fun string => string.address ≠ 0) = 0 := by
  rw [Multiset.filter_eq_nil]
  constructor
  · intro h string hmem hnull
    obtain ⟨i, hi, rfl⟩ := List.mem_map.mp (Multiset.mem_coe.mp hmem)
    obtain ⟨hrange, hunused⟩ := List.mem_filter.mp hi
    exact hnull (h i (List.mem_range.mp hrange) (by simpa using hunused))
  · intro h i hi hunused
    by_contra hnull
    refine h (s.map.buckets i).string (Multiset.mem_coe.mpr (List.mem_map.mpr ⟨i, ?_, rfl⟩)) hnull
    exact List.mem_filter.mpr ⟨List.mem_range.mpr hi, by rw [hunused]; rfl⟩

theorem entries_clear (m : StringHashMap V) : (clearAllocator m).2.entries = 0 := by
  refine held_eq_zero fun i hi => (StringHashMap.cell_eq_none_iff _ i).mpr ?_
  have hlt : i < m.capacity := hi
  simp only [clearAllocator, hlt, if_true]

theorem Wf.clearAllocator {m : StringHashMap V} (h : Wf hash m) :
    Wf hash (StringHashMaps.clearAllocator m).2 := by
  refine ⟨h.null, h.pow, h.limit, fun i => ?_, ?_, Nat.zero_le _⟩
  · simp only [StringHashMaps.clearAllocator]
    split
    · exact ⟨fun hused => (by cases hused), Nat.two_pow_pos 16⟩
    · exact h.sound i
  · rw [entries_clear]
    rfl

end Clear

section Steps

variable {s : Ledger V}

theorem Ledger.balanced_same {m : StringHashMap V} (hentries : m.entries = s.map.entries) :
    Balanced { s with map := m } ↔ s.Balanced := by
  rw [Balanced, Balanced, hentries]

/-- A key that is not in the map is handed over, unless the map is full. -/
theorem Ledger.Kept.add (h : s.Kept hash) {m : StringHashMap V} (hwf : Wf hash m)
    (hentries : m.entries = s.map.entries) (hfuel : m.capacity ≤ fuel) {key : String} {value : V}
    (hkey : key.address ≠ 0 ∧ ¬ HasKey s.map.entries key) :
    ∃ t, s.add hash fuel m key value = some t ∧ t.Kept hash ∧ (s.Balanced → t.Balanced) := by
  rcases eq_or_ne m.count m.maxCount with hfull | hroom
  · have hadd : s.add hash fuel m key value = some { s with map := m } := by
      rw [Ledger.add, add_full fuel _ _ hfull, Option.map_some, if_pos rfl]
    exact ⟨_, hadd, h.same hwf hentries, (balanced_same hentries).mpr⟩
  · obtain ⟨r, hr, hadded⟩ := hwf.add hroom key value hfuel
    obtain ⟨-, hcount, hin⟩ := hadded.fresh (hentries ▸ h.distinct) (hentries ▸ hkey.2)
    rw [hentries] at hin
    have hadd : s.add hash fuel m key value = some ⟨r.2, s.freed, key :: s.given⟩ := by
      rw [Ledger.add, hr, Option.map_some, if_neg (by omega)]
    refine ⟨_, hadd, ⟨hwf.of_added hroom hadded, ?_, ?_⟩, fun hbalanced => ?_⟩
    · rw [hin]
      exact h.distinct.cons hkey.2
    · rw [hin]
      exact Multiset.forall_mem_cons.mpr ⟨hkey.1, h.named⟩
    · rw [Balanced] at hbalanced ⊢
      rw [hin, Multiset.map_cons, Multiset.add_cons, hbalanced]
      rfl

/-- The room that `AddAllocator` makes. -/
theorem Ledger.Kept.makeRoom (h : s.Kept hash) (fresh : Nat → V) (hfuel : 2 ^ 32 ≤ fuel) :
    ∃ m, StringHashMaps.makeRoom hash fuel s.map fresh = some m ∧ Wf hash m ∧
      m.entries = s.map.entries := by
  rw [StringHashMaps.makeRoom]
  split
  · obtain ⟨m, hm, hwf, -, hentries⟩ :=
      h.wf.resize (Nat.mod_lt (s.map.capacity * 2) (Nat.two_pow_pos 32)) fresh hfuel
    exact ⟨m, hm, hwf, hentries h.distinct⟩
  · exact ⟨s.map, rfl, h.wf, rfl⟩

theorem Ledger.Kept.removeAllocator (h : s.Kept hash) (key : String) (hfuel : 2 ^ 32 ≤ fuel) :
    ∃ t, s.step hash fuel (.removeAllocator key) = some t ∧ t.Kept hash ∧
      (s.Balanced → t.Balanced) := by
  obtain ⟨b, frees, m, hremove, houtcome⟩ :=
    h.wf.removeAllocator key (Nat.le_trans h.wf.capacity_le hfuel)
  refine ⟨⟨m, frees ++ s.freed, s.given⟩, by rw [Ledger.step, hremove]; rfl, ?_⟩
  rcases houtcome with ⟨rfl, rfl⟩ | ⟨p, kept, rfl, hsplit, hrem⟩
  · exact ⟨h, id⟩
  · have hentries := hrem.entries
    have hdistinct := h.distinct
    have hnamed := h.named
    rw [hsplit] at hdistinct hnamed
    obtain ⟨hnull, hrest⟩ := Multiset.forall_mem_cons.mp hnamed
    refine ⟨⟨h.wf.of_removed hsplit hrem, ?_, ?_⟩, fun hbalanced => ?_⟩
    · rw [hentries]
      exact hdistinct.tail
    · rw [hentries]
      exact hrest
    · rw [Balanced, hsplit, Multiset.map_cons, Multiset.add_cons] at hbalanced
      rw [Balanced, hentries, List.singleton_append, ← Multiset.cons_coe,
        @Multiset.filter_cons_of_pos String (fun string => string.address ≠ 0) _ p.1 _ hnull,
        Multiset.cons_add, hbalanced]

/-- `ClearAllocator` frees what is held and what is stale. -/
theorem Ledger.Kept.clearAllocator (h : s.Kept hash) :
    ∃ t, s.step hash fuel .clearAllocator = some t ∧ t.Kept hash ∧
      (s.Balanced → (t.Balanced ↔ s.Clean .clearAllocator)) := by
  have hempty := entries_clear s.map
  refine ⟨_, rfl, ⟨h.wf.clearAllocator, ?_, ?_⟩, fun hbalanced => ?_⟩
  · rw [hempty]
    exact distinctKeys_zero
  · rw [hempty]
    exact fun p hp => absurd hp (Multiset.notMem_zero p)
  · have hheld : (s.map.entries.map Prod.fst).filter (fun string => string.address ≠ 0) =
        s.map.entries.map Prod.fst := by
      refine Multiset.filter_eq_self.mpr fun string hmem => ?_
      obtain ⟨p, hp, rfl⟩ := Multiset.mem_map.mp hmem
      exact h.named p hp
    rw [clean_clear_iff, Balanced, hempty, Multiset.map_zero, add_zero, ← Multiset.coe_add,
      clearAllocator_frees, Multiset.filter_add, Multiset.filter_add, hheld, ← hbalanced,
      add_comm _ (s.map.entries.map Prod.fst), add_right_comm, add_eq_left]

/-- Every call returns.  From a balanced ledger it leads to a balanced one exactly if it is
clean. -/
theorem Ledger.Kept.step (h : s.Kept hash) {call : Call V} (hok : s.Ok call)
    (hfuel : 2 ^ 32 ≤ fuel) :
    ∃ t, s.step hash fuel call = some t ∧ t.Kept hash ∧
      (s.Balanced → (t.Balanced ↔ s.Clean call)) := by
  -- A call other than `ClearAllocator` always leads to one.
  have hkeeps : ∀ {t : Ledger V}, s.step hash fuel call = some t → t.Kept hash →
      (s.Balanced → t.Balanced) → s.Clean call → ∃ t, s.step hash fuel call = some t ∧
        t.Kept hash ∧ (s.Balanced → (t.Balanced ↔ s.Clean call)) :=
    fun ht hkept hbalanced hclean =>
      ⟨_, ht, hkept, fun hs => iff_of_true (hbalanced hs) hclean⟩
  cases call with
  | resize capacity fresh =>
    obtain ⟨m, hm, hwf, -, hentries⟩ :=
      h.wf.resize (UInt32.toNat_lt capacity) fresh hfuel
    exact hkeeps (by rw [Ledger.step, hm]; rfl) (h.same hwf (hentries h.distinct))
      (balanced_same (hentries h.distinct)).mpr trivial
  | add key value =>
    obtain ⟨t, ht, hkept, hbalanced⟩ :=
      h.add h.wf rfl (Nat.le_trans h.wf.capacity_le hfuel) hok
    exact hkeeps ht hkept hbalanced trivial
  | addAllocator key value fresh =>
    obtain ⟨m, hm, hwf, hentries⟩ := h.makeRoom fresh hfuel
    obtain ⟨t, ht, hkept, hbalanced⟩ :=
      @Ledger.Kept.add V hash fuel s h m hwf hentries (Nat.le_trans hwf.capacity_le hfuel)
        key value hok
    exact hkeeps (by rw [Ledger.step, hm, Option.bind_some, ht]) hkept hbalanced trivial
  | removeAllocator key =>
    obtain ⟨t, ht, hkept, hbalanced⟩ := h.removeAllocator key hfuel
    exact hkeeps ht hkept hbalanced trivial
  | clearAllocator => exact h.clearAllocator

end Steps

/-! ## Whole runs -/

/-- The zero-initialised map, with nothing handed over. -/
def Ledger.initial (values : Nat → V) : Ledger V := ⟨StringHashMap.zero values, [], []⟩

theorem kept_initial (hash : List UInt8 → UInt64) (values : Nat → V) :
    (Ledger.initial values).Kept hash :=
  ⟨wf_zero hash values, distinctKeys_zero, fun p hp => absurd hp (Multiset.notMem_zero p)⟩

/-- Over every sequence of calls that add keys not in the map, from the zero-initialised map,
every string handed over is held or was freed once, in every state, exactly if each
`ClearAllocator` meets only unused slots that are null. -/
theorem strings_freed_once_iff (hash : List UInt8 → UInt64) (values : Nat → V) {fuel : Nat}
    (hfuel : 2 ^ 32 ≤ fuel) {calls : List (Call V)}
    (hok : AtEach (Ledger.step hash fuel) Ledger.Ok (Ledger.initial values) calls) :
    (∀ done, done <+: calls →
        ∃ t, exec (Ledger.step hash fuel) (Ledger.initial values) done = some t ∧ t.Balanced) ↔
      AtEach (Ledger.step hash fuel) Ledger.Clean (Ledger.initial values) calls := by
  have hbalanced : (Ledger.initial values).Balanced := rfl
  rw [← atEach_returns_iff hbalanced]
  refine atEach_iff (fun s : Ledger V => s.Kept hash ∧ s.Balanced) ?_ ?_
    ⟨kept_initial hash values, hbalanced⟩ hok
  · intro s call hs hcall hclean
    obtain ⟨t, ht, hkept, hiff⟩ := hs.1.step hcall hfuel
    exact ⟨t, ht, hkept, (hiff hs.2).mpr hclean⟩
  · intro s call hs hcall
    obtain ⟨t, ht, -, hiff⟩ := hs.1.step hcall hfuel
    rw [← hiff hs.2]
    constructor
    · rintro ⟨t', ht', hgood⟩
      cases ht.symm.trans ht'
      exact hgood
    · exact fun hgood => ⟨t, ht, hgood⟩

/-- One key, a removal, and a clear of the map. -/
theorem strings_freed_once_iff_removed :
    (∀ done, done <+: [Call.resize 4 fun _ => 0, .add ⟨8, [1]⟩ 10, .removeAllocator ⟨16, [1]⟩,
        .clearAllocator] → ∃ t, exec (Ledger.step (fun _ => 1) (2 ^ 32))
          (Ledger.initial fun _ => 0) done = some t ∧ t.Balanced) ↔
      AtEach (Ledger.step (fun _ => 1) (2 ^ 32)) Ledger.Clean (Ledger.initial fun _ => 0)
        [Call.resize 4 fun _ => 0, .add ⟨8, [1]⟩ 10, .removeAllocator ⟨16, [1]⟩,
          .clearAllocator] := by
  refine strings_freed_once_iff (fun _ => 1) (fun _ => 0) (Nat.le_refl _) (.cons trivial ?_)
  rintro s ⟨⟩
  refine .cons ⟨by decide, ?_⟩ ?_
  · intro hkey
    obtain ⟨p, hp, -⟩ := hkey
    exact Multiset.notMem_zero p hp
  · intro t _
    refine .cons trivial fun t _ => .cons trivial ?_
    intro _ _
    exact .nil

end ScalBase.StringHashMaps
