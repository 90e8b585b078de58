/-
  StringHashMap/Conservation.lean --- no entry is lost, duplicated or mispaired.

  Slots and values are read together as slots holding pairs (`cell`).  Whatever the
  stored probe lengths are, the loops only exchange and move pairs:

      Wf.add      the pair in hand and the slots together stay the same multiset
      Wf.remove   the backward shift drops one pair
      Wf.resize   adding the used pairs to an empty map keeps them

  `Wf` holds of every map reached from the zero-initialised one.  The lemma about
  the shift also says that it keeps the Robin Hood shape where there is one, which
  the refinement needs.
-/
import ScalBase.StringHashMap.Model
import ScalBase.Foundation.RobinHood
import ScalBase.Foundation.KeyMap

set_option autoImplicit false

namespace ScalBase.StringHashMaps

open Foundation Foundation.Cyclic Foundation.RobinHood Foundation.Slots

variable {V : Type*}

/-! ## Keys -/

theorem beq_iff (a b : String) : (a == b) = true ↔ a.bytes = b.bytes := by
  show (a.bytes == b.bytes) = true ↔ _
  exact beq_iff_eq

instance : EquivBEq String where
  rfl := by intro a; rw [beq_iff]
  symm := by intro a b h; rw [beq_iff] at h ⊢; exact h.symm
  trans := by intro a b c h h'; rw [beq_iff] at h h' ⊢; exact h.trans h'

theorem hashString_eq (hash : List UInt8 → UInt64) {a b : String} (h : (a == b) = true) :
    hashString hash a = hashString hash b := by
  rw [hashString, hashString, (beq_iff a b).mp h]

/-! ## The slots -/

namespace StringHashMap

/-- The multiset of used pairs. -/
def entries (m : StringHashMap V) : Multiset (String × V) := held m.capacity m.cell

/-- The number of used slots. -/
def usedCount (m : StringHashMap V) : Nat :=
  ((List.range m.capacity).filter fun i => (m.buckets i).isUsed).length

variable (m : StringHashMap V) (i : Nat)

theorem cell_eq_none_iff : m.cell i = none ↔ (m.buckets i).isUsed = false := by
  simp [cell]

theorem cell_eq_some_iff (p : String × V) :
    m.cell i = some p ↔
      (m.buckets i).isUsed = true ∧ (m.buckets i).string = p.1 ∧ m.values i = p.2 := by
  cases p
  simp [cell, Prod.ext_iff]

theorem cell_of_used {m : StringHashMap V} {i : Nat} (h : (m.buckets i).isUsed = true) :
    m.cell i = some ((m.buckets i).string, m.values i) := by
  simp [cell, h]

theorem card_entries : m.entries.card = m.usedCount := by
  have hused : ∀ i, (m.cell i).isSome = (m.buckets i).isUsed := by
    intro i
    cases hused : (m.buckets i).isUsed with
    | false => rw [(m.cell_eq_none_iff i).mpr hused]; rfl
    | true => rw [cell_of_used hused]; rfl
  simp only [entries, usedCount, card_held, hused]

theorem entries_eq_pairs : m.entries = (m.pairs : Multiset (String × V)) :=
  held_eq_filterMap ..

/-- A used slot written together with its value. -/
theorem cell_setSlot (slot : HashStrSlot) (value : V) (hused : slot.isUsed = true) :
    (m.setSlot i slot value).cell = Function.update m.cell i (some (slot.string, value)) := by
  funext j
  by_cases h : j = i
  · subst h; simp [cell, setSlot, hused]
  · simp [cell, setSlot, h]

theorem cell_clearSlot : (m.clearSlot i).cell = Function.update m.cell i none := by
  funext j
  by_cases h : j = i
  · subst h; simp [cell, clearSlot, HashStrSlot.zero]
  · simp [cell, clearSlot, h]

theorem cell_moveBack {j : Nat} (hused : (m.buckets j).isUsed = true) {p : String × V}
    (hp : m.cell i = some p) : (m.moveBack i j).cell = Function.update m.cell j (some p) := by
  obtain ⟨-, hstring, hvalue⟩ := (m.cell_eq_some_iff i p).mp hp
  funext k
  by_cases h : k = j
  · subst h; simp [cell, moveBack, setSlot, hused, hstring, hvalue]
  · simp [cell, moveBack, setSlot, h]

end StringHashMap

section Maps

variable (hash : List UInt8 → UInt64)

/-- A slot stores the hash of its string, and its probe length is a 16-bit word. -/
def SlotOk (slot : HashStrSlot) : Prop :=
  (slot.isUsed = true → slot.hash = hashString hash slot.string) ∧ slot.probeLength < 2 ^ 16

/-- All slots do. -/
def Sound (m : StringHashMap V) : Prop := ∀ i, SlotOk hash (m.buckets i)

/-- What every map keeps.  Nothing here depends on the stored probe lengths. -/
structure Wf (m : StringHashMap V) : Prop where
  null : m.hasBuckets = false → m.capacity = 0
  pow : m.hasBuckets = true → ∃ k < 32, m.capacity = 2 ^ k
  limit : m.maxCount = loadLimit m.capacity
  sound : Sound hash m
  count : m.count = m.entries.card
  full : m.count ≤ m.maxCount

/-- The two maps have the same arrays to fill. -/
structure Frame (m m' : StringHashMap V) : Prop where
  capacity : m'.capacity = m.capacity
  maxCount : m'.maxCount = m.maxCount
  hasBuckets : m'.hasBuckets = m.hasBuckets

/-- The home slot of a pair. -/
def home (capacity : Nat) (p : String × V) : Nat := homeIdx hash p.1 capacity

/-- The Robin Hood shape: the slots are in order and the stored probe lengths are
the displacements. -/
def Shape (m : StringHashMap V) : Prop :=
  Probed m.capacity (home hash m.capacity) m.cell fun i => (m.buckets i).probeLength

variable {hash}

theorem Frame.refl (m : StringHashMap V) : Frame m m := ⟨rfl, rfl, rfl⟩

theorem Frame.trans {m m' m'' : StringHashMap V} (h : Frame m m') (h' : Frame m' m'') :
    Frame m m'' :=
  ⟨h'.capacity.trans h.capacity, h'.maxCount.trans h.maxCount, h'.hasBuckets.trans h.hasBuckets⟩

theorem slotOk_zero : SlotOk hash HashStrSlot.zero := ⟨by simp [HashStrSlot.zero], by decide⟩

/-- A write of a sound slot leaves all slots sound. -/
theorem Sound.update {m : StringHashMap V} (h : Sound hash m) {slot : HashStrSlot}
    (hslot : SlotOk hash slot) (i j : Nat) : SlotOk hash (Function.update m.buckets i slot j) := by
  by_cases hj : j = i
  · subst hj
    rwa [Function.update_self]
  · rw [Function.update_of_ne hj]
    exact h j

/-- Keys with different hashes are different, so the test of the hash before the
test of the strings does not change the outcome. -/
theorem match_iff {slot : HashStrSlot} (h : slot.hash = hashString hash slot.string)
    {key : String} :
    (slot.hash = hashString hash key ∧ (key == slot.string) = true) ↔
      (key == slot.string) = true := by
  constructor
  · exact And.right
  · intro hk
    exact ⟨by rw [h, hashString_eq hash hk], hk⟩

/-! ### Limits -/

theorem loadLimit_zero : loadLimit 0 = 0 := by decide

theorem loadLimit_lt {capacity : Nat} (h : 0 < capacity) : loadLimit capacity < capacity := by
  unfold loadLimit
  omega

theorem loadLimit_mono {a b : Nat} (h : a ≤ b) : loadLimit a ≤ loadLimit b :=
  Nat.div_le_div_right (Nat.mul_le_mul_right _ h)

section Wellformed

variable {m : StringHashMap V} (h : Wf hash m)

include h

theorem Wf.capacity_pow (hpos : 0 < m.capacity) : ∃ k < 32, m.capacity = 2 ^ k := by
  apply h.pow
  cases hb : m.hasBuckets with
  | true => rfl
  | false =>
    have hzero := h.null hb
    omega

theorem Wf.capacity_le : m.capacity ≤ 2 ^ 32 := by
  cases hb : m.hasBuckets with
  | false => rw [h.null hb]; omega
  | true =>
    obtain ⟨k, hk, hcap⟩ := h.pow hb
    rw [hcap]
    exact Nat.pow_le_pow_right (by decide) hk.le

theorem Wf.homeIdx_lt (hpos : 0 < m.capacity) (key : String) :
    homeIdx hash key m.capacity < m.capacity := by
  obtain ⟨k, hk, hcap⟩ := h.capacity_pow hpos
  rw [hcap]
  exact fastModulo_lt hk

theorem Wf.capacity_pos (hroom : 0 < m.maxCount) : 0 < m.capacity := by
  rw [h.limit] at hroom
  by_contra hzero
  rw [Nat.eq_zero_of_not_pos hzero] at hroom
  exact absurd hroom (by decide)

/-- A map with slots has an unused one. -/
theorem Wf.exists_free (hpos : 0 < m.capacity) : ∃ u < m.capacity, m.cell u = none := by
  apply Slots.exists_free
  have hlt := loadLimit_lt hpos
  have hfull := h.full
  have hcount := h.count
  rw [StringHashMap.entries] at hcount
  rw [h.limit] at hfull
  omega

end Wellformed

/-! ## Add -/

/-- The pair in hand. -/
def AddLoop.pair (s : AddLoop V) : String × V := (s.swapBucket.string, s.swapValue)

variable (hash) in
/-- The loop in `Add`: the pair in hand together with the slots is the old map with
the new pair. -/
structure Adding (m : StringHashMap V) (key : String) (value : V) (u : Nat) (s : AddLoop V) :
    Prop where
  frame : Frame m s.map
  count : s.map.count = m.count
  sound : Sound hash s.map
  used : s.swapBucket.isUsed = true
  bucket : SlotOk hash s.swapBucket
  word : s.probeLength < 2 ^ 16
  idx : s.idx < m.capacity
  held : s.pair ::ₘ held m.capacity s.map.cell = (key, value) ::ₘ m.entries
  free : s.map.cell u = none

variable (hash) in
/-- What `Add` leaves: either the new pair is in, or the pair in hand `p` at the end
met a slot with its key and is in no slot. -/
structure Added (m : StringHashMap V) (key : String) (value : V)
    (r : StrHashMapAddResult × StringHashMap V) : Prop where
  frame : Frame m r.2
  sound : Sound hash r.2
  outcome :
    (r.1.doesExist = false ∧ r.2.count = m.count + 1 ∧ r.2.entries = (key, value) ::ₘ m.entries) ∨
    (r.1.doesExist = true ∧ r.2.count = m.count ∧
      ∃ p, p ::ₘ r.2.entries = (key, value) ::ₘ m.entries ∧ HasKey r.2.entries p.1)

section Insert

variable {m : StringHashMap V} {key : String} {value : V} {u : Nat} {s : AddLoop V}

/-- An unused slot takes the pair in hand. -/
theorem Adding.place (h : Adding hash m key value u s)
    (hunused : (s.map.buckets s.idx).isUsed = false) : Added hash m key value s.place := by
  have hcap : s.place.2.capacity = m.capacity := h.frame.capacity
  have hcell : s.place.2.cell = Function.update s.map.cell s.idx (some s.pair) :=
    s.map.cell_setSlot s.idx { s.swapBucket with probeLength := s.probeLength } _ h.used
  refine ⟨⟨hcap, h.frame.maxCount, h.frame.hasBuckets⟩, ?_, Or.inl ⟨rfl, ?_, ?_⟩⟩
  · have hslot : SlotOk hash { s.swapBucket with probeLength := s.probeLength } :=
      ⟨h.bucket.1, h.word⟩
    exact h.sound.update hslot s.idx
  · rw [← h.count]
    rfl
  · rw [StringHashMap.entries, hcap, hcell,
      held_update_some h.idx ((s.map.cell_eq_none_iff _).mpr hunused), h.held]

/-- A slot with the key of the pair in hand ends the loop. -/
theorem Adding.exists (h : Adding hash m key value u s)
    (hused : (s.map.buckets s.idx).isUsed = true)
    (hk : (s.swapBucket.string == (s.map.buckets s.idx).string) = true) :
    Added hash m key value (⟨s.idx, true⟩, s.map) := by
  have hentries : s.map.entries = Slots.held m.capacity s.map.cell := by
    rw [StringHashMap.entries, h.frame.capacity]
  refine ⟨h.frame, h.sound, Or.inr ⟨rfl, h.count, s.pair, ?_, ?_⟩⟩
  · rw [hentries, h.held]
  · rw [hentries, hasKey_held_iff]
    exact ⟨s.idx, h.idx, _, StringHashMap.cell_of_used hused, BEq.symm hk⟩

theorem Adding.advance (h : Adding hash m key value u s) :
    Adding hash m key value u s.advance := by
  refine ⟨h.frame, h.count, h.sound, h.used, h.bucket, Nat.mod_lt _ (by decide), ?_, h.held, h.free⟩
  show next s.map.capacity s.idx < m.capacity
  rw [h.frame.capacity]
  exact next_lt h.idx

/-- The three swaps exchange the pair in hand with the pair of the slot. -/
theorem Adding.displace (h : Adding hash m key value u s)
    (hused : (s.map.buckets s.idx).isUsed = true) : Adding hash m key value u s.displace := by
  have hq := StringHashMap.cell_of_used hused
  have hcell : s.displace.map.cell = Function.update s.map.cell s.idx (some s.pair) :=
    s.map.cell_setSlot s.idx s.swapBucket s.swapValue h.used
  have hu : u ≠ s.idx := by
    rintro rfl
    rw [h.free] at hq
    cases hq
  refine ⟨⟨h.frame.capacity, h.frame.maxCount, h.frame.hasBuckets⟩, h.count, ?_, hused, ?_, ?_,
    h.idx, ?_, ?_⟩
  · exact h.sound.update h.bucket s.idx
  · exact ⟨(h.sound s.idx).1, h.word⟩
  · exact (h.sound s.idx).2
  · rw [hcell, ← h.held]
    exact held_swap h.idx hq
  · rw [hcell, Function.update_of_ne hu, h.free]

/-- One turn either ends with the outcome of an `Add` or steps to the next slot. -/
theorem Adding.turn (h : Adding hash m key value u s) :
    (∃ r, addTurn s = .done r ∧ Added hash m key value r) ∨
      ∃ s', addTurn s = .again s' ∧ s'.idx = next m.capacity s.idx ∧
        Adding hash m key value u s' := by
  have hnext : next s.map.capacity s.idx = next m.capacity s.idx := by rw [h.frame.capacity]
  unfold addTurn
  simp only
  split_ifs with hunused hmatch hfar
  · exact Or.inl ⟨_, rfl, h.place hunused⟩
  · exact Or.inl ⟨_, rfl, h.exists (by simpa using hunused) hmatch.2⟩
  · exact Or.inr ⟨_, rfl, hnext, (h.displace (by simpa using hunused)).advance⟩
  · exact Or.inr ⟨_, rfl, hnext, h.advance⟩

/-- `Add` below `MaxCount` returns with its outcome, at an unused slot at the latest. -/
theorem Wf.add (h : Wf hash m) (hroom : m.count ≠ m.maxCount) (key : String) (value : V)
    {fuel : Nat} (hfuel : m.capacity ≤ fuel) :
    ∃ r, StringHashMaps.add hash fuel m key value = some r ∧ Added hash m key value r := by
  have hpos : 0 < m.capacity := h.capacity_pos (by have hf := h.full; omega)
  obtain ⟨u, hu, hfree⟩ := h.exists_free hpos
  have hinit : Adding hash m key value u
      { map := m
        swapBucket :=
          { string := key, hash := hashString hash key, probeLength := 0, isUsed := true }
        swapValue := value
        insertedIdx := notFound
        probeLength := 0
        idx := homeIdx hash key m.capacity } :=
    ⟨Frame.refl m, rfl, h.sound, rfl, ⟨fun _ => rfl, Nat.two_pow_pos 16⟩, Nat.two_pow_pos 16,
      h.homeIdx_lt hpos key,
      rfl, hfree⟩
  rw [StringHashMaps.add, if_neg hroom]
  refine run_scan hu AddLoop.idx (Adding hash m key value u) (Added hash m key value)
    (fun s hs => hs.idx) ?_ (fun s hs _ => hs.turn) hfuel hinit
  intro s hs hsu
  have hunused := (s.map.cell_eq_none_iff s.idx).mp (hsu ▸ hs.free)
  exact ⟨_, by simp [addTurn, hunused], hs.place hunused⟩

/-- With distinct keys, an absent key is inserted. -/
theorem Added.fresh {r : StrHashMapAddResult × StringHashMap V} (h : Added hash m key value r)
    (hd : DistinctKeys m.entries) (habs : ¬ HasKey m.entries key) :
    r.1.doesExist = false ∧ r.2.count = m.count + 1 ∧ r.2.entries = (key, value) ::ₘ m.entries := by
  rcases h.outcome with hin | ⟨-, -, p, hp, hk⟩
  · exact hin
  · have hdist : DistinctKeys (p ::ₘ r.2.entries) := hp ▸ hd.cons habs
    exact absurd hk (hdist.not_hasKey_tail BEq.rfl)

theorem Wf.of_added {r : StrHashMapAddResult × StringHashMap V} (h : Wf hash m)
    (hroom : m.count ≠ m.maxCount) (ha : Added hash m key value r) : Wf hash r.2 := by
  obtain ⟨hframe, hsound, hout⟩ := ha
  have hfull := h.full
  have hmax := hframe.maxCount
  refine ⟨?_, ?_, ?_, hsound, ?_, ?_⟩
  · rw [hframe.hasBuckets, hframe.capacity]; exact h.null
  · rw [hframe.hasBuckets, hframe.capacity]; exact h.pow
  · rw [hframe.maxCount, hframe.capacity]; exact h.limit
  · rcases hout with ⟨-, hcount, hentries⟩ | ⟨-, hcount, p, hp, -⟩
    · rw [hcount, hentries, Multiset.card_cons, h.count]
    · have hcard := congrArg Multiset.card hp
      rw [Multiset.card_cons, Multiset.card_cons] at hcard
      rw [hcount, h.count]
      omega
  · rcases hout with ⟨-, hcount, -⟩ | ⟨-, hcount, -⟩ <;> omega

/-- A full map refuses. -/
theorem add_full (fuel : Nat) (key : String) (value : V) (h : m.count = m.maxCount) :
    StringHashMaps.add hash fuel m key value = some (⟨notFound, false⟩, m) := by
  rw [StringHashMaps.add, if_pos h]

theorem Wf.addStep (h : Wf hash m) {fuel : Nat} (hfuel : m.capacity ≤ fuel) (p : String × V) :
    ∃ m', StringHashMaps.addStep hash fuel m p = some m' ∧ Wf hash m' := by
  unfold StringHashMaps.addStep
  by_cases hroom : m.count = m.maxCount
  · exact ⟨m, by rw [add_full fuel _ _ hroom]; rfl, h⟩
  · obtain ⟨r, hr, hadd⟩ := h.add hroom p.1 p.2 hfuel
    exact ⟨r.2, by rw [hr]; rfl, h.of_added hroom hadd⟩

end Insert

/-! ## Remove -/

section Delete

variable {m : StringHashMap V} {u : Nat}

theorem removeTurn_null {key : String} {idx : Nat} (h : (m.buckets idx).isUsed = false) :
    removeTurn hash m key idx = .done none := by
  simp [removeTurn, h]

theorem removeTurn_found (hs : Sound hash m) {key : String} {idx : Nat}
    (hused : (m.buckets idx).isUsed = true) (hk : (key == (m.buckets idx).string) = true) :
    removeTurn hash m key idx = .done (some idx) := by
  rw [removeTurn, if_neg (by simp [hused]), if_pos ((match_iff ((hs idx).1 hused)).mpr hk)]

theorem removeTurn_pass {key : String} {idx : Nat} (hused : (m.buckets idx).isUsed = true)
    (hk : (key == (m.buckets idx).string) = false) :
    removeTurn hash m key idx = .again (next m.capacity idx) := by
  simp [removeTurn, hused, hk]

/-- The search ends, and where it finds a slot the slot has the key. -/
theorem Wf.removeSearch (h : Wf hash m) (hu : u < m.capacity) (hfree : m.cell u = none)
    (key : String) {fuel : Nat} (hfuel : m.capacity ≤ fuel) :
    ∃ r, Loop.run (removeTurn hash m key) fuel (homeIdx hash key m.capacity) = some r ∧
      ∀ idx, r = some idx →
        idx < m.capacity ∧ ∃ p, m.cell idx = some p ∧ (p.1 == key) = true := by
  refine run_scan hu id (fun idx => idx < m.capacity) _ (fun idx hidx => hidx) ?_ ?_ hfuel
    (h.homeIdx_lt (Nat.zero_lt_of_lt hu) key)
  · rintro idx - rfl
    exact ⟨_, removeTurn_null ((m.cell_eq_none_iff idx).mp hfree), nofun⟩
  · intro idx hidx _
    cases hused : (m.buckets idx).isUsed with
    | false => exact Or.inl ⟨_, removeTurn_null hused, nofun⟩
    | true =>
      cases hk : key == (m.buckets idx).string with
      | false => exact Or.inr ⟨_, removeTurn_pass hused hk, rfl, next_lt hidx⟩
      | true =>
        refine Or.inl ⟨_, removeTurn_found h.sound hused hk, ?_⟩
        rintro _ ⟨⟩
        exact ⟨hidx, _, StringHashMap.cell_of_used hused, BEq.symm hk⟩

variable (hash) in
/-- The loop that moves entries back, with the vacated slot at `s.2`.  The slot
still has its old contents, so the slots are read with that one blanked out. -/
structure Shifting (m : StringHashMap V) (kept : Multiset (String × V)) (u : Nat)
    (s : StringHashMap V × Nat) : Prop where
  frame : Frame m s.1
  count : s.1.count = m.count
  sound : Sound hash s.1
  idx : s.2 < m.capacity
  used : (s.1.buckets s.2).isUsed = true
  held : held m.capacity (Function.update s.1.cell s.2 none) = kept
  free : s.1.cell u = none
  probed : Shape hash m → ProbedHole m.capacity (home hash m.capacity) s.1.cell
    (fun i => (s.1.buckets i).probeLength) s.2

variable (hash) in
/-- What the removal of the pair `p` leaves. -/
structure Removed (m : StringHashMap V) (kept : Multiset (String × V)) (m' : StringHashMap V) :
    Prop where
  frame : Frame m m'
  sound : Sound hash m'
  count : m'.count = m.count - 1
  entries : m'.entries = kept
  shape : Shape hash m → Shape hash m'

variable {kept : Multiset (String × V)} {s : StringHashMap V × Nat}

/-- The last turn: the slot after the vacated one is unused or at home. -/
theorem Shifting.close (h : Shifting hash m kept u s)
    (hend : (s.1.buckets (next m.capacity s.2)).isUsed = false ∨
      (s.1.buckets (next m.capacity s.2)).probeLength = 0) :
    ∃ m', shiftTurn s = .done m' ∧ Removed hash m kept m' := by
  obtain ⟨m₁, i⟩ := s
  obtain ⟨hframe, hcount, hsound, hidx, -, hheld, -, hprobed⟩ := h
  have hcap := hframe.capacity
  simp only at hcap hcount hsound hidx hheld hprobed hend
  have hcell : StringHashMap.cell { m₁.clearSlot i with count := m₁.count - 1 } =
      Function.update m₁.cell i none := m₁.cell_clearSlot i
  refine ⟨{ m₁.clearSlot i with count := m₁.count - 1 }, by rw [shiftTurn, hcap, if_pos hend],
    ⟨hframe.capacity, hframe.maxCount, hframe.hasBuckets⟩, hsound.update slotOk_zero i,
    by rw [← hcount], ?_, ?_⟩
  · show Slots.held m₁.capacity _ = kept
    rw [hcell, hcap, hheld]
  · intro hshape
    show Probed m₁.capacity (home hash m₁.capacity) _ _
    rw [hcell, hcap]
    refine (hprobed hshape).close (hend.imp_left (m₁.cell_eq_none_iff _).mpr) ?_
    intro j hj
    simp [StringHashMap.clearSlot, hj]

/-- A turn that moves the entry after the vacated slot into it. -/
theorem Shifting.move (hm : Wf hash m) (h : Shifting hash m kept u s)
    (hused : (s.1.buckets (next m.capacity s.2)).isUsed = true)
    (hpos : (s.1.buckets (next m.capacity s.2)).probeLength ≠ 0) (hne : s.2 ≠ u)
    (hu : u < m.capacity) :
    ∃ s', shiftTurn s = .again s' ∧ s'.2 = next m.capacity s.2 ∧ Shifting hash m kept u s' := by
  obtain ⟨m₁, i⟩ := s
  obtain ⟨hframe, hcount, hsound, hidx, hiused, hheld, hfree, hprobed⟩ := h
  have hcap := hframe.capacity
  simp only at hcap hcount hsound hidx hiused hheld hfree hprobed hused hpos hne
  have hni : next m.capacity i ≠ i := next_ne_self (by omega)
  have hnlt := next_lt hidx
  -- The entry after the vacated slot.
  obtain ⟨p, hp⟩ : ∃ p, m₁.cell (next m.capacity i) = some p :=
    ⟨_, StringHashMap.cell_of_used hused⟩
  have hcell := m₁.cell_moveBack (next m.capacity i) hiused hp
  have hbuckets : (m₁.moveBack (next m.capacity i) i).buckets = Function.update m₁.buckets i
      { m₁.buckets i with
        string := (m₁.buckets (next m.capacity i)).string
        hash := (m₁.buckets (next m.capacity i)).hash
        probeLength := (m₁.buckets (next m.capacity i)).probeLength - 1 } := rfl
  refine ⟨(m₁.moveBack (next m.capacity i) i, next m.capacity i), ?_, rfl,
    ⟨⟨hframe.capacity, hframe.maxCount, hframe.hasBuckets⟩, hcount, ?_, hnlt, ?_, ?_, ?_, ?_⟩⟩
  · rw [shiftTurn, hcap, if_neg]
    simp [hused, hpos]
  · have hword := (hsound (next m.capacity i)).2
    intro j
    rw [hbuckets]
    apply hsound.update
    exact ⟨fun _ => (hsound _).1 hused, Nat.lt_of_le_of_lt (Nat.sub_le _ 1) hword⟩
  · rw [hbuckets, Function.update_of_ne hni, hused]
  · simp only [hcell]
    rw [held_move hidx hnlt hni hp, hheld]
  · simp only [hcell]
    rw [Function.update_of_ne hne.symm, hfree]
  · intro hshape
    simp only [hcell]
    refine (hprobed hshape).move (hm.homeIdx_lt (Nat.zero_lt_of_lt hu) p.1) hni hp hpos ?_ ?_
    · simp [hbuckets]
    · intro j hj _
      simp [hbuckets, hj]

/-- The shift from a vacated slot removes exactly the pair that was there. -/
theorem Wf.shift (h : Wf hash m) {i : Nat} {p : String × V} (hi : i < m.capacity)
    (hp : m.cell i = some p) (hu : u < m.capacity) (hfree : m.cell u = none) {fuel : Nat}
    (hfuel : m.capacity ≤ fuel) :
    ∃ m' kept, Loop.run shiftTurn fuel (m, i) = some m' ∧ Removed hash m kept m' ∧
      m.entries = p ::ₘ kept := by
  have hstart : Shifting hash m (held m.capacity (Function.update m.cell i none)) u (m, i) :=
    ⟨Frame.refl m, rfl, h.sound, hi, ((m.cell_eq_some_iff i p).mp hp).1, rfl, hfree,
      fun hshape => Probed.vacate hshape hi hp⟩
  -- The loop leaves at the slot before the unused one at the latest.
  obtain ⟨m', hrun, hrem⟩ := run_scan (prev_lt hu) Prod.snd
    (fun s => Shifting hash m (held m.capacity (Function.update m.cell i none)) u s ∧ s.2 ≠ u)
    (Removed hash m _) (fun s hs => hs.1.idx)
    (fun s hs hpos => hs.1.close (Or.inl (by
      rw [hpos, next_prev hu]
      exact (s.1.cell_eq_none_iff u).mp hs.1.free)))
    (fun s ⟨hs, hsu⟩ _ => by
      by_cases hend : (s.1.buckets (next m.capacity s.2)).isUsed = false ∨
          (s.1.buckets (next m.capacity s.2)).probeLength = 0
      · exact Or.inl (hs.close hend)
      · push Not at hend
        obtain ⟨s', hb, hnext, hs'⟩ := hs.move h (by simpa using hend.1) hend.2 hsu hu
        refine Or.inr ⟨s', hb, hnext, hs', ?_⟩
        rintro hs'u
        have hunused := (s.1.cell_eq_none_iff u).mp hs.free
        rw [← hs'u, hnext] at hunused
        exact hend.1 hunused)
    hfuel ⟨hstart, by rintro rfl; rw [hfree] at hp; cases hp⟩
  exact ⟨m', _, hrun, hrem, held_update_none hi hp⟩

/-- `Remove` returns.  It either changes nothing or drops one pair with the key. -/
theorem Wf.remove (h : Wf hash m) (key : String) {fuel : Nat} (hfuel : m.capacity ≤ fuel) :
    ∃ b m', StringHashMaps.remove hash fuel m key = some (b, m') ∧ (b = false → m' = m) ∧
      (b = true → ∃ p kept, (p.1 == key) = true ∧ m.entries = p ::ₘ kept ∧
        Removed hash m kept m') := by
  unfold StringHashMaps.remove
  split
  · exact ⟨false, m, rfl, fun _ => rfl, nofun⟩
  · have hfull := h.full
    obtain ⟨u, hu, hfree⟩ := h.exists_free (h.capacity_pos (by omega))
    obtain ⟨r, hrun, hfound⟩ := h.removeSearch hu hfree key hfuel
    rw [hrun]
    cases r with
    | none => exact ⟨false, m, rfl, fun _ => rfl, nofun⟩
    | some idx =>
      obtain ⟨hidx, p, hp, hk⟩ := hfound idx rfl
      obtain ⟨m', kept, hshift, hrem, hsplit⟩ := h.shift hidx hp hu hfree hfuel
      exact ⟨true, m', by simp only [hshift, Option.map_some], nofun,
        fun _ => ⟨p, kept, hk, hsplit, hrem⟩⟩

theorem Wf.of_removed (h : Wf hash m) {p : String × V} {m' : StringHashMap V}
    (hsplit : m.entries = p ::ₘ kept) (hr : Removed hash m kept m') : Wf hash m' := by
  obtain ⟨hframe, hsound, hcount, hentries, -⟩ := hr
  refine ⟨?_, ?_, ?_, hsound, ?_, ?_⟩
  · rw [hframe.hasBuckets, hframe.capacity]; exact h.null
  · rw [hframe.hasBuckets, hframe.capacity]; exact h.pow
  · rw [hframe.maxCount, hframe.capacity]; exact h.limit
  · rw [hcount, h.count, hsplit, hentries, Multiset.card_cons]
    omega
  · have hfull := h.full
    rw [hcount, hframe.maxCount]
    omega

end Delete

/-! ## Resize -/

theorem roundCapacity_spec {capacity : Nat} (h : capacity < 2 ^ 32) :
    roundCapacity capacity = 0 ∨ ∃ k < 32, roundCapacity capacity = 2 ^ k ∧ 1 ≤ k := by
  unfold roundCapacity
  simp only
  generalize hc : (if capacity ≤ 1 then 2 else capacity) = c
  have hlo : 1 < c := by split at hc <;> omega
  have hhi : c < 2 ^ 32 := by split at hc <;> omega
  -- A power of two that is at least two has a positive exponent.
  have hexp : ∀ k, c ≤ 2 ^ k → 1 ≤ k := by
    intro k hle
    rcases Nat.eq_zero_or_pos k with rfl | hk
    · rw [Nat.pow_zero] at hle; omega
    · exact hk
  rcases roundUp32_spec hhi with hzero | ⟨k, hk, heq, hle⟩
  · exact Or.inl hzero
  · exact Or.inr ⟨k, hk, heq, hexp k hle⟩

theorem roundCapacity_two_pow {k : Nat} (hk : 1 ≤ k) : roundCapacity (2 ^ k) = 2 ^ k := by
  have hle : 2 ^ 1 ≤ 2 ^ k := Nat.pow_le_pow_right (by decide) hk
  have hpow : isPowerOf2 (2 ^ k) = true := isPowerOf2_iff.mpr ⟨k, rfl⟩
  simp only [roundCapacity]
  rw [if_neg (show ¬ 2 ^ k ≤ 1 by omega), if_pos hpow]

/-- Rounding a capacity that the map grows to does not overflow, and once is enough. -/
theorem roundCapacity_grown {capacity n : Nat} (hcapacity : capacity < 2 ^ 32)
    (hlt : n < roundCapacity capacity) :
    roundCapacity capacity < 2 ^ 32 ∧
      roundCapacity (roundCapacity capacity) = roundCapacity capacity := by
  obtain ⟨k, hk, hround, hpos⟩ := (roundCapacity_spec hcapacity).resolve_left (by omega)
  rw [hround, roundCapacity_two_pow hpos]
  exact ⟨Nat.pow_lt_pow_right (by decide) hk, rfl⟩

variable (hash) in
theorem wf_zero (values : Nat → V) : Wf hash (StringHashMap.zero values) :=
  ⟨fun _ => rfl, nofun, loadLimit_zero.symm, fun _ => slotOk_zero, rfl, Nat.le_refl 0⟩

theorem resizeNull_capacity {m : StringHashMap V} {capacity : Nat} {fresh : Nat → V}
    (hlt : m.capacity < roundCapacity capacity) :
    (resizeNull m capacity fresh).capacity = roundCapacity capacity := by
  rw [resizeNull, if_neg (Nat.not_le.mpr hlt)]

/-- A map whose slots have just been zeroed. -/
theorem wf_resizeNull {m : StringHashMap V} (hm : Wf hash m) (hzero : m.count = 0)
    (hnull : m.hasBuckets = false) {capacity : Nat} (h : capacity < 2 ^ 32) (fresh : Nat → V) :
    Wf hash (resizeNull m capacity fresh) ∧ (resizeNull m capacity fresh).count = 0 ∧
      (resizeNull m capacity fresh).maxCount = loadLimit (roundCapacity capacity) ∧
      (resizeNull m capacity fresh).entries = 0 := by
  have hcap := hm.null hnull
  have hentries : ∀ {c}, held c (fun _ => (none : Option (String × V))) = 0 :=
    held_eq_zero fun _ _ => rfl
  unfold resizeNull
  simp only
  split_ifs with hle
  · refine ⟨hm, hzero, ?_, ?_⟩
    · rw [hm.limit]
      congr 1
      omega
    · rw [StringHashMap.entries, hcap]
      rfl
  · obtain ⟨k, hk, hround, -⟩ : ∃ k < 32, roundCapacity capacity = 2 ^ k ∧ 1 ≤ k :=
      (roundCapacity_spec h).resolve_left (by omega)
    refine ⟨⟨nofun, fun _ => ⟨k, hk, hround⟩, rfl, fun _ => slotOk_zero, ?_, ?_⟩, hzero, rfl,
      hentries⟩
    · exact hzero.trans (congrArg Multiset.card (hentries (c := roundCapacity capacity))).symm
    · simp only [hzero]
      omega

/-- Adding a list of pairs to a map with room for all of them. -/
theorem Wf.addAll {fuel : Nat} : ∀ (ps : List (String × V)) {t : StringHashMap V}, Wf hash t →
    t.count + ps.length ≤ t.maxCount → t.capacity ≤ fuel →
    ∃ t', exec (StringHashMaps.addStep hash fuel) t ps = some t' ∧ Wf hash t' ∧ Frame t t' ∧
      (DistinctKeys (t.entries + (ps : Multiset (String × V))) →
        t'.entries = t.entries + (ps : Multiset (String × V))) := by
  intro ps
  induction ps with
  | nil =>
    intro t ht _ _
    exact ⟨t, rfl, ht, Frame.refl t, fun _ => by simp⟩
  | cons p ps ih =>
    intro t ht hroom hfuel
    rw [List.length_cons] at hroom
    have hne : t.count ≠ t.maxCount := by omega
    obtain ⟨r, hr, hadd⟩ := ht.add hne p.1 p.2 hfuel
    have hle : r.2.count ≤ t.count + 1 := by
      rcases hadd.outcome with ⟨-, hc, -⟩ | ⟨-, hc, -⟩ <;> omega
    have hframe := hadd.frame
    obtain ⟨t', ht', hwf, hframe', hentries⟩ := ih (ht.of_added hne hadd)
      (by rw [hframe.maxCount]; omega) (by rw [hframe.capacity]; exact hfuel)
    refine ⟨t', ?_, hwf, hframe.trans hframe', ?_⟩
    · rw [exec_cons ps (t := r.2) (by rw [StringHashMaps.addStep, hr]; rfl), ht']
    · intro hd
      obtain ⟨habs, hrest⟩ := hd.add_cons
      rw [add_cons_coe] at hd ⊢
      rw [Multiset.cons_add] at hd
      obtain ⟨-, -, hin⟩ := hadd.fresh (hd.tail.of_le (Multiset.le_add_right _ _)) habs
      rw [hentries (hin ▸ hrest), hin]

/-- `Resize` of a map with buckets to a larger capacity returns the temporary map:
`Capacity` and `MaxCount` are stored once more, with the values they have. -/
theorem Wf.rehash {m : StringHashMap V} (h : Wf hash m) {capacity : Nat}
    (hcapacity : capacity < 2 ^ 32) (hlt : m.capacity < roundCapacity capacity)
    (hbuckets : m.hasBuckets = true) (fresh : Nat → V) {fuel : Nat} (hfuel : 2 ^ 32 ≤ fuel) :
    ∃ m', exec (StringHashMaps.addStep hash fuel)
        (resizeNull (StringHashMap.zero m.values) (roundCapacity capacity) fresh) m.pairs =
          some m' ∧
      StringHashMaps.resize hash fuel m capacity fresh = some m' ∧ Wf hash m' ∧
      m'.capacity = roundCapacity capacity ∧
      (DistinctKeys m.entries → m'.entries = m.entries) := by
  obtain ⟨hsize, hsame⟩ := roundCapacity_grown hcapacity hlt
  rw [StringHashMaps.resize, if_neg (Nat.not_le.mpr hlt), if_pos hbuckets]
  simp only
  obtain ⟨htmp, hcount, hmax, hempty⟩ :=
    wf_resizeNull (wf_zero hash m.values) rfl rfl hsize fresh
  have htcap : (resizeNull (StringHashMap.zero m.values) (roundCapacity capacity) fresh).capacity =
      roundCapacity capacity := by
    rw [resizeNull_capacity (hsame.symm ▸ Nat.zero_lt_of_lt hlt), hsame]
  rw [hsame] at hmax
  generalize resizeNull (StringHashMap.zero m.values) (roundCapacity capacity) fresh = t
    at htmp hcount hmax hempty htcap
  have hroom : t.count + m.pairs.length ≤ t.maxCount := by
    have hlen : m.pairs.length = m.count := by
      rw [h.count, m.entries_eq_pairs, Multiset.coe_card]
    have hfull := h.full
    have hmono := loadLimit_mono hlt.le
    rw [← h.limit, ← hmax] at hmono
    omega
  obtain ⟨t', ht', hwf, hframe, hentries⟩ :=
    htmp.addAll m.pairs hroom (Nat.le_trans htmp.capacity_le hfuel)
  have hcap' := hframe.capacity.trans htcap
  have hstore : { t' with
      capacity := roundCapacity capacity
      maxCount := loadLimit (roundCapacity capacity) } = t' := by
    rw [← hframe.maxCount.trans hmax, ← hcap']
  refine ⟨t', ht', by rw [ht', Option.map_some, hstore], hwf, hcap', ?_⟩
  intro hd
  rw [m.entries_eq_pairs] at hd ⊢
  rw [hentries (by rw [hempty, Multiset.zero_add]; exact hd), hempty, Multiset.zero_add]

/-- `Resize` returns a map that, with distinct keys, holds the same pairs. -/
theorem Wf.resize {m : StringHashMap V} (h : Wf hash m) {capacity : Nat}
    (hcapacity : capacity < 2 ^ 32) (fresh : Nat → V) {fuel : Nat} (hfuel : 2 ^ 32 ≤ fuel) :
    ∃ m', StringHashMaps.resize hash fuel m capacity fresh = some m' ∧ Wf hash m' ∧
      m'.maxCount = max m.maxCount (loadLimit (roundCapacity capacity)) ∧
      (DistinctKeys m.entries → m'.entries = m.entries) := by
  by_cases hle : roundCapacity capacity ≤ m.capacity
  · have hmono := loadLimit_mono hle
    rw [← h.limit] at hmono
    exact ⟨m, by rw [StringHashMaps.resize, if_pos hle], h, (Nat.max_eq_left hmono).symm,
      fun _ => rfl⟩
  · have hmono := loadLimit_mono (Nat.le_of_not_le hle)
    rw [← h.limit] at hmono
    rw [Nat.max_eq_right hmono]
    cases hbuckets : m.hasBuckets with
    | true =>
      obtain ⟨m', -, hm', hwf, hcap, hentries⟩ :=
        h.rehash hcapacity (Nat.lt_of_not_le hle) hbuckets fresh hfuel
      exact ⟨m', hm', hwf, by rw [hwf.limit, hcap], hentries⟩
    | false =>
      have hzero : m.entries = 0 := by
        rw [StringHashMap.entries, h.null hbuckets]
        rfl
      obtain ⟨hwf, -, hmax, hempty⟩ :=
        wf_resizeNull h (by rw [h.count, hzero]; rfl) hbuckets hcapacity fresh
      refine ⟨_, ?_, hwf, hmax, fun _ => by rw [hempty, hzero]⟩
      rw [StringHashMaps.resize, if_neg hle, if_neg (by simp [hbuckets])]

/-! ## Whole runs -/

/-- Every call returns and keeps what every map keeps. -/
theorem Wf.step {m : StringHashMap V} (h : Wf hash m) {fuel : Nat} (hfuel : 2 ^ 32 ≤ fuel)
    (op : MapOp V) : ∃ m', StringHashMaps.step hash fuel m op = some m' ∧ Wf hash m' := by
  have hfuel' : m.capacity ≤ fuel := Nat.le_trans h.capacity_le hfuel
  cases op with
  | resize capacity fresh =>
    obtain ⟨m', hm', hwf, -⟩ := h.resize (UInt32.toNat_lt capacity) fresh hfuel
    exact ⟨m', hm', hwf⟩
  | add key value => exact h.addStep hfuel' (key, value)
  | remove key =>
    obtain ⟨b, m', hm', hfalse, htrue⟩ := h.remove key hfuel'
    refine ⟨m', by rw [StringHashMaps.step, hm']; rfl, ?_⟩
    cases b with
    | false => rw [hfalse rfl]; exact h
    | true =>
      obtain ⟨p, kept, -, hsplit, hrem⟩ := htrue rfl
      exact h.of_removed hsplit hrem

variable (hash) in
/-- The calls conserve the used pairs of `m`. -/
structure Conserves (fuel : Nat) (m : StringHashMap V) : Prop where
  /-- `Add` of an absent key below `MaxCount` puts in exactly the new pair. -/
  add : m.count < m.maxCount → ∀ key value, ¬ HasKey m.entries key →
    ∃ r m', StringHashMaps.add hash fuel m key value = some (r, m') ∧
      m'.entries = (key, value) ::ₘ m.entries
  /-- `Remove` drops exactly one pair with an equal key, or changes nothing. -/
  remove : ∀ key, ∃ b m', StringHashMaps.remove hash fuel m key = some (b, m') ∧
    (b = true → ∃ p, (p.1 == key) = true ∧ m.entries = p ::ₘ m'.entries) ∧
    (b = false → m' = m)
  /-- `Resize` keeps the pairs. -/
  resize : ∀ (capacity : UInt32) fresh, ∃ m',
    StringHashMaps.resize hash fuel m capacity.toNat fresh = some m' ∧ m'.entries = m.entries

theorem Wf.conserves {m : StringHashMap V} (h : Wf hash m) (hd : DistinctKeys m.entries)
    {fuel : Nat} (hfuel : 2 ^ 32 ≤ fuel) : Conserves hash fuel m where
  add := by
    intro hroom key value habs
    obtain ⟨⟨r, m'⟩, hr, hadd⟩ := h.add hroom.ne key value (Nat.le_trans h.capacity_le hfuel)
    exact ⟨r, m', hr, (hadd.fresh hd habs).2.2⟩
  remove := by
    intro key
    obtain ⟨b, m', hm', hfalse, htrue⟩ := h.remove key (Nat.le_trans h.capacity_le hfuel)
    refine ⟨b, m', hm', ?_, hfalse⟩
    intro hb
    obtain ⟨p, kept, hk, hsplit, hrem⟩ := htrue hb
    exact ⟨p, hk, by rw [hsplit, hrem.entries]⟩
  resize := by
    intro capacity fresh
    obtain ⟨m', hm', -, -, hentries⟩ := h.resize (UInt32.toNat_lt capacity) fresh hfuel
    exact ⟨m', hm', hentries hd⟩

/-- Every sequence of `Resize`, `Add` and `Remove` calls from the zero-initialised map
returns.  `Count` is then the number of used slots and, where the stored keys are
distinct, every further call conserves the pairs. -/
theorem stringHashMap_conserves (hash : List UInt8 → UInt64) (values : Nat → V) {fuel : Nat}
    (hfuel : 2 ^ 32 ≤ fuel) (ops : List (MapOp V)) :
    ∃ m, exec (step hash fuel) (StringHashMap.zero values) ops = some m ∧
      m.count = m.usedCount ∧ (DistinctKeys m.entries → Conserves hash fuel m) := by
  obtain ⟨m, hm, hwf⟩ := exec_invariant (Wf hash) (fun m op h => h.step hfuel op) ops
    (wf_zero hash values)
  exact ⟨m, hm, by rw [hwf.count, m.card_entries], fun hd => hwf.conserves hd hfuel⟩

/-- Two keys of one hash, the removal of one by an equal string at another address, and a growth. -/
theorem stringHashMap_conserves_colliding :
    ∃ m, exec (step (fun _ => 1) (2 ^ 32)) (StringHashMap.zero fun _ => 0)
        [.resize 4 fun _ => 7, .add ⟨8, [1]⟩ 10, .add ⟨16, [2]⟩ 20, .remove ⟨24, [1]⟩,
          .resize 8 fun _ => 9] = some m ∧
      m.count = m.usedCount ∧ (DistinctKeys m.entries → Conserves (fun _ => 1) (2 ^ 32) m) :=
  stringHashMap_conserves (fun _ => 1) (fun _ => 0) (Nat.le_refl _) _

end Maps

end ScalBase.StringHashMaps
