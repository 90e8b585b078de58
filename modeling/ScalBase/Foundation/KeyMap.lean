/-
  Foundation/KeyMap.lean --- the finite map a hash table stands for.

  A `KeyMap` is an association list with at most `limit` entries allowed.  It has
  no slots, hashes or probe lengths.  Keys are compared with `==`, which need not
  be equality but is an equivalence.

  The second half says what the operations do to the multiset of entries, which is
  the form in which a table is compared with its map.  A table is an array of slots
  that hold pairs.
-/
import Mathlib.Tactic
import Mathlib.Data.Multiset.ZeroCons
import Mathlib.Algebra.Order.Group.Multiset
import ScalBase.Foundation.Slots

set_option autoImplicit false

namespace ScalBase.Foundation

variable {K V : Type*}

/-- No two entries have equal keys. -/
def DistinctKeys [BEq K] (s : Multiset (K × V)) : Prop :=
  ∀ a b rest, s = a ::ₘ b ::ₘ rest → (a.1 == b.1) = false

/-- The multiset holds `v` under a key equal to `k`. -/
def HoldsAt [BEq K] (s : Multiset (K × V)) (k : K) (v : V) : Prop :=
  ∃ k', (k', v) ∈ s ∧ (k' == k) = true

/-- The multiset holds some value under a key equal to `k`. -/
def HasKey [BEq K] (s : Multiset (K × V)) (k : K) : Prop :=
  ∃ p ∈ s, (p.1 == k) = true

/-- A finite map of at most `limit` entries. -/
structure KeyMap (K V : Type*) where
  entries : List (K × V)
  limit : Nat

namespace KeyMap

variable [BEq K]

/-- The value under `k`. -/
def lookup (m : KeyMap K V) (k : K) : Option V :=
  (m.entries.find? fun p => p.1 == k).map Prod.snd

/-- Add an entry for `k`, unless there is one or the map is full. -/
def add (m : KeyMap K V) (k : K) (v : V) : KeyMap K V :=
  if m.entries.length = m.limit then m
  else if (m.lookup k).isSome then m
  else { m with entries := (k, v) :: m.entries }

/-- Drop the entry for `k`. -/
def remove (m : KeyMap K V) (k : K) : KeyMap K V :=
  { m with entries := m.entries.eraseP fun p => p.1 == k }

/-- Give the entry for `k` another value. -/
def set (m : KeyMap K V) (k : K) (v : V) : KeyMap K V :=
  { m with entries := m.entries.map fun p => if p.1 == k then (p.1, v) else p }

/-- Allow more entries. -/
def grow (m : KeyMap K V) (limit : Nat) : KeyMap K V := { m with limit := limit }

end KeyMap

/-! ## Entries as a multiset -/

section Multisets

variable [BEq K]

theorem HoldsAt.hasKey {s : Multiset (K × V)} {k : K} {v : V} (h : HoldsAt s k v) : HasKey s k := by
  obtain ⟨k', hmem, heq⟩ := h
  exact ⟨(k', v), hmem, heq⟩

theorem distinctKeys_zero : DistinctKeys (0 : Multiset (K × V)) := by
  intro a b rest h
  exact absurd h.symm (Multiset.cons_ne_zero)

theorem DistinctKeys.tail {s : Multiset (K × V)} {p : K × V} (h : DistinctKeys (p ::ₘ s)) :
    DistinctKeys s := by
  intro a b rest hs
  refine h a b (p ::ₘ rest) ?_
  rw [hs, Multiset.cons_swap p a, Multiset.cons_swap p b]

/-- A sub-multiset of a multiset with distinct keys has distinct keys. -/
theorem DistinctKeys.of_le {s t : Multiset (K × V)} (h : DistinctKeys t) (hle : s ≤ t) :
    DistinctKeys s := by
  obtain ⟨r, rfl⟩ := Multiset.le_iff_exists_add.mp hle
  intro a b rest hs
  refine h a b (rest + r) ?_
  rw [hs, Multiset.cons_add, Multiset.cons_add]

/-- Under distinct keys two slots with equal keys are one slot. -/
theorem DistinctKeys.slot_unique {n : Nat} {cells : Nat → Option (K × V)}
    (hd : DistinctKeys (Slots.held n cells)) {i j : Nat} {p q : K × V} (hi : i < n) (hj : j < n)
    (hp : cells i = some p) (hq : cells j = some q) (hk : (p.1 == q.1) = true) : i = j := by
  by_contra hne
  obtain ⟨rest, hrest⟩ := Slots.held_two hi hj hne hp hq
  have hfalse := hd p q rest hrest
  rw [hk] at hfalse
  cases hfalse

theorem hasKey_held_iff {n : Nat} {cells : Nat → Option (K × V)} {k : K} :
    HasKey (Slots.held n cells) k ↔ ∃ i < n, ∃ p, cells i = some p ∧ (p.1 == k) = true := by
  constructor
  · rintro ⟨p, hp, hk⟩
    obtain ⟨i, hi, hc⟩ := Slots.mem_held.mp hp
    exact ⟨i, hi, p, hc, hk⟩
  · rintro ⟨i, hi, p, hc, hk⟩
    exact ⟨p, Slots.mem_held.mpr ⟨i, hi, hc⟩, hk⟩

omit [BEq K] in
theorem add_cons_coe (s : Multiset (K × V)) (p : K × V) (ps : List (K × V)) :
    s + ((p :: ps : List (K × V)) : Multiset (K × V)) = p ::ₘ s + (ps : Multiset (K × V)) := by
  rw [← Multiset.cons_coe, Multiset.add_cons, Multiset.cons_add]

variable [EquivBEq K]

/-- Under distinct keys a new entry whose key is absent keeps them distinct. -/
theorem DistinctKeys.cons {s : Multiset (K × V)} {p : K × V} (h : DistinctKeys s)
    (hnew : ¬ HasKey s p.1) : DistinctKeys (p ::ₘ s) := by
  intro a b rest hs
  have hother : ∀ x ∈ s, (x.1 == p.1) = false := fun x hx =>
    Bool.eq_false_iff.mpr fun hc => hnew ⟨x, hx, hc⟩
  rcases Multiset.cons_eq_cons.mp hs with ⟨rfl, hs'⟩ | ⟨-, cs, hs', hrest⟩
  · have hb : b ∈ s := by rw [hs']; exact Multiset.mem_cons_self ..
    rw [BEq.comm]
    exact hother b hb
  · rcases Multiset.cons_eq_cons.mp hrest with ⟨rfl, _⟩ | ⟨-, ds, -, hcs⟩
    · exact hother a (by rw [hs']; exact Multiset.mem_cons_self ..)
    · exact h a b ds (by rw [hs', hcs])

/-- Under distinct keys an entry of the multiset is the only one for its key. -/
theorem DistinctKeys.not_hasKey_tail {s : Multiset (K × V)} {p : K × V}
    (h : DistinctKeys (p ::ₘ s)) {k : K} (hk : (p.1 == k) = true) : ¬ HasKey s k := by
  rintro ⟨q, hq, hqk⟩
  obtain ⟨rest, rfl⟩ := Multiset.exists_cons_of_mem hq
  have hpq : (p.1 == q.1) = true := BEq.trans hk (BEq.symm hqk)
  rw [h p q rest rfl] at hpq
  cases hpq

/-- Where pairs are added to a multiset and all keys are distinct, the first pair is new. -/
theorem DistinctKeys.add_cons {s : Multiset (K × V)} {p : K × V} {ps : List (K × V)}
    (h : DistinctKeys (s + ((p :: ps : List (K × V)) : Multiset (K × V)))) :
    ¬ HasKey s p.1 ∧ DistinctKeys (p ::ₘ s + (ps : Multiset (K × V))) := by
  rw [add_cons_coe] at h
  refine ⟨?_, h⟩
  rw [Multiset.cons_add] at h
  rintro ⟨q, hq, hk⟩
  exact h.not_hasKey_tail BEq.rfl ⟨q, Multiset.mem_add.mpr (Or.inl hq), hk⟩

/-- Under distinct keys the value under a key is unique. -/
theorem DistinctKeys.holdsAt_unique {s : Multiset (K × V)} (h : DistinctKeys s) {k : K} {v w : V}
    (hv : HoldsAt s k v) (hw : HoldsAt s k w) : v = w := by
  obtain ⟨k', hmem, hk⟩ := hv
  obtain ⟨k'', hmem', hk'⟩ := hw
  obtain ⟨rest, rfl⟩ := Multiset.exists_cons_of_mem hmem
  rcases Multiset.mem_cons.mp hmem' with heq | hrest
  · cases heq; rfl
  · exact absurd ⟨(k'', w), hrest, hk'⟩ (h.not_hasKey_tail hk)

end Multisets

/-! ## The operations on the entries -/

namespace KeyMap

variable [BEq K] (m : KeyMap K V)

theorem lookup_isSome_iff (k : K) :
    (m.lookup k).isSome = true ↔ HasKey (m.entries : Multiset (K × V)) k := by
  simp [lookup, HasKey]

/-- A key of a map whose entries are held in slots is in one of them. -/
theorem exists_slot {n : Nat} {cells : Nat → Option (K × V)}
    (hentries : (m.entries : Multiset (K × V)) = Slots.held n cells) {k : K}
    (hk : (m.lookup k).isSome = true) :
    ∃ i < n, ∃ p, cells i = some p ∧ (p.1 == k) = true := by
  rw [lookup_isSome_iff, hentries] at hk
  exact hasKey_held_iff.mp hk

theorem lookup_eq_none_iff (k : K) :
    m.lookup k = none ↔ ¬ HasKey (m.entries : Multiset (K × V)) k := by
  rw [← lookup_isSome_iff]
  simp

/-- Removing a key that is not there changes nothing. -/
theorem remove_of_not_hasKey {k : K} (h : ¬ HasKey (m.entries : Multiset (K × V)) k) :
    m.remove k = m := by
  have herase : (m.entries.eraseP fun p => p.1 == k) = m.entries := by
    apply List.eraseP_of_forall_not
    intro p hp hk
    exact h ⟨p, by simpa using hp, hk⟩
  simp [remove, herase]

variable [EquivBEq K]

/-- Under distinct keys a lookup answers exactly the value held under the key. -/
theorem lookup_eq_some_iff (hd : DistinctKeys (m.entries : Multiset (K × V))) (k : K) (v : V) :
    m.lookup k = some v ↔ HoldsAt (m.entries : Multiset (K × V)) k v := by
  have sound : ∀ w, m.lookup k = some w → HoldsAt (m.entries : Multiset (K × V)) k w := by
    intro w hw
    obtain ⟨⟨k', w'⟩, hfind, hval⟩ := Option.map_eq_some_iff.mp hw
    cases hval
    exact ⟨k', by simpa using List.mem_of_find?_eq_some hfind, by simpa using List.find?_some hfind⟩
  constructor
  · exact sound v
  · intro hv
    cases hl : m.lookup k with
    | none => exact absurd hv.hasKey ((m.lookup_eq_none_iff k).mp hl)
    | some w => rw [hd.holdsAt_unique hv (sound w hl)]

/-- Removing a key that is there drops its one entry. -/
theorem remove_entries_of_mem (hd : DistinctKeys (m.entries : Multiset (K × V))) {k : K}
    {p : K × V} (hmem : p ∈ m.entries) (hk : (p.1 == k) = true) :
    (m.entries : Multiset (K × V)) = p ::ₘ ((m.remove k).entries : Multiset (K × V)) := by
  obtain ⟨q, l₁, l₂, -, hq, hsplit, herase⟩ :=
    List.exists_of_eraseP (p := fun q : K × V => q.1 == k) hmem hk
  have hperm : (m.entries : Multiset (K × V)) =
      q ::ₘ ((m.remove k).entries : Multiset (K × V)) := by
    rw [remove, herase, hsplit]
    exact Multiset.coe_eq_coe.mpr List.perm_middle
  have hpq : p = q := by
    have hp : p ∈ q ::ₘ ((m.remove k).entries : Multiset (K × V)) := by
      rw [← hperm]; simpa using hmem
    rcases Multiset.mem_cons.mp hp with heq | hrest
    · exact heq
    · exact absurd ⟨p, hrest, hk⟩ ((hperm ▸ hd).not_hasKey_tail hq)
  rw [hpq, ← hperm]

/-- A new value under a key that is there changes its one entry. -/
theorem set_entries_of_mem (hd : DistinctKeys (m.entries : Multiset (K × V))) {k : K} {p : K × V}
    {rest : Multiset (K × V)} (hsplit : (m.entries : Multiset (K × V)) = p ::ₘ rest)
    (hk : (p.1 == k) = true) (v : V) :
    ((m.set k v).entries : Multiset (K × V)) = (p.1, v) ::ₘ rest := by
  have hrest : rest.map (fun q => if q.1 == k then (q.1, v) else q) = rest := by
    refine (Multiset.map_congr rfl fun q hq => ?_).trans rest.map_id
    have hne : ¬ (q.1 == k) = true := fun hq' => (hsplit ▸ hd).not_hasKey_tail hk ⟨q, hq, hq'⟩
    rw [if_neg hne, id]
  rw [set, ← Multiset.map_coe, hsplit, Multiset.map_cons, hrest, if_pos hk]

end KeyMap

end ScalBase.Foundation
