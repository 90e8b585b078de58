/-
  Foundation/RobinHood.lean --- the displacement order of a Robin Hood hash table.

  A table is `n` slots on a ring, each free or holding an entry with a home slot.
  The displacement of an entry is its distance from home.  The table is `Ordered`
  when every displaced entry follows an entry that is displaced at most one less.
  That local condition is what an early stop in a lookup relies on: between its
  home and the slot it is in, an entry passes only entries displaced at least as
  far as itself at that point (`Ordered.path`).

  The second half treats the two ways a table is changed: an entry written to a
  slot its predecessor supports (`Ordered.fill`, `Ordered.replace`), and the hole a
  removal leaves while it moves forward (`Hole`).
-/
import ScalBase.Foundation.Cyclic

set_option autoImplicit false

namespace ScalBase.Foundation.RobinHood

open Cyclic

variable {E : Type*} (n : Nat) (home : E → Nat)

/-- How far slot `i` is from the home of `e`. -/
def disp (e : E) (i : Nat) : Nat := dist n (home e) i

/-- The predecessor of slot `i` supports an entry of displacement `d` in slot `i`. -/
def Follows (cells : Nat → Option E) (i d : Nat) : Prop :=
  d = 0 ∨ ∃ e, cells (prev n i) = some e ∧ d ≤ disp n home e (prev n i) + 1

/-- The Robin Hood order: every entry is supported where it is. -/
def Ordered (cells : Nat → Option E) : Prop :=
  ∀ i < n, ∀ e, cells i = some e → Follows n home cells i (disp n home e i)

variable {n home} {cells : Nat → Option E}

theorem Follows.mono {i d d' : Nat} (h : Follows n home cells i d) (hle : d' ≤ d) :
    Follows n home cells i d' := by
  rcases h with rfl | ⟨e, he, hd⟩
  · exact Or.inl (by omega)
  · exact Or.inr ⟨e, he, by omega⟩

/-- A write away from the predecessor leaves the support as it was. -/
theorem Follows.update {i j d : Nat} {x : Option E} (h : Follows n home cells i d)
    (hne : prev n i ≠ j) : Follows n home (Function.update cells j x) i d := by
  rcases h with rfl | ⟨e, he, hd⟩
  · exact Or.inl rfl
  · exact Or.inr ⟨e, by rw [Function.update_of_ne hne]; exact he, hd⟩

/-- An entry in slot `i` supports one step more in the slot after it. -/
theorem follows_next {i d : Nat} {e : E} (he : cells i = some e)
    (hd : d ≤ disp n home e i) : Follows n home cells (next n i) (d + 1) :=
  Or.inr ⟨e, by rw [prev_next]; exact he, by rw [prev_next]; omega⟩

theorem ordered_of_empty (h : ∀ i < n, cells i = none) : Ordered n home cells := by
  intro i hi e he
  rw [h i hi] at he
  cases he

/-- Between its home and its slot an entry passes only slots that are taken by
entries displaced at least as far as the walk has come. -/
theorem Ordered.path (h : Ordered n home cells) {i : Nat} {e : E} (hi : i < n)
    (hhome : home e < n) (he : cells i = some e) :
    ∀ {d : Nat}, d ≤ disp n home e i →
      ∃ e', cells (walk n (home e) d) = some e' ∧ d ≤ disp n home e' (walk n (home e) d) := by
  have hD : disp n home e i < n := dist_lt hhome hi
  -- Induction on how far `d` is from the end of the walk, going back one slot a time.
  have key : ∀ k d, d + k = disp n home e i →
      ∃ e', cells (walk n (home e) d) = some e' ∧ d ≤ disp n home e' (walk n (home e) d) := by
    intro k
    induction k with
    | zero =>
      intro d hd
      have hwalk : walk n (home e) d = i := by
        rw [Nat.add_zero] at hd
        rw [hd]
        exact walk_dist hhome hi
      rw [hwalk]
      exact ⟨e, he, by omega⟩
    | succ k ih =>
      intro d hd
      obtain ⟨e', he', hle⟩ := ih (d + 1) (by omega)
      rcases h _ (walk_lt hhome (by omega)) e' he' with h0 | ⟨e'', he'', hle'⟩
      · omega
      · rw [prev_walk_succ hhome (by omega)] at he'' hle'
        exact ⟨e'', he'', by omega⟩
  intro d hd
  exact key (disp n home e i - d) d (by omega)

/-- The same at a slot rather than a distance. -/
theorem Ordered.passes (h : Ordered n home cells) {i j : Nat} {e : E} (hi : i < n) (hj : j < n)
    (hhome : home e < n) (he : cells i = some e) (hle : disp n home e j ≤ disp n home e i) :
    ∃ e', cells j = some e' ∧ disp n home e j ≤ disp n home e' j := by
  have hp := h.path hi hhome he hle
  rwa [disp, walk_dist hhome hj] at hp

/-- A free slot is further from the home of an entry than the entry is. -/
theorem Ordered.disp_lt_free (h : Ordered n home cells) {i u : Nat} {e : E} (hi : i < n)
    (hu : u < n) (hhome : home e < n) (he : cells i = some e) (hfree : cells u = none) :
    disp n home e i < disp n home e u := by
  by_contra hge
  obtain ⟨e', he', -⟩ := h.passes hi hu hhome he (Nat.not_lt.mp hge)
  rw [hfree] at he'
  cases he'

/-! ## Writing an entry -/

/-- A free slot whose predecessor supports `e` may take it. -/
theorem Ordered.fill (h : Ordered n home cells) {i : Nat} {e : E} (hi : i < n)
    (hfree : cells i = none) (hf : Follows n home cells i (disp n home e i)) :
    Ordered n home (Function.update cells i (some e)) := by
  intro j hj e' he'
  by_cases hji : j = i
  · subst hji
    rw [Function.update_self] at he'
    cases he'
    rcases hf with h0 | ⟨e'', he'', hle⟩
    · exact Or.inl h0
    · refine Follows.update (Or.inr ⟨e'', he'', hle⟩) ?_
      intro hp
      rw [hp, hfree] at he''
      cases he''
  · rw [Function.update_of_ne hji] at he'
    rcases h j hj e' he' with h0 | ⟨e'', he'', hle⟩
    · exact Or.inl h0
    · refine Follows.update (Or.inr ⟨e'', he'', hle⟩) ?_
      intro hp
      rw [hp, hfree] at he''
      cases he''

/-- A taken slot may be given to an entry displaced at least as far there, when
its predecessor supports it. -/
theorem Ordered.replace (h : Ordered n home cells) {i : Nat} {e old : E}
    (hold : cells i = some old) (hle : disp n home old i ≤ disp n home e i)
    (hf : Follows n home cells i (disp n home e i)) :
    Ordered n home (Function.update cells i (some e)) := by
  have lift : ∀ j d, Follows n home cells j d →
      Follows n home (Function.update cells i (some e)) j d := by
    intro j d hjd
    by_cases hp : prev n j = i
    · rcases hjd with h0 | ⟨e'', he'', hd⟩
      · exact Or.inl h0
      · rw [hp, hold] at he''
        cases he''
        refine Or.inr ⟨e, by rw [hp, Function.update_self], ?_⟩
        rw [hp] at hd ⊢
        omega
    · exact hjd.update hp
  intro j hj e' he'
  by_cases hji : j = i
  · subst hji
    rw [Function.update_self] at he'
    cases he'
    exact lift j _ hf
  · rw [Function.update_of_ne hji] at he'
    exact lift j _ (h j hj e' he')

/-! ## The hole of a removal -/

/-- Slot `hole` has been vacated.  The order holds but for the slot after it, and
the entry there, moved one slot back, would be supported. -/
structure Hole (n : Nat) (home : E → Nat) (cells : Nat → Option E) (hole : Nat) : Prop where
  lt : hole < n
  free : cells hole = none
  follows : ∀ i < n, i ≠ next n hole → ∀ e, cells i = some e →
    Follows n home cells i (disp n home e i)
  bridge : ∀ e, cells (next n hole) = some e →
    Follows n home cells hole (disp n home e (next n hole) - 1)

/-- A taken slot is not the only one when the slot after it differs. -/
theorem two_le_of_next_ne {i : Nat} (hi : i < n) (h : next n i ≠ i) : 2 ≤ n := by
  unfold next at h
  split at h <;> omega

theorem Ordered.vacate (h : Ordered n home cells) {i : Nat} {e : E} (hi : i < n)
    (he : cells i = some e) : Hole n home (Function.update cells i none) i where
  lt := hi
  free := Function.update_self ..
  follows := by
    intro j hj hne e' he'
    have hji : j ≠ i := by rintro rfl; rw [Function.update_self] at he'; cases he'
    rw [Function.update_of_ne hji] at he'
    refine (h j hj e' he').update ?_
    rwa [Ne, prev_eq_iff hj hi]
  bridge := by
    intro e' he'
    have hni : next n i ≠ i := by
      intro hp; rw [hp, Function.update_self] at he'; cases he'
    rw [Function.update_of_ne hni] at he'
    refine Follows.update ?_ (prev_ne_self (two_le_of_next_ne hi hni))
    rcases h _ (next_lt hi) e' he' with h0 | ⟨e'', he'', hle⟩
    · exact Or.inl (by omega)
    · rw [prev_next, he] at he''
      cases he''
      rw [prev_next] at hle
      exact (h i hi e he).mono (by omega)

/-- The entry after the hole, when displaced, moves into it; the hole moves on. -/
theorem Hole.move {hole : Nat} (h : Hole n home cells hole) {e : E} (hhome : home e < n)
    (he : cells (next n hole) = some e) (hpos : 0 < disp n home e (next n hole)) :
    Hole n home (Function.update (Function.update cells hole (some e)) (next n hole) none)
      (next n hole) := by
  have hlt := h.lt
  have hni : next n hole ≠ hole := by intro hp; rw [hp, h.free] at he; cases he
  have hn : 2 ≤ n := two_le_of_next_ne hlt hni
  have hdisp : disp n home e (next n hole) = disp n home e hole + 1 := by
    have hd := dist_prev hhome (next_lt hlt) hpos
    rwa [prev_next] at hd
  refine ⟨next_lt hlt, Function.update_self .., ?_, ?_⟩
  · intro j hj hne e' he'
    have hjn : j ≠ next n hole := by rintro rfl; rw [Function.update_self] at he'; cases he'
    rw [Function.update_of_ne hjn] at he'
    have hpn : prev n j ≠ next n hole := by rwa [Ne, prev_eq_iff hj (next_lt hlt)]
    refine Follows.update ?_ hpn
    by_cases hjh : j = hole
    · subst hjh
      rw [Function.update_self] at he'
      cases he'
      refine Follows.update ?_ (prev_ne_self hn)
      exact (h.bridge e he).mono (by omega)
    · rw [Function.update_of_ne hjh] at he'
      refine (h.follows j hj hjn e' he').update ?_
      rwa [Ne, prev_eq_iff hj hlt]
  · intro e' he'
    have hnn : next n (next n hole) ≠ next n hole := next_ne_self hn
    rw [Function.update_of_ne hnn] at he'
    have hself : Function.update (Function.update cells hole (some e)) (next n hole) none hole
        = some e := by
      rw [Function.update_of_ne hni.symm, Function.update_self]
    by_cases hback : next n (next n hole) = hole
    · -- A ring of two: the entry just moved is the one after the new hole.
      rw [hback, Function.update_self] at he'
      cases he'
      refine Or.inr ⟨e, by rw [prev_next]; exact hself, ?_⟩
      rw [prev_next, hback]
      omega
    · rw [Function.update_of_ne hback] at he'
      have hbound : disp n home e' (next n (next n hole)) ≤ disp n home e (next n hole) + 1 := by
        rcases h.follows _ (next_lt (next_lt hlt)) hnn e' he' with h0 | ⟨e'', he'', hle⟩
        · omega
        · rw [prev_next, he] at he''
          cases he''
          rwa [prev_next] at hle
      refine Or.inr ⟨e, by rw [prev_next]; exact hself, ?_⟩
      rw [prev_next]
      omega

/-- The hole closes at a slot followed by a free slot or an entry at home. -/
theorem Hole.close {hole : Nat} (h : Hole n home cells hole)
    (hend : ∀ e, cells (next n hole) = some e → disp n home e (next n hole) = 0) :
    Ordered n home cells := by
  intro i hi e he
  by_cases hne : i = next n hole
  · subst hne
    exact Or.inl (hend e he)
  · exact h.follows i hi hne e he

/-! ## Stored probe lengths -/

/-- The slots are in order, and the probe length stored with a taken slot is the
displacement of its entry. -/
structure Probed (n : Nat) (home : E → Nat) (cells : Nat → Option E) (probe : Nat → Nat) :
    Prop where
  ordered : Ordered n home cells
  exact : ∀ i < n, ∀ e, cells i = some e → probe i = disp n home e i

theorem probed_of_empty {probe : Nat → Nat} (h : ∀ i < n, cells i = none) :
    Probed n home cells probe := by
  refine ⟨ordered_of_empty h, ?_⟩
  intro i hi e he
  rw [h i hi] at he
  cases he

/-- On the way from the home of an entry to its slot every slot is taken, with a
probe length of at least the distance walked. -/
theorem Probed.passes {probe : Nat → Nat} (h : Probed n home cells probe) {i j : Nat} {e : E}
    (hi : i < n) (hhome : home e < n) (he : cells i = some e) (hj : Between n (home e) i j) :
    ∃ e', cells j = some e' ∧ dist n (home e) j ≤ probe j := by
  obtain ⟨e', he', hd⟩ := h.ordered.passes hi hj.lt hhome he hj.le
  refine ⟨e', he', ?_⟩
  rw [h.exact j hj.lt e' he']
  exact hd

/-- A write of `e` with its displacement keeps the stored probe lengths exact. -/
theorem Probed.write {probe : Nat → Nat} (h : Probed n home cells probe) {i : Nat} {e : E}
    (hord : Ordered n home (Function.update cells i (some e))) {probe' : Nat → Nat}
    (hself : probe' i = disp n home e i) (hother : ∀ j, j ≠ i → probe' j = probe j) :
    Probed n home (Function.update cells i (some e)) probe' := by
  refine ⟨hord, ?_⟩
  intro j hj e' he'
  by_cases hji : j = i
  · subst hji
    rw [Function.update_self] at he'
    cases he'
    exact hself
  · rw [Function.update_of_ne hji] at he'
    rw [hother j hji]
    exact h.exact j hj e' he'

/-- The entry in slot `hole` is gone, whatever the slot still stores. -/
structure ProbedHole (n : Nat) (home : E → Nat) (cells : Nat → Option E) (probe : Nat → Nat)
    (hole : Nat) : Prop where
  order : Hole n home (Function.update cells hole none) hole
  exact : ∀ i < n, i ≠ hole → ∀ e, cells i = some e → probe i = disp n home e i

theorem Probed.vacate {probe : Nat → Nat} (h : Probed n home cells probe) {i : Nat} {e : E}
    (hi : i < n) (he : cells i = some e) : ProbedHole n home cells probe i :=
  ⟨h.ordered.vacate hi he, fun j hj _ => h.exact j hj⟩

/-- The entry after the hole, when its probe length is not zero, moves into it with
a probe length of one less; the hole moves on. -/
theorem ProbedHole.move {probe : Nat → Nat} {hole : Nat} (h : ProbedHole n home cells probe hole)
    {e : E} (hhome : home e < n) (hni : next n hole ≠ hole) (he : cells (next n hole) = some e)
    (hpos : probe (next n hole) ≠ 0) {probe' : Nat → Nat}
    (hself : probe' hole = probe (next n hole) - 1)
    (hother : ∀ j, j ≠ hole → j ≠ next n hole → probe' j = probe j) :
    ProbedHole n home (Function.update cells hole (some e)) probe' (next n hole) := by
  have hnlt : next n hole < n := next_lt h.order.lt
  have hpl := h.exact _ hnlt hni e he
  have he' : Function.update cells hole none (next n hole) = some e := by
    rw [Function.update_of_ne hni, he]
  refine ⟨?_, ?_⟩
  · have hmove := h.order.move hhome he' (by omega)
    rwa [Function.update_idem] at hmove
  · intro j hj hjn e₁ he₁
    by_cases hjh : j = hole
    · subst hjh
      rw [Function.update_self] at he₁
      cases he₁
      have hdisp := dist_prev hhome hnlt (by rw [← disp, ← hpl]; omega)
      rw [prev_next, ← disp, ← disp, ← hpl] at hdisp
      omega
    · rw [Function.update_of_ne hjh] at he₁
      rw [hother j hjh hjn]
      exact h.exact j hj hjh e₁ he₁

/-- The hole closes before a free slot or one whose probe length is zero. -/
theorem ProbedHole.close {probe : Nat → Nat} {hole : Nat} (h : ProbedHole n home cells probe hole)
    (hend : cells (next n hole) = none ∨ probe (next n hole) = 0) {probe' : Nat → Nat}
    (hother : ∀ j, j ≠ hole → probe' j = probe j) :
    Probed n home (Function.update cells hole none) probe' := by
  have hkept : ∀ {j e}, Function.update cells hole none j = some e →
      j ≠ hole ∧ cells j = some e := by
    intro j e he
    have hj : j ≠ hole := by rintro rfl; rw [Function.update_self] at he; cases he
    rw [Function.update_of_ne hj] at he
    exact ⟨hj, he⟩
  refine ⟨h.order.close ?_, ?_⟩
  · intro e he
    obtain ⟨hni, he⟩ := hkept he
    rw [← h.exact _ (next_lt h.order.lt) hni e he]
    rcases hend with hnone | hzero
    · rw [hnone] at he
      cases he
    · exact hzero
  · intro j hj e he
    obtain ⟨hjh, he⟩ := hkept he
    rw [hother j hjh]
    exact h.exact j hj hjh e he

end ScalBase.Foundation.RobinHood
