/-
  BHeap/Walk.lean --- the nodes that a sift down visits.

  The item of the root sinks along the first children: at each node it goes on to the
  child that is before it and before the other child, on a tie to the left one.  The
  sift has not written to the items below yet, so these nodes can be read off the heap
  before the sift (`SinksTo`).
-/
import ScalBase.BHeap

set_option autoImplicit false

namespace ScalBase.BHeaps

open Foundation Foundation.BinaryHeap

/-! ## The order that a sift uses -/

/-- `before` is the strict part of the total preorder `le`. -/
structure StrictPart (le before : Nat → Nat → Bool) : Prop where
  before_iff : ∀ a b, before a b = true ↔ ¬ le b a = true
  total : ∀ a b, le a b = true ∨ le b a = true
  trans : ∀ a b c, le a b = true → le b c = true → le a c = true

section Order

variable {le before : Nat → Nat → Bool}

theorem StrictPart.refl (ho : StrictPart le before) (a : Nat) : le a a = true :=
  (ho.total a a).elim id id

theorem StrictPart.le_of_before (ho : StrictPart le before) {a b : Nat} (h : before a b = true) :
    le a b = true :=
  (ho.total a b).resolve_right ((ho.before_iff a b).mp h)

theorem StrictPart.not_before (ho : StrictPart le before) {a b : Nat} :
    before a b = false ↔ le b a = true := by
  rw [← Bool.not_eq_true, ho.before_iff, not_not]

theorem StrictPart.trans_left (ho : StrictPart le before) {a b c : Nat} (hab : before a b = true)
    (hbc : le b c = true) : before a c = true := by
  rw [ho.before_iff] at hab ⊢
  exact fun hca => hab (ho.trans b c a hbc hca)

theorem strictPart_lt : StrictPart (fun a b => a ≤ b) fun a b => a < b :=
  ⟨fun a b => by simp, fun a b => by simpa using Nat.le_total a b,
    fun a b c => by simpa using Nat.le_trans⟩

theorem strictPart_gt : StrictPart (fun a b => a ≥ b) fun a b => a > b :=
  ⟨fun a b => by simp, fun a b => by simpa using Nat.le_total b a,
    fun a b c => by simpa using fun hab hbc => Nat.le_trans hbc hab⟩

/-- By the order it uses itself, a turn always picks the first item. -/
theorem StrictPart.turnAgrees (ho : StrictPart le before) (n : Nat) (s : HeapifyLoop) :
    TurnAgrees le before n s := by
  intro _ c hc hlt
  unfold pick
  simp only
  -- The node and its left child first.
  generalize hb : (if before (s.items (2 * s.index + 1)).key (s.items s.index).key = true
    then 2 * s.index + 1 else s.index) = best
  have hbest : le (s.items best).key (s.items s.index).key = true ∧
      le (s.items best).key (s.items (2 * s.index + 1)).key = true := by
    split_ifs at hb with hleft
    · subst hb
      exact ⟨ho.le_of_before hleft, ho.refl _⟩
    · subst hb
      exact ⟨ho.refl _, ho.not_before.mp (Bool.eq_false_iff.mpr hleft)⟩
  -- Then the right one.
  split_ifs with hright
  · have hle := ho.le_of_before hright.2
    rcases hc with rfl | rfl | rfl
    · exact ho.trans _ _ _ hle hbest.1
    · exact ho.trans _ _ _ hle hbest.2
    · exact ho.refl _
  · rcases hc with rfl | rfl | rfl
    · exact hbest.1
    · exact hbest.2
    · exact ho.not_before.mp (Bool.eq_false_iff.mpr fun h => hright ⟨hlt, h⟩)

end Order

/-! ## The way of the root's item -/

/-- The item of the root goes on to `c` if it comes to the node above: the item at `c`
is before it, and is the first of the two children, on a tie the left one. -/
def Preferred (before : Nat → Nat → Bool) (bh : BHeap) (c : Nat) : Prop :=
  before (bh.items c).key (bh.items 0).key = true ∧
    if c % 2 = 1 then
      c + 1 < bh.count → before (bh.items (c + 1)).key (bh.items c).key = false
    else before (bh.items c).key (bh.items (c - 1)).key = true

/-- All nodes on the way from the root to this one are such children. -/
inductive SinksTo (before : Nat → Nat → Bool) (bh : BHeap) : Nat → Prop
  | root : SinksTo before bh 0
  | child {c : Nat} (hpos : 0 < c) (hlt : c < bh.count) (hpref : Preferred before bh c)
      (h : SinksTo before bh (parent c)) : SinksTo before bh c

/-- The item of the root sinks to no index whose double is not an `int`. -/
def SinkFits (before : Nat → Nat → Bool) (bh : BHeap) : Prop :=
  ∀ c, SinksTo before bh c → c < 2 ^ 30

section Walk

variable {le before : Nat → Nat → Bool} {bh : BHeap}

/-- In a heap of up to `2^30` items every sift fits. -/
theorem sinkFits_of_count_le (before : Nat → Nat → Bool) (h : bh.count ≤ 2 ^ 30) :
    SinkFits before bh := by
  intro c hc
  cases hc with
  | root => exact Nat.two_pow_pos 30
  | child _ hlt _ _ => exact hlt.trans_le h

theorem preferred_left {i : Nat} : Preferred before bh (2 * i + 1) ↔
    before (bh.items (2 * i + 1)).key (bh.items 0).key = true ∧ (2 * i + 2 < bh.count →
      before (bh.items (2 * i + 2)).key (bh.items (2 * i + 1)).key = false) := by
  have hodd : (2 * i + 1) % 2 = 1 := by omega
  rw [Preferred, if_pos hodd]

theorem preferred_right {i : Nat} : Preferred before bh (2 * i + 2) ↔
    before (bh.items (2 * i + 2)).key (bh.items 0).key = true ∧
      before (bh.items (2 * i + 2)).key (bh.items (2 * i + 1)).key = true := by
  have heven : (2 * i + 2) % 2 ≠ 1 := by omega
  rw [Preferred, if_neg heven]
  rfl

/-! ### One turn -/

/-- A turn leaves the loop, or goes on at a child of the node, which the heap has. -/
theorem heapifyTurn_cases (before : Nat → Nat → Bool) (n : Nat) (s : HeapifyLoop) :
    heapifyTurn before n s = .done s.items ∨
      (2 * s.index + 1 < n ∧ pick before n s ≠ s.index ∧
        heapifyTurn before n s = .again
          ⟨Function.update (Function.update s.items s.index (s.items (pick before n s)))
            (pick before n s) s.item, pick before n s, s.item⟩) := by
  by_cases hchild : 2 * s.index + 1 < n
  · by_cases hbest : pick before n s = s.index
    · exact Or.inl (by rw [heapifyTurn, if_pos hchild, if_pos hbest])
    · exact Or.inr ⟨hchild, hbest, by rw [heapifyTurn, if_pos hchild, if_neg hbest]⟩
  · exact Or.inl (by rw [heapifyTurn, if_neg hchild])

/-- The child that a turn picks. -/
theorem pick_child {n : Nat} {s : HeapifyLoop} (hchild : 2 * s.index + 1 < n)
    (hbest : pick before n s ≠ s.index) :
    s.index < pick before n s ∧ pick before n s < n ∧ parent (pick before n s) = s.index := by
  have hcases := pick_cases before n s
  unfold parent
  omega

/-- What a turn that goes on has done. -/
theorem heapifyTurn_again {n : Nat} {s s' : HeapifyLoop} (hb : heapifyTurn before n s = .again s') :
    2 * s.index + 1 < n ∧ pick before n s ≠ s.index ∧
      s' = ⟨Function.update (Function.update s.items s.index (s.items (pick before n s)))
        (pick before n s) s.item, pick before n s, s.item⟩ := by
  rcases heapifyTurn_cases before n s with hdone | ⟨hchild, hbest, hagain⟩
  · rw [hdone] at hb
    cases hb
  · rw [hagain] at hb
    cases hb
    exact ⟨hchild, hbest, rfl⟩

/-- At a node of the sift, the heap from there on is as it was. -/
structure Sunk (bh : BHeap) (s : HeapifyLoop) : Prop where
  item : s.item = bh.items 0
  node : s.items s.index = bh.items 0
  below : ∀ i, s.index < i → s.items i = bh.items i

/-- A turn picks a child where the item of the root goes on to it. -/
theorem StrictPart.pick_eq_iff (ho : StrictPart le before) {s : HeapifyLoop} (h : Sunk bh s)
    {c : Nat} (hpos : 0 < c) (hlt : c < bh.count) (hp : parent c = s.index) :
    pick before bh.count s = c ↔ Preferred before bh c := by
  obtain ⟨-, hnode, hbelow⟩ := h
  have hleft : s.items (2 * s.index + 1) = bh.items (2 * s.index + 1) := hbelow _ (by omega)
  have hright : s.items (2 * s.index + 2) = bh.items (2 * s.index + 2) := hbelow _ (by omega)
  rcases child_cases hpos hp with rfl | rfl
  · rw [preferred_left, ← hleft, ← hright, ← hnode, pick]
    by_cases hl : before (s.items (2 * s.index + 1)).key (s.items s.index).key = true
    · simp [hl]
    · rw [if_neg hl]
      refine iff_of_false ?_ fun h => hl h.1
      split_ifs <;> omega
  · rw [preferred_right, ← hleft, ← hright, ← hnode, pick]
    by_cases hl : before (s.items (2 * s.index + 1)).key (s.items s.index).key = true
    · rw [if_pos hl]
      split_ifs with hr
      · exact iff_of_true rfl ⟨ho.trans_left hr.2 (ho.le_of_before hl), hr.2⟩
      · exact iff_of_false (by omega) fun h => hr ⟨hlt, h.2⟩
    · have hle := ho.not_before.mp (Bool.eq_false_iff.mpr hl)
      rw [if_neg hl]
      split_ifs with hr
      · exact iff_of_true rfl ⟨hr.2, ho.trans_left hr.2 hle⟩
      · exact iff_of_false (by omega) fun h => hr ⟨hlt, h.1⟩

theorem Sunk.again {n : Nat} {s s' : HeapifyLoop} (h : Sunk bh s)
    (hb : heapifyTurn before n s = .again s') : Sunk bh s' := by
  obtain ⟨hitem, hnode, hbelow⟩ := h
  obtain ⟨hchild, hbest, rfl⟩ := heapifyTurn_again hb
  have hlt := (pick_child hchild hbest).1
  refine ⟨hitem, by simpa using hitem, ?_⟩
  intro i hi
  simp only at hi
  simp only
  rw [Function.update_of_ne (by omega), Function.update_of_ne (by omega), hbelow i (by omega)]

/-! ### All turns -/

/-- A sift visits the nodes that the item of the root sinks to, ... -/
theorem StrictPart.sinksTo_of_visits (ho : StrictPart le before) {t : HeapifyLoop}
    (ht : Loop.Visits (heapifyTurn before bh.count) ⟨bh.items, 0, bh.items 0⟩ t) :
    SinksTo before bh t.index := by
  refine (ht.invariant (fun s => Sunk bh s ∧ SinksTo before bh s.index) ?_
    ⟨⟨rfl, rfl, fun _ _ => rfl⟩, .root⟩).2
  intro s s' hs hb
  refine ⟨hs.1.again hb, ?_⟩
  obtain ⟨hchild, hbest, rfl⟩ := heapifyTurn_again hb
  obtain ⟨hdown, hlt, hp⟩ := pick_child hchild hbest
  have hpos := Nat.zero_lt_of_lt hdown
  exact .child hpos hlt ((ho.pick_eq_iff hs.1 hpos hlt hp).mp rfl) (hp.symm ▸ hs.2)

/-- ... and all of these. -/
theorem StrictPart.visits_of_sinksTo (ho : StrictPart le before) {c : Nat}
    (h : SinksTo before bh c) :
    ∃ t, Loop.Visits (heapifyTurn before bh.count) ⟨bh.items, 0, bh.items 0⟩ t ∧ Sunk bh t ∧
      t.index = c := by
  induction h with
  | root => exact ⟨_, .here _, ⟨rfl, rfl, fun _ _ => rfl⟩, rfl⟩
  | @child c hpos hlt hpref _ ih =>
    obtain ⟨t, hvisits, hsunk, hindex⟩ := ih
    have hpick := (ho.pick_eq_iff hsunk hpos hlt hindex.symm).mpr hpref
    have hup := parent_lt hpos
    rcases heapifyTurn_cases before bh.count t with hdone | ⟨-, -, hagain⟩
    · -- The turn does not end here, since the node has a child that it picks.
      have hcases := child_cases hpos hindex.symm
      rw [heapifyTurn, if_pos (by omega), hpick, if_neg (by omega)] at hdone
      cases hdone
    · exact ⟨_, hvisits.snoc hagain, hsunk.again hagain, hpick⟩

/-! ### A long way -/

/-- Where all items but the root's are the same, that sinks along the left edge. -/
theorem sinksTo_left {n a : Nat} (hcount : 2 ^ n ≤ bh.count) (hroot : a < (bh.items 0).key)
    (hrest : ∀ i, 0 < i → i + 1 < 2 ^ n → (bh.items i).key = a) : ∀ k, k < n → ∀ c, c + 1 = 2 ^ k →
    SinksTo (fun a b => a < b) bh c := by
  intro k
  induction k with
  | zero =>
    intro _ c hc
    obtain rfl : c = 0 := by omega
    exact .root
  | succ k ih =>
    intro hk c hc
    have hpow : 2 ^ (k + 1) * 2 ≤ 2 ^ n := by
      rw [← Nat.pow_succ]
      exact Nat.pow_le_pow_right (by decide) hk
    rw [Nat.pow_succ] at hc hpow
    obtain ⟨i, hi⟩ : ∃ i, i + 1 = 2 ^ k := ⟨2 ^ k - 1, Nat.sub_add_cancel (Nat.two_pow_pos k)⟩
    obtain rfl : c = 2 * i + 1 := by omega
    have hp : parent (2 * i + 1) = i := by
      unfold parent
      omega
    refine .child (Nat.succ_pos _) (by omega) (preferred_left.mpr ⟨?_, fun _ => ?_⟩)
      (hp.symm ▸ ih (by omega) i hi)
    · rw [hrest _ (by omega) (by omega), decide_eq_true hroot]
    · rw [hrest _ (by omega) (by omega), hrest _ (by omega) (by omega), decide_eq_false_iff_not]
      exact Nat.lt_irrefl a

/-- And from there to the right, if a smaller one is there. -/
theorem sinksTo_two_pow {n a : Nat} (hcount : 2 ^ (n + 1) < bh.count) (hroot : a < (bh.items 0).key)
    (hrest : ∀ i, 0 < i → i + 1 < 2 ^ (n + 1) → (bh.items i).key = a)
    (hlast : (bh.items (2 ^ (n + 1))).key < (bh.items 0).key)
    (hsib : (bh.items (2 ^ (n + 1))).key < (bh.items (2 ^ (n + 1) - 1)).key) :
    SinksTo (fun a b => a < b) bh (2 ^ (n + 1)) := by
  obtain ⟨i, hi⟩ : ∃ i, i + 1 = 2 ^ n := ⟨2 ^ n - 1, Nat.sub_add_cancel (Nat.two_pow_pos n)⟩
  have hleft := sinksTo_left hcount.le hroot hrest n (Nat.lt_succ_self n) i hi
  have hindex : 2 ^ (n + 1) = 2 * i + 2 := by
    rw [Nat.pow_succ]
    omega
  have hp : parent (2 * i + 2) = i := by
    unfold parent
    omega
  rw [hindex] at hcount hlast hsib ⊢
  exact .child (Nat.succ_pos _) hcount
    (preferred_right.mpr ⟨decide_eq_true hlast, decide_eq_true hsib⟩) (hp.symm ▸ hleft)

end Walk

end ScalBase.BHeaps
