/-
  Foundation/BinaryHeap.lean --- the heap order of an array read as a binary tree.

  An array is a function from indexes of which the first `n` count.  `le x y` says
  that `x` may stand above `y`.  Both sifts exchange an element with a neighbour in
  the tree; `Rising` and `Sinking` say where the order may be broken meanwhile, and
  the lemmas here what one exchange does to them.

  `contents` is the multiset of the elements; an exchange keeps it.
-/
import ScalBase.Foundation.Slots

set_option autoImplicit false

namespace ScalBase.Foundation.BinaryHeap

variable {E : Type*}

/-- The index above `i`. -/
def parent (i : Nat) : Nat := (i - 1) / 2

theorem parent_lt {i : Nat} (hi : 0 < i) : parent i < i := by
  unfold parent
  omega

/-- Two stores that exchange elements `i` and `j`. -/
def exchange (a : Nat → E) (i j : Nat) : Nat → E :=
  Function.update (Function.update a i (a j)) j (a i)

@[simp] theorem exchange_right (a : Nat → E) (i j : Nat) : exchange a i j j = a i := by
  simp [exchange]

@[simp] theorem exchange_left (a : Nat → E) (i j : Nat) : exchange a i j i = a j := by
  by_cases h : i = j
  · subst h; simp [exchange]
  · simp [exchange, h]

theorem exchange_of_ne (a : Nat → E) {i j k : Nat} (hi : k ≠ i) (hj : k ≠ j) :
    exchange a i j k = a k := by
  rw [exchange, Function.update_of_ne hj, Function.update_of_ne hi]

/-! ## Contents -/

/-- The multiset of the first `n` elements. -/
def contents (n : Nat) (a : Nat → E) : Multiset E := Slots.held n fun i => some (a i)

theorem mem_contents {n : Nat} {a : Nat → E} {e : E} : e ∈ contents n a ↔ ∃ i < n, a i = e := by
  simp [contents, Slots.mem_held]

theorem contents_succ (n : Nat) (a : Nat → E) : contents (n + 1) a = a n ::ₘ contents n a := by
  rw [contents, Slots.held, Finset.sum_range_succ, ← Slots.held, ← contents, add_comm]
  rfl

theorem contents_congr {n : Nat} {a b : Nat → E} (h : ∀ i < n, a i = b i) :
    contents n a = contents n b :=
  Slots.held_congr fun i hi => by rw [h i hi]

/-- A store trades the old element for the new one. -/
theorem contents_update {n : Nat} (a : Nat → E) {i : Nat} (hi : i < n) (e : E) :
    a i ::ₘ contents n (Function.update a i e) = e ::ₘ contents n a := by
  have hstore : (fun j => some (Function.update a i e j)) =
      Function.update (fun j => some (a j)) i (some e) := by
    funext j
    by_cases hj : j = i
    · subst hj; simp
    · simp [hj]
  rw [contents, hstore]
  exact Slots.held_swap hi rfl

/-- An exchange keeps the contents. -/
theorem contents_exchange {n : Nat} (a : Nat → E) {i j : Nat} (hi : i < n) (hj : j < n) :
    contents n (exchange a i j) = contents n a := by
  by_cases hij : i = j
  · subst hij
    rw [exchange, Function.update_idem, Function.update_eq_self]
  · have h₁ := contents_update a hi (a j)
    have h₂ := contents_update (Function.update a i (a j)) hj (a i)
    rw [Function.update_of_ne (Ne.symm hij)] at h₂
    exact (Multiset.cons_inj_right _).mp (h₂.trans h₁)

/-! ## The order -/

section Order

variable (le : E → E → Prop) (n : Nat) (a : Nat → E)

/-- Every element may stand below the one above it. -/
def Heaped : Prop := ∀ i, 0 < i → i < n → le (a (parent i)) (a i)

/-- The order holds but perhaps between `i` and the element above, which itself may
stand above the elements below `i`. -/
structure Rising (i : Nat) : Prop where
  others : ∀ j, 0 < j → j < n → j ≠ i → le (a (parent j)) (a j)
  across : ∀ j, 0 < j → j < n → parent j = i → 0 < i → le (a (parent i)) (a j)

/-- The order holds but perhaps between `i` and the elements below, which may stand
below the element above `i`. -/
structure Sinking (i : Nat) : Prop where
  others : ∀ j, 0 < j → j < n → parent j ≠ i → le (a (parent j)) (a j)
  across : ∀ j, 0 < j → j < n → parent j = i → 0 < i → le (a (parent i)) (a j)

variable {le n a}

/-- The first element may stand above every other one. -/
theorem Heaped.root (h : Heaped le n a) (hrefl : ∀ x, le x x)
    (htrans : ∀ x y z, le x y → le y z → le x z) : ∀ i < n, le (a 0) (a i) := by
  intro i
  induction i using Nat.strong_induction_on with
  | _ i ih =>
    intro hi
    rcases Nat.eq_zero_or_pos i with rfl | hpos
    · exact hrefl _
    · have hlt := parent_lt hpos
      exact htrans _ _ _ (ih _ hlt (hlt.trans hi)) (h i hpos hi)

theorem Heaped.congr (h : Heaped le n a) {b : Nat → E} (hb : ∀ i < n, b i = a i) :
    Heaped le n b := by
  intro i hpos hi
  rw [hb i hi, hb _ ((parent_lt hpos).trans hi)]
  exact h i hpos hi

theorem Heaped.shorten (h : Heaped le n a) {m : Nat} (hm : m ≤ n) : Heaped le m a :=
  fun i hpos hi => h i hpos (Nat.lt_of_lt_of_le hi hm)

/-- A new last element. -/
theorem Heaped.rising (h : Heaped le n a) : Rising le (n + 1) a n := by
  refine ⟨fun j hpos hj hne => h j hpos (by omega), ?_⟩
  intro j hpos hj hp _
  have hlt := parent_lt hpos
  omega

/-- A new first element. -/
theorem Heaped.sinking (h : Heaped le n a) (e : E) : Sinking le n (Function.update a 0 e) 0 := by
  refine ⟨?_, fun _ _ _ _ h0 => absurd h0 (Nat.lt_irrefl 0)⟩
  intro j hpos hj hne
  rw [Function.update_of_ne hne, Function.update_of_ne hpos.ne']
  exact h j hpos hj

/-! ### One exchange upwards -/

theorem Rising.done {i : Nat} (h : Rising le n a i) (hi : 0 < i → le (a (parent i)) (a i)) :
    Heaped le n a := by
  intro j hpos hj
  by_cases hji : j = i
  · subst hji
    exact hi hpos
  · exact h.others j hpos hj hji

theorem Rising.move {i : Nat} (h : Rising le n a i) (hpos : 0 < i) (hi : i < n)
    (htrans : ∀ x y z, le x y → le y z → le x z) (hle : le (a i) (a (parent i))) :
    Rising le n (exchange a i (parent i)) (parent i) := by
  have hlt := parent_lt hpos
  refine ⟨?_, ?_⟩
  · intro j hj hjn hjp
    by_cases hji : j = i
    · subst hji
      rw [exchange_right, exchange_left]
      exact hle
    · rw [exchange_of_ne a hji hjp]
      by_cases hpj : parent j = i
      · -- The old parent now stands above the elements that were below `i`.
        rw [hpj, exchange_left]
        exact h.across j hj hjn hpj hpos
      · by_cases hpp : parent j = parent i
        · rw [hpp, exchange_right]
          have hsib := h.others j hj hjn hji
          rw [hpp] at hsib
          exact htrans _ _ _ hle hsib
        · rw [exchange_of_ne a hpj hpp]
          exact h.others j hj hjn hji
  · intro j hj hjn hjp hpos'
    have hlt' := parent_lt hpos'
    have hup := h.others (parent i) hpos' (hlt.trans hi) hlt.ne
    rw [exchange_of_ne a (by omega) (by omega)]
    by_cases hji : j = i
    · subst hji
      rw [exchange_left]
      exact hup
    · have hjne : j ≠ parent i := by
        rintro rfl
        exact hlt'.ne hjp
      rw [exchange_of_ne a hji hjne]
      have hsib := h.others j hj hjn hji
      rw [hjp] at hsib
      exact htrans _ _ _ hup hsib

/-! ### One exchange downwards -/

theorem Sinking.done {i : Nat} (h : Sinking le n a i)
    (hi : ∀ j, 0 < j → j < n → parent j = i → le (a i) (a j)) : Heaped le n a := by
  intro j hpos hj
  by_cases hp : parent j = i
  · rw [hp]
    exact hi j hpos hj hp
  · exact h.others j hpos hj hp

theorem Sinking.move {i m : Nat} (h : Sinking le n a i) (hm : 0 < m) (hmn : m < n)
    (hp : parent m = i) (hle : le (a m) (a i))
    (hleast : ∀ j, 0 < j → j < n → parent j = i → le (a m) (a j)) :
    Sinking le n (exchange a i m) m := by
  have hlt : i < m := hp ▸ parent_lt hm
  refine ⟨?_, ?_⟩
  · intro j hj hjn hjm
    by_cases hji : j = i
    · subst hji
      -- The element that came up stands below what was above `i`.
      have hlt' := parent_lt hj
      rw [exchange_left, exchange_of_ne a hlt'.ne hjm]
      exact h.across m hm hmn hp hj
    · by_cases hjm' : j = m
      · subst hjm'
        rw [exchange_right, hp, exchange_left]
        exact hle
      · rw [exchange_of_ne a hji hjm']
        by_cases hpj : parent j = i
        · rw [hpj, exchange_left]
          exact hleast j hj hjn hpj
        · rw [exchange_of_ne a hpj hjm]
          exact h.others j hj hjn hpj
  · intro j hj hjn hjm hpos
    have hlt' : m < j := hjm ▸ parent_lt hj
    rw [hp, exchange_left, exchange_of_ne a (by omega) (by omega)]
    have hjm' := h.others j hj hjn (by omega)
    rwa [hjm] at hjm'

end Order

end ScalBase.Foundation.BinaryHeap
