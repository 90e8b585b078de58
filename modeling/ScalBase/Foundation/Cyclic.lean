/-
  Foundation/Cyclic.lean --- positions on a ring of `n` slots.

  `next` and `prev` step round the ring, `dist n a b` is the number of forward
  steps from `a` to `b`, and `walk n a d` is the position `d` steps after `a`.
  All are written with case splits rather than `%`, so that `omega` decides the
  facts below.

  `run_scan` is the rule for a loop that steps round the ring: one that leaves at
  a known position at the latest ends within `n` turns.
-/
import ScalBase.Foundation.Loop

set_option autoImplicit false

namespace ScalBase.Foundation.Cyclic

/-- The position after `i`. -/
def next (n i : Nat) : Nat := if i + 1 = n then 0 else i + 1

/-- The position before `i`. -/
def prev (n i : Nat) : Nat := if i = 0 then n - 1 else i - 1

/-- The number of forward steps from `a` to `b`. -/
def dist (n a b : Nat) : Nat := if a ≤ b then b - a else n - a + b

/-- The position `d` steps after `a`. -/
def walk (n a d : Nat) : Nat := if a + d < n then a + d else a + d - n

variable {n : Nat}

theorem next_lt {i : Nat} (hi : i < n) : next n i < n := by
  unfold next; split <;> omega

theorem prev_lt {i : Nat} (hi : i < n) : prev n i < n := by
  unfold prev; split <;> omega

theorem walk_lt {a d : Nat} (ha : a < n) (hd : d < n) : walk n a d < n := by
  unfold walk; split <;> omega

theorem dist_lt {a b : Nat} (ha : a < n) (hb : b < n) : dist n a b < n := by
  unfold dist; split <;> omega

@[simp] theorem dist_self (a : Nat) : dist n a a = 0 := by simp [dist]

@[simp] theorem walk_zero {a : Nat} (ha : a < n) : walk n a 0 = a := by simp [walk, ha]

theorem prev_next (i : Nat) : prev n (next n i) = i := by
  unfold next
  split
  · simp only [prev, if_true]; omega
  · simp [prev]

theorem next_prev {i : Nat} (hi : i < n) : next n (prev n i) = i := by
  unfold next prev; split_ifs <;> omega

theorem prev_eq_iff {i j : Nat} (hi : i < n) (hj : j < n) : prev n i = j ↔ i = next n j := by
  unfold next prev; split_ifs <;> omega

theorem next_ne_self {i : Nat} (hn : 2 ≤ n) : next n i ≠ i := by
  unfold next; split_ifs <;> omega

theorem prev_ne_self {i : Nat} (hn : 2 ≤ n) : prev n i ≠ i := by
  unfold prev; split_ifs <;> omega

theorem walk_dist {a b : Nat} (ha : a < n) (hb : b < n) : walk n a (dist n a b) = b := by
  unfold walk dist; split_ifs <;> omega

theorem dist_walk {a d : Nat} (ha : a < n) (hd : d < n) : dist n a (walk n a d) = d := by
  unfold walk dist; split_ifs <;> omega

theorem next_walk {a d : Nat} (ha : a < n) (hd : d + 1 < n) :
    next n (walk n a d) = walk n a (d + 1) := by
  unfold walk next; split_ifs <;> omega

theorem prev_walk_succ {a d : Nat} (ha : a < n) (hd : d + 1 < n) :
    prev n (walk n a (d + 1)) = walk n a d := by
  rw [← next_walk ha hd, prev_next]

theorem dist_injective {a i j : Nat} (ha : a < n) (hi : i < n) (hj : j < n)
    (h : dist n a i = dist n a j) : i = j := by
  unfold dist at h; split_ifs at h <;> omega

/-- A step forward short of a full turn is one step further from `a`. -/
theorem dist_next_of_lt {a i : Nat} (ha : a < n) (h : dist n a i + 1 < n) :
    dist n a (next n i) = dist n a i + 1 := by
  unfold next dist at *; split_ifs at * <;> omega

/-- A step forward is one step closer to a target that has not been reached. -/
theorem dist_next_add_one {i u : Nat} (hi : i < n) (hu : u < n) (hne : i ≠ u) :
    dist n (next n i) u + 1 = dist n i u := by
  unfold next dist; split_ifs <;> omega

/-- A position that is not home has its predecessor one step closer to home. -/
theorem dist_prev {a i : Nat} (ha : a < n) (hi : i < n) (h : 0 < dist n a i) :
    dist n a i = dist n a (prev n i) + 1 := by
  unfold dist prev at *; split_ifs at * <;> omega

/-- A position nearer to `i` than `a` is on the way from `a` to `i`. -/
theorem dist_add_dist {a i j : Nat} (ha : a < n) (hi : i < n) (hj : j < n)
    (h : dist n j i ≤ dist n a i) : dist n a j + dist n j i = dist n a i := by
  unfold dist at *; split_ifs at * <;> omega

/-- Two counters less than a turn apart are at different positions. -/
theorem mod_ne_of_lt {p q : Nat} (hlt : p < q) (hnear : q < p + n) : p % n ≠ q % n := by
  intro heq
  have hdvd : n ∣ q - p := (Nat.modEq_iff_dvd' hlt.le).mp heq
  have hle := Nat.le_of_dvd (by omega) hdvd
  omega

/-- `i` is a position on the way forward from `a` to `b`. -/
structure Between (n a b i : Nat) : Prop where
  lt : i < n
  le : dist n a i ≤ dist n a b

theorem Between.start {a b : Nat} (ha : a < n) : Between n a b a := ⟨ha, by simp⟩

/-- A step forward short of the end stays on the way, one step further. -/
theorem Between.next {a b i : Nat} (ha : a < n) (hb : b < n) (h : Between n a b i)
    (hne : i ≠ b) :
    Between n a b (next n i) ∧ dist n a (Cyclic.next n i) = dist n a i + 1 := by
  have hlt : dist n a i < dist n a b :=
    Nat.lt_of_le_of_ne h.le fun heq => hne (dist_injective ha h.lt hb heq)
  have hstep := dist_next_of_lt ha (Nat.lt_of_le_of_lt hlt (dist_lt ha hb))
  exact ⟨⟨next_lt h.lt, by omega⟩, hstep⟩

/-- A loop that steps round the ring and leaves at position `j` at the latest ends
within `n` turns. -/
theorem run_scan {σ ρ : Type*} {body : σ → Turn σ ρ} {j : Nat} (hj : j < n) (pos : σ → Nat)
    (I : σ → Prop) (Q : ρ → Prop) (hlt : ∀ s, I s → pos s < n)
    (hstop : ∀ s, I s → pos s = j → ∃ r, body s = .done r ∧ Q r)
    (hpass : ∀ s, I s → pos s ≠ j → (∃ r, body s = .done r ∧ Q r) ∨
      ∃ s', body s = .again s' ∧ pos s' = next n (pos s) ∧ I s')
    {fuel : Nat} (hfuel : n ≤ fuel) {s : σ} (hs : I s) :
    ∃ r, Loop.run body fuel s = some r ∧ Q r := by
  refine Loop.run_total I (fun s => dist n (pos s) j) Q ?_ hs
    (Nat.lt_of_lt_of_le (dist_lt (hlt s hs) hj) hfuel)
  intro t ht
  by_cases hpos : pos t = j
  · exact Or.inl (hstop t ht hpos)
  · rcases hpass t ht hpos with hdone | ⟨t', hb, hnext, ht'⟩
    · exact Or.inl hdone
    · have hcloser := dist_next_add_one (hlt t ht) hj hpos
      exact Or.inr ⟨t', hb, ht', by rw [hnext]; omega⟩

/-- The same where the loop has only one result. -/
theorem run_scan_eq {σ ρ : Type*} {body : σ → Turn σ ρ} {j : Nat} (hj : j < n) (pos : σ → Nat)
    (I : σ → Prop) (r : ρ) (hlt : ∀ s, I s → pos s < n)
    (hstop : ∀ s, I s → pos s = j → body s = .done r)
    (hpass : ∀ s, I s → pos s ≠ j → body s = .done r ∨
      ∃ s', body s = .again s' ∧ pos s' = next n (pos s) ∧ I s')
    {fuel : Nat} (hfuel : n ≤ fuel) {s : σ} (hs : I s) : Loop.run body fuel s = some r := by
  obtain ⟨r', hr', rfl⟩ := run_scan hj pos I (fun r' => r' = r) hlt
    (fun t ht hp => ⟨r, hstop t ht hp, rfl⟩)
    (fun t ht hp => (hpass t ht hp).imp (fun hb => ⟨r, hb, rfl⟩) id) hfuel hs
  exact hr'

end ScalBase.Foundation.Cyclic
