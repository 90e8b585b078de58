/-
  HashMaps/ProbeLengths.lean --- the 16 bits of a probe length.

  `Add` counts in a `u16` how far the entry in hand is from its home, and `Get` in a
  `u32`.  An entry 2^16 buckets from home needs 2^17 buckets, and nothing stops it from
  getting there: its count starts again at 0, and `Get` gives up before it.

  Stored probe lengths are right after every call of a sequence exactly when no `Add`
  comes, after 2^16 - 1 used buckets or more, by one that stores 2^16 - 1
  (`probeLengths_exact_iff`).
-/
import ScalBase.HashMaps.Replace
import ScalBase.HashMaps.Termination

set_option autoImplicit false

namespace ScalBase.HashMaps

open Foundation Foundation.Cyclic Foundation.RobinHood Foundation.Slots

variable {K V : Type*} {hash : K → UInt64} {m : StaticHashMap K V} {fuel : Nat}

/-- The probe lengths stored are the cyclic distances from home. -/
def ExactProbes (hash : K → UInt64) (m : StaticHashMap K V) : Prop :=
  ∀ i < m.capacity, (m.buckets i).isUsed = true →
    (m.buckets i).probeLength = dist m.capacity (hashAndMod hash (m.buckets i).key m.capacity) i

/-- Bucket `i` is used and stores another one. -/
def StoresWrong (hash : K → UInt64) (m : StaticHashMap K V) (i : Nat) : Prop :=
  (m.buckets i).isUsed = true ∧
    (m.buckets i).probeLength ≠ dist m.capacity (hashAndMod hash (m.buckets i).key m.capacity) i

theorem StoresWrong.not_exact {i : Nat} (h : StoresWrong hash m i) (hi : i < m.capacity) :
    ¬ ExactProbes hash m := fun hexact => h.2 (hexact i hi h.1)

theorem Shape.exactProbes (h : Shape hash m) : ExactProbes hash m :=
  fun i hi hused => h.exact i hi _ (StaticHashMap.cell_of_used hused)

/-! ## What is stored has 16 bits -/

theorem Narrow.setBucket (h : Narrow m) {i : Nat} {b : StaticHashMapBucket K V}
    (hb : b.probeLength < 2 ^ 16) : Narrow (m.setBucket i b) := by
  intro j hj hused
  rw [StaticHashMap.setBucket_buckets] at hused ⊢
  rcases eq_or_ne j i with rfl | hne
  · rw [Function.update_self]
    exact hb
  · rw [Function.update_of_ne hne] at hused ⊢
    exact h j hj hused

section Calls

variable [BEq K]

theorem Narrow.add (h : Narrow m) {key : K} {value : V}
    {r : StaticHashMapAddResult × StaticHashMap K V} (hr : add hash fuel m key value = some r) :
    Narrow r.2 := by
  unfold HashMaps.add at hr
  split_ifs at hr with hfull
  · cases hr
    exact h
  · refine Loop.run_result (fun s => Narrow s.map ∧ s.probeLength < 2 ^ 16) (fun r => Narrow r.2)
      ?_ ⟨h, Nat.two_pow_pos 16⟩ hr
    rintro s ⟨hmap, hprobe⟩
    unfold addTurn
    simp only
    split_ifs with hunused hkey hswap
    · exact Or.inl ⟨_, rfl, hmap.setBucket hprobe⟩
    · exact Or.inl ⟨_, rfl, hmap⟩
    · exact Or.inr ⟨_, rfl, hmap.setBucket hprobe, Nat.mod_lt _ (Nat.two_pow_pos 16)⟩
    · exact Or.inr ⟨_, rfl, hmap, Nat.mod_lt _ (Nat.two_pow_pos 16)⟩

omit [BEq K] in
/-- The shift takes one off probe lengths. -/
theorem Narrow.shift (h : Narrow m) {i : Nat} (hi : i < m.capacity) {m' : StaticHashMap K V}
    (hrun : Loop.run shiftTurn fuel (m, i) = some m') : Narrow m' := by
  refine Loop.run_result
    (fun s : StaticHashMap K V × Nat => s.1.capacity = m.capacity ∧ s.2 < m.capacity ∧ Narrow s.1)
    Narrow ?_ ⟨rfl, hi, h⟩ hrun
  rintro s ⟨hcap, hlt, hs⟩
  rcases shiftTurn_cases s with hdone | ⟨hnext, -, hagain⟩
  · exact Or.inl ⟨_, hdone, hs.setBucket (Nat.two_pow_pos 16)⟩
  · have hnlt : next s.1.capacity s.2 < s.1.capacity := next_lt (hcap ▸ hlt)
    have hsmall : (s.1.buckets (next s.1.capacity s.2)).probeLength - 1 < 2 ^ 16 :=
      Nat.lt_of_le_of_lt (Nat.sub_le _ 1) (hs _ hnlt hnext)
    exact Or.inr ⟨_, hagain, hcap, hcap ▸ hnlt, (hs.setBucket hsmall).setBucket hsmall⟩

theorem Narrow.remove (h : Narrow m) {key : K}
    (hstart : hashAndMod hash key m.capacity < m.capacity)
    {r : Bool × StaticHashMap K V} (hr : remove hash fuel m key = some r) : Narrow r.2 := by
  unfold HashMaps.remove at hr
  split_ifs at hr with hempty
  · cases hr
    exact h
  · cases hsearch : Loop.run (removeTurn m key) fuel (hashAndMod hash key m.capacity) with
    | none => simp [hsearch] at hr
    | some o =>
      cases o with
      | none =>
        simp only [hsearch] at hr
        cases hr
        exact h
      | some i =>
        simp only [hsearch] at hr
        obtain ⟨m', hrun, rfl⟩ := Option.map_eq_some_iff.mp hr
        exact h.shift (removeSearch_found hstart hsearch i rfl).1 hrun

theorem Narrow.step (h : Narrow m) (hpow : ∃ e < 32, m.capacity = 2 ^ e) {op : MapOp K V}
    {m' : StaticHashMap K V} (hm' : step hash fuel m op = some m') : Narrow m' := by
  cases op with
  | add key value =>
    obtain ⟨r, hr, rfl⟩ := Option.map_eq_some_iff.mp hm'
    exact h.add hr
  | remove key =>
    obtain ⟨r, hr, rfl⟩ := Option.map_eq_some_iff.mp hm'
    exact h.remove (hashAndMod_lt hpow key) hr

/-! ## A count that starts again -/

section Miscount

variable {key : K} {value : V} {u i : Nat} {s : AddLoop K V}

variable (hash) in
/-- The loop of `Add` after a count has started again: a bucket that it has passed stores a
wrong probe length, or what is in hand is further from home than counted. -/
structure Miscounted (m : StaticHashMap K V) (key : K) (value : V) (u : Nat) (s : AddLoop K V) :
    Prop where
  probing : Probing m (hashAndMod hash key m.capacity) u s
  used : s.swapBucket.isUsed = true
  held : s.pair ::ₘ held m.capacity s.map.cell = (key, value) ::ₘ m.entries
  wrong : (∃ j < m.capacity, dist m.capacity (hashAndMod hash key m.capacity) j <
        dist m.capacity (hashAndMod hash key m.capacity) s.idx ∧ StoresWrong hash s.map j) ∨
    (Between m.capacity (home hash m.capacity s.pair) u s.idx ∧
      s.probeLength < disp m.capacity (home hash m.capacity) s.pair s.idx)

variable (hash) in
/-- The loop of `Add` on its way to the bucket `i` at which a count starts again. -/
structure Approaching (m : StaticHashMap K V) (key : K) (value : V) (u i : Nat) (s : AddLoop K V) :
    Prop where
  adding : Adding hash m key value u s
  probing : Probing m (hashAndMod hash key m.capacity) u s
  short : dist m.capacity (hashAndMod hash key m.capacity) s.idx ≤
    dist m.capacity (hashAndMod hash key m.capacity) i
  far : 2 ^ 16 - 1 ≤ s.probeLength + dist m.capacity s.idx i

omit [BEq K]

/-- A write elsewhere leaves a wrong probe length. -/
theorem StoresWrong.setBucket {i j : Nat} (h : StoresWrong hash m j) (hne : j ≠ i)
    (b : StaticHashMapBucket K V) : StoresWrong hash (m.setBucket i b) j := by
  unfold StoresWrong at h ⊢
  rw [StaticHashMap.setBucket_buckets, Function.update_of_ne hne]
  exact h

/-- What is in hand is stored with a count that is too small. -/
theorem Miscounted.stored (h : Miscounted hash m key value u s)
    (hlt : s.probeLength < disp m.capacity (home hash m.capacity) s.pair s.idx) :
    StoresWrong hash (s.map.setBucket s.idx s.written) s.idx := by
  unfold StoresWrong
  rw [StaticHashMap.setBucket_buckets, Function.update_self, StaticHashMap.setBucket_capacity,
    h.probing.capacity]
  exact ⟨h.used, hlt.ne⟩

/-- After the loop has written what is in hand, some bucket up to there is wrong. -/
theorem Miscounted.written (h : Miscounted hash m key value u s) :
    ∃ j < m.capacity, dist m.capacity (hashAndMod hash key m.capacity) j ≤
        dist m.capacity (hashAndMod hash key m.capacity) s.idx ∧
      StoresWrong hash (s.map.setBucket s.idx s.written) j := by
  rcases h.wrong with ⟨j, hj, hbefore, hwrong⟩ | ⟨-, hlt⟩
  · have hne : j ≠ s.idx := by
      rintro rfl
      exact absurd hbefore (Nat.lt_irrefl _)
    exact ⟨j, hj, hbefore.le, hwrong.setBucket hne _⟩
  · exact ⟨s.idx, h.probing.way.lt, Nat.le_refl _, h.stored hlt⟩

variable (hstart : hashAndMod hash key m.capacity < m.capacity) (hu : u < m.capacity)
  (hfree : (m.buckets u).isUsed = false)

include hfree in
theorem Probing.ne_free {start : Nat} (h : Probing m start u s)
    (hused : (s.map.buckets s.idx).isUsed = true) : s.idx ≠ u := by
  rintro rfl
  rw [h.bucket, hfree] at hused
  cases hused

include hstart hu hfree

theorem Miscounted.advance (h : Miscounted hash m key value u s)
    (hpow : ∃ e < 32, m.capacity = 2 ^ e) (hused : (s.map.buckets s.idx).isUsed = true) :
    Miscounted hash m key value u s.advance := by
  have hne := h.probing.ne_free hfree hused
  have hprobing := h.probing.advance hstart hu hne hused
  have hidx : s.advance.idx = next m.capacity s.idx := by rw [← h.probing.capacity]; rfl
  refine ⟨hprobing, h.used, h.held, ?_⟩
  rw [hidx]
  rcases h.wrong with ⟨j, hj, hbefore, hwrong⟩ | ⟨hway, hlt⟩
  · left
    refine ⟨j, hj, ?_, hwrong⟩
    rw [(h.probing.way.next hstart hu hne).2]
    exact Nat.lt_succ_of_lt hbefore
  · right
    obtain ⟨hway', hstep⟩ := hway.next (home_lt hpow _) hu hne
    refine ⟨hway', ?_⟩
    show u16 (s.probeLength + 1) < dist m.capacity (home hash m.capacity s.pair) _
    rw [hstep]
    exact Nat.lt_of_le_of_lt (Nat.mod_le _ _) (Nat.succ_lt_succ hlt)

theorem Miscounted.displace (h : Miscounted hash m key value u s)
    (hused : (s.map.buckets s.idx).isUsed = true)
    (hlt : (s.map.buckets s.idx).probeLength < s.probeLength) :
    Miscounted hash m key value u s.displace.advance := by
  have hne := h.probing.ne_free hfree hused
  have hprobing := h.probing.displace hstart hu hne hused hlt
  have hidx : s.displace.advance.idx = next m.capacity s.idx := by rw [← h.probing.capacity]; rfl
  have hq := StaticHashMap.cell_of_used hused
  refine ⟨hprobing, hused, ?_, Or.inl ?_⟩
  · have hcell : s.displace.advance.map.cell = Function.update s.map.cell s.idx (some s.pair) :=
      cell_write h.used s.map
    rw [hcell]
    exact (held_swap h.probing.way.lt hq).trans h.held
  · obtain ⟨j, hj, hle, hwrong⟩ := h.written
    refine ⟨j, hj, ?_, hwrong⟩
    rw [hidx, (h.probing.way.next hstart hu hne).2]
    exact Nat.lt_succ_of_le hle

/-- A turn of the loop leaves some probe length wrong, or goes on so. -/
theorem Miscounted.turn [BEq K] [EquivBEq K] (h : Miscounted hash m key value u s)
    (hpow : ∃ e < 32, m.capacity = 2 ^ e) (hd : DistinctKeys ((key, value) ::ₘ m.entries)) :
    (∃ r, addTurn s = .done r ∧ ¬ ExactProbes hash r.2) ∨
      ∃ s', addTurn s = .again s' ∧ Miscounted hash m key value u s' := by
  cases hused : (s.map.buckets s.idx).isUsed with
  | false =>
    obtain ⟨j, hj, -, hwrong⟩ := h.written
    refine Or.inl ⟨_, addTurn_place hused, StoresWrong.not_exact hwrong ?_⟩
    show j < s.map.capacity
    rw [h.probing.capacity]
    exact hj
  | true =>
    have hk := hand_key_ne h.held hd h.probing.way.lt hused
    by_cases hle : s.probeLength ≤ (s.map.buckets s.idx).probeLength
    · exact Or.inr ⟨_, addTurn_pass hused hk hle, h.advance hstart hu hfree hpow hused⟩
    · have hlt := Nat.lt_of_not_le hle
      exact Or.inr ⟨_, addTurn_displace hused hk hlt, h.displace hstart hu hfree hused hlt⟩

end Miscount

section Reached

variable {key : K} {value : V} {u i : Nat} {s : AddLoop K V} (hm : Shape hash m)
  (hpow : ∃ e < 32, m.capacity = 2 ^ e) (hi : i < m.capacity)

include hm hpow hi

omit [BEq K] in
/-- A bucket that many steps before one with the largest probe length has a probe length to
match. -/
theorem Shape.far (hfull : (m.buckets i).probeLength = 2 ^ 16 - 1)
    (hused : (m.buckets i).isUsed = true) {j : Nat} (hj : j < m.capacity) :
    2 ^ 16 - 1 ≤ (m.buckets j).probeLength + dist m.capacity j i := by
  have hp := StaticHashMap.cell_of_used hused
  have hdisp : (m.buckets i).probeLength = disp m.capacity (home hash m.capacity) _ i :=
    hm.exact i hi _ hp
  rw [hfull] at hdisp
  rcases Nat.lt_or_ge (dist m.capacity j i) (2 ^ 16 - 1) with hnear | hfar
  · rw [hdisp] at hnear ⊢
    have hsplit := dist_add_dist (home_lt hpow _) hi hj hnear.le
    have hbetween : Between m.capacity (home hash m.capacity _) i j :=
      ⟨hj, hsplit ▸ Nat.le_add_right _ _⟩
    have hpass := (hm.passes hpow hi hp hbetween).2
    unfold disp
    omega
  · exact Nat.le_trans hfar (Nat.le_add_left _ _)

omit [BEq K] hm in
/-- Short of bucket `i` the loop comes one nearer to it. -/
theorem Approaching.closer (h : Approaching hash m key value u i s) (hu : u < m.capacity)
    (hne : s.idx ≠ u) (hsi : s.idx ≠ i) :
    dist m.capacity (hashAndMod hash key m.capacity) (next m.capacity s.idx) ≤
        dist m.capacity (hashAndMod hash key m.capacity) i ∧
      dist m.capacity (next m.capacity s.idx) i + 1 = dist m.capacity s.idx i := by
  have hstart : hashAndMod hash key m.capacity < m.capacity := hashAndMod_lt hpow key
  have hidx := h.probing.way.lt
  have hlt := Nat.lt_of_le_of_ne h.short fun heq => hsi (dist_injective hstart hidx hi heq)
  refine ⟨?_, dist_next_add_one hidx hi hsi⟩
  rw [(h.probing.way.next hstart hu hne).2]
  exact hlt

omit [BEq K] hm in
/-- A turn past a bucket: the count goes on, or it starts again. -/
theorem Approaching.pass (h : Approaching hash m key value u i s) (hu : u < m.capacity)
    (hne : s.idx ≠ u) (hused : (s.map.buckets s.idx).isUsed = true)
    (hle : s.probeLength ≤ (s.map.buckets s.idx).probeLength) :
    Approaching hash m key value u i s.advance ∨ Miscounted hash m key value u s.advance := by
  have hstart : hashAndMod hash key m.capacity < m.capacity := hashAndMod_lt hpow key
  have hprobing := h.probing.advance hstart hu hne hused
  have hadv : s.advance.idx = next m.capacity s.idx := by rw [← h.probing.capacity]; rfl
  have hcount : s.advance.probeLength = u16 (s.probeLength + 1) := rfl
  have hfar := h.far
  rcases Nat.lt_or_ge (s.probeLength + 1) (2 ^ 16) with hroom | hover
  · left
    have hsi : s.idx ≠ i := by
      rintro rfl
      rw [dist_self] at hfar
      omega
    obtain ⟨hshort, hstep⟩ := h.closer hpow hi hu hne hsi
    refine ⟨h.adding.pass hpow hne hused hle (u16_eq hroom), hprobing, hadv ▸ hshort, ?_⟩
    rw [hadv, hcount, u16_eq hroom]
    omega
  · right
    have hlast : s.probeLength + 1 = 2 ^ 16 := Nat.le_antisymm h.probing.small hover
    obtain ⟨hway, hstep⟩ := h.adding.way.next (home_lt hpow _) hu hne
    refine ⟨hprobing, h.adding.used, h.adding.held, Or.inr ⟨hadv ▸ hway, ?_⟩⟩
    have hdisp : disp m.capacity (home hash m.capacity) s.advance.pair (next m.capacity s.idx) =
        dist m.capacity (home hash m.capacity s.pair) s.idx + 1 := hstep
    rw [hadv, hcount, hdisp, hlast, u16, Nat.mod_self]
    exact Nat.succ_pos _

omit [BEq K] in
/-- A turn that displaces an entry: its count is large enough too. -/
theorem Approaching.displace (h : Approaching hash m key value u i s) (hu : u < m.capacity)
    (hne : s.idx ≠ u) (hused : (s.map.buckets s.idx).isUsed = true)
    (hlt : (s.map.buckets s.idx).probeLength < s.probeLength)
    (hend : (m.buckets i).isUsed = true) (hfull : (m.buckets i).probeLength = 2 ^ 16 - 1) :
    Approaching hash m key value u i s.displace.advance := by
  have hstart : hashAndMod hash key m.capacity < m.capacity := hashAndMod_lt hpow key
  have hbucket := h.probing.bucket
  have hroom : (s.map.buckets s.idx).probeLength + 1 < 2 ^ 16 :=
    Nat.lt_of_le_of_lt hlt h.probing.small
  have hadv : s.displace.advance.idx = next m.capacity s.idx := by rw [← h.probing.capacity]; rfl
  have hcount : s.displace.advance.probeLength = u16 ((s.map.buckets s.idx).probeLength + 1) := rfl
  have hsi : s.idx ≠ i := by
    rintro rfl
    rw [hbucket] at hroom
    omega
  obtain ⟨hshort, hstep⟩ := h.closer hpow hi hu hne hsi
  have hbefore := hm.far hpow hi hfull hend h.probing.way.lt
  refine ⟨h.adding.displace hpow hne hused hlt (u16_eq hroom),
    h.probing.displace hstart hu hne hused hlt, hadv ▸ hshort, ?_⟩
  rw [hadv, hcount, u16_eq hroom, hbucket]
  omega

variable [EquivBEq K]

/-- A turn on the way to bucket `i` goes on. -/
theorem Approaching.turn (h : Approaching hash m key value u i s)
    (hd : DistinctKeys ((key, value) ::ₘ m.entries)) (hu : u < m.capacity)
    (hfree : (m.buckets u).isUsed = false)
    (hway : ∀ j < m.capacity, dist m.capacity (hashAndMod hash key m.capacity) j ≤
      dist m.capacity (hashAndMod hash key m.capacity) i → (m.buckets j).isUsed = true)
    (hfull : (m.buckets i).probeLength = 2 ^ 16 - 1) :
    ∃ s', addTurn s = .again s' ∧
      (Approaching hash m key value u i s' ∨ Miscounted hash m key value u s') := by
  have hidx := h.probing.way.lt
  have hused : (s.map.buckets s.idx).isUsed = true := by
    rw [h.probing.bucket]
    exact hway s.idx hidx h.short
  have hne := h.probing.ne_free hfree hused
  have hk := hand_key_ne h.adding.held hd hidx hused
  by_cases hle : s.probeLength ≤ (s.map.buckets s.idx).probeLength
  · exact ⟨_, addTurn_pass hused hk hle, h.pass hpow hi hu hne hused hle⟩
  · have hlt := Nat.lt_of_not_le hle
    exact ⟨_, addTurn_displace hused hk hlt,
      Or.inl (h.displace hm hpow hi hu hne hused hlt (hway i hi (Nat.le_refl _)) hfull)⟩

/-- An `Add` that wraps leaves a wrong probe length. -/
theorem add_wraps (hd : DistinctKeys m.entries) (hroom : m.count ≠ m.maxCount)
    (hu : u < m.capacity) (hfree : m.cell u = none) (habs : ¬ HasKey m.entries key)
    (hway : ∀ j < m.capacity, dist m.capacity (hashAndMod hash key m.capacity) j ≤
      dist m.capacity (hashAndMod hash key m.capacity) i → (m.buckets j).isUsed = true)
    (hfull : (m.buckets i).probeLength = 2 ^ 16 - 1)
    (hlong : 2 ^ 16 - 1 ≤ dist m.capacity (hashAndMod hash key m.capacity) i)
    {r : StaticHashMapAddResult × StaticHashMap K V} (hr : add hash fuel m key value = some r) :
    ¬ ExactProbes hash r.2 := by
  have hstart : hashAndMod hash key m.capacity < m.capacity := hashAndMod_lt hpow key
  have hunused := (m.cell_eq_none_iff u).mp hfree
  have hdist : DistinctKeys ((key, value) ::ₘ m.entries) := hd.cons habs
  have hinit : Approaching hash m key value u i (AddLoop.start hash m key value) :=
    ⟨Adding.start hm hstart value hu hfree, Probing.start hstart value u,
      by rw [AddLoop.start, dist_self]; exact Nat.zero_le _,
      Nat.le_trans hlong (Nat.le_add_left _ _)⟩
  rw [HashMaps.add, if_neg hroom] at hr
  refine Loop.run_result
    (fun s => Approaching hash m key value u i s ∨ Miscounted hash m key value u s)
    (fun r => ¬ ExactProbes hash r.2) ?_ (Or.inl hinit) hr
  rintro s (hs | hs)
  · exact Or.inr (hs.turn hm hpow hi hdist hu hunused hway hfull)
  · rcases hs.turn hstart hu hunused hpow hdist with hdone | ⟨t, ht, hnext⟩
    · exact Or.inl hdone
    · exact Or.inr ⟨t, ht, Or.inr hnext⟩

end Reached

/-! ## Runs -/

section Runs

variable [EquivBEq K] {size bound : Nat} {x : KeyMap K V}
  (hhash : ∀ a b : K, (a == b) = true → hash a = hash b) (hpow : ∃ e < 32, size = 2 ^ e)
  (hmax : bound < size) (hfuel : size ≤ fuel)

include hhash hpow hmax hfuel

/-- What a map with right probe lengths answers. -/
theorem Refines.getValue_eq (h : Refines hash size bound m x) (key : K) :
    getValue hash fuel m key = some (x.lookup key) := by
  obtain ⟨o, ho, hvalue⟩ := h.get hhash hpow hmax hfuel key
  rw [getValue, ho, Option.map_some, hvalue]

/-- A call whose probe lengths fit does what it does to the finite map, and keeps them narrow. -/
theorem Refines.step_narrow (h : Refines hash size bound m x) (hnarrow : Narrow m)
    (op : MapOp K V) (hfits : Fits hash m op) : ∃ m', HashMaps.step hash fuel m op = some m' ∧
      Refines hash size bound m' (mapStep x op) ∧ Narrow m' := by
  obtain ⟨m', hm', hrel⟩ := h.step hhash hpow hmax hfuel hnarrow op hfits
  exact ⟨m', hm', hrel, hnarrow.step (h.capacity ▸ hpow) hm'⟩

/-- A call leaves right probe lengths exactly when they fit. -/
theorem Refines.exact_iff (h : Refines hash size bound m x) (hnarrow : Narrow m) (op : MapOp K V) :
    (∃ m', HashMaps.step hash fuel m op = some m' ∧ ExactProbes hash m') ↔ Fits hash m op := by
  constructor
  · rintro ⟨m', hm', hexact⟩
    cases op with
    | add key value =>
      rintro hroom habs ⟨i, hi, hway, hfull, hlong⟩
      obtain ⟨u, hu, hfree⟩ := h.exists_free hmax
      obtain ⟨r, hr, rfl⟩ := Option.map_eq_some_iff.mp hm'
      exact add_wraps h.shape (h.capacity ▸ hpow) hi h.distinct hroom hu hfree habs hway hfull hlong
        hr hexact
    | remove key => trivial
  · intro hfits
    obtain ⟨m', hm', hrel⟩ := h.step hhash hpow hmax hfuel hnarrow op hfits
    exact ⟨m', hm', hrel.shape.exactProbes⟩

end Runs

/-- In the states that a sequence of `Add` and `Remove` calls from unused buckets passes, all
probe lengths are the distances from home and `Get` finds every key that was added, exactly
when the probe lengths fit in each call. -/
theorem probeLengths_exact_iff [EquivBEq K] (hhash : ∀ a b : K, (a == b) = true → hash a = hash b)
    {m₀ : StaticHashMap K V} (hpow : ∃ e, m₀.capacity = 2 ^ e) (hword : m₀.capacity < 2 ^ 32)
    (hmax : m₀.maxCount < m₀.capacity) (hcount : m₀.count = 0)
    (hunused : ∀ i < m₀.capacity, (m₀.buckets i).isUsed = false) (hfuel : m₀.capacity ≤ fuel)
    (ops : List (MapOp K V)) :
    (∀ done, done <+: ops → ∃ m, exec (step hash fuel) m₀ done = some m ∧ ExactProbes hash m ∧
      ∀ key, getValue hash fuel m key =
        some ((done.foldl mapStep ⟨[], m₀.maxCount⟩).lookup key)) ↔
    AtEach (step hash fuel) (Fits hash) m₀ ops := by
  have hpow' : ∃ e < 32, m₀.capacity = 2 ^ e := by
    obtain ⟨e, he⟩ := hpow
    rw [he] at hword
    exact ⟨e, (Nat.pow_lt_pow_iff_right (by decide)).mp hword, he⟩
  have hstart : Refines hash m₀.capacity m₀.maxCount m₀ ⟨[], m₀.maxCount⟩ :=
    refines_empty m₀ hcount hunused
  have hnarrow : Narrow m₀ := fun i hi hused => by
    rw [hunused i hi] at hused
    cases hused
  have hany : AtEach (step hash fuel) (fun _ _ => True) m₀ ops := fun _ _ _ _ _ => trivial
  constructor
  · intro hall
    have hgood : AtEach (step hash fuel) (fun m op => ∃ m', step hash fuel m op = some m' ∧
        ExactProbes hash m') m₀ ops := by
      apply (atEach_returns_iff hstart.shape.exactProbes).mpr
      intro done hdone
      obtain ⟨m, hm, hexact, -⟩ := hall done hdone
      exact ⟨m, hm, hexact⟩
    refine (atEach_iff (fun m => ∃ x, Refines hash m₀.capacity m₀.maxCount m x ∧ Narrow m)
      ?_ ?_ ⟨_, hstart, hnarrow⟩ hany).mp hgood
    · rintro m op ⟨x, hrel, hsmall⟩ - hfits
      obtain ⟨m', hm', hx'⟩ := hrel.step_narrow hhash hpow' hmax hfuel hsmall op hfits
      exact ⟨m', hm', _, hx'⟩
    · rintro m op ⟨x, hrel, hsmall⟩ -
      exact hrel.exact_iff hhash hpow' hmax hfuel hsmall op
  · intro hfits done hdone
    obtain ⟨m, hm, hrel, -⟩ := (hfits.of_prefix hdone).exec_simulates
      (fun m x => Refines hash m₀.capacity m₀.maxCount m x ∧ Narrow m)
      (fun _ _ op hx hfit => hx.1.step_narrow hhash hpow' hmax hfuel hx.2 op hfit) ⟨hstart, hnarrow⟩
    exact ⟨m, hm, hrel.shape.exactProbes, hrel.getValue_eq hhash hpow' hmax hfuel⟩

end Calls

/-- Four buckets, every key hashed to the last one. -/
theorem probeLengths_exact_iff_wrapping :
    (∀ done, done <+: [.add 1 10, .add 2 20, .remove 1, .add 3 30] →
      ∃ m, exec (step (fun _ : Nat => 3) 4)
          { buckets := fun _ => ⟨0, 0, false, 0⟩, capacity := 4, count := 0, maxCount := 3 }
          done = some m ∧ ExactProbes (fun _ => 3) m ∧
        ∀ key, getValue (fun _ => 3) 4 m key = some ((done.foldl mapStep ⟨[], 3⟩).lookup key)) ↔
    AtEach (step (fun _ => 3) 4) (Fits fun _ => 3)
      { buckets := fun _ => ⟨0, 0, false, 0⟩, capacity := 4, count := 0, maxCount := 3 }
      [.add 1 10, .add 2 20, .remove 1, .add 3 30] :=
  probeLengths_exact_iff (fun _ _ _ => rfl) ⟨2, rfl⟩ (by decide) (by decide) rfl (fun _ _ => rfl)
    (Nat.le_refl 4) _

/-! ## Keys of one hash -/

/-- 2^17 buckets with the keys below `n` in them, all of the hash 0. -/
def crowded (n : Nat) : StaticHashMap Nat Nat where
  buckets := fun i => if i < n then ⟨i, u16 i, true, i⟩ else ⟨0, 0, false, 0⟩
  capacity := 2 ^ 17
  count := n
  maxCount := 2 ^ 17 - 1

theorem crowded_used {n i : Nat} (h : i < n) : (crowded n).buckets i = ⟨i, u16 i, true, i⟩ :=
  if_pos h

theorem crowded_unused (n : Nat) : (crowded n).buckets n = ⟨0, 0, false, 0⟩ :=
  if_neg (Nat.lt_irrefl n)

theorem hashAndMod_crowded (key n : Nat) :
    hashAndMod (fun _ : Nat => 0) key (crowded n).capacity = 0 := by
  simp [hashAndMod, fastModulo]

theorem next_crowded {i n : Nat} (hi : i < n) (hn : n < 2 ^ 17) : next (2 ^ 17) i = i + 1 := by
  apply if_neg
  omega

/-- The next key goes into the first unused bucket. -/
theorem add_crowded {n fuel : Nat} (hn : n < 2 ^ 17 - 1) (hfuel : n < fuel) :
    add (fun _ => 0) fuel (crowded n) n n = some (⟨n, false, false⟩, crowded (n + 1)) := by
  let f : Nat → AddLoop Nat Nat := fun e =>
    { map := crowded n
      swapBucket := ⟨n, 0, true, n⟩
      insertedIdx := notFound
      probeLength := u16 e
      idx := e }
  have hagain : ∀ e < n, addTurn (f e) = .again (f (e + 1)) := by
    intro e he
    have hbucket : (f e).map.buckets (f e).idx = ⟨e, u16 e, true, e⟩ := crowded_used he
    have hkey : (e == n) = false := beq_false_of_ne he.ne
    have hpass : addTurn (f e) = .again (f e).advance := by
      apply addTurn_pass
      · rw [hbucket]
      · rw [hbucket]
        exact hkey
      · rw [hbucket]
    have hprobe : u16 (u16 e + 1) = u16 (e + 1) := Nat.mod_add_mod e (2 ^ 16) 1
    have hnext : next (2 ^ 17) e = e + 1 := next_crowded he (by omega)
    rw [hpass]
    show Turn.again { f e with probeLength := u16 (u16 e + 1), idx := next (2 ^ 17) e } = _
    rw [hprobe, hnext]
  have hdone : addTurn (f n) = .done (f n).place :=
    addTurn_place (by rw [show (f n).map.buckets (f n).idx = _ from crowded_unused n])
  have hplace : (f n).place = (⟨n, false, false⟩, crowded (n + 1)) := by
    have hbuckets : Function.update (crowded n).buckets n ⟨n, u16 n, true, n⟩ =
        (crowded (n + 1)).buckets := by
      funext i
      rcases Nat.lt_trichotomy i n with hlt | rfl | hgt
      · rw [Function.update_of_ne hlt.ne, crowded_used hlt, crowded_used (Nat.lt_succ_of_lt hlt)]
      · rw [Function.update_self, crowded_used (Nat.lt_succ_self i)]
      · rw [Function.update_of_ne hgt.ne']
        exact (if_neg (by omega)).trans (if_neg (by omega)).symm
    exact Prod.ext rfl
      (congrArg (fun b => StaticHashMap.mk b (2 ^ 17) (n + 1) (2 ^ 17 - 1)) hbuckets)
  have hroom : (crowded n).count ≠ (crowded n).maxCount := hn.ne
  rw [add, if_neg hroom]
  have hstart : AddLoop.start (fun _ => 0) (crowded n) n n = f 0 := by
    rw [AddLoop.start, hashAndMod_crowded]
    rfl
  show Loop.run addTurn fuel (AddLoop.start (fun _ => 0) (crowded n) n n) = _
  rw [hstart, Loop.run_path f hagain hdone hfuel, hplace]

theorem exec_crowded {fuel : Nat} : ∀ n < 2 ^ 17, n ≤ fuel →
    exec (step (fun _ => 0) fuel) (crowded 0) ((List.range n).map fun i => .add i i) =
      some (crowded n) := by
  intro n
  induction n with
  | zero => exact fun _ _ => rfl
  | succ n ih =>
    intro hn hfuel
    rw [List.range_succ, List.map_append, List.map_singleton, exec_concat,
      ih (Nat.lt_of_succ_lt hn) (Nat.le_of_succ_le hfuel), Option.bind_some, step,
      add_crowded (by omega) hfuel]
    rfl

/-- `Get` gives up before the key that is 2^16 buckets from home. -/
theorem get_crowded {fuel : Nat} (hfuel : 2 ^ 16 < fuel) :
    getValue (fun _ => 0) fuel (crowded (2 ^ 16 + 1)) (2 ^ 16) = some none := by
  have hagain : ∀ e < 2 ^ 16, getTurn (crowded (2 ^ 16 + 1)) (2 ^ 16) ⟨e, e⟩ =
      .again ⟨e + 1, e + 1⟩ := by
    intro e he
    have hbucket := crowded_used (Nat.lt_succ_of_lt he)
    rw [getTurn_pass (by rw [hbucket]) (by rw [hbucket]; exact (u16_eq he).ge)
      (by rw [hbucket]; exact beq_false_of_ne he.ne')]
    exact congrArg (fun i => Turn.again (GetLoop.mk (e + 1) i))
      (next_crowded he (by decide))
  have hdone : getTurn (crowded (2 ^ 16 + 1)) (2 ^ 16) ⟨2 ^ 16, 2 ^ 16⟩ = .done none := by
    have hbucket := crowded_used (Nat.lt_succ_self (2 ^ 16))
    rw [getTurn, if_pos (Or.inr ?_)]
    rw [hbucket]
    exact Nat.two_pow_pos 16
  have hpos : (crowded (2 ^ 16 + 1)).count ≠ 0 := Nat.succ_ne_zero _
  rw [getValue, HashMaps.get, if_neg hpos]
  rw [hashAndMod_crowded, Loop.run_path (fun e => GetLoop.mk e e) hagain hdone hfuel]
  rfl

/-- The last of 2^16 + 1 keys of one hash is 2^16 buckets from home, is stored with the probe
length 0, and is not found. -/
theorem probeLength_starts_again :
    exec (step (fun _ => 0) (2 ^ 17)) (crowded 0)
        ((List.range (2 ^ 16 + 1)).map fun i => .add i i) = some (crowded (2 ^ 16 + 1)) ∧
      (crowded (2 ^ 16 + 1)).buckets (2 ^ 16) = ⟨2 ^ 16, 0, true, 2 ^ 16⟩ ∧
      dist (2 ^ 17) (hashAndMod (fun _ : Nat => 0) (2 ^ 16) (2 ^ 17)) (2 ^ 16) = 2 ^ 16 ∧
      getValue (fun _ => 0) (2 ^ 17) (crowded (2 ^ 16 + 1)) (2 ^ 16) = some none :=
  ⟨exec_crowded _ (by decide) (by decide), crowded_used (Nat.lt_succ_self _), rfl,
    get_crowded (by decide)⟩

end ScalBase.HashMaps
