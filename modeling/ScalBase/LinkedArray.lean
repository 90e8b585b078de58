/-
  LinkedArray.lean --- the array in chunks of `Lib/LinkedArray.h`.

  The chunks are a doubly linked list, and each holds a `DArray`.  `Cur` is the last
  pointer of that list: `AllocateChunk` puts the new chunk behind it and moves it on.
  So there is never a chunk behind `Cur`.  `Add` drops its value where `Cur` is full,
  and `AddAtSwap`, which walks to a chunk from `Cur`, finds those of `Cur` only; there
  it moves the old element over the last one and does not count the new one.

  A value is passed by pointer and stored as a copy.  `Add` moves no element before it
  reads the value, and `AddAtSwap` loses one whatever is stored, so the value is taken
  as it is before the call.  The memory of two chunks does not overlap, so a pointer to
  an element is its chunk and its index.  `SAssert`s are compiled out.  What the memory
  of a chunk holds before is the argument `fresh`.
-/
import ScalBase.DArray.Stack
import ScalBase.DoublyLinked
import ScalBase.Foundation.Loop

set_option autoImplicit false

namespace ScalBase.LinkedArrays

open Foundation Foundation.Block DArrays DoublyLinked

universe u

variable {A T : Type u} [Zero A] [DecidableEq A]

/-! ## The array -/

/-- `LinkedArray`: `First`, `Cur` and the links of the chunks, and the `Array` of each. -/
structure LinkedArray (A T : Type u) where
  list : DList A
  array : A → DArray T
  numOfChunks : Nat
  count : Nat

namespace LinkedArray

variable (s : LinkedArray A T)

/-- `First`. -/
def first : A := s.list.f

/-- `Cur`. -/
def cur : A := s.list.l

/-- Write to the `Array` of one chunk. -/
def setArray (chunk : A) (f : DArray T → DArray T) : LinkedArray A T :=
  { s with array := Function.update s.array chunk (f (s.array chunk)) }

/-- One call of `Add`, which calls itself for the next chunk. -/
def addTurn (value : T) (s : LinkedArray A T) :
    Turn (LinkedArray A T) (Option (LinkedArray A T)) :=
  if s.cur = 0 then .done none
  else if (s.array s.cur).count = (s.array s.cur).capacity then
    if s.list.links.next s.cur ≠ 0 then
      .again { s with list := { s.list with l := s.list.links.next s.cur } }
    else .done (some s)
  else .done do
    let array ← (s.array s.cur).push (.value value)
    some { s.setArray s.cur fun _ => array with count := u32 (s.count + 1) }

/-- `Add`. -/
def add (fuel : Nat) (value : T) : Option (LinkedArray A T) :=
  (Loop.run (addTurn value) fuel s).join

/-- Go through the `Next` of `n` chunks. -/
def walk (next : A → A) : Nat → A → Option A
  | 0, chunk => some chunk
  | n + 1, chunk => if chunk = 0 then none else walk next n (next chunk)

/-- The copy that `AddAtSwap` makes of an element that is not the last one of `Cur`, with
what it does to the two counts. -/
def copyToLast (chunk : A) (elementIdx : Nat) : Option (LinkedArray A T) := do
  let element ← (s.array chunk).memory.bind fun memory => load memory elementIdx 1
  let lastIdx := (s.array s.cur).lastIndex
  let memory ← (s.array s.cur).memory.bind fun memory => store memory lastIdx element
  let s := s.setArray s.cur fun a => { a with memory := some memory }
  let s := s.setArray s.cur fun a => { a with count := u32 (a.count + 1) }
  some (s.setArray chunk fun a => { a with count := sub32 a.count 1 })

/-- `AddAtSwap`. -/
def addAtSwap (chunkSize : Nat) (value : T) (idx : Nat) : Option (LinkedArray A T) := do
  let chunkIdx := u32 (idx / chunkSize)
  let elementIdx := u32 (idx % chunkSize)
  let chunk ← walk s.list.links.next chunkIdx s.cur
  if chunk = 0 ∨ s.cur = 0 then none
  else do
    let element := (chunk, elementIdx)
    let lastElement := (s.cur, (s.array s.cur).lastIndex)
    let s ← (if element ≠ lastElement then s.copyToLast chunk elementIdx else some s : Option _)
    let s := s.setArray chunk fun a => { a with count := u32 (a.count + 1) }
    let memory ← (s.array chunk).memory.bind fun memory => store memory elementIdx [value]
    some (s.setArray chunk fun a => { a with memory := some memory })

/-- `AllocateChunk`: the arena gives `chunk`, and zeroes it. -/
def allocateChunk (chunk : A) (size : Nat) (fresh : Nat → T) : Option (LinkedArray A T) := do
  let links : Links A :=
    ⟨Function.update s.list.links.next chunk 0, Function.update s.list.links.prev chunk 0⟩
  let array ← (⟨none, 0, 0⟩ : DArray T).resize size fresh
  let list ← dlPushBackT { s.list with links } chunk .next .prev
  some ⟨list, Function.update s.array chunk array, u32 (s.numOfChunks + 1), s.count⟩

/-- The elements held in some chunks. -/
def elements (ns : List A) : List T := ns.flatMap fun chunk => (s.array chunk).elems

end LinkedArray

/-- A call, with what the arena gives to it. -/
inductive Call (A T : Type u) where
  | allocateChunk (chunk : A) (fresh : Nat → T)
  | add (value : T)
  | addAtSwap (value : T) (idx : Nat)

/-- Make a call on a `LinkedArray<T, ChunkSize>`. -/
def step (chunkSize fuel : Nat) (s : LinkedArray A T) : Call A T → Option (LinkedArray A T)
  | .allocateChunk chunk fresh => s.allocateChunk chunk (u32 chunkSize) fresh
  | .add value => s.add fuel value
  | .addAtSwap value idx => s.addAtSwap chunkSize value idx

/-! ## What the array is for -/

/-- The chunks there are, the values added, how many of them since the last chunk was
allocated, and what the last call put where, if it was an `AddAtSwap`. -/
structure Added (A T : Type u) where
  chunks : List A
  values : List T
  filled : Nat
  swapped : Option (T × Nat)

def Added.apply (x : Added A T) : Call A T → Added A T
  | .allocateChunk chunk _ => ⟨x.chunks ++ [chunk], x.values, 0, none⟩
  | .add value => ⟨x.chunks, x.values ++ [value], x.filled + 1, none⟩
  | .addAtSwap value idx => ⟨x.chunks, x.values ++ [value], x.filled + 1, some (value, idx)⟩

/-- A chunk from the arena is a new one, the other calls find a chunk, and an index that
is passed is one of an element. -/
def Valid (x : Added A T) : Call A T → Prop
  | .allocateChunk chunk _ => chunk ≠ 0 ∧ chunk ∉ x.chunks
  | .add _ => x.chunks ≠ []
  | .addAtSwap _ idx => x.chunks ≠ [] ∧ idx < x.values.length ∧ idx < 2 ^ 32

/-- `Next` from `First` leads through chunks that hold the values, each as often as it was
added; `Count` is their number, and an element that was put at an index is there. -/
def Keeps (s : LinkedArray A T) (x : Added A T) : Prop :=
  ∃ ns, s.first = ns.headD 0 ∧ 0 ∉ ns ∧ Path s.list.links.next ns 0 ∧
    (s.elements ns).Perm x.values ∧ s.count = x.values.length ∧
    ∀ value idx, x.swapped = some (value, idx) → (s.elements ns)[idx]? = some value

/-- The capacity of a chunk. -/
def chunkCapacity (chunkSize : Nat) : Nat := if u32 chunkSize = 0 then 1 else u32 chunkSize

/-- An `Add` finds room in the last chunk, and the number of values stays a `u32`; there is
no `AddAtSwap`. -/
def Clean (chunkSize : Nat) (x : Added A T) : Call A T → Prop
  | .allocateChunk _ _ => True
  | .add _ => x.filled < chunkCapacity chunkSize ∧ x.values.length + 1 < 2 ^ 32
  | .addAtSwap _ _ => False

/-! ## One call -/

/-- As long as all calls are clean the chunks hold the values in the order of the calls,
and the last chunk those since it was allocated. -/
structure Filled (chunkSize : Nat) (s : LinkedArray A T) (x : Added A T) : Prop where
  lists : Lists s.list x.chunks
  last : ∀ {ns chunk}, x.chunks = ns ++ [chunk] → (s.array chunk).WellFormed ∧
    (s.array chunk).capacity = chunkCapacity chunkSize ∧ (s.array chunk).count = x.filled
  values : s.elements x.chunks = x.values
  count : s.count = x.values.length
  swapped : x.swapped = none

section Calls

variable {chunkSize fuel : Nat} {s t : LinkedArray A T} {x : Added A T} {chunk : A} {value : T}

omit [DecidableEq A] in
theorem Filled.keeps (h : Filled chunkSize s x) : Keeps s x := by
  refine ⟨x.chunks, h.lists.first, h.lists.linked.ne_zero, h.lists.linked.next, ?_, h.count, ?_⟩
  · rw [h.values]
  · intro value idx hswapped
    rw [h.swapped] at hswapped
    cases hswapped

omit [DecidableEq A] in
theorem Filled.empty (chunkSize : Nat) (links : Links A) (array : A → DArray T) :
    Filled chunkSize ⟨⟨0, 0, links⟩, array, 0, 0⟩ ⟨[], [], 0, none⟩ :=
  ⟨.of_linked (.nil links) rfl rfl, fun h => absurd h (by simp), rfl, rfl, rfl⟩

omit [Zero A] in
/-- Writing to a chunk that is not among them keeps the elements of some chunks. -/
theorem elements_update {array : A → DArray T} {ns : List A} (hnew : chunk ∉ ns) (d : DArray T) :
    (ns.flatMap fun c => (Function.update array chunk d c).elems) =
      ns.flatMap fun c => (array c).elems := by
  apply List.flatMap_congr
  intro c hc
  rw [Function.update_of_ne]
  rintro rfl
  exact hnew hc

omit [DecidableEq A] in
/-- The last chunk is `Cur`, and there is none behind it. -/
theorem Filled.exists_cur (h : Filled chunkSize s x) (hne : x.chunks ≠ []) :
    ∃ ns, x.chunks = ns ++ [s.cur] ∧ s.cur ≠ 0 ∧ s.cur ∉ ns ∧ s.list.links.next s.cur = 0 := by
  obtain ⟨ns, chunk, hchunks⟩ := (List.eq_nil_or_concat x.chunks).resolve_left hne
  rw [List.concat_eq_append] at hchunks
  have hcur : s.cur = chunk := by rw [LinkedArray.cur, h.lists.last, hchunks, lastD_concat]
  have hlinked := h.lists.linked
  rw [hchunks] at hlinked
  rw [hcur]
  refine ⟨ns, hchunks, ?_, ?_, hlinked.next_mid⟩
  · rintro rfl
    exact hlinked.ne_zero (by simp)
  · intro hmem
    exact (List.nodup_append.mp hlinked.nodup).2.2 chunk hmem chunk (List.mem_singleton_self _) rfl

/-- `Add` where `Cur` is full changes nothing. -/
theorem Filled.add_full (h : Filled chunkSize s x) (hne : x.chunks ≠ []) (hfuel : 0 < fuel)
    (hfull : (s.array s.cur).count = (s.array s.cur).capacity) : s.add fuel value = some s := by
  obtain ⟨ns, -, hzero, -, hnext⟩ := h.exists_cur hne
  obtain ⟨fuel, rfl⟩ := Nat.exists_eq_succ_of_ne_zero hfuel.ne'
  have hturn : LinkedArray.addTurn value s = .done (some s) := by
    rw [LinkedArray.addTurn, if_neg hzero, if_pos hfull, if_neg (not_not.mpr hnext)]
  rw [LinkedArray.add, Loop.run_succ_done fuel hturn, Option.join_some]

/-- `Add` where it is not pushes to its array. -/
theorem Filled.add_room (h : Filled chunkSize s x) (hne : x.chunks ≠ []) (hfuel : 0 < fuel)
    (hroom : (s.array s.cur).count ≠ (s.array s.cur).capacity) :
    s.add fuel value = ((s.array s.cur).push (.value value)).map fun array =>
      { s.setArray s.cur fun _ => array with count := u32 (s.count + 1) } := by
  obtain ⟨ns, -, hzero, -, -⟩ := h.exists_cur hne
  obtain ⟨fuel, rfl⟩ := Nat.exists_eq_succ_of_ne_zero hfuel.ne'
  have hturn : LinkedArray.addTurn value s =
      .done (((s.array s.cur).push (.value value)).map fun array =>
        { s.setArray s.cur fun _ => array with count := u32 (s.count + 1) }) := by
    rw [LinkedArray.addTurn, if_neg hzero, if_neg hroom]
    cases (s.array s.cur).push (.value value) <;> rfl
  rw [LinkedArray.add, Loop.run_succ_done fuel hturn, Option.join_some]

theorem Filled.add (h : Filled chunkSize s x) (hne : x.chunks ≠ []) (hfuel : 0 < fuel)
    (hclean : Clean chunkSize x (.add value)) :
    ∃ t, s.add fuel value = some t ∧ Filled chunkSize t (x.apply (.add value)) := by
  obtain ⟨hroom, hword⟩ := hclean
  obtain ⟨ns, hchunks, -, hnew, -⟩ := h.exists_cur hne
  obtain ⟨hwf, hcap, hcount⟩ := h.last hchunks
  have hlt : (s.array s.cur).count < (s.array s.cur).capacity := by rw [hcap, hcount]; exact hroom
  obtain ⟨d, hpush, hwf', hcap', hcount', helems⟩ :=
    hwf.push hlt (show Ref.Within _ (.value value) from trivial) rfl
  refine ⟨_, by rw [h.add_room hne hfuel hlt.ne, hpush, Option.map_some], ?_⟩
  refine ⟨h.lists, fun {ns' chunk'} hlast => ?_, ?_, ?_, rfl⟩
  · obtain ⟨-, hsame⟩ := List.append_inj' (hchunks.symm.trans hlast) rfl
    obtain rfl := List.cons.inj hsame |>.1
    simp only [LinkedArray.setArray, Function.update_self]
    exact ⟨hwf', hcap'.trans hcap, by rw [hcount', hcount]; rfl⟩
  · have hbefore := h.values
    rw [LinkedArray.elements, hchunks, List.flatMap_append, List.flatMap_singleton] at hbefore
    rw [LinkedArray.elements, Added.apply]
    simp only [LinkedArray.setArray]
    rw [hchunks, List.flatMap_append, List.flatMap_singleton, elements_update hnew,
      Function.update_self, helems, ← List.append_assoc, hbefore]
  · simp only [Added.apply, List.length_append, List.length_singleton]
    rw [h.count, u32_eq hword]

/-- What an `Add` leaves in `Count`. -/
theorem Filled.clean_of_add (h : Filled chunkSize s x) (hne : x.chunks ≠ []) (hfuel : 0 < fuel)
    (hadd : s.add fuel value = some t) (hcount : t.count = x.values.length + 1) :
    Clean chunkSize x (.add value) := by
  obtain ⟨ns, hchunks, -, -, -⟩ := h.exists_cur hne
  obtain ⟨hwf, hcap, hfilled⟩ := h.last hchunks
  by_cases hfull : (s.array s.cur).count = (s.array s.cur).capacity
  · rw [h.add_full hne hfuel hfull] at hadd
    cases hadd
    rw [h.count] at hcount
    omega
  · rw [h.add_room hne hfuel hfull] at hadd
    obtain ⟨d, -, rfl⟩ := Option.map_eq_some_iff.mp hadd
    have hle := hwf.count
    rw [hcap, hfilled] at hle hfull
    have hword : u32 (s.count + 1) < 2 ^ 32 := Nat.mod_lt _ (by decide)
    have heq : u32 (s.count + 1) = x.values.length + 1 := hcount
    exact ⟨lt_of_le_of_ne hle hfull, heq ▸ hword⟩

omit [Zero A] in
theorem copyToLast_count {elementIdx : Nat} (h : s.copyToLast chunk elementIdx = some t) :
    t.count = s.count := by
  obtain ⟨element, -, h⟩ := Option.bind_eq_some_iff.mp h
  obtain ⟨memory, -, h⟩ := Option.bind_eq_some_iff.mp h
  cases h
  rfl

/-- `AddAtSwap` leaves `Count` as it is. -/
theorem addAtSwap_count {idx : Nat} (h : s.addAtSwap chunkSize value idx = some t) :
    t.count = s.count := by
  obtain ⟨chunk, -, h⟩ := Option.bind_eq_some_iff.mp h
  split at h
  · cases h
  · obtain ⟨s', hs', h⟩ := Option.bind_eq_some_iff.mp h
    obtain ⟨memory, -, h⟩ := Option.bind_eq_some_iff.mp h
    cases h
    have hsame : s'.count = s.count := by
      split at hs'
      · exact copyToLast_count hs'
      · cases hs'
        rfl
    exact hsame

theorem resize_zero (size : Nat) (fresh : Nat → T) :
    (⟨none, 0, 0⟩ : DArray T).resize size fresh =
      some (DArray.ofCells (if size = 0 then 1 else size) []
        ((List.range (if size = 0 then 1 else size)).map fresh)) := by
  have hpos : ¬ (if size = 0 then 1 else size) ≤ 0 := by split <;> omega
  rw [DArray.resize]
  exact if_neg hpos

/-- `AllocateChunk` puts an empty chunk behind the others. -/
theorem Filled.allocateChunk (h : Filled chunkSize s x) (hchunk : chunk ≠ 0)
    (hnew : chunk ∉ x.chunks) (fresh : Nat → T) :
    ∃ t, s.allocateChunk chunk (u32 chunkSize) fresh = some t ∧
      Filled chunkSize t (x.apply (.allocateChunk chunk fresh)) := by
  have hother : ∀ {f : A → A}, ∀ c ∈ x.chunks, Function.update f chunk 0 c = f c := by
    intro f c hc
    apply Function.update_of_ne
    rintro rfl
    exact hnew hc
  have hzeroed : Lists (⟨s.list.f, s.list.l, ⟨Function.update s.list.links.next chunk 0,
      Function.update s.list.links.prev chunk 0⟩⟩ : DList A) x.chunks :=
    .of_linked (h.lists.linked.congr hother hother) h.lists.first h.lists.last
  obtain ⟨list, hlist, hlists⟩ := pushBack_spec hzeroed hchunk hnew
  have hcap : chunkCapacity chunkSize < 2 ^ 32 := by
    have hword : u32 chunkSize < 2 ^ 32 := Nat.mod_lt _ (by decide)
    unfold chunkCapacity
    split <;> omega
  have hcall : s.allocateChunk chunk (u32 chunkSize) fresh =
      some ⟨list, Function.update s.array chunk
        (DArray.ofCells (chunkCapacity chunkSize) []
          ((List.range (chunkCapacity chunkSize)).map fresh)),
        u32 (s.numOfChunks + 1), s.count⟩ := by
    rw [dlPushBack] at hlist
    rw [LinkedArray.allocateChunk, resize_zero]
    simp only [Option.bind_eq_bind, Option.bind_some, hlist]
    rfl
  refine ⟨_, hcall, hlists, ?_, ?_, h.count, rfl⟩
  · intro ns' chunk' hlast
    obtain ⟨-, hsame⟩ := List.append_inj' hlast rfl
    obtain rfl := List.cons.inj hsame |>.1
    simp only [Function.update_self]
    refine ⟨DArray.wellFormed_ofCells hcap ?_, rfl, rfl⟩
    rw [List.length_nil, List.length_map, List.length_range, Nat.zero_add]
  · rw [LinkedArray.elements, Added.apply]
    simp only
    rw [List.flatMap_append, List.flatMap_singleton, elements_update hnew, Function.update_self,
      DArray.elems_ofCells, List.append_nil]
    exact h.values

theorem Filled.step (h : Filled chunkSize s x) (hfuel : 0 < fuel) {call : Call A T}
    (hvalid : Valid x call) (hclean : Clean chunkSize x call) :
    ∃ t, step chunkSize fuel s call = some t ∧ Filled chunkSize t (x.apply call) := by
  cases call with
  | allocateChunk chunk fresh => exact h.allocateChunk hvalid.1 hvalid.2 fresh
  | add value => exact h.add hvalid hfuel hclean
  | addAtSwap value idx => exact hclean.elim

theorem Filled.clean_of_step (h : Filled chunkSize s x) (hfuel : 0 < fuel) {call : Call A T}
    (hvalid : Valid x call)
    (hstep : ∃ t, LinkedArrays.step chunkSize fuel s call = some t ∧ Keeps t (x.apply call)) :
    Clean chunkSize x call := by
  obtain ⟨t, ht, ns, -, -, -, -, hcount, -⟩ := hstep
  cases call with
  | allocateChunk chunk fresh => trivial
  | add value => exact h.clean_of_add hvalid hfuel ht (by rw [hcount]; exact List.length_append)
  | addAtSwap value idx =>
    have hsame := addAtSwap_count ht
    rw [hcount, h.count] at hsame
    simp [Added.apply] at hsame

end Calls

/-! ## Sequences of calls -/

/-- The array loses nothing, over any sequence of calls from the empty array, exactly where
every `Add` finds room in the last chunk and there is no `AddAtSwap`. -/
theorem linkedArray_keeps_iff (chunkSize : Nat) {fuel : Nat} (hfuel : 0 < fuel) (links : Links A)
    (array : A → DArray T) (calls : List (Call A T))
    (hvalid : AtEach (fun x call => some (Added.apply x call)) Valid ⟨[], [], 0, none⟩ calls) :
    (∀ done, done <+: calls → ∃ s,
        exec (step chunkSize fuel) ⟨⟨0, 0, links⟩, array, 0, 0⟩ done = some s ∧
          Keeps s (done.foldl Added.apply ⟨[], [], 0, none⟩)) ↔
      AtEach (fun x call => some (Added.apply x call)) (Clean chunkSize) ⟨[], [], 0, none⟩
        calls := by
  apply refines_iff (Filled chunkSize) Keeps ?_ ?_ ?_ calls
    (Filled.empty chunkSize links array) hvalid
  · exact fun s x h => h.keeps
  · exact fun s x call h hvalid hclean => h.step hfuel hvalid hclean
  · exact fun s x call h hvalid hstep => h.clean_of_step hfuel hvalid hstep

instance Valid.decidable : ∀ (x : Added A T) (call : Call A T), Decidable (Valid x call)
  | x, .allocateChunk chunk _ => inferInstanceAs (Decidable (chunk ≠ 0 ∧ chunk ∉ x.chunks))
  | x, .add _ => inferInstanceAs (Decidable (x.chunks ≠ []))
  | x, .addAtSwap _ idx =>
      inferInstanceAs (Decidable (x.chunks ≠ [] ∧ idx < x.values.length ∧ idx < 2 ^ 32))

instance Clean.decidable (chunkSize : Nat) : ∀ (x : Added A T) (call : Call A T),
    Decidable (Clean chunkSize x call)
  | _, .allocateChunk _ _ => isTrue trivial
  | x, .add _ => inferInstanceAs
      (Decidable (x.filled < chunkCapacity chunkSize ∧ x.values.length + 1 < 2 ^ 32))
  | _, .addAtSwap _ _ => isFalse not_false

/-- Three values in chunks of two. -/
theorem linkedArray_keeps_three : ∃ s, exec (step 2 1) ⟨⟨0, 0, ⟨fun _ => 0, fun _ => 0⟩⟩,
    fun _ => ⟨none, 0, 0⟩, 0, 0⟩ [.allocateChunk (1 : Nat) fun _ => (0 : Nat), .add 7, .add 8,
      .allocateChunk 2 fun _ => 0, .add 9] = some s ∧ Keeps s ⟨[1, 2], [7, 8, 9], 1, none⟩ :=
  (linkedArray_keeps_iff 2 one_pos ⟨fun _ => 0, fun _ => 0⟩ (fun _ => ⟨none, 0, 0⟩)
    [.allocateChunk 1 fun _ => 0, .add 7, .add 8, .allocateChunk 2 fun _ => 0, .add 9]
    (by decide)).mpr (by decide) _ (List.prefix_refl _)

/-- The second `Add` to a chunk for one value drops it, and `AddAtSwap` at the only element
puts its value over it and counts it in the chunk alone. -/
theorem linkedArray_loses :
    (∃ s, exec (step 1 1) ⟨⟨0, 0, ⟨fun _ => 0, fun _ => 0⟩⟩, fun _ => ⟨none, 0, 0⟩, 0, 0⟩
      [.allocateChunk (1 : Nat) fun _ => (0 : Nat), .add 7, .add 8] = some s ∧
      s.count = 1 ∧ s.elements [1] = [7] ∧ ¬ Keeps s ⟨[1], [7, 8], 2, none⟩) ∧
    ∃ s, exec (step 4 1) ⟨⟨0, 0, ⟨fun _ => 0, fun _ => 0⟩⟩, fun _ => ⟨none, 0, 0⟩, 0, 0⟩
      [.allocateChunk (1 : Nat) fun _ => (0 : Nat), .add 7, .addAtSwap 8 0] = some s ∧
      s.count = 1 ∧ s.elements [1] = [8, 0] ∧ ¬ Keeps s ⟨[1], [7, 8], 2, some (8, 0)⟩ := by
  refine ⟨⟨_, rfl, rfl, rfl, ?_⟩, ⟨_, rfl, rfl, rfl, ?_⟩⟩
  · rintro ⟨ns, -, -, -, -, hcount, -⟩
    exact absurd hcount (by decide)
  · rintro ⟨ns, -, -, -, -, hcount, -⟩
    exact absurd hcount (by decide)

end ScalBase.LinkedArrays
