/-
  HeapAllocator/Classes.lean --- requests of one size class.

  Sizes are rounded to powers of two, and a block goes back to the bucket that it came
  from or below `Offset`.  So a program that asks for sizes of one class only has a pool of
  blocks: a request is refused exactly when the blocks it has and one more do not fit in
  the buffer, whatever the order of the calls (`generalPurpose_pool`).
-/
import ScalBase.HeapAllocator.Contents

set_option autoImplicit false

namespace ScalBase.HeapAllocator

open ScalBase.Foundation

variable {used used' : ListName → Prop} {s t : State} {F : Nodes} {fuel size buffer bytes : Nat}
  {memory : Memory} {i : Fin 16}

/-- The sizes that bucket `i` serves. -/
def OfClass (i : Fin 16) (size : Nat) : Prop :=
  size + sizeofMemNode ≤ 2 ^ 23 ∧ bucketOf (roundedSize size) = some i

instance (i : Fin 16) (size : Nat) : Decidable (OfClass i size) :=
  inferInstanceAs (Decidable (_ ∧ _))

/-- Every request is of class `i`. -/
def OneClass (i : Fin 16) (s : State) : Call → Prop
  | .alloc size => OfClass i size
  | .free ptr => Admitted s (.free ptr)
  | .write address value => Admitted s (.write address value)

instance (i : Fin 16) (s : State) : ∀ call, Decidable (OneClass i s call)
  | .alloc size => inferInstanceAs (Decidable (OfClass i size))
  | .free ptr => inferInstanceAs (Decidable (Admitted s (.free ptr)))
  | .write address value => inferInstanceAs (Decidable (Admitted s (.write address value)))

/-- Only bucket `i` has had blocks. -/
def Only (i : Fin 16) (l : ListName) : Prop := l = some i

theorem Layout.mono (h : Layout used [] s F) (hle : ∀ l, used l → used' l) :
    Layout used' [] s F := by
  refine ⟨h.lists, h.tiles, h.fresh, fun ptr hptr => ?_, h.list_fits, fun l hl => ?_, h.mem_le,
    h.top_lt, h.buffer⟩
  · obtain ⟨l, hl, hfit⟩ := h.live_fits ptr hptr
    exact ⟨l, hle l hl, hfit⟩
  · exact h.unused l fun hl' => hl (hle l hl')

theorem Layout.bucket_of_only (h : Layout (Only i) [] s F) : Layout IsBucket [] s F :=
  h.mono fun l hl => by
    rw [Only] at hl
    rw [IsBucket, hl]
    exact Option.some_ne_none i

/-- A request of the class goes to its bucket. -/
theorem OfClass.request (h : OfClass i size) (hlayout : Layout (Only i) [] s F)
    (hmem : 2 ^ 23 ≤ s.allocator.mem) :
    Request s size ∧ requestList size = some i ∧ requestSize size ≤ generalPurposeMax := by
  obtain ⟨hsize, hbucket⟩ := h
  obtain ⟨hbucketed, -⟩ := bucketed_of_le hsize s
  obtain ⟨hrequest, hlist⟩ := Bucketed.request hlayout.bucket_of_only hmem hbucketed
  have hsmall : ¬ requestSize size > generalPurposeMax := by
    intro hlarge
    rw [IsBucket, requestList, if_pos hlarge] at hlist
    exact hlist rfl
  exact ⟨hrequest, by rw [requestList, if_neg hsmall, hbucket], Nat.not_lt.mp hsmall⟩

/-- The rounded size of the class. -/
theorem OfClass.rounded (h : OfClass i size) (hlayout : Layout (Only i) [] s F)
    (hmem : 2 ^ 23 ≤ s.allocator.mem) : roundedSize size = 2 ^ (8 + i.val) := by
  obtain ⟨hrequest, hlist, -⟩ := h.request hlayout hmem
  have hfits := roundedSize_fits hrequest.bucket
  rw [hlist] at hfits
  exact hfits

/-! ## Blocks of one size -/

theorem sum_sizes_eq {xs : List Nat} {n : Nat} (h : ∀ x ∈ xs, (memory x).size = n) :
    ((blocks memory xs).map Block.size).sum = xs.length * n := by
  rw [sum_blocks, sizes, List.map_congr_left h, List.map_const', List.sum_replicate, smul_eq_mul]

/-- The blocks handed out and those of the bucket fill the memory above `Offset`. -/
theorem Layout.total (h : Layout (Only i) [] s F) :
    (s.live.length + (F (some i)).length) * 2 ^ (8 + i.val) + s.allocator.offset =
      s.allocator.mem + s.allocator.size := by
  have hlive : ∀ x ∈ s.live.map header, (s.memory x).size = 2 ^ (8 + i.val) := by
    intro x hx
    obtain ⟨ptr, hptr, rfl⟩ := List.mem_map.mp hx
    obtain ⟨l, rfl, hfit⟩ := h.live_fits ptr hptr
    exact hfit
  have hfree : freeBlocks s.memory F = blocks s.memory (F (some i)) := by
    refine Finset.sum_eq_single (some i) (fun l _ hne => ?_) fun hnot => ?_
    · rw [h.unused l hne, blocks_nil]
    · exact absurd (Finset.mem_univ _) hnot
  have hsum := h.tiles.sum_sizes
  have hle := h.tiles.le
  rw [blocks_nil, zero_add, hfree, Multiset.map_add, Multiset.sum_add, State.liveBlocks,
    sum_sizes_eq hlive, sum_sizes_eq (h.list_fits (some i)), List.length_map, ← Nat.add_mul] at hsum
  omega

/-- A request that is answered null has found its bucket empty and `Offset` too low. -/
theorem Layout.refused (h : Layout (Only i) [] s F) (hmem : 2 ^ 23 ≤ s.allocator.mem)
    (hclass : OfClass i size) {r : Nat × Memory × GeneralPurposeAllocator}
    (hr : generalPurposeAlloc fuel s.memory s.allocator size = some r) (hnull : r.1 = 0) :
    F (some i) = [] ∧ s.allocator.offset < s.allocator.mem + 2 ^ (8 + i.val) := by
  obtain ⟨hrequest, -, hsmall⟩ := hclass.request h hmem
  have hrounded := hclass.rounded h hmem
  have hoffset := hrequest.offset
  have htop := h.top_lt
  have hle := h.tiles.le
  rw [hrounded] at hoffset
  have hlist : FreeList s.memory (s.allocator.buckets i) (F (some i)) := h.lists (some i)
  have hhand : ∀ {x : Nat}, x ≠ 0 → x + sizeofMemNode < 2 ^ 64 → u64 (x + sizeofMemNode) ≠ 0 := by
    intro x hx hlt
    rw [u64_eq hlt]
    omega
  rw [generalPurposeAlloc, takeFree, if_neg (Nat.not_lt.mpr hsmall), hclass.2, Option.map_some,
    Option.map_some, Option.some.injEq] at hr
  cases hF : F (some i) with
  | cons x ns =>
    -- The first node of the bucket would have been handed out.
    have hx : x ∈ F (some i) := by
      rw [hF]
      exact List.mem_cons_self ..
    have hhead : (s.allocator.buckets i).head = x := by rw [hlist.head_eq, hF, List.headD_cons]
    have hne : x ≠ 0 := hlist.ne_zero hx
    have hbounds := h.tiles.bounds
      (Multiset.mem_add.mpr (Or.inr (Multiset.mem_add.mpr (Or.inr (mem_freeBlocks hx)))))
    have hfit : (s.memory x).size = 2 ^ (8 + i.val) := h.list_fits (some i) x hx
    have hmin := (bucketOf_fits i).2.1
    simp only [blockAt, hfit] at hbounds
    rw [hhead, if_pos hne, if_pos hne] at hr
    have hword : x + sizeofMemNode < 2 ^ 64 := by
      unfold sizeofMemNode
      omega
    subst hr
    exact absurd hnull (hhand hne hword)
  | nil =>
    have hhead : (s.allocator.buckets i).head = 0 := by rw [hlist.head_eq, hF, List.headD_nil]
    rw [hhead, if_neg (not_not.mpr rfl)] at hr
    simp only [ne_eq, not_true_eq_false, if_false, hrounded, sub64_eq hoffset (by omega)] at hr
    split at hr
    · exact ⟨rfl, by omega⟩
    · rename_i hroom
      have hpos : s.allocator.offset - 2 ^ (8 + i.val) ≠ 0 := by omega
      have hmin := (bucketOf_fits i).2.1
      have hword : s.allocator.offset - 2 ^ (8 + i.val) + sizeofMemNode < 2 ^ 64 := by
        unfold sizeofMemNode
        omega
      subst hr
      exact absurd hnull (hhand hpos hword)

/-- A request is refused exactly when one more block does not fit in the buffer. -/
theorem Layout.refused_iff (h : Layout (Only i) [] s F) (hmem : 2 ^ 23 ≤ s.allocator.mem)
    (hclass : OfClass i size) (hfuel : 2 ^ 64 ≤ fuel) :
    ∃ r, generalPurposeAlloc fuel s.memory s.allocator size = some r ∧
      (r.1 = 0 ↔ s.allocator.size < (s.live.length + 1) * 2 ^ (8 + i.val)) := by
  obtain ⟨hrequest, hlist, -⟩ := hclass.request h hmem
  obtain ⟨r, hr, hres⟩ := generalPurposeAlloc_spec h hrequest.servable hlist hfuel
  have htotal := h.total
  refine ⟨r, hr, fun hnull => ?_, fun hfull => ?_⟩
  · obtain ⟨hempty, hlow⟩ := h.refused hmem hclass hr hnull
    rw [hempty, List.length_nil, Nat.add_zero] at htotal
    rw [Nat.add_mul, Nat.one_mul]
    omega
  · rcases hres with rfl | hout
    · rfl
    · obtain ⟨F', hlayout, -⟩ := hout.layout
      obtain ⟨hmem', hsize'⟩ := generalPurposeAlloc_buffer hr
      have htotal' := hlayout.total
      have hoffset' := hlayout.mem_le
      simp only [List.length_cons, hmem', hsize'] at htotal' hoffset'
      have hmono := Nat.mul_le_mul_right (2 ^ (8 + i.val))
        (Nat.le_add_right (s.live.length + 1) (F' (some i)).length)
      omega

/-! ## Runs -/

/-- In every run of requests of one class, the allocator refuses a request of the class
exactly when it has no room for one more block beside those handed out. -/
theorem generalPurpose_pool (hbuffer : 2 ^ 23 ≤ buffer) (hbytes : sizeofMemNode < bytes)
    (htop : buffer + bytes < 2 ^ 64) (hfuel : 2 ^ 64 ≤ fuel) {calls : List Call}
    (hok : AtEach (step fuel) (OneClass i) (State.create memory buffer bytes) calls) :
    ∃ s, exec (step fuel) (State.create memory buffer bytes) calls = some s ∧
      ∀ size, OfClass i size → ∃ r, generalPurposeAlloc fuel s.memory s.allocator size = some r ∧
        (r.1 = 0 ↔ bytes < (s.live.length + 1) * 2 ^ (8 + i.val)) := by
  let I : State → Prop := fun s => (∃ F, Layout (Only i) [] s F) ∧
    s.allocator.mem = buffer ∧ s.allocator.size = bytes
  have hstart : I (State.create memory buffer bytes) := by
    refine ⟨⟨_, layout_create htop⟩, ?_⟩
    rw [State.create, generalPurposeCreate, if_neg (by unfold sizeofMemNode at *; omega)]
    exact ⟨rfl, rfl⟩
  have hkeep : ∀ s call, I s → OneClass i s call → ∃ t, step fuel s call = some t ∧ I t := by
    intro s call hs hcall
    obtain ⟨⟨F, h⟩, hmem, hsize⟩ := hs
    have hstep : ∃ t, step fuel s call = some t ∧ ∃ F', Layout (Only i) [] t F' := by
      cases call with
      | alloc size =>
        have hclass : OfClass i size := hcall
        obtain ⟨hrequest, hlist, -⟩ := hclass.request h (hmem ▸ hbuffer)
        exact h.step (show Admitted s (.alloc size) from hrequest)
          (fun size' heq => by cases heq; exact hlist) trivial hfuel
      | free ptr =>
        have hptr : ptr ∈ s.live := hcall
        exact h.step (show Admitted s (.free ptr) from hptr) (fun _ heq => by cases heq)
          (h.bucket_of_only.forgetsNoPrev hptr) hfuel
      | write address value =>
        exact h.step (show Admitted s (.write address value) from hcall)
          (fun _ heq => by cases heq) trivial hfuel
    obtain ⟨t, ht, hlayout⟩ := hstep
    obtain ⟨hmem', hsize'⟩ := step_buffer ht
    exact ⟨t, ht, hlayout, hmem'.trans hmem, hsize'.trans hsize⟩
  obtain ⟨s, hs, ⟨F, h⟩, hmem, hsize⟩ := hok.exec_invariant I hkeep hstart
  refine ⟨s, hs, fun size hclass => ?_⟩
  rw [← hsize]
  exact h.refused_iff (hmem ▸ hbuffer) hclass hfuel

/-- Blocks of 512 bytes; the upper one is given back to its bucket and serves again. -/
theorem generalPurpose_pool_two :
    ∃ s, exec (step (2 ^ 64)) (State.create zeroed (2 ^ 24) (2 ^ 20))
        [.alloc 100, .alloc 400, .free 17825304, .alloc 1] = some s ∧
      ∀ size, OfClass 1 size → ∃ r, generalPurposeAlloc (2 ^ 64) s.memory s.allocator size =
        some r ∧
        (r.1 = 0 ↔ 2 ^ 20 < (s.live.length + 1) * 2 ^ (8 + (1 : Fin 16).val)) :=
  generalPurpose_pool (by decide) (by decide) (by decide) (Nat.le_refl _) (by decide +kernel)

end ScalBase.HeapAllocator
