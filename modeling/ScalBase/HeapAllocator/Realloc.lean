/-
  HeapAllocator/Realloc.lean --- `GeneralPurposeRealloc`.

  A block stays in place, or another one is allocated, filled and the old one
  freed.  `generalPurposeRealloc_spec` says what each of the exits leaves, and
  `byteStep_layout` that every call keeps the layout.

  A request of bucketed size keeps the data and fails cleanly in every run
  (`generalPurposeRealloc_keeps`).  The test for staying in place compares the size
  with that of the whole block, header included, so `GeneralPurposeRealloc` grants
  too little for sizes less than a header below it (`grantsRoom_iff`).
-/
import ScalBase.HeapAllocator.Bytes
import ScalBase.HeapAllocator.Runs
import ScalBase.HeapAllocator.Buckets

set_option autoImplicit false

namespace ScalBase.HeapAllocator

open ScalBase.Foundation

variable {used : ListName → Prop} {s : ByteState} {F : Nodes} {fuel ptr size : Nat}

/-! ## The copy -/

/-- The copy fills the new block as far as both blocks reach. -/
theorem copyBlock_eq {bytes : Bytes} {block r : Nat}
    (hr : header r + sizeofMemNode = r)
    (hword : header r + (headers bytes (header r)).size < 2 ^ 64)
    (hrsize : sizeofMemNode ≤ (headers bytes (header r)).size)
    (hsize : sizeofMemNode ≤ (headers bytes block).size)
    (hlt : (headers bytes block).size < 2 ^ 64) :
    copyBlock bytes block ptr r = sMemMove bytes r ptr
      (min (headers bytes block).size (headers bytes (header r)).size - sizeofMemNode) := by
  have hheader : sub64 r sizeofMemNode = header r := sub64_eq (by omega) (by omega)
  unfold copyBlock
  simp only [hheader]
  refine congrArg (sMemMove bytes r ptr) ?_
  split_ifs with hless
  · rw [sub64_eq hrsize (by omega), Nat.min_eq_right (Nat.le_of_lt hless)]
  · rw [sub64_eq hsize hlt, Nat.min_eq_left (Nat.not_lt.mp hless)]

/-- The state in which `GeneralPurposeRealloc` frees the old block. -/
def ByteState.copied (s : ByteState) (ptr : Nat) (t : Nat × Bytes × GeneralPurposeAllocator) :
    ByteState :=
  ⟨copyBlock t.2.1 (header ptr) ptr t.1, t.2.2, t.1 :: s.live⟩

/-- What the copy leaves: the layout, the other blocks and the header of the new one as
they were, and in the new block the bytes of the old one. -/
structure Copied (used : ListName → Prop) (s : ByteState) (ptr : Nat)
    (t : Nat × Bytes × GeneralPurposeAllocator) : Prop where
  layout : ∃ F', Layout used [] (s.copied ptr t).view F'
  header_eq : headers (s.copied ptr t).bytes (header t.1) = headers t.2.1 (header t.1)
  kept : ∀ p ∈ s.live, Kept s.bytes (s.copied ptr t).bytes p
  bytes_eq : ∀ i, i + sizeofMemNode < (headers s.bytes (header ptr)).size →
    i + sizeofMemNode < (headers t.2.1 (header t.1)).size →
    (s.copied ptr t).bytes (t.1 + i) = s.bytes (ptr + i)

/-- The new block is filled. -/
theorem Granted.copied (h : Layout used [] s.view F) (hptr : ptr ∈ s.live)
    {t : Nat × Bytes × GeneralPurposeAllocator} (ht : Granted used s size t) :
    Copied used s ptr t := by
  obtain ⟨F₁, hlayout⟩ := ht.layout
  have hself : t.1 ∈ t.1 :: s.live := List.mem_cons_self ..
  have hkept := ht.kept ptr hptr
  have hsize := h.live_size hptr
  have hend := h.live_end hptr
  have hheader := h.live_header hptr
  have hold : headers t.2.1 (header ptr) = headers s.bytes (header ptr) := hkept.header_eq hsize
  have hr := hlayout.live_header hself
  have hcopy := @copyBlock_eq ptr t.2.1 (header ptr) t.1 hr (hlayout.live_end hself)
    (hlayout.live_size hself) (by rw [hold]; exact hsize)
    (by rw [hold]; exact Nat.lt_of_le_of_lt (Nat.le_add_left _ _) hend)
  have hrsize : sizeofMemNode ≤ (headers t.2.1 (header t.1)).size := hlayout.live_size hself
  have hstore : ∀ x, x < t.1 ∨ header t.1 + (headers t.2.1 (header t.1)).size ≤ x →
      copyBlock t.2.1 (header ptr) ptr t.1 x = t.2.1 x := by
    intro x hx
    rw [hcopy, sMemMove, if_neg]
    omega
  obtain ⟨hview, heq, hothers⟩ := hlayout.store hself hstore
  have hlive : ∀ p ∈ s.live, Kept s.bytes (copyBlock t.2.1 (header ptr) ptr t.1) p := by
    intro p hp
    refine (ht.kept p hp).trans (h.live_size hp) (hothers p ?_)
    simpa using hp
  refine ⟨⟨F₁, hview⟩, heq, hlive, fun i hi hi' => ?_⟩
  show copyBlock t.2.1 (header ptr) ptr t.1 (t.1 + i) = s.bytes (ptr + i)
  rw [hcopy, hold, sMemMove, if_pos (by omega), Nat.add_sub_cancel_left]
  exact hkept (ptr + i) (by omega) (by omega)

/-! ## GeneralPurposeRealloc -/

/-- Where a block is moved, freeing the old one does not take the exit of
`InsertMemNode` that forgets a `Prev`. -/
def MovesCleanly (fuel : Nat) (s : ByteState) (ptr size : Nat) : Prop :=
  ∀ t ∈ allocBytes fuel s.bytes s.allocator size, t.1 ≠ 0 → ForgetsNoPrev (s.copied ptr t).view ptr

instance (fuel : Nat) (s : ByteState) (ptr size : Nat) : Decidable (MovesCleanly fuel s ptr size) :=
  inferInstanceAs (Decidable (∀ t ∈ allocBytes fuel s.bytes s.allocator size, _))

/-- A block has been moved. -/
structure Moved (used : ListName → Prop) (s : ByteState) (ptr size : Nat)
    (t : Nat × Bytes × GeneralPurposeAllocator) : Prop where
  ne_zero : t.1 ≠ 0
  ne_ptr : t.1 ≠ ptr
  size_le : roundedSize size ≤ (headers t.2.1 (header t.1)).size
  layout : ∃ F', Layout used [] (ByteState.view ⟨t.2.1, t.2.2, t.1 :: s.live.erase ptr⟩) F'
  kept : ∀ p ∈ s.live.erase ptr, Kept s.bytes t.2.1 p
  bytes_eq : ∀ i, i + sizeofMemNode < (headers s.bytes (header ptr)).size →
    i + sizeofMemNode < (headers t.2.1 (header t.1)).size → t.2.1 (t.1 + i) = s.bytes (ptr + i)

/-- The old block is freed after the copy. -/
theorem Granted.moved (h : Layout used [] s.view F) (hptr : ptr ∈ s.live)
    {t : Nat × Bytes × GeneralPurposeAllocator} (ht : Granted used s size t)
    (hclean : ForgetsNoPrev (s.copied ptr t).view ptr) (hfuel : 2 ^ 64 ≤ fuel) :
    ∃ u, freeBytes fuel (s.copied ptr t).bytes t.2.2 ptr = some u ∧
      Moved used s ptr size (t.1, u.1, u.2) := by
  obtain ⟨⟨F₁, hlayout⟩, hheader, hkept, hbytes⟩ := ht.copied h hptr
  obtain ⟨F₀, hlayout₀⟩ := ht.layout
  have hself : t.1 ∈ t.1 :: s.live := List.mem_cons_self ..
  have hne : t.1 ≠ ptr := by
    intro heq
    have hmem : ptr ∈ (t.1 :: s.live).erase t.1 := by rwa [List.erase_cons_head]
    exact ((hlayout₀.reclaim hself).live_ne hmem).1 _ (List.mem_singleton_self _) (by rw [heq])
  have herase : (t.1 :: s.live).erase ptr = t.1 :: s.live.erase ptr :=
    List.erase_cons_tail (by simpa using hne)
  obtain ⟨u, hu, hlayout', hkept'⟩ :=
    @freeBytes_spec used (s.copied ptr t) F₁ fuel hlayout ptr (List.mem_cons_of_mem _ hptr)
      hclean hfuel
  rw [show (s.copied ptr t).live.erase ptr = t.1 :: s.live.erase ptr from herase] at hlayout' hkept'
  have hfinal := hkept' t.1 (List.mem_cons_self ..)
  have hsize := hlayout.live_size hself
  have heq : headers u.1 (header t.1) = headers t.2.1 (header t.1) :=
    (hfinal.header_eq hsize).trans hheader
  refine ⟨u, hu, ht.ne_zero, hne, by rw [heq]; exact ht.size_le, hlayout', fun p hp => ?_,
    fun i hi hi' => ?_⟩
  · exact (hkept p (List.mem_of_mem_erase hp)).trans (h.live_size (List.mem_of_mem_erase hp))
      (hkept' p (List.mem_cons_of_mem _ hp))
  · rw [heq] at hi'
    have hr := hlayout.live_header hself
    rw [← hbytes i hi hi']
    refine hfinal (t.1 + i) (by omega) ?_
    rw [hheader]
    omega

/-- `GeneralPurposeRealloc` of a live pointer: the block stays in place, or there is no
memory and nothing changes, or the block is moved. -/
theorem generalPurposeRealloc_spec (h : Layout used [] s.view F) (hptr : ptr ∈ s.live)
    (hok : (headers s.bytes (header ptr)).size ≤ size →
      Servable fuel s.view size ∧ used (requestList size) ∧ MovesCleanly fuel s ptr size)
    (hfuel : 2 ^ 64 ≤ fuel) :
    ∃ t, generalPurposeRealloc fuel s.bytes s.allocator ptr size = some t ∧
      (size < (headers s.bytes (header ptr)).size ∧ t = (ptr, s.bytes, s.allocator) ∨
        (headers s.bytes (header ptr)).size ≤ size ∧
          (t = (0, s.bytes, s.allocator) ∨ Moved used s ptr size t)) := by
  have hheader := h.live_header hptr
  have hend := h.live_end hptr
  have hbounds := h.tiles.bounds
    (Multiset.mem_add.mpr (Or.inr (Multiset.mem_add.mpr (Or.inl (mem_liveBlocks hptr)))))
  have htop := h.top_lt
  have hmem := h.mem_le
  have hsize := h.live_size hptr
  simp only [blockAt] at hbounds
  have hview : s.view.allocator = s.allocator := rfl
  have hmemory : s.view.memory = headers s.bytes := rfl
  rw [hview] at hbounds htop hmem
  rw [hmemory] at hbounds hend hsize
  have hblock : sub64 ptr sizeofMemNode = header ptr := sub64_eq (by omega) (by omega)
  have hsub : sub64 (header ptr) s.allocator.mem = header ptr - s.allocator.mem :=
    sub64_eq (by omega) (by omega)
  have hne : ptr ≠ 0 := by
    unfold sizeofMemNode at hheader
    omega
  unfold generalPurposeRealloc
  simp only [hblock, hsub]
  rw [if_neg hne, if_neg (by omega)]
  split_ifs with hplace
  · exact ⟨_, rfl, Or.inl ⟨hplace, rfl⟩⟩
  · obtain ⟨hservable, hused, hclean⟩ := hok (Nat.not_lt.mp hplace)
    obtain ⟨t, ht, hres⟩ := allocBytes_spec h hservable hused hfuel
    rw [ht, Option.bind_some]
    rcases hres with rfl | hgranted
    · exact ⟨_, if_neg (not_not.mpr rfl), Or.inr ⟨Nat.not_lt.mp hplace, Or.inl rfl⟩⟩
    · rw [if_pos hgranted.ne_zero]
      obtain ⟨u, hu, hmoved⟩ := hgranted.moved h hptr (hclean t ht hgranted.ne_zero) hfuel
      have hu' : freeBytes fuel (copyBlock t.2.1 (header ptr) ptr t.1) t.2.2 ptr = some u := hu
      rw [hu']
      exact ⟨_, rfl, Or.inr ⟨Nat.not_lt.mp hplace, Or.inr hmoved⟩⟩

/-! ## Calls -/

/-- The size of the block of a pointer. -/
def ByteState.blockSize (s : ByteState) (ptr : Nat) : Nat := (headers s.bytes (header ptr)).size

/-- The size that a call asks for. -/
def ByteCall.request : ByteCall → Option Nat
  | .alloc size => some size
  | .realloc _ size => some size
  | _ => none

/-- Requests are served or refused, pointers given are live, the frees do not take the
exit of `InsertMemNode` that forgets a `Prev`, and stores go to live memory. -/
def Valid (fuel : Nat) (s : ByteState) : ByteCall → Prop
  | .alloc size => Servable fuel s.view size
  | .free ptr => ptr ∈ s.live ∧ ForgetsNoPrev s.view ptr
  | .realloc ptr size =>
      (ptr = 0 → Servable fuel s.view size) ∧
        (ptr ≠ 0 → ptr ∈ s.live ∧
          (s.blockSize ptr ≤ size → Servable fuel s.view size ∧ MovesCleanly fuel s ptr size))
  | .write address _ => ∃ ptr ∈ s.live, ptr ≤ address ∧ address < header ptr + s.blockSize ptr

instance (fuel : Nat) (s : ByteState) : ∀ call, Decidable (Valid fuel s call)
  | .alloc size => inferInstanceAs (Decidable (Servable fuel s.view size))
  | .free _ => inferInstanceAs (Decidable (_ ∧ _))
  | .realloc _ _ => inferInstanceAs (Decidable (_ ∧ _))
  | .write _ _ => inferInstanceAs (Decidable (∃ ptr ∈ s.live, _ ∧ _))

/-- Every call keeps the layout. -/
theorem byteStep_layout (h : Layout used [] s.view F) {call : ByteCall} (hok : Valid fuel s call)
    (hused : ∀ size ∈ call.request, used (requestList size)) (hfuel : 2 ^ 64 ≤ fuel) :
    ∃ t, byteStep fuel s call = some t ∧ ∃ F', Layout used [] t.view F' := by
  have halloc : ∀ {size}, Servable fuel s.view size → used (requestList size) →
      ∃ t, allocBytes fuel s.bytes s.allocator size = some t ∧
        ∃ F', Layout used [] (ByteState.view ⟨t.2.1, t.2.2, if t.1 = 0 then s.live
          else t.1 :: s.live⟩) F' := by
    intro size hr hu
    obtain ⟨t, ht, hres⟩ := allocBytes_spec h hr hu hfuel
    refine ⟨t, ht, ?_⟩
    rcases hres with rfl | hgranted
    · exact ⟨F, h⟩
    · rw [if_neg hgranted.ne_zero]
      exact hgranted.layout
  cases call with
  | alloc size =>
    obtain ⟨t, ht, hlayout⟩ := halloc hok (hused size rfl)
    exact ⟨_, congrArg (Option.map _) ht, hlayout⟩
  | free ptr =>
    obtain ⟨t, ht, hlayout, -⟩ := freeBytes_spec h hok.1 hok.2 hfuel
    exact ⟨_, congrArg (Option.map _) ht, hlayout⟩
  | realloc ptr size =>
    by_cases hnull : ptr = 0
    · obtain ⟨t, ht, hlayout⟩ := halloc (hok.1 hnull) (hused size rfl)
      subst hnull
      have ht' : generalPurposeRealloc fuel s.bytes s.allocator 0 size = some t := ht
      have herase : s.live.erase 0 = s.live :=
        List.erase_of_not_mem fun hmem => (h.fresh 0 hmem).ne_zero rfl
      refine ⟨_, congrArg (Option.map _) ht', ?_⟩
      simp only [or_self, herase]
      exact hlayout
    · obtain ⟨hptr, hmoves⟩ := hok.2 hnull
      obtain ⟨t, ht, hres⟩ := generalPurposeRealloc_spec h hptr
        (fun hle => ⟨(hmoves hle).1, hused size rfl, (hmoves hle).2⟩) hfuel
      refine ⟨_, congrArg (Option.map _) ht, ?_⟩
      rcases hres with ⟨-, rfl⟩ | ⟨-, rfl | hmoved⟩
      · exact ⟨F, by simpa using h⟩
      · exact ⟨F, by simpa using h⟩
      · simp only [if_neg (not_or.mpr ⟨hmoved.ne_zero, hmoved.ne_ptr⟩)]
        exact hmoved.layout
  | write address value =>
    obtain ⟨ptr, hptr, hlow, hhigh⟩ := hok
    refine ⟨_, rfl, F, (h.store hptr fun x hx => Function.update_of_ne ?_ ..).1⟩
    rintro rfl
    exact hx.elim (Nat.not_lt.mpr hlow) (Nat.not_le.mpr hhigh)

theorem layout_createBytes {bytes : Bytes} {buffer size : Nat} (hbuffer : buffer + size < 2 ^ 64) :
    Layout used [] (ByteState.create bytes buffer size).view fun _ => [] :=
  layout_create hbuffer

/-! ## The buffer stays -/

theorem SameBuffer.trans {a b c : GeneralPurposeAllocator} (h : SameBuffer a b)
    (h' : SameBuffer b c) : SameBuffer a c :=
  ⟨h'.1.trans h.1, h'.2.trans h.2⟩

theorem allocBytes_buffer {bytes : Bytes} {a : GeneralPurposeAllocator}
    {t : Nat × Bytes × GeneralPurposeAllocator} (h : allocBytes fuel bytes a size = some t) :
    SameBuffer a t.2.2 := by
  obtain ⟨u, hu, rfl⟩ := Option.map_eq_some_iff.mp h
  exact generalPurposeAlloc_buffer hu

theorem freeBytes_buffer {bytes : Bytes} {a : GeneralPurposeAllocator}
    {t : Bytes × GeneralPurposeAllocator} (h : freeBytes fuel bytes a ptr = some t) :
    SameBuffer a t.2 := by
  obtain ⟨u, hu, rfl⟩ := Option.map_eq_some_iff.mp h
  exact generalPurposeFree_buffer hu

theorem generalPurposeRealloc_buffer {bytes : Bytes} {a : GeneralPurposeAllocator}
    {t : Nat × Bytes × GeneralPurposeAllocator}
    (h : generalPurposeRealloc fuel bytes a ptr size = some t) : SameBuffer a t.2.2 := by
  unfold generalPurposeRealloc at h
  simp only at h
  split_ifs at h
  · exact allocBytes_buffer h
  · cases h
    exact ⟨rfl, rfl⟩
  · cases h
    exact ⟨rfl, rfl⟩
  · obtain ⟨u, hu, hrest⟩ := Option.bind_eq_some_iff.mp h
    have hbuffer := allocBytes_buffer hu
    split_ifs at hrest
    · obtain ⟨v, hv, rfl⟩ := Option.map_eq_some_iff.mp hrest
      exact hbuffer.trans (freeBytes_buffer hv)
    · cases hrest
      exact hbuffer

theorem byteStep_buffer {t : ByteState} {call : ByteCall} (h : byteStep fuel s call = some t) :
    SameBuffer s.allocator t.allocator := by
  cases call with
  | alloc size =>
    obtain ⟨r, hr, rfl⟩ := Option.map_eq_some_iff.mp h
    exact allocBytes_buffer hr
  | free ptr =>
    obtain ⟨r, hr, rfl⟩ := Option.map_eq_some_iff.mp h
    exact freeBytes_buffer hr
  | realloc ptr size =>
    obtain ⟨r, hr, rfl⟩ := Option.map_eq_some_iff.mp h
    exact generalPurposeRealloc_buffer hr
  | write address value =>
    cases h
    exact ⟨rfl, rfl⟩

end ScalBase.HeapAllocator
