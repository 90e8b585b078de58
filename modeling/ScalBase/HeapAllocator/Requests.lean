/-
  HeapAllocator/Requests.lean --- what a request for memory gets.

  `GeneralPurposeAlloc` grants at least the size asked for, inside the buffer, or
  refuses and changes nothing, where no sum or difference of the call wraps
  (`generalPurposeAlloc_rejects`).  `GeneralPurposeRealloc` compares the size with
  that of the whole block, header included, so it grants too little for a size less
  than a header below it (`grantsRoom_iff`).

  A request of bucketed size keeps the data of a block and fails cleanly in every
  run (`generalPurposeRealloc_keeps`).
-/
import ScalBase.HeapAllocator.Realloc

set_option autoImplicit false

namespace ScalBase.HeapAllocator

open ScalBase.Foundation

variable {used : ListName → Prop} {s t : ByteState} {F : Nodes} {fuel ptr size buffer total : Nat}
  {bytes : Bytes}

/-! ## The size of a block -/

/-- A rounded size has room for the request and its header. -/
theorem le_roundedSize (hword : size + sizeofMemNode < 2 ^ 64)
    (hbucket : requestSize size ≤ generalPurposeMax → (bucketOf (roundedSize size)).isSome) :
    size + sizeofMemNode ≤ roundedSize size := by
  by_cases hlarge : requestSize size > generalPurposeMax
  · have hround : roundedSize size = requestSize size := if_pos hlarge
    rw [hround]
    rcases requestSize_cases hword with ⟨-, -, hle, -⟩ | ⟨-, hzero⟩
    · exact hle
    · rw [hzero] at hlarge
      exact absurd hlarge (Nat.not_lt_zero _)
  · have hsmall := Nat.not_lt.mp hlarge
    have hsome := hbucket hsmall
    obtain ⟨k, hk, ⟨-, hle, -⟩ | ⟨hzero, -⟩⟩ := roundedSize_cases hword hsmall
    · rw [hk]
      exact hle
    · rw [hk, hzero] at hsome
      exact absurd hsome (by decide)

/-- What a request is answered: the pointer, memory and the allocator. -/
def ByteCall.reply (fuel : Nat) (s : ByteState) :
    ByteCall → Option (Nat × Bytes × GeneralPurposeAllocator)
  | .alloc size => allocBytes fuel s.bytes s.allocator size
  | .realloc ptr size => generalPurposeRealloc fuel s.bytes s.allocator ptr size
  | _ => none

/-- A pointer that a request is answered with has a block of its size in front. -/
def GrantsRoom (fuel : Nat) (s : ByteState) (call : ByteCall) : Prop :=
  ∀ size ∈ call.request, size + sizeofMemNode < 2 ^ 64 → ∀ t ∈ call.reply fuel s, t.1 ≠ 0 →
    size + sizeofMemNode ≤ (headers t.2.1 (header t.1)).size

instance (fuel : Nat) (s : ByteState) (call : ByteCall) : Decidable (GrantsRoom fuel s call) :=
  inferInstanceAs (Decidable (∀ size ∈ call.request, _ → ∀ t ∈ call.reply fuel s, _))

/-- A block stays in place only when its memory has room for the new size. -/
def StaysWithRoom (s : ByteState) : ByteCall → Prop
  | .realloc ptr size =>
      ptr ≠ 0 → size + sizeofMemNode < 2 ^ 64 → size < s.blockSize ptr →
        size + sizeofMemNode ≤ s.blockSize ptr
  | _ => True

instance (s : ByteState) : ∀ call, Decidable (StaysWithRoom s call)
  | .alloc _ => isTrue trivial
  | .free _ => isTrue trivial
  | .realloc _ _ => inferInstanceAs (Decidable (_ → _ → _ → _))
  | .write _ _ => isTrue trivial

/-- An allocation that does not return null is granted. -/
theorem allocBytes_granted (h : Layout used [] s.view F) (hr : Servable fuel s.view size)
    (hused : used (requestList size)) (hfuel : 2 ^ 64 ≤ fuel)
    {t : Nat × Bytes × GeneralPurposeAllocator}
    (ht : allocBytes fuel s.bytes s.allocator size = some t) (hne : t.1 ≠ 0) :
    Granted used s size t := by
  obtain ⟨t', ht', hres⟩ := allocBytes_spec h hr hused hfuel
  have heq : some t' = some t := ht'.symm.trans ht
  cases heq
  rcases hres with rfl | hgranted
  · exact absurd rfl hne
  · exact hgranted

theorem allocBytes_room (h : Layout used [] s.view F) (hr : Servable fuel s.view size)
    (hused : used (requestList size)) (hfuel : 2 ^ 64 ≤ fuel) :
    GrantsRoom fuel s (.alloc size) := by
  intro size' hsize' hword t ht hne
  cases hsize'
  have hgranted := allocBytes_granted h hr hused hfuel ht hne
  exact (le_roundedSize hword hr.bucket).trans hgranted.size_le

/-- One call grants room exactly when no block stays in place without. -/
theorem grantsRoom_call_iff (h : Layout used [] s.view F) {call : ByteCall}
    (hok : Valid fuel s call)
    (hused : ∀ size ∈ call.request, used (requestList size)) (hfuel : 2 ^ 64 ≤ fuel) :
    GrantsRoom fuel s call ↔ StaysWithRoom s call := by
  cases call with
  | alloc size => exact iff_of_true (allocBytes_room h hok (hused size rfl) hfuel) trivial
  | free ptr => exact iff_of_true (fun _ hsize => by cases hsize) trivial
  | write address value => exact iff_of_true (fun _ hsize => by cases hsize) trivial
  | realloc ptr size =>
    by_cases hnull : ptr = 0
    · subst hnull
      exact iff_of_true (allocBytes_room h (hok.1 rfl) (hused size rfl) hfuel)
        fun hne => absurd rfl hne
    · obtain ⟨hptr, hmoves⟩ := hok.2 hnull
      obtain ⟨t, ht, hres⟩ := generalPurposeRealloc_spec h hptr
        (fun hle => ⟨(hmoves hle).1, hused size rfl, (hmoves hle).2⟩) hfuel
      have hroom : GrantsRoom fuel s (.realloc ptr size) ↔ (size + sizeofMemNode < 2 ^ 64 →
          t.1 ≠ 0 → size + sizeofMemNode ≤ (headers t.2.1 (header t.1)).size) := by
        constructor
        · exact fun hgrants hword => hgrants size rfl hword t ht
        · intro hroom size' hsize' hword t' ht'
          cases hsize'
          have heq : some t = some t' := ht.symm.trans ht'
          cases heq
          exact hroom hword
      rw [hroom]
      rcases hres with ⟨hplace, rfl⟩ | ⟨hle, hres⟩
      · exact ⟨fun hgrants _ hword _ => hgrants hword hnull, fun hstays hword _ =>
          hstays hnull hword hplace⟩
      · refine iff_of_true (fun hword hne => ?_) fun _ _ hplace =>
          absurd hplace (Nat.not_lt.mpr hle)
        rcases hres with rfl | hmoved
        · exact absurd rfl hne
        · exact (le_roundedSize hword (hmoves hle).1.bucket).trans hmoved.size_le

/-- In every run, the requests are granted room exactly when no block stays in place
without. -/
theorem grantsRoom_iff (hbuffer : buffer + total < 2 ^ 64) (hfuel : 2 ^ 64 ≤ fuel)
    {calls : List ByteCall}
    (hok : AtEach (byteStep fuel) (Valid fuel) (ByteState.create bytes buffer total) calls) :
    AtEach (byteStep fuel) (GrantsRoom fuel) (ByteState.create bytes buffer total) calls ↔
      AtEach (byteStep fuel) StaysWithRoom (ByteState.create bytes buffer total) calls :=
  atEach_iff (fun s => ∃ F, Layout (fun _ => True) [] s.view F)
    (fun _ _ ⟨_, h⟩ hcall _ => byteStep_layout h hcall (fun _ _ => trivial) hfuel)
    (fun _ _ ⟨_, h⟩ hcall => grantsRoom_call_iff h hcall (fun _ _ => trivial) hfuel)
    ⟨_, layout_createBytes hbuffer⟩ hok

/-- Bytes before any store. -/
def zeroBytes : Bytes := fun _ => 0

/-- A block stays in place for 400 bytes, and the memory is not there for more than the
buffer. -/
theorem grantsRoom_two :
    AtEach (byteStep (2 ^ 64)) (GrantsRoom (2 ^ 64)) (ByteState.create zeroBytes (2 ^ 24) (2 ^ 20))
      [.alloc 100, .realloc 17825304 400, .realloc 17825304 1048576] :=
  (grantsRoom_iff (by decide) (Nat.le_refl _) (by decide +kernel)).mpr (by decide +kernel)

/-- A block of 512 bytes stays in place for 500, with 488 behind its header. -/
theorem stays_without_room :
    AtEach (byteStep (2 ^ 64)) (Valid (2 ^ 64)) (ByteState.create zeroBytes (2 ^ 24) (2 ^ 20))
        [.alloc 100, .realloc 17825304 500] ∧
      ¬ AtEach (byteStep (2 ^ 64)) (GrantsRoom (2 ^ 64))
        (ByteState.create zeroBytes (2 ^ 24) (2 ^ 20)) [.alloc 100, .realloc 17825304 500] := by
  exact ⟨by decide +kernel, by decide +kernel⟩

/-! ## Requests that cannot be served -/

/-- `GeneralPurposeAlloc` returns null and changes nothing, or returns a pointer to memory
of the size asked for inside the buffer. -/
def Rejects (fuel : Nat) (s : ByteState) : ByteCall → Prop
  | .alloc size => ∃ t ∈ allocBytes fuel s.bytes s.allocator size,
      t = (0, s.bytes, s.allocator) ∨ t.1 ≠ 0 ∧ s.allocator.mem ≤ t.1 ∧
        t.1 + size ≤ s.allocator.mem + s.allocator.size
  | _ => True

/-- The sum of a size that is allocated and its header does not wrap. -/
def Unwrapped : ByteCall → Prop
  | .alloc size => size + sizeofMemNode < 2 ^ 64
  | _ => True

instance : DecidablePred Unwrapped
  | .alloc size => inferInstanceAs (Decidable (size + sizeofMemNode < 2 ^ 64))
  | .free _ => isTrue trivial
  | .realloc _ _ => isTrue trivial
  | .write _ _ => isTrue trivial

theorem allocBytes_rejects (h : Layout used [] s.view F) (hr : Servable fuel s.view size)
    (hused : used (requestList size)) (hword : size + sizeofMemNode < 2 ^ 64)
    (hfuel : 2 ^ 64 ≤ fuel) : Rejects fuel s (.alloc size) := by
  obtain ⟨t, ht, hres⟩ := allocBytes_spec h hr hused hfuel
  refine ⟨t, ht, hres.imp id fun hgranted => ⟨hgranted.ne_zero, ?_⟩⟩
  obtain ⟨F', hlayout⟩ := hgranted.layout
  have hself : t.1 ∈ t.1 :: s.live := List.mem_cons_self ..
  have hbuffer := allocBytes_buffer ht
  have hinside := hlayout.disjoint.inside t.1 hself
  have hroom := (le_roundedSize hword hr.bucket).trans hgranted.size_le
  have hheader := hlayout.live_header hself
  have hmem : (ByteState.view ⟨t.2.1, t.2.2, t.1 :: s.live⟩).allocator.mem = s.allocator.mem :=
    hbuffer.1
  have hsize : (ByteState.view ⟨t.2.1, t.2.2, t.1 :: s.live⟩).allocator.size = s.allocator.size :=
    hbuffer.2
  have hblock : (ByteState.view ⟨t.2.1, t.2.2, t.1 :: s.live⟩).block t.1 =
      ⟨header t.1, (headers t.2.1 (header t.1)).size⟩ := rfl
  rw [hmem, hsize, hblock] at hinside
  simp only at hinside
  omega

/-- In every run whose calls are valid and whose allocations do not wrap, the calls
return, and every allocation is inside the buffer or refused. -/
theorem generalPurposeAlloc_rejects (hbuffer : buffer + total < 2 ^ 64) (hfuel : 2 ^ 64 ≤ fuel)
    {calls : List ByteCall}
    (hok : AtEach (byteStep fuel) (fun s call => Valid fuel s call ∧ Unwrapped call)
      (ByteState.create bytes buffer total) calls) :
    (∃ s, exec (byteStep fuel) (ByteState.create bytes buffer total) calls = some s) ∧
      AtEach (byteStep fuel) (Rejects fuel) (ByteState.create bytes buffer total) calls := by
  let I : ByteState → Prop := fun s => ∃ F, Layout (fun _ => True) [] s.view F
  have hstart : I (ByteState.create bytes buffer total) := ⟨_, layout_createBytes hbuffer⟩
  have hkeep : ∀ s call, I s → Valid fuel s call ∧ Unwrapped call →
      ∃ t, byteStep fuel s call = some t ∧ I t := fun s call ⟨F, h⟩ hcall =>
    byteStep_layout h hcall.1 (fun _ _ => trivial) hfuel
  have hreject : ∀ s call, I s → Valid fuel s call ∧ Unwrapped call → Rejects fuel s call := by
    rintro s call ⟨F, h⟩ ⟨hvalid, hword⟩
    cases call with
    | alloc size => exact allocBytes_rejects h hvalid trivial hword hfuel
    | free ptr => trivial
    | realloc ptr size => trivial
    | write address value => trivial
  obtain ⟨s, hs, -⟩ := hok.exec_invariant I hkeep hstart
  exact ⟨⟨s, hs⟩, hok.imp I hkeep hreject hstart⟩

/-- A block, a request that is larger than the buffer, and the memory of the block again. -/
theorem generalPurposeAlloc_rejects_large :
    (∃ s, exec (byteStep (2 ^ 64)) (ByteState.create zeroBytes (2 ^ 32) (2 ^ 20))
        [.alloc 100, .free 4296015384, .alloc (2 ^ 26), .alloc 8] = some s) ∧
      AtEach (byteStep (2 ^ 64)) (Rejects (2 ^ 64)) (ByteState.create zeroBytes (2 ^ 32) (2 ^ 20))
        [.alloc 100, .free 4296015384, .alloc (2 ^ 26), .alloc 8] :=
  generalPurposeAlloc_rejects (by decide) (Nat.le_refl _) (by decide +kernel)

/-- The sum of the largest word and the header wraps to 23, for which a block of 512 bytes
is handed out; for a size of 600 less the difference from `Offset` wraps. -/
theorem largest_word_granted :
    ¬ Rejects (2 ^ 64) (ByteState.create zeroBytes (2 ^ 32) (2 ^ 20)) (.alloc (2 ^ 64 - 1)) ∧
      ¬ Rejects (2 ^ 64) (ByteState.create zeroBytes (2 ^ 32) (2 ^ 20))
        (.alloc (2 ^ 64 - 600)) := by
  have hptr : ∀ {size ptr : Nat}, ptr ≠ 0 → 2 ^ 32 + 2 ^ 20 < ptr + size →
      (allocBytes (2 ^ 64) zeroBytes (generalPurposeCreate (2 ^ 32) (2 ^ 20)) size).map Prod.fst =
        some ptr →
      ¬ Rejects (2 ^ 64) (ByteState.create zeroBytes (2 ^ 32) (2 ^ 20)) (.alloc size) := by
    rintro size ptr hne hout hreply ⟨t, ht, hres⟩
    have ht' : allocBytes (2 ^ 64) zeroBytes (generalPurposeCreate (2 ^ 32) (2 ^ 20)) size =
        some t :=
      ht
    rw [ht', Option.map_some, Option.some.injEq] at hreply
    subst hreply
    rcases hres with rfl | ⟨-, -, hinside⟩
    · exact hne rfl
    · exact absurd hinside (Nat.not_le.mpr hout)
  exact ⟨@hptr _ 4296015384 (by decide) (by decide) (by decide +kernel),
    @hptr _ 4296016408 (by decide) (by decide) (by decide +kernel)⟩

/-! ## Bucketed requests -/

/-- Requests are rounded to at most `2 ^ 23` bytes, pointers given are live, and stores go
to live memory. -/
def BucketedBytes (s : ByteState) : ByteCall → Prop
  | .alloc size => Bucketed s.view (.alloc size)
  | .free ptr => ptr ∈ s.live
  | .realloc ptr size => (ptr ≠ 0 → ptr ∈ s.live) ∧ Bucketed s.view (.alloc size)
  | .write address _ => ∃ ptr ∈ s.live, ptr ≤ address ∧ address < header ptr + s.blockSize ptr

instance (s : ByteState) : ∀ call, Decidable (BucketedBytes s call)
  | .alloc size => inferInstanceAs (Decidable (Bucketed s.view (.alloc size)))
  | .free ptr => inferInstanceAs (Decidable (ptr ∈ s.live))
  | .realloc _ _ => inferInstanceAs (Decidable (_ ∧ _))
  | .write _ _ => inferInstanceAs (Decidable (∃ ptr ∈ s.live, _ ∧ _))

theorem Layout.bucketed_servable (h : Layout IsBucket [] s.view F) (hmem : 2 ^ 23 ≤ s.allocator.mem)
    (hsize : Bucketed s.view (.alloc size)) :
    Servable fuel s.view size ∧ IsBucket (requestList size) := by
  obtain ⟨hr, hused⟩ := Bucketed.request h hmem hsize
  exact ⟨hr.servable, hused⟩

/-- A bucketed block is moved without a free into `Large`. -/
theorem Layout.movesCleanly (h : Layout IsBucket [] s.view F) (hmem : 2 ^ 23 ≤ s.allocator.mem)
    (hptr : ptr ∈ s.live) (hsize : Bucketed s.view (.alloc size)) (hfuel : 2 ^ 64 ≤ fuel) :
    MovesCleanly fuel s ptr size := by
  intro t ht hne
  obtain ⟨hr, hused⟩ := h.bucketed_servable hmem hsize
  obtain ⟨⟨F', hlayout⟩, -, -, -⟩ := (allocBytes_granted h hr hused hfuel ht hne).copied h hptr
  exact hlayout.forgetsNoPrev (List.mem_cons_of_mem _ hptr)

/-- A bucketed call is valid. -/
theorem Layout.bucketed_valid (h : Layout IsBucket [] s.view F) (hmem : 2 ^ 23 ≤ s.allocator.mem)
    (hfuel : 2 ^ 64 ≤ fuel) {call : ByteCall} (hb : BucketedBytes s call) :
    Valid fuel s call ∧ ∀ size ∈ call.request, IsBucket (requestList size) := by
  cases call with
  | alloc size =>
    obtain ⟨hr, hused⟩ := h.bucketed_servable hmem hb
    exact ⟨hr, fun size' hsize' => by cases hsize'; exact hused⟩
  | free ptr =>
    have hptr : ptr ∈ s.view.live := hb
    exact ⟨⟨hptr, h.forgetsNoPrev hptr⟩, fun _ hsize => by cases hsize⟩
  | realloc ptr size =>
    obtain ⟨hr, hused⟩ := @Layout.bucketed_servable s F fuel size h hmem hb.2
    refine ⟨⟨fun _ => hr, fun hne => ⟨hb.1 hne, fun _ => ⟨hr, ?_⟩⟩⟩,
      fun size' hsize' => by cases hsize'; exact hused⟩
    exact h.movesCleanly hmem (hb.1 hne) hb.2 hfuel
  | write address value => exact ⟨hb, fun _ hsize => by cases hsize⟩

/-- What `GeneralPurposeRealloc` of a live pointer keeps: everything when it returns null,
else the bytes of the block as far as the old and the new size reach, and the memory of
the other live blocks. -/
structure KeepsData (fuel : Nat) (s : ByteState) (ptr size : Nat)
    (t : Nat × Bytes × GeneralPurposeAllocator) : Prop where
  null : t.1 = 0 → t.2 = (s.bytes, s.allocator) ∧ byteStep fuel s (.realloc ptr size) = some s
  data : t.1 ≠ 0 → ∀ i < min size (s.blockSize ptr - sizeofMemNode),
    t.2.1 (t.1 + i) = s.bytes (ptr + i)
  others : t.1 ≠ 0 → ∀ p ∈ s.live, p ≠ ptr → ∀ i < s.blockSize p - sizeofMemNode,
    t.2.1 (p + i) = s.bytes (p + i)

/-- One call on a state of bucketed blocks. -/
theorem Layout.keepsData (h : Layout IsBucket [] s.view F) (hmem : 2 ^ 23 ≤ s.allocator.mem)
    (hptr : ptr ∈ s.live) (hsize : Bucketed s.view (.alloc size))
    (hword : size + sizeofMemNode < 2 ^ 64) (hfuel : 2 ^ 64 ≤ fuel) :
    ∃ t, generalPurposeRealloc fuel s.bytes s.allocator ptr size = some t ∧
      KeepsData fuel s ptr size t := by
  obtain ⟨hr, hused⟩ := @Layout.bucketed_servable s F fuel size h hmem hsize
  have hheader := h.live_header hptr
  obtain ⟨t, ht, hres⟩ := generalPurposeRealloc_spec h hptr
    (fun _ => ⟨hr, hused, h.movesCleanly hmem hptr hsize hfuel⟩) hfuel
  refine ⟨t, ht, fun hnull => ?_, fun hne i hi => ?_, fun hne p hp hother i hi => ?_⟩
  · have hnull' : t = (0, s.bytes, s.allocator) := by
      rcases hres with ⟨-, rfl⟩ | ⟨-, rfl | hmoved⟩
      · exact absurd hnull (by unfold sizeofMemNode at hheader; omega)
      · rfl
      · exact absurd hnull hmoved.ne_zero
    subst hnull'
    refine ⟨rfl, ?_⟩
    rw [byteStep, ht, Option.map_some, if_pos (Or.inl rfl)]
  · rw [Nat.lt_min, ByteState.blockSize] at hi
    rcases hres with ⟨-, rfl⟩ | ⟨-, rfl | hmoved⟩
    · rfl
    · exact absurd rfl hne
    · have hroom := (le_roundedSize hword hr.bucket).trans hmoved.size_le
      exact hmoved.bytes_eq i (Nat.add_lt_of_lt_sub hi.2)
        (Nat.lt_of_lt_of_le (Nat.add_lt_add_right hi.1 _) hroom)
  · rcases hres with ⟨-, rfl⟩ | ⟨-, rfl | hmoved⟩
    · rfl
    · exact absurd rfl hne
    · have hp' := h.live_header hp
      rw [ByteState.blockSize] at hi
      exact hmoved.kept p ((List.mem_erase_of_ne hother).mpr hp) (p + i)
        ((Nat.sub_le _ _).trans (Nat.le_add_right _ _)) (by omega)

/-- In every run of bucketed requests, `GeneralPurposeRealloc` of a live pointer returns
and keeps the data. -/
theorem generalPurposeRealloc_keeps (hbuffer : 2 ^ 23 ≤ buffer) (htotal : sizeofMemNode < total)
    (htop : buffer + total < 2 ^ 64) (hfuel : 2 ^ 64 ≤ fuel) {calls : List ByteCall}
    (hok : AtEach (byteStep fuel) BucketedBytes (ByteState.create bytes buffer total) calls) :
    ∃ s, exec (byteStep fuel) (ByteState.create bytes buffer total) calls = some s ∧
      ∀ ptr ∈ s.live, ∀ size, Bucketed s.view (.alloc size) → size + sizeofMemNode < 2 ^ 64 →
        ∃ t, generalPurposeRealloc fuel s.bytes s.allocator ptr size = some t ∧
          KeepsData fuel s ptr size t := by
  let I : ByteState → Prop := fun s =>
    (∃ F, Layout IsBucket [] s.view F) ∧ s.allocator.mem = buffer
  have hstart : I (ByteState.create bytes buffer total) := by
    refine ⟨⟨_, layout_createBytes htop⟩, ?_⟩
    rw [ByteState.create, generalPurposeCreate, if_neg (by unfold sizeofMemNode at *; omega)]
  have hkeep : ∀ s call, I s → BucketedBytes s call → ∃ t, byteStep fuel s call = some t ∧ I t := by
    rintro s call ⟨⟨F, h⟩, hmem⟩ hb
    obtain ⟨hvalid, hused⟩ := h.bucketed_valid (hmem ▸ hbuffer) hfuel hb
    obtain ⟨t, ht, hlayout⟩ := byteStep_layout h hvalid hused hfuel
    exact ⟨t, ht, hlayout, (byteStep_buffer ht).1.trans hmem⟩
  obtain ⟨s, hs, ⟨F, h⟩, hmem⟩ := hok.exec_invariant I hkeep hstart
  exact ⟨s, hs, fun ptr hptr size hsize hword =>
    h.keepsData (hmem ▸ hbuffer) hptr hsize hword hfuel⟩

/-- A block with a byte stored in it, asked for again in place, beside a second block; then
it is asked for with a size that moves it. -/
theorem generalPurposeRealloc_keeps_two :
    ∃ s, exec (byteStep (2 ^ 64)) (ByteState.create zeroBytes (2 ^ 24) (2 ^ 20))
        [.alloc 100, .write 17825304 7, .realloc 17825304 300, .alloc 1000] = some s ∧
      ∃ t, generalPurposeRealloc (2 ^ 64) s.bytes s.allocator 17825304 2000 = some t ∧
        KeepsData (2 ^ 64) s 17825304 2000 t := by
  have hlive : ∀ s ∈ exec (byteStep (2 ^ 64)) (ByteState.create zeroBytes (2 ^ 24) (2 ^ 20))
      [.alloc 100, .write 17825304 7, .realloc 17825304 300, .alloc 1000], 17825304 ∈ s.live := by
    decide +kernel
  obtain ⟨s, hs, hkeeps⟩ := @generalPurposeRealloc_keeps (2 ^ 64) (2 ^ 24) (2 ^ 20) zeroBytes
    (by decide) (by decide) (by decide) (Nat.le_refl _)
    [.alloc 100, .write 17825304 7, .realloc 17825304 300, .alloc 1000] (by decide +kernel)
  exact ⟨s, hs, hkeeps 17825304 (hlive s hs) 2000 ⟨by decide, by decide⟩ (by decide)⟩

end ScalBase.HeapAllocator
