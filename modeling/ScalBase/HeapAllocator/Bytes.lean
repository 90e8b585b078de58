/-
  HeapAllocator/Bytes.lean --- the allocator in a memory of bytes.

  Headers and the memory that is handed out lie in the same bytes.  A call of the
  allocator reads the headers there and stores those it changes, so a store into a
  block and a store into a header are seen by each other.

  `generalPurposeAlloc` and `generalPurposeFree` are those of the headers; in every
  state with a layout the headers read back are the ones they leave, and the bytes
  of live blocks stay (`allocBytes_spec`, `freeBytes_spec`).
-/
import ScalBase.HeapAllocator.Calls
import ScalBase.Foundation.Records

set_option autoImplicit false

namespace ScalBase.HeapAllocator

open ScalBase.Foundation

/-! ## Headers -/

abbrev Bytes := Nat → UInt8

/-- `MemNode` in memory: `Size`, `Next` and `Prev`, eight bytes each. -/
def memNodeCodec : Codec MemNode where
  width := sizeofMemNode
  encode node i :=
    if i < 8 then byte node.size i
    else if i < 16 then byte node.next (i - 8)
    else byte node.prev (i - 16)
  decode f := ⟨word f 8, word (fun i => f (8 + i)) 8, word (fun i => f (16 + i)) 8⟩
  decode_congr h := by
    rw [word_congr 8 fun i hi => h i (Nat.lt_trans hi (by decide)),
      word_congr 8 fun i hi => h (8 + i) (Nat.lt_trans (Nat.add_lt_add_left hi 8) (by decide)),
      word_congr 8 fun i hi => h (16 + i) (Nat.add_lt_add_left hi 16)]

/-- The headers in the bytes. -/
def headers (bytes : Bytes) : Memory := memNodeCodec.read bytes

/-- Store the headers that have changed. -/
def storeHeaders (bytes : Bytes) (memory : Memory) : Bytes := memNodeCodec.lay bytes memory

/-- A header of words is stored as it is. -/
theorem memNode_storable {node : MemNode} (hsize : node.size < 2 ^ 64) (hnext : node.next < 2 ^ 64)
    (hprev : node.prev < 2 ^ 64) : memNodeCodec.Storable node := by
  have hword : ∀ {v : Nat}, v < 2 ^ 64 → word (byte v) 8 = v := by
    intro v hv
    rw [word_byte, Nat.mod_eq_of_lt (by simpa using hv)]
  have h0 : word (memNodeCodec.encode node) 8 = node.size := by
    rw [← hword hsize]
    exact word_congr 8 fun i hi => if_pos hi
  have h8 : word (fun i => memNodeCodec.encode node (8 + i)) 8 = node.next := by
    rw [← hword hnext]
    refine word_congr 8 fun i hi => ?_
    show (if 8 + i < 8 then _ else if 8 + i < 16 then byte node.next (8 + i - 8) else _) = _
    rw [if_neg (by omega), if_pos (by omega), Nat.add_sub_cancel_left]
  have h16 : word (fun i => memNodeCodec.encode node (16 + i)) 8 = node.prev := by
    rw [← hword hprev]
    refine word_congr 8 fun i hi => ?_
    show (if 16 + i < 8 then _ else if 16 + i < 16 then _ else byte node.prev (16 + i - 16)) = _
    rw [if_neg (by omega), if_neg (by omega), Nat.add_sub_cancel_left]
  show (⟨word (memNodeCodec.encode node) 8, _, _⟩ : MemNode) = node
  rw [h0, h8, h16]

/-! ## The calls -/

/-- `GeneralPurposeAlloc`. -/
def allocBytes (fuel : Nat) (bytes : Bytes) (a : GeneralPurposeAllocator) (size : Nat) :
    Option (Nat × Bytes × GeneralPurposeAllocator) :=
  (generalPurposeAlloc fuel (headers bytes) a size).map fun t =>
    (t.1, storeHeaders bytes t.2.1, t.2.2)

/-- `GeneralPurposeFree`. -/
def freeBytes (fuel : Nat) (bytes : Bytes) (a : GeneralPurposeAllocator) (ptr : Nat) :
    Option (Bytes × GeneralPurposeAllocator) :=
  (generalPurposeFree fuel (headers bytes) a ptr).map fun t => (storeHeaders bytes t.1, t.2)

/-- `SMemMove`. -/
def sMemMove (bytes : Bytes) (dst src size : Nat) : Bytes := fun x =>
  if dst ≤ x ∧ x < dst + size then bytes (src + (x - dst)) else bytes x

/-- The copy of `GeneralPurposeRealloc`, as much as the smaller of the two blocks holds. -/
def copyBlock (bytes : Bytes) (block ptr resizedBlock : Nat) : Bytes :=
  let node := headers bytes block
  let resized := headers bytes (sub64 resizedBlock sizeofMemNode)
  sMemMove bytes resizedBlock ptr
    (if node.size > resized.size then sub64 resized.size sizeofMemNode
      else sub64 node.size sizeofMemNode)

/-- `GeneralPurposeRealloc`. -/
def generalPurposeRealloc (fuel : Nat) (bytes : Bytes) (a : GeneralPurposeAllocator)
    (ptr size : Nat) : Option (Nat × Bytes × GeneralPurposeAllocator) :=
  if ptr = 0 then allocBytes fuel bytes a size
  else
    let block := sub64 ptr sizeofMemNode
    if block < a.offset ∨ sub64 block a.mem > a.size then some (0, bytes, a)
    else if size < (headers bytes block).size then some (ptr, bytes, a)
    else
      (allocBytes fuel bytes a size).bind fun t =>
        if t.1 ≠ 0 then
          (freeBytes fuel (copyBlock t.2.1 block ptr t.1) t.2.2 ptr).map fun u => (t.1, u.1, u.2)
        else some (0, t.2.1, t.2.2)

/-- The allocator, the bytes of memory, and the pointers handed out and not freed since. -/
structure ByteState where
  bytes : Bytes
  allocator : GeneralPurposeAllocator
  live : List Nat

/-- The state of the headers. -/
def ByteState.view (s : ByteState) : State := ⟨headers s.bytes, s.allocator, s.live⟩

/-- A call, or a store of a byte by the program that uses the memory. -/
inductive ByteCall where
  | alloc (size : Nat)
  | free (ptr : Nat)
  | realloc (ptr size : Nat)
  | write (address : Nat) (value : UInt8)
  deriving DecidableEq, Repr

/-- The effect of a call. -/
def byteStep (fuel : Nat) (s : ByteState) : ByteCall → Option ByteState
  | .alloc size =>
      (allocBytes fuel s.bytes s.allocator size).map fun t =>
        ⟨t.2.1, t.2.2, if t.1 = 0 then s.live else t.1 :: s.live⟩
  | .free ptr =>
      (freeBytes fuel s.bytes s.allocator ptr).map fun t => ⟨t.1, t.2, s.live.erase ptr⟩
  | .realloc ptr size =>
      (generalPurposeRealloc fuel s.bytes s.allocator ptr size).map fun t =>
        ⟨t.2.1, t.2.2, if t.1 = 0 ∨ t.1 = ptr then s.live else t.1 :: s.live.erase ptr⟩
  | .write address value => some { s with bytes := Function.update s.bytes address value }

/-- A new allocator with nothing handed out. -/
def ByteState.create (bytes : Bytes) (buffer size : Nat) : ByteState :=
  ⟨bytes, generalPurposeCreate buffer size, []⟩

/-! ## Blocks in the bytes -/

/-- The bytes of a block are as they were, those of its header among them. -/
def Kept (bytes bytes' : Bytes) (ptr : Nat) : Prop :=
  ∀ x, header ptr ≤ x → x < header ptr + (headers bytes (header ptr)).size → bytes' x = bytes x

theorem Kept.header_eq {bytes bytes' : Bytes} {ptr : Nat} (h : Kept bytes bytes' ptr)
    (hsize : sizeofMemNode ≤ (headers bytes (header ptr)).size) :
    headers bytes' (header ptr) = headers bytes (header ptr) :=
  memNodeCodec.read_congr fun x hx hlt =>
    h x hx (Nat.lt_of_lt_of_le hlt (Nat.add_le_add_left hsize _))

theorem Kept.trans {bytes bytes' bytes'' : Bytes} {ptr : Nat} (h : Kept bytes bytes' ptr)
    (hsize : sizeofMemNode ≤ (headers bytes (header ptr)).size) (h' : Kept bytes' bytes'' ptr) :
    Kept bytes bytes'' ptr := by
  intro x hx hlt
  have hlt' : x < header ptr + (headers bytes' (header ptr)).size := by rwa [h.header_eq hsize]
  exact (h' x hx hlt').trans (h x hx hlt)

/-- The headers that a call on the block `x` may change. -/
def Handled (x : Nat) (F : Nodes) (z : Nat) : Prop := z = x ∨ ∃ l, z ∈ F l

namespace Layout

variable {used : ListName → Prop} {s : State} {F : Nodes} {x z ptr : Nat}

theorem handled_block (h : Layout used [x] s F) (hz : Handled x F z) :
    blockAt s.memory z ∈ blocks s.memory [x] + (s.liveBlocks + freeBlocks s.memory F) := by
  rcases hz with rfl | ⟨l, hz⟩
  · exact Multiset.mem_add.mpr (Or.inl (blockAt_mem_blocks (List.mem_singleton_self z)))
  · exact Multiset.mem_add.mpr (Or.inr (Multiset.mem_add.mpr (Or.inr (mem_freeBlocks hz))))

theorem handled_size (h : Layout used [x] s F) (hx : sizeofMemNode ≤ (s.memory x).size)
    (hz : Handled x F z) : sizeofMemNode ≤ (s.memory z).size := by
  rcases hz with rfl | ⟨l, hz⟩
  · exact hx
  · exact Nat.le_trans (by decide) (h.list_fits l z hz).le

/-- The headers that a call may change do not overlap. -/
theorem handled_spaced (h : Layout used [x] s F) (hx : sizeofMemNode ≤ (s.memory x).size) :
    Spaced sizeofMemNode (Handled x F) := by
  intro z w hz hw hne
  have hapart := h.tiles.apart (h.handled_block hz) (h.handled_block hw)
    fun heq => hne (congrArg Block.start heq)
  have hz' := h.handled_size hx hz
  have hw' := h.handled_size hx hw
  simp only [Block.Apart, blockAt] at hapart
  omega

/-- Their blocks are apart from the live ones. -/
theorem handled_apart (h : Layout used [x] s F) (hptr : ptr ∈ s.live) (hz : Handled x F z) :
    (blockAt s.memory (header ptr)).Apart (blockAt s.memory z) := by
  have hne : header ptr ≠ z := by
    rcases hz with rfl | ⟨l, hz⟩
    · exact (h.live_ne hptr).1 z (List.mem_singleton_self z)
    · exact (h.live_ne hptr).2 l z hz
  exact h.tiles.apart
    (Multiset.mem_add.mpr (Or.inr (Multiset.mem_add.mpr (Or.inl (mem_liveBlocks hptr)))))
    (h.handled_block hz) fun heq => hne (congrArg Block.start heq)

theorem handled_outside (h : Layout used [x] s F) (hx : sizeofMemNode ≤ (s.memory x).size)
    (hptr : ptr ∈ s.live) (hz : Handled x F z) :
    header ptr + (s.memory (header ptr)).size ≤ z ∨ z + sizeofMemNode ≤ header ptr := by
  have hapart := h.handled_apart hptr hz
  have hz' := h.handled_size hx hz
  simp only [Block.Apart, blockAt] at hapart
  omega

/-- Headers of a layout are made of words. -/
theorem storable (h : Layout used [] s F) (hx : (∃ ptr ∈ s.live, header ptr = x) ∨ ∃ l, x ∈ F l) :
    memNodeCodec.Storable (s.memory x) := by
  have htop := h.top_lt
  have hnode : ∀ {l y}, y ∈ F l → y < 2 ^ 64 ∧ (s.memory y).size < 2 ^ 64 := by
    intro l y hy
    have hbounds := h.tiles.bounds
      (Multiset.mem_add.mpr (Or.inr (Multiset.mem_add.mpr (Or.inr (mem_freeBlocks hy)))))
    simp only [blockAt] at hbounds
    omega
  rcases hx with ⟨ptr, hptr, rfl⟩ | ⟨l, hx⟩
  · have hend := h.live_end hptr
    obtain ⟨-, hnext, hprev⟩ := h.fresh ptr hptr
    exact memNode_storable (by omega) (by omega) (by omega)
  · -- The links of a node lead to nodes of its list or are null.
    obtain ⟨xs, ys, hns⟩ := List.append_of_mem hx
    have hlist := h.lists l
    rw [hns] at hlist
    have hin : ∀ {y}, y = 0 ∨ y ∈ F l → y < 2 ^ 64 := by
      rintro y (rfl | hy)
      · decide
      · exact (hnode hy).1
    refine memNode_storable (hnode hx).2 (hin ?_) (hin ?_)
    · rw [hlist.next_eq]
      refine (headD_mem_or ys).imp id fun hy => ?_
      rw [hns]
      exact List.mem_append_right _ (List.mem_cons_of_mem x hy)
    · rw [hlist.prev_eq]
      refine (lastD_mem_or xs).imp id fun hy => ?_
      rw [hns]
      exact List.mem_append_left _ hy

end Layout

/-! ## What the calls leave in the bytes -/

variable {used : ListName → Prop} {s : ByteState} {F : Nodes} {fuel : Nat}

/-- A call that has changed headers of `H` only leaves its layout in the bytes, and keeps
the live blocks that no header of `H` lies in. -/
theorem stored_layout {H : Nat → Prop} {memory' : Memory} {a' : GeneralPurposeAllocator}
    {live' : List Nat} {F' : Nodes} (h : Layout used [] ⟨memory', a', live'⟩ F')
    (hframe : ∀ z, ¬ H z → memory' z = headers s.bytes z) (hspaced : Spaced sizeofMemNode H)
    (hfree : ∀ l, ∀ z ∈ F' l, H z)
    (hlive : ∀ ptr ∈ live', H (header ptr) ∨ ∀ z, H z →
      header ptr + (memory' (header ptr)).size ≤ z ∨ z + sizeofMemNode ≤ header ptr) :
    Layout used [] (ByteState.view ⟨storeHeaders s.bytes memory', a', live'⟩) F' ∧
      (∀ ptr ∈ live', headers (storeHeaders s.bytes memory') (header ptr) = memory' (header ptr)) ∧
      ∀ ptr, (∀ z, H z → header ptr + (headers s.bytes (header ptr)).size ≤ z ∨
        z + sizeofMemNode ≤ header ptr) → Kept s.bytes (storeHeaders s.bytes memory') ptr := by
  have hchanged : ∀ z, memory' z ≠ headers s.bytes z → H z := fun z hz =>
    by_contra fun hH => hz (hframe z hH)
  have hkept : ∀ ptr, (∀ z, H z → header ptr + (headers s.bytes (header ptr)).size ≤ z ∨
      z + sizeofMemNode ≤ header ptr) → Kept s.bytes (storeHeaders s.bytes memory') ptr := by
    intro ptr hout x hx hlt
    refine memNodeCodec.lay_outside hchanged fun z hz => ?_
    exact (hout z hz).imp (fun hle => Nat.lt_of_lt_of_le hlt hle) fun hle => hle.trans hx
  have hread : ∀ {x}, H x → memNodeCodec.Storable (memory' x) →
      headers (storeHeaders s.bytes memory') x = memory' x := fun hx hstore =>
    memNodeCodec.read_lay hchanged hspaced hx hstore
  have hheader : ∀ ptr ∈ live',
      headers (storeHeaders s.bytes memory') (header ptr) = memory' (header ptr) := by
    intro ptr hptr
    by_cases hH : H (header ptr)
    · exact hread hH (h.storable (Or.inl ⟨ptr, hptr, rfl⟩))
    · have hout := (hlive ptr hptr).resolve_left hH
      have hsize := h.live_size hptr
      rw [hframe _ hH] at hout ⊢
      simp only [hframe _ hH] at hsize
      exact (hkept ptr hout).header_eq hsize
  refine ⟨h.keep rfl rfl rfl (fun _ => rfl) hheader
    (fun l z hz => hread (hfree l z hz) (h.storable (Or.inr ⟨l, hz⟩))) h.mem_le ?_, hheader, hkept⟩
  rw [blocks_nil]
  exact h.tiles

/-- A block has been handed out in the bytes. -/
structure Granted (used : ListName → Prop) (s : ByteState) (size : Nat)
    (t : Nat × Bytes × GeneralPurposeAllocator) : Prop where
  ne_zero : t.1 ≠ 0
  size_le : roundedSize size ≤ (headers t.2.1 (header t.1)).size
  layout : ∃ F', Layout used [] (ByteState.view ⟨t.2.1, t.2.2, t.1 :: s.live⟩) F'
  kept : ∀ ptr ∈ s.live, Kept s.bytes t.2.1 ptr

/-- `GeneralPurposeAlloc` hands out a block and keeps the live ones, or returns null and
changes nothing. -/
theorem allocBytes_spec (h : Layout used [] s.view F) {size : Nat} (hr : Servable fuel s.view size)
    (hused : used (requestList size)) (hfuel : 2 ^ 64 ≤ fuel) :
    ∃ t, allocBytes fuel s.bytes s.allocator size = some t ∧
      (t = (0, s.bytes, s.allocator) ∨ Granted used s size t) := by
  obtain ⟨t, ht, hres⟩ := generalPurposeAlloc_spec h hr hused hfuel
  have ht' : generalPurposeAlloc fuel (headers s.bytes) s.allocator size = some t := ht
  unfold allocBytes
  rw [ht']
  refine ⟨_, rfl, ?_⟩
  rcases hres with rfl | ⟨hne, hsize, F', hlayout, -, hframe⟩
  · left
    exact congrArg (fun b => (0, b, s.allocator)) (memNodeCodec.lay_read s.bytes)
  · right
    have hself : t.1 ∈ t.1 :: s.live := List.mem_cons_self ..
    have hmoving := hlayout.reclaim hself
    have hx := hlayout.live_size hself
    simp only [List.erase_cons_head] at hmoving
    obtain ⟨hview, hheader, hkept⟩ := @stored_layout used s (Handled (header t.1) F') t.2.1 t.2.2
      (t.1 :: s.live) F' hlayout
      (fun z hz => hframe z (fun heq => hz (Or.inl heq)) fun l hl => hz (Or.inr ⟨l, hl⟩))
      (hmoving.handled_spaced hx) (fun l z hz => Or.inr ⟨l, hz⟩) fun ptr hptr => by
        rcases List.mem_cons.mp hptr with rfl | hptr
        · exact Or.inl (Or.inl rfl)
        · exact Or.inr fun z hz => hmoving.handled_outside hx hptr hz
    refine ⟨hne, ?_, ⟨F', hview⟩, fun ptr hptr => hkept ptr fun z hz => ?_⟩
    · rw [hheader t.1 hself]
      exact hsize
    · have hout := hmoving.handled_outside hx hptr hz
      obtain ⟨hne', hF⟩ := hmoving.live_ne hptr
      have hsame := hframe (header ptr) (hne' _ (List.mem_singleton_self _))
        fun l hl => hF l _ hl rfl
      simp only [hsame] at hout
      exact hout

/-- `GeneralPurposeFree` of a live pointer keeps the other live blocks. -/
theorem freeBytes_spec (h : Layout used [] s.view F) {ptr : Nat} (hptr : ptr ∈ s.live)
    (hclean : ForgetsNoPrev s.view ptr) (hfuel : 2 ^ 64 ≤ fuel) :
    ∃ t, freeBytes fuel s.bytes s.allocator ptr = some t ∧
      (∃ F', Layout used [] (ByteState.view ⟨t.1, t.2, s.live.erase ptr⟩) F') ∧
      ∀ p ∈ s.live.erase ptr, Kept s.bytes t.1 p := by
  obtain ⟨t, ht, F', hlayout, hsubset, hframe⟩ := generalPurposeFree_spec h hptr hclean hfuel
  have ht' : generalPurposeFree fuel (headers s.bytes) s.allocator ptr = some t := ht
  have hmoving := h.reclaim hptr
  have hx := h.live_size hptr
  unfold freeBytes
  rw [ht']
  refine ⟨_, rfl, ?_⟩
  have hsame : ∀ p ∈ s.live.erase ptr, t.1 (header p) = headers s.bytes (header p) := by
    intro p hp
    obtain ⟨hne, hF⟩ := hmoving.live_ne hp
    exact hframe _ (hne _ (List.mem_singleton_self _)) fun l hl => hF l _ hl rfl
  obtain ⟨hview, -, hkept⟩ := @stored_layout used s (Handled (header ptr) F) t.1 t.2
    (s.live.erase ptr) F' hlayout
    (fun z hz => hframe z (fun heq => hz (Or.inl heq)) fun l hl => hz (Or.inr ⟨l, hl⟩))
    (hmoving.handled_spaced hx) (fun l z hz => (hsubset l z hz).1.imp id fun hmem => ⟨l, hmem⟩)
    fun p hp => Or.inr fun z hz => by
      rw [hsame p hp]
      exact hmoving.handled_outside hx hp hz
  exact ⟨⟨F', hview⟩, fun p hp => hkept p fun z hz => hmoving.handled_outside hx hp hz⟩

/-- Stores into the memory of a live block change no header and no other block. -/
theorem Layout.store (h : Layout used [] s.view F) {ptr : Nat} (hptr : ptr ∈ s.live)
    {bytes' : Bytes} (hstore : ∀ x, x < ptr ∨ header ptr + (headers s.bytes (header ptr)).size ≤ x →
      bytes' x = s.bytes x) :
    Layout used [] (ByteState.view { s with bytes := bytes' }) F ∧
      headers bytes' (header ptr) = headers s.bytes (header ptr) ∧
      ∀ p ∈ s.live.erase ptr, Kept s.bytes bytes' p := by
  have hmoving := h.reclaim hptr
  have hx := h.live_size hptr
  have hptr' := h.live_header hptr
  have hself : headers bytes' (header ptr) = headers s.bytes (header ptr) := by
    refine memNodeCodec.read_congr fun x _ hlt => hstore x (Or.inl ?_)
    have hlt' : x < header ptr + sizeofMemNode := hlt
    rwa [hptr'] at hlt'
  have hkept : ∀ p ∈ s.live.erase ptr, Kept s.bytes bytes' p := by
    intro p hp x hlow hhigh
    have hapart := hmoving.handled_apart hp (Or.inl rfl : Handled (header ptr) F (header ptr))
    simp only [Block.Apart, blockAt] at hapart
    refine hstore x ?_
    rcases hapart with hbelow | habove
    · exact Or.inl (Nat.lt_of_lt_of_le hhigh (hbelow.trans (Nat.sub_le _ _)))
    · exact Or.inr (habove.trans hlow)
  have hheader : ∀ p ∈ s.live, headers bytes' (header p) = headers s.bytes (header p) := by
    intro p hp
    by_cases heq : p = ptr
    · rw [heq, hself]
    · exact (hkept p ((List.mem_erase_of_ne heq).mpr hp)).header_eq (h.live_size hp)
  have hnode : ∀ l, ∀ z ∈ F l, headers bytes' z = headers s.bytes z := by
    intro l z hz
    have hzH : Handled (header ptr) F z := Or.inr ⟨l, hz⟩
    have hsize := hmoving.handled_size hx hzH
    have hapart := h.tiles.apart
      (Multiset.mem_add.mpr (Or.inr (Multiset.mem_add.mpr (Or.inl (mem_liveBlocks hptr)))))
      (Multiset.mem_add.mpr (Or.inr (Multiset.mem_add.mpr (Or.inr (mem_freeBlocks hz)))))
      fun heq => (h.live_ne hptr).2 l z hz (congrArg Block.start heq)
    simp only [Block.Apart, blockAt] at hapart
    refine memNodeCodec.read_congr fun x hlow hhigh => hstore x ?_
    have hhigh' : x < z + sizeofMemNode := hhigh
    rcases hapart with hbelow | habove
    · exact Or.inr (hbelow.trans hlow)
    · exact Or.inl (Nat.lt_of_lt_of_le hhigh'
        ((Nat.add_le_add_left hsize z).trans (habove.trans (Nat.sub_le _ _))))
  refine ⟨h.keep rfl rfl rfl (fun _ => rfl) hheader hnode h.mem_le ?_, hself, hkept⟩
  rw [blocks_nil]
  exact h.tiles

end ScalBase.HeapAllocator
