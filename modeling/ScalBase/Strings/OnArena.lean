/-
  Strings/OnArena.lean --- any number of strings on one arena.

  A program pushes arrays on an arena, takes snapshots, stores into its arrays, and makes
  strings there that it appends to one another.  The strings lie in the same memory as the
  arrays, with nothing but the rounding to a cache line between them, and a string that is
  appended to another, or to itself, is read from that memory.

  Beside the arena, the program has the strings that it made and not yet dropped: a text
  with a bound for each.  Over every sequence of legal calls each is what memory holds at
  its address, whatever is done to the others (`strings_share_arena`).  Bytes that are
  copied come from the arena, where it is committed, or from memory that is mapped beside
  it: after a shrink, a program must not have kept pointers into what was uncommitted.
-/
import ScalBase.Strings.InMemory

set_option autoImplicit false

namespace ScalBase.Strings.InMemory

open Foundation Foundation.Memory
open Arenas (Store Entry Access cacheLine Tracks)

/-! ## Calls -/

/-- A call on the arena, or on a string.  Pointers are addresses, and none is null. -/
inductive Use where
  | access (a : Access)
  | makeReserve (capacity : Nat)
  | makeLength (initStr : Option Nat) (numBytes : Nat)
  | make (cstr : Option Nat)
  | clone (str : Nat)
  | appendLength (str other otherLen : Nat)
  | append (str other : Nat)
  | appendString (str other : Nat)
  | set (str cstr : Nat)
  | trim (str : Nat) (cutSet : List UInt8)
  | clear (str : Nat)

section Calls

variable (mapped : Nat → Bool) (first : List UInt8 → UInt8 → Bool) (fuel : Nat)

/-- What a call returns, and memory after it. -/
def call (s : Store) : Use → Option (Option Nat × Store)
  | .access a => (s.step a).map fun t => (none, t)
  | .makeReserve capacity => stringMakeReserve s capacity
  | .makeLength initStr numBytes => stringMakeLength mapped s initStr numBytes
  | .make cstr => stringMake mapped fuel s cstr
  | .clone str => stringClone mapped s str
  | .appendLength str other otherLen =>
      (stringAppendLength mapped s str other otherLen).map fun t => (some str, t)
  | .append str other =>
      (stringAppend mapped fuel s str other).map fun t => (some str, t)
  | .appendString str other =>
      (stringAppendString mapped s str other).map fun t => (some str, t)
  | .set str cstr => (stringSet mapped fuel s str cstr).map fun t => (some str, t)
  | .trim str cutSet =>
      (stringTrim mapped first fuel s str cutSet).map fun t => (some str, t)
  | .clear str => (stringClear s str).map fun t => (some str, t)

end Calls

/-! ## The strings of the program -/

/-- A string that was made: its address, its capacity and its text. -/
structure Owned where
  str : Nat
  capacity : Nat
  text : List UInt8

/-- The bytes of its block, the header and the terminator included. -/
def Owned.blockSize (o : Owned) : Nat := headerSize + (o.capacity + 1)

/-- Memory, the stack of the arena, and the strings. -/
structure World where
  store : Store
  entries : List Entry
  strings : List Owned

/-- The text of the string at `str`. -/
def textAt (strings : List Owned) (str : Nat) : List UInt8 :=
  ((strings.find? fun o => o.str == str).map Owned.text).getD []

/-- The C string at `cstr`. -/
def cStringAt (mapped : Nat → Bool) (fuel : Nat) (s : Store) (cstr : Nat) : List UInt8 :=
  read s.bytes cstr ((strlen mapped fuel s cstr).getD 0)

/-- What a call does to the strings. -/
inductive Action where
  | access (a : Access)
  | make (capacity : Nat) (text : List UInt8)
  | edit (str : Nat) (e : Edit)

/-- Texts of strings are those the program knows; other bytes are read from memory. -/
def Use.action (mapped : Nat → Bool) (fuel : Nat) (w : World) : Use → Action
  | .access a => .access a
  | .makeReserve capacity => .make capacity []
  | .makeLength (some init) numBytes => .make numBytes (read w.store.bytes init numBytes)
  | .makeLength none numBytes => .make numBytes (List.replicate numBytes 0)
  | .make (some cstr) =>
      .make (cStringAt mapped fuel w.store cstr).length (cStringAt mapped fuel w.store cstr)
  | .make none => .make 0 []
  | .clone str => .make (textAt w.strings str).length (textAt w.strings str)
  | .appendLength str other otherLen =>
      .edit str (.appendLength (read w.store.bytes other otherLen))
  | .append str other => .edit str (.appendLength (cStringAt mapped fuel w.store other))
  | .appendString str other => .edit str (.appendLength (textAt w.strings other))
  | .set str cstr => .edit str (.set (cStringAt mapped fuel w.store cstr))
  | .trim str cutSet => .edit str (.trim cutSet)
  | .clear str => .edit str .clear

/-- The array at `ptr`, with the bytes it has now. -/
def refresh (bytes : Nat → UInt8) (ptr : Nat) : Entry → Entry
  | .array p size byte => .array p size (if p = ptr then fun i => some (bytes (ptr + i)) else byte)
  | .mark => .mark

/-- The stack after a call that returned `reply` and led to `t`. -/
def Action.entries (w : World) (reply : Option Nat) (t : Store) : Action → List Entry
  | .access a => Arenas.entriesStep w.store w.entries a
  | .make capacity _ =>
      match reply with
      | none => w.entries
      | some str => .array (stringHeader str) (headerSize + (capacity + 1))
          (fun i => some (t.bytes (stringHeader str + i))) :: w.entries
  | .edit str _ => w.entries.map (refresh t.bytes (stringHeader str))

/-- The strings after a call: those whose arrays are dropped from the stack are dropped. -/
def Action.strings (w : World) (reply : Option Nat) (entries : List Entry) :
    Action → List Owned
  | .access _ => w.strings.filter fun o => entries.any (Entry.has (stringHeader o.str) 0)
  | .make capacity text =>
      match reply with
      | none => w.strings
      | some str => ⟨str, capacity, text⟩ :: w.strings
  | .edit str e => w.strings.map fun o =>
      if o.str = str then { o with text := e.onText o.capacity o.text } else o

/-- The world after a call. -/
def World.after (w : World) (action : Action) (reply : Option Nat) (t : Store) : World where
  store := t
  entries := action.entries w reply t
  strings := action.strings w reply (action.entries w reply t)

/-- The world after a call, if it returns. -/
def World.step (mapped : Nat → Bool) (first : List UInt8 → UInt8 → Bool) (fuel : Nat) (w : World)
    (u : Use) : Option World :=
  (call mapped first fuel w.store u).map fun r => w.after (u.action mapped fuel w) r.1 r.2

/-! ## Legal calls -/

/-- There is a string at `str`. -/
def World.Live (w : World) (str : Nat) : Prop := ∃ o ∈ w.strings, o.str = str

/-- The block of a string of `capacity` bytes: its size does not wrap, nor does the push, which
is covered. -/
def World.Room (w : World) (capacity : Nat) : Prop :=
  headerSize + capacity + 1 < 2 ^ 32 ∧
    Arenas.Legal (w.store, w.entries) (.push (headerSize + capacity + 1))

/-- The top of the arena. -/
def World.top (w : World) : Nat := w.store.state.arena.memory + w.store.state.arena.totalAllocated

/-- There is a C string at `cstr`, the length of which fits 32 bits. -/
def World.CString (mapped : Nat → Bool) (w : World) (cstr : Nat) : Prop :=
  ∃ n < 2 ^ 32, InMemory.CString mapped w.store cstr n

/-- The `n` bytes at `src` are copied to `dst` and do not overlap it. -/
def Disjoint (src dst n : Nat) : Prop := src + n ≤ dst ∨ dst + n ≤ src

/-- What a call may rely on: strings are live, lengths do not wrap, what is copied can be
loaded and does not overlap where it goes, and stores by the program are not to the blocks of
strings. -/
def World.Legal (mapped : Nat → Bool) (fuel : Nat) (w : World) : Use → Prop
  | .access a => Arenas.Legal (w.store, w.entries) a ∧
      ∀ ptr index value, a = .write ptr index value → ∀ o ∈ w.strings, ptr ≠ stringHeader o.str
  | .makeReserve capacity => w.Room capacity
  | .makeLength initStr numBytes => w.Room numBytes ∧ SourceApart initStr numBytes w.top ∧
      SourceReadable mapped w.store initStr numBytes
  | .make none => w.Room 0
  | .make (some cstr) => w.CString mapped cstr ∧
      w.Room (cStringAt mapped fuel w.store cstr).length ∧
      SourceApart (some cstr) (cStringAt mapped fuel w.store cstr).length w.top
  | .clone str => w.Live str ∧ w.Room (textAt w.strings str).length
  | .appendLength str other otherLen => w.Live str ∧
      (textAt w.strings str).length + otherLen < 2 ^ 32 ∧
      Disjoint other (str + (textAt w.strings str).length) otherLen ∧
      SourceReadable mapped w.store (some other) otherLen
  | .append str other => w.Live str ∧ w.CString mapped other ∧
      (textAt w.strings str).length + (cStringAt mapped fuel w.store other).length < 2 ^ 32 ∧
      Disjoint other (str + (textAt w.strings str).length)
        (cStringAt mapped fuel w.store other).length
  | .appendString str other => w.Live str ∧ w.Live other ∧
      (textAt w.strings str).length + (textAt w.strings other).length < 2 ^ 32
  | .set str cstr => w.Live str ∧ w.CString mapped cstr ∧
      Disjoint cstr str (cStringAt mapped fuel w.store cstr).length
  | .trim str _ => w.Live str
  | .clear str => w.Live str

/-! ## What holds -/

/-- Memory holds the string. -/
structure Owned.Reads (mapped : Nat → Bool) (s : Store) (o : Owned) : Prop where
  length : stringLength mapped s o.str = some o.text.length
  capacity : stringCapacity mapped s o.str = some o.capacity
  fits : o.text.length ≤ o.capacity
  text : read s.bytes o.str o.text.length = o.text
  terminator : s.bytes (o.str + o.text.length) = 0

/-- The blocks of two strings do not overlap. -/
def Owned.Apart (o o' : Owned) : Prop :=
  stringHeader o.str + o.blockSize ≤ stringHeader o'.str ∨
    stringHeader o'.str + o'.blockSize ≤ stringHeader o.str

/-- Memory holds the arrays and the strings, and strings are compared by their texts. -/
structure World.Holds (mapped : Nat → Bool) (w : World) : Prop where
  arena : Arenas.Holds w.store w.entries
  strings : ∀ o ∈ w.strings, o.Reads mapped w.store
  /-- The block of a string is an array of its own. -/
  blocks : ∀ o ∈ w.strings, ∃ byte, .array (stringHeader o.str) o.blockSize byte ∈ w.entries
  apart : w.strings.Pairwise Owned.Apart
  equal : ∀ o ∈ w.strings, ∀ o' ∈ w.strings,
    stringAreEqual mapped w.store o.str o'.str = some (decide (o.text = o'.text))

/-! ## The invariant -/

/-- The block of a string is that of a value with its text, and an array of its own whose
bytes are known to the stack. -/
structure Owned.Sound (s : Store) (es : List Entry) (o : Owned) : Prop where
  value : ∃ x, Placed s.bytes o.str (o.capacity + 1) x ∧ x.Bounded o.capacity o.text
  block : ∃ byte, .array (stringHeader o.str) o.blockSize byte ∈ es ∧
    ∀ i < o.blockSize, byte i = some (s.bytes (stringHeader o.str + i))

structure World.Sound (k : Nat) (w : World) : Prop where
  tracks : Tracks k w.store w.entries
  strings : ∀ o ∈ w.strings, o.Sound w.store w.entries
  apart : w.strings.Pairwise Owned.Apart

section Owned

variable {s t : Store} {es es' : List Entry} {o o' : Owned}

theorem Owned.blockSize_pos (o : Owned) : 0 < o.blockSize :=
  Nat.add_pos_left (show 0 < headerSize by decide) _

theorem Owned.Sound.header (h : o.Sound s es) : headerSize ≤ o.str := by
  obtain ⟨x, hplaced, -⟩ := h.value
  exact hplaced.header

/-- A string whose block is as it was. -/
theorem Owned.Sound.congr (h : o.Sound s es)
    (hsame : ∀ i < o.blockSize, t.bytes (stringHeader o.str + i) = s.bytes (stringHeader o.str + i))
    (hstays : ∀ byte, .array (stringHeader o.str) o.blockSize byte ∈ es →
      .array (stringHeader o.str) o.blockSize byte ∈ es') : o.Sound t es' := by
  obtain ⟨x, hplaced, hbounded⟩ := h.value
  obtain ⟨byte, hmem, hbyte⟩ := h.block
  exact ⟨⟨x, hplaced.congr hsame, hbounded⟩, byte, hstays byte hmem, fun i hi => by
    rw [hsame i hi]
    exact hbyte i hi⟩

variable {k : Nat}

theorem Owned.Sound.usable (h : o.Sound s es) (htracks : Tracks k s es) :
    Usable s o.str (o.capacity + 1) := by
  obtain ⟨byte, hmem, -⟩ := h.block
  exact (htracks.usable _ hmem).2.2

theorem Owned.Sound.reads (h : o.Sound s es) (htracks : Tracks k s es) (mapped : Nat → Bool) :
    o.Reads mapped s := by
  have husable := h.usable htracks
  obtain ⟨x, hplaced, hbounded⟩ := h.value
  have hlength := hbounded.holds.length
  have hfits := hbounded.holds.fits
  have hcapacity := hbounded.same_capacity
  have htake := hbounded.holds.take
  have hterminator := hbounded.holds.terminator
  have hread := @read_take s.bytes o.str (o.capacity + 1) o.text.length (by omega)
  have hget : x.bytes[o.text.length]? = some (s.bytes (o.str + o.text.length)) := by
    have hlt : o.text.length < (read s.bytes o.str (o.capacity + 1)).length := by
      rw [length_read]
      omega
    rw [← hplaced.bytes, List.getElem?_eq_getElem hlt, getElem_read]
  rw [hlength] at htake hterminator
  refine ⟨(hplaced.stringLength husable).trans (congrArg some hlength),
    (hplaced.stringCapacity husable).trans (congrArg some hcapacity), by omega, ?_, ?_⟩
  · rw [← hread, hplaced.bytes, htake]
  · exact Option.some.inj (hget.symm.trans hterminator)

/-- An array that begins where the block of a string does is that block. -/
theorem Owned.array_eq (htracks : Tracks k s es) {byte : Nat → Option UInt8}
    (hmem : .array (stringHeader o.str) o.blockSize byte ∈ es) {e : Entry} (he : e ∈ es)
    (hhas : e.has (stringHeader o.str) 0 = true) :
    e = .array (stringHeader o.str) o.blockSize byte := by
  by_contra hne
  have hapart := htracks.stacked.apart.forall he hmem hne
  have hpos := o.blockSize_pos
  cases e with
  | mark => cases hhas
  | array p size byte' =>
    simp only [Entry.has, Bool.and_eq_true, beq_iff_eq, decide_eq_true_eq] at hhas
    obtain ⟨rfl, hsize⟩ := hhas
    rcases hapart with hapart | hapart <;> omega

end Owned

section World

variable {mapped : Nat → Bool} {k : Nat} {w : World}

theorem World.Sound.eq_of_str (h : w.Sound k) {o o' : Owned} (ho : o ∈ w.strings)
    (ho' : o' ∈ w.strings) (hstr : o.str = o'.str) : o = o' := by
  by_contra hne
  have hsymm : Std.Symm Owned.Apart := ⟨fun _ _ hapart => hapart.symm⟩
  have hapart := h.apart.forall ho ho' hne
  have hpos := o.blockSize_pos
  have hpos' := o'.blockSize_pos
  rw [Owned.Apart, hstr] at hapart
  omega

/-- The program knows the texts of its strings. -/
theorem World.Sound.textAt (h : w.Sound k) {o : Owned} (ho : o ∈ w.strings) :
    textAt w.strings o.str = o.text := by
  rw [InMemory.textAt]
  cases hfind : w.strings.find? fun o' => o'.str == o.str with
  | none =>
    have hnone := List.find?_eq_none.mp hfind o ho
    rw [beq_self_eq_true] at hnone
    exact absurd rfl hnone
  | some o' =>
    have hstr := List.find?_some hfind
    rw [beq_iff_eq] at hstr
    rw [h.eq_of_str (List.mem_of_find?_eq_some hfind) ho hstr]
    rfl

/-- Characters that are loaded one by one are compared like the texts. -/
theorem allM_sameAt {s : Store} {lhs rhs : Nat} {l : List Nat}
    (hl : ∀ i ∈ l, Readable mapped s (lhs + i)) (hr : ∀ i ∈ l, Readable mapped s (rhs + i)) :
    l.allM (sameAt mapped s lhs rhs) =
      some (l.all fun i => s.bytes (lhs + i) == s.bytes (rhs + i)) := by
  induction l with
  | nil => rfl
  | cons i l ih =>
    have hrest := ih (fun j hj => hl j (List.mem_cons_of_mem i hj)) fun j hj =>
      hr j (List.mem_cons_of_mem i hj)
    have hhead := And.intro (hl i (List.mem_cons_self ..)) (hr i (List.mem_cons_self ..))
    rw [List.allM_cons, sameAt, if_pos hhead, hrest, List.all_cons]
    cases s.bytes (lhs + i) == s.bytes (rhs + i) <;> rfl

/-- The characters of a string may be loaded. -/
theorem Owned.Sound.readable {s : Store} {es : List Entry} {o : Owned} (h : o.Sound s es)
    (htracks : Tracks k s es) (mapped : Nat → Bool) :
    ∀ i < o.text.length, Readable mapped s (o.str + i) := by
  have hheader := stringHeader_add h.header
  have hfits := (h.reads htracks mapped).fits
  exact (h.usable htracks).readable mapped (by omega) (by omega)

/-- Strings with the same bytes are equal, and no others. -/
theorem World.Sound.stringAreEqual (h : w.Sound k) (mapped : Nat → Bool) {o o' : Owned}
    (ho : o ∈ w.strings) (ho' : o' ∈ w.strings) :
    stringAreEqual mapped w.store o.str o'.str = some (decide (o.text = o'.text)) := by
  have hreads := (h.strings o ho).reads h.tracks mapped
  have hreads' := (h.strings o' ho').reads h.tracks mapped
  have htext' := hreads'.text
  simp only [InMemory.stringAreEqual, hreads.length, hreads'.length, Option.bind_eq_bind,
    Option.bind_some]
  split
  · rename_i hne
    rw [decide_eq_false fun heq => hne (congrArg List.length heq)]
  · rename_i heq
    rw [Decidable.not_not] at heq
    rw [allM_sameAt
      (fun i hi => (h.strings o ho).readable h.tracks mapped i (List.mem_range.mp hi))
      (fun i hi => (h.strings o' ho').readable h.tracks mapped i (heq ▸ List.mem_range.mp hi)),
      Option.some.injEq, Bool.eq_iff_iff, decide_eq_true_iff, List.all_eq_true]
    rw [← heq] at htext'
    rw [← hreads.text, ← htext']
    simp only [length_read, beq_iff_eq, List.mem_range]
    rw [read_eq_iff (length_read _ _ _)]
    simp only [length_read, getElem_read]

theorem World.Sound.holds (h : w.Sound k) (mapped : Nat → Bool) : w.Holds mapped :=
  ⟨h.tracks.holds, fun o ho => (h.strings o ho).reads h.tracks mapped,
    fun o ho => (h.strings o ho).block.imp fun _ hblock => hblock.1, h.apart,
    fun _ ho _ ho' => h.stringAreEqual mapped ho ho'⟩

end World

/-! ## Edits -/

section Edits

variable {mapped : Nat → Bool} {k fuel : Nat} {w : World} {first : List UInt8 → UInt8 → Bool}

theorem cStringAt_eq {s : Store} {cstr n : Nat} (hn : strlen mapped fuel s cstr = some n) :
    cStringAt mapped fuel s cstr = read s.bytes cstr n := by
  rw [cStringAt, hn, Option.getD_some]

variable (hfirst : ∀ cutSet c, first cutSet c = true ↔ c ∈ cutSet ∨ c = 0) (hfuel : 2 ^ 32 ≤ fuel)
include hfirst hfuel

/-- An edit whose lengths do not wrap leads to a value with the text it should have. -/
theorem Owned.Sound.edit {s : Store} {es : List Entry} {o : Owned} (h : o.Sound s es) {e : Edit}
    (hword : ∀ x : String, x.length = o.text.length → e.NoWrap x) :
    ∃ x y, Placed s.bytes o.str (o.capacity + 1) x ∧ x.length < o.capacity + 1 ∧
      e.step first fuel x = some y ∧ y.Bounded o.capacity (e.onText o.capacity o.text) := by
  obtain ⟨x, hplaced, hbounded⟩ := h.value
  have hlength := hbounded.holds.length
  have hfits := hbounded.holds.fits
  have hcapacity := hbounded.same_capacity
  have hlt : o.capacity < 2 ^ 32 := by
    rw [← hcapacity, ← hplaced.capacity]
    exact word_lt _ 4
  obtain ⟨y, hy, hbounded'⟩ := hbounded.step hfirst hfuel hlt (hword x hlength)
  exact ⟨x, y, hplaced, by omega, hy, hbounded'⟩

/-- A call on a live string returns, and leads to the text it should. -/
theorem World.Sound.edit (h : w.Sound k) {u : Use} {str : Nat} {e : Edit}
    (haction : u.action mapped fuel w = .edit str e) (hok : w.Legal mapped fuel u) :
    ∃ o ∈ w.strings, o.str = str ∧ ∃ y t, call mapped first fuel w.store u = some (some str, t) ∧
      Becomes str (o.capacity + 1) y w.store t ∧
      y.Bounded o.capacity (e.onText o.capacity o.text) := by
  cases u with
  | access a => cases haction
  | makeReserve capacity => cases haction
  | makeLength initStr numBytes => cases initStr <;> cases haction
  | make cstr => cases cstr <;> cases haction
  | clone str => cases haction
  | appendLength str other n =>
    cases haction
    obtain ⟨⟨o, ho, rfl⟩, hword, -, hsource⟩ := hok
    rw [h.textAt ho] at hword
    have hsound := h.strings o ho
    obtain ⟨x, y, hplaced, -, hy, hbounded⟩ := hsound.edit hfirst hfuel
      (e := .appendLength (read w.store.bytes other n)) fun x hx => by
        rw [Edit.NoWrap, hx, length_read]
        exact hword
    obtain ⟨t, ht, hbecomes⟩ :=
      hplaced.stringAppendLength (hsound.usable h.tracks) (hsource other rfl) hy
    exact ⟨o, ho, rfl, y, t, by rw [call, ht]; rfl, hbecomes, hbounded⟩
  | append str other =>
    cases haction
    obtain ⟨⟨o, ho, rfl⟩, ⟨n, hn, hcstr⟩, hword, -⟩ := hok
    have hlen := hcstr.strlen (Nat.lt_of_lt_of_le hn hfuel)
    rw [h.textAt ho] at hword
    have hsound := h.strings o ho
    obtain ⟨x, y, hplaced, -, hy, hbounded⟩ := hsound.edit hfirst hfuel
      (e := .appendLength (cStringAt mapped fuel w.store other)) fun x hx => by
        rw [Edit.NoWrap, hx]
        exact hword
    rw [cStringAt_eq hlen] at hy
    obtain ⟨t, ht, hbecomes⟩ := hplaced.stringAppendLength (hsound.usable h.tracks)
      (fun i hi => hcstr.readable i (Nat.lt_succ_of_lt hi)) hy
    have hu32 : u32 n = n := Nat.mod_eq_of_lt hn
    refine ⟨o, ho, rfl, y, t, ?_, hbecomes, hbounded⟩
    simp only [call, stringAppend, hlen, hu32, ht, Option.bind_eq_bind, Option.bind_some,
      Option.map_some]
  | appendString str other =>
    cases haction
    obtain ⟨⟨o, ho, rfl⟩, ⟨o', ho', rfl⟩, hword⟩ := hok
    rw [h.textAt ho, h.textAt ho'] at hword
    have hsound := h.strings o ho
    have hreads := (h.strings o' ho').reads h.tracks mapped
    obtain ⟨x, y, hplaced, -, hy, hbounded⟩ := hsound.edit hfirst hfuel
      (e := .appendLength (InMemory.textAt w.strings o'.str)) fun x hx => by
        rw [Edit.NoWrap, hx, h.textAt ho']
        exact hword
    have htext : InMemory.textAt w.strings o'.str = read w.store.bytes o'.str o'.text.length := by
      rw [h.textAt ho', hreads.text]
    rw [htext] at hy
    obtain ⟨t, ht, hbecomes⟩ := hplaced.stringAppendLength (hsound.usable h.tracks)
      ((h.strings o' ho').readable h.tracks mapped) hy
    refine ⟨o, ho, rfl, y, t, ?_, hbecomes, hbounded⟩
    simp only [call, stringAppendString, hreads.length, ht, Option.bind_eq_bind, Option.bind_some,
      Option.map_some]
  | set str cstr =>
    cases haction
    obtain ⟨⟨o, ho, rfl⟩, ⟨n, hn, hcstr⟩, -⟩ := hok
    have hlen := hcstr.strlen (Nat.lt_of_lt_of_le hn hfuel)
    have hsound := h.strings o ho
    obtain ⟨x, y, hplaced, -, hy, hbounded⟩ := hsound.edit hfirst hfuel
      (e := .set (cStringAt mapped fuel w.store cstr)) fun x hx => by
        rw [Edit.NoWrap, cStringAt_eq hlen, length_read]
        exact hn
    rw [cStringAt_eq hlen] at hy
    obtain ⟨t, ht, hbecomes⟩ := hplaced.stringSet (hsound.usable h.tracks) hlen
      (fun i hi => hcstr.readable i (Nat.lt_succ_of_lt hi)) hy
    exact ⟨o, ho, rfl, y, t, by rw [call, ht]; rfl, hbecomes, hbounded⟩
  | trim str cutSet =>
    cases haction
    obtain ⟨o, ho, rfl⟩ := hok
    have hsound := h.strings o ho
    obtain ⟨x, y, hplaced, hfits, hy, hbounded⟩ := hsound.edit hfirst hfuel (e := .trim cutSet)
      fun _ _ => trivial
    obtain ⟨t, ht, hbecomes⟩ := hplaced.stringTrim (hsound.usable h.tracks) hfits hy
    exact ⟨o, ho, rfl, y, t, by rw [call, ht]; rfl, hbecomes, hbounded⟩
  | clear str =>
    cases haction
    obtain ⟨o, ho, rfl⟩ := hok
    have hsound := h.strings o ho
    obtain ⟨x, y, hplaced, -, hy, hbounded⟩ := hsound.edit hfirst hfuel (e := .clear)
      fun _ _ => trivial
    obtain ⟨t, ht, hbecomes⟩ := hplaced.stringClear (hsound.usable h.tracks) hy
    exact ⟨o, ho, rfl, y, t, by rw [call, ht]; rfl, hbecomes, hbounded⟩

end Edits

/-! ## The strings after an edit -/

section Edited

variable {k : Nat} {w : World} {o : Owned} {t : Store} {y : String}

/-- The stack lies as it did. -/
theorem stacked_refresh {memory total : Nat} {marks : List Nat} {es : List Entry}
    (h : Arenas.Stacked memory es total marks) (bytes : Nat → UInt8) (ptr : Nat) :
    Arenas.Stacked memory (es.map (refresh bytes ptr)) total marks := by
  induction h with
  | nil => exact .nil
  | array byte _ ih => exact .array _ ih
  | mark _ ih => exact .mark ih

/-- An array that is not the block of the string is left alone. -/
theorem World.Sound.others (h : w.Sound k) (ho : o ∈ w.strings)
    (hframe : Frame o.str (o.capacity + 1) w.store t) {p n : Nat} {byte : Nat → Option UInt8}
    (hmem : .array p n byte ∈ w.entries) (hne : p ≠ stringHeader o.str) :
    ∀ i < n, t.bytes (p + i) = w.store.bytes (p + i) := by
  obtain ⟨byte', hblock, -⟩ := (h.strings o ho).block
  have hheader := stringHeader_add (h.strings o ho).header
  have hsize : o.blockSize = headerSize + (o.capacity + 1) := rfl
  have hapart : p + n ≤ stringHeader o.str ∨ stringHeader o.str + o.blockSize ≤ p :=
    h.tracks.stacked.apart.forall hmem hblock fun heq => by
      cases heq
      exact hne rfl
  exact fun i hi => hframe.outside (p + i) (by omega)

theorem World.Sound.edited_tracks (h : w.Sound k) (ho : o ∈ w.strings)
    (hframe : Frame o.str (o.capacity + 1) w.store t) :
    Tracks k t (w.entries.map (refresh t.bytes (stringHeader o.str))) := by
  have htracks := h.tracks
  refine ⟨?_, ?_, ?_, fun e he => ?_⟩
  · rw [hframe.state]
    exact htracks.kept
  · rw [hframe.state]
    exact stacked_refresh htracks.stacked _ _
  · rw [hframe.state]
    exact htracks.temp
  · obtain ⟨f, hf, rfl⟩ := List.mem_map.mp he
    cases f with
    | mark => trivial
    | array p n byte =>
      intro i hi value hvalue
      rcases eq_or_ne p (stringHeader o.str) with rfl | hne
      · rw [if_pos rfl] at hvalue
        exact Option.some.inj hvalue
      · rw [if_neg hne] at hvalue
        rw [h.others ho hframe hf hne i hi]
        exact htracks.read _ hf i hi value hvalue

/-- The string that is edited has its new text, and the others are as they were. -/
theorem World.Sound.edited (h : w.Sound k) (ho : o ∈ w.strings) {e : Edit} {reply : Option Nat}
    (hbecomes : Becomes o.str (o.capacity + 1) y w.store t)
    (hbounded : y.Bounded o.capacity (e.onText o.capacity o.text)) :
    (w.after (.edit o.str e) reply t).Sound k := by
  obtain ⟨hplaced, hframe⟩ := hbecomes
  refine ⟨h.edited_tracks ho hframe, fun o' ho' => ?_, ?_⟩
  · obtain ⟨o₁, ho₁, rfl⟩ := List.mem_map.mp ho'
    obtain ⟨byte, hblock, -⟩ := (h.strings o₁ ho₁).block
    have hstays := List.mem_map_of_mem (f := refresh t.bytes (stringHeader o.str)) hblock
    rw [refresh] at hstays
    rcases eq_or_ne o₁.str o.str with hstr | hother
    · obtain rfl := h.eq_of_str ho₁ ho hstr
      rw [if_pos rfl] at hstays ⊢
      exact ⟨⟨y, hplaced, hbounded⟩, _, hstays, fun i _ => rfl⟩
    · have hheader := stringHeader_add (h.strings o ho).header
      have hheader' := stringHeader_add (h.strings o₁ ho₁).header
      have hne : stringHeader o₁.str ≠ stringHeader o.str := by omega
      rw [if_neg hother]
      refine (h.strings o₁ ho₁).congr (h.others ho hframe hblock hne) fun byte' hblock' => ?_
      have hstays' := List.mem_map_of_mem (f := refresh t.bytes (stringHeader o.str)) hblock'
      rwa [refresh, if_neg hne] at hstays'
  · refine h.apart.map _ fun o₁ o₂ hapart => ?_
    split_ifs <;> exact hapart

end Edited

/-! ## Calls on the arena -/

section Accesses

variable {k : Nat} {w : World}

/-- A string whose array is still on the stack is there with the bytes it had. -/
theorem World.Sound.stays (h : w.Sound k) {a : Access}
    (hwrite : ∀ ptr index value, a = .write ptr index value →
      ∀ o ∈ w.strings, ptr ≠ stringHeader o.str) {o : Owned} (ho : o ∈ w.strings)
    (hany : (Arenas.entriesStep w.store w.entries a).any (Entry.has (stringHeader o.str) 0) = true)
    {byte : Nat → Option UInt8}
    (hblock : .array (stringHeader o.str) o.blockSize byte ∈ w.entries) :
    .array (stringHeader o.str) o.blockSize byte ∈ Arenas.entriesStep w.store w.entries a := by
  -- On a shorter stack the array that is there is the block.
  have hshort : (∀ e ∈ Arenas.entriesStep w.store w.entries a, e ∈ w.entries) →
      .array (stringHeader o.str) o.blockSize byte ∈ Arenas.entriesStep w.store w.entries a := by
    intro hsub
    obtain ⟨e, he, hhas⟩ := List.any_eq_true.mp hany
    rwa [Owned.array_eq h.tracks hblock (hsub e he) hhas] at he
  have hpushed : ∀ reply size byte', .array (stringHeader o.str) o.blockSize byte ∈
      Arenas.pushed reply size byte' w.entries := by
    intro reply size byte'
    cases reply with
    | none => exact hblock
    | some ptr => exact List.mem_cons_of_mem _ hblock
  cases a with
  | push size => exact hpushed _ _ _
  | pushZero size => exact hpushed _ _ _
  | pop size => exact hshort fun e he => List.mem_of_mem_tail he
  | snapshotBegin => exact List.mem_cons_of_mem _ hblock
  | snapshotEnd =>
    exact hshort fun e he => ((List.tail_sublist _).trans (List.dropWhile_sublist _)).subset he
  | shrink lost => exact hblock
  | write ptr index value =>
    have hstays := List.mem_map_of_mem (f := Entry.write ptr index value) hblock
    rwa [Entry.write, if_neg (hwrite ptr index value rfl o ho).symm] at hstays

/-- A call on the arena, or a store to another array, leaves the strings that stay as they
were. -/
theorem World.Sound.accessed (h : w.Sound k) {a : Access}
    (hok : Arenas.Legal (w.store, w.entries) a)
    (hwrite : ∀ ptr index value, a = .write ptr index value →
      ∀ o ∈ w.strings, ptr ≠ stringHeader o.str) :
    ∃ t, w.store.step a = some t ∧ ∀ reply, (w.after (.access a) reply t).Sound k := by
  obtain ⟨t', hstep, htracks⟩ := Tracks.step (s := (w.store, w.entries)) h.tracks hok
  obtain ⟨t, ht, rfl⟩ := Option.map_eq_some_iff.mp hstep
  refine ⟨t, ht, fun reply => ⟨htracks, fun o ho => ?_, h.apart.filter _⟩⟩
  obtain ⟨hmem, hany⟩ := List.mem_filter.mp ho
  obtain ⟨byte, hblock, hbyte⟩ := (h.strings o hmem).block
  refine (h.strings o hmem).congr (fun i hi => ?_) fun _ => h.stays hwrite hmem hany
  exact htracks.read _ (h.stays hwrite hmem hany hblock) i hi _ (hbyte i hi)

end Accesses

/-! ## Strings that are made -/

section Makes

variable {mapped : Nat → Bool} {k : Nat} {w : World}

/-- The block of a string ends below the top of the arena. -/
theorem World.Sound.below_top (h : w.Sound k) {o : Owned} (ho : o ∈ w.strings) :
    stringHeader o.str + o.blockSize ≤ w.top := by
  obtain ⟨byte, hblock, -⟩ := (h.strings o ho).block
  have hhigh := (h.tracks.stacked.bounds hblock).2
  have hlines := (Arenas.lines_spec o.blockSize).2.1
  rw [World.top]
  omega

/-- A string in the block that was pushed last. -/
theorem World.Sound.made (h : w.Sound k) {capacity : Nat} {text : List UInt8} {state : Arenas.State}
    (hkept : Arenas.Kept k state)
    (harena : state.arena = { w.store.state.arena with
      totalAllocated :=
        w.store.state.arena.totalAllocated + Arenas.lines (headerSize + (capacity + 1)) })
    (hsnapshots : state.snapshots = w.store.state.snapshots) {y : String} {t : Store}
    (hbecomes : Becomes (w.top + headerSize) (capacity + 1) y { w.store with state := state } t)
    (hbounded : y.Bounded capacity text) :
    (w.after (.make capacity text) (some (w.top + headerSize)) t).Sound k := by
  obtain ⟨hplaced, hstate, hout⟩ := hbecomes
  have hstate' : t.state = state := hstate
  have hheader : stringHeader (w.top + headerSize) = w.top := Nat.add_sub_cancel w.top headerSize
  rw [hheader] at hout
  have hold : ∀ a < w.top, t.bytes a = w.store.bytes a := fun a ha => hout a (Or.inl ha)
  refine ⟨?_, fun o ho => ?_, List.pairwise_cons.mpr ⟨fun o ho => Or.inr ?_, h.apart⟩⟩
  · have hpushed := @Tracks.push k w.store w.entries h.tracks state _
      (fun i => some (t.bytes (w.top + i))) t.bytes hkept harena hsnapshots
      (fun i _ value hvalue => Option.some.inj hvalue) hold
    have hstore : t = ⟨state, t.bytes⟩ := by rw [← hstate']
    simp only [World.after, Action.entries, hheader]
    rw [hstore]
    exact hpushed
  · rcases List.mem_cons.mp ho with rfl | hmem
    · exact ⟨⟨y, hplaced, hbounded⟩, _, List.mem_cons_self .., fun i _ => rfl⟩
    · have hbelow := h.below_top hmem
      exact (h.strings o hmem).congr (fun i hi => hold _ (by omega))
        fun _ hblock => List.mem_cons_of_mem _ hblock
  · rw [hheader]
    exact h.below_top ho

/-- Memory that may be loaded before a push may be loaded after it. -/
theorem Readable.pushed {s : Store} {a n : Nat} {state : Arenas.State} {reply : Option Nat}
    (h : Readable mapped s a) (hpush : s.state.arenaPush n = (reply, state)) :
    Readable mapped { s with state := state } a := by
  rcases h with hcommitted | hmapped
  · have hstays := Arenas.arenaPush_committed n hcommitted
    rw [hpush] at hstays
    exact Or.inl hstays
  · exact Or.inr hmapped

/-- The arena is out of memory, or there is a new block at its top. -/
theorem World.Sound.pushes (h : w.Sound k) {capacity : Nat} (hroom : w.Room capacity) :
    w.store.state.arenaPush (headerSize + capacity + 1) = (none, w.store.state) ∨
      ∃ state, w.store.state.arenaPush (headerSize + capacity + 1) = (some w.top, state) ∧
        Usable { w.store with state := state } (w.top + headerSize) (capacity + 1) ∧
        ∀ text y t,
          Becomes (w.top + headerSize) (capacity + 1) y { w.store with state := state } t →
            y.Bounded capacity text →
              (w.after (.make capacity text) (some (w.top + headerSize)) t).Sound k := by
  obtain ⟨-, ⟨-, hwrap⟩, hcov⟩ := hroom
  rcases h.tracks.kept.push_cases hwrap hcov with hpush | ⟨state, hpush, hkept, harena, hsnapshots⟩
  · exact Or.inl hpush
  · refine Or.inr ⟨state, hpush, fun i hi => ?_, fun text y t hbecomes hbounded =>
      h.made hkept harena hsnapshots hbecomes hbounded⟩
    have hlines := (Arenas.lines_spec (headerSize + capacity + 1)).2.1
    have htop : stringHeader (w.top + headerSize) = w.top := Nat.add_sub_cancel w.top headerSize
    rw [htop]
    exact hkept.top_committed harena i (by omega)

theorem World.Sound.makeReserve (h : w.Sound k) {capacity : Nat} (hroom : w.Room capacity) :
    ∃ r, InMemory.stringMakeReserve w.store capacity = some r ∧
      (w.after (.make capacity []) r.1 r.2).Sound k := by
  obtain ⟨y, hy, hbounded⟩ := stringMakeReserve_bounded hroom.1
  rcases h.pushes hroom with hpush | ⟨state, hpush, husable, hmade⟩
  · have hu32 : u32 (headerSize + capacity + 1) = headerSize + capacity + 1 :=
      Nat.mod_eq_of_lt hroom.1
    exact ⟨(none, w.store), by rw [InMemory.stringMakeReserve, hu32, hpush], h⟩
  · obtain ⟨t, ht, hbecomes⟩ := stringMakeReserve_placed hroom.1 hpush husable hy
    exact ⟨_, ht, hmade [] y t hbecomes hbounded⟩

/-- The text of a string that is made from `numBytes` bytes at `initStr`. -/
def initText (s : Store) (initStr : Option Nat) (numBytes : Nat) : List UInt8 :=
  match initStr with
  | some init => read s.bytes init numBytes
  | none => List.replicate numBytes 0

theorem World.Sound.makeLength (h : w.Sound k) {initStr : Option Nat} {numBytes : Nat}
    (hroom : w.Room numBytes) (hapart : SourceApart initStr numBytes w.top)
    (hsource : SourceReadable mapped w.store initStr numBytes) :
    ∃ r, InMemory.stringMakeLength mapped w.store initStr numBytes = some r ∧
      (w.after (.make numBytes (initText w.store initStr numBytes)) r.1 r.2).Sound k := by
  have hvalue : ∀ fresh, ∃ y, Strings.stringMakeLength
      (initStr.map fun init => read w.store.bytes init numBytes) numBytes fresh = some y ∧
      y.Bounded numBytes (initText w.store initStr numBytes) := by
    intro fresh
    cases initStr with
    | none => exact stringMakeLength_zeroed hroom.1 fresh
    | some init =>
      have hlength := length_read w.store.bytes init numBytes
      obtain ⟨y, hy, hbounded⟩ := stringMakeLength_copied hroom.1 hlength.ge fresh
      rw [List.take_of_length_le hlength.le] at hbounded
      exact ⟨y, hy, hbounded⟩
  rcases h.pushes hroom with hpush | ⟨state, hpush, husable, hmade⟩
  · have hu32 : u32 (headerSize + numBytes + 1) = headerSize + numBytes + 1 :=
      Nat.mod_eq_of_lt hroom.1
    exact ⟨(none, w.store), by rw [InMemory.stringMakeLength, hu32, hpush], h⟩
  · obtain ⟨y, hy, hbounded⟩ := hvalue _
    obtain ⟨t, ht, hbecomes⟩ := stringMakeLength_placed hroom.1 hpush husable hapart
      (fun init hinit i hi => (hsource init hinit i hi).pushed hpush) hy
    exact ⟨_, ht, hmade _ y t hbecomes hbounded⟩

/-- A call that makes a string returns. -/
theorem World.Sound.make (h : w.Sound k) {fuel : Nat} {first : List UInt8 → UInt8 → Bool} {u : Use}
    {capacity : Nat} {text : List UInt8} (haction : u.action mapped fuel w = .make capacity text)
    (hok : w.Legal mapped fuel u) (hfuel : 2 ^ 32 ≤ fuel) :
    ∃ r, call mapped first fuel w.store u = some r ∧
      (w.after (.make capacity text) r.1 r.2).Sound k := by
  cases u with
  | makeReserve capacity =>
    cases haction
    exact h.makeReserve hok
  | makeLength initStr numBytes =>
    have hmade := h.makeLength hok.1 hok.2.1 hok.2.2
    cases initStr <;> cases haction <;> exact hmade
  | make cstr =>
    cases cstr with
    | none =>
      cases haction
      exact h.makeLength hok (fun init hinit => by cases hinit) fun init hinit => by cases hinit
    | some cstr =>
      cases haction
      obtain ⟨⟨n, hn, hcstr⟩, hroom, hapart⟩ := hok
      have hlen := hcstr.strlen (Nat.lt_of_lt_of_le hn hfuel)
      rw [cStringAt_eq hlen] at hroom hapart ⊢
      rw [length_read] at hroom hapart ⊢
      have hu32 : u32 n = n := Nat.mod_eq_of_lt hn
      rw [call, stringMake]
      simp only [hlen, hu32, Option.bind_eq_bind, Option.bind_some]
      exact h.makeLength hroom hapart fun init hinit i hi => by
        cases hinit
        exact hcstr.readable i (Nat.lt_succ_of_lt hi)
  | clone str =>
    cases haction
    obtain ⟨⟨o, ho, rfl⟩, hroom⟩ := hok
    rw [h.textAt ho] at hroom ⊢
    have hreads := (h.strings o ho).reads h.tracks mapped
    have hbelow := h.below_top ho
    have hheader := stringHeader_add (h.strings o ho).header
    have hfits := hreads.fits
    have hsize : o.blockSize = headerSize + (o.capacity + 1) := rfl
    have hmade := @World.Sound.makeLength mapped k w h (some o.str) _ hroom
      (fun init hinit => by
        cases hinit
        omega)
      fun init hinit => by
        cases hinit
        exact (h.strings o ho).readable h.tracks mapped
    rw [initText, hreads.text] at hmade
    simp only [call, stringClone, hreads.length, Option.bind_eq_bind, Option.bind_some]
    exact hmade
  | access a => cases haction
  | appendLength str other n => cases haction
  | append str other => cases haction
  | appendString str other => cases haction
  | set str cstr => cases haction
  | trim str cutSet => cases haction
  | clear str => cases haction

end Makes

/-! ## Whole runs -/

section Runs

variable {mapped : Nat → Bool} {k fuel : Nat} {first : List UInt8 → UInt8 → Bool}
  (hfirst : ∀ cutSet c, first cutSet c = true ↔ c ∈ cutSet ∨ c = 0) (hfuel : 2 ^ 32 ≤ fuel)
include hfirst hfuel

theorem World.Sound.step {w : World} (h : w.Sound k) {u : Use} (hok : w.Legal mapped fuel u) :
    ∃ w', w.step mapped first fuel u = some w' ∧ w'.Sound k := by
  cases haction : u.action mapped fuel w with
  | access a =>
    cases u with
    | access a' =>
      cases haction
      obtain ⟨t, ht, hsound⟩ := h.accessed hok.1 hok.2
      exact ⟨_, by rw [World.step, call, ht]; rfl, hsound none⟩
    | makeLength initStr numBytes => cases initStr <;> cases haction
    | make cstr => cases cstr <;> cases haction
    | _ => cases haction
  | make capacity text =>
    obtain ⟨r, hcall, hsound⟩ :=
      @World.Sound.make mapped k w h fuel first u capacity text haction hok hfuel
    exact ⟨_, by rw [World.step, hcall, haction]; rfl, hsound⟩
  | edit str e =>
    obtain ⟨o, ho, rfl, y, t, hcall, hbecomes, hbounded⟩ := h.edit hfirst hfuel haction hok
    exact ⟨_, by rw [World.step, hcall, haction]; rfl, h.edited ho hbecomes hbounded⟩

/-- Over every sequence of legal calls on a new arena, each call returns, and every string the
program has made and not dropped is in memory with the text that the calls on it give, beside
the arrays. -/
theorem strings_share_arena {memory reserveSize commitSize min : Nat} {bytes : Nat → UInt8}
    (hsmall : reserveSize + min + 4 * 2 ^ k ≤ 2 ^ 63) (hcommit : commitSize ≤ reserveSize)
    {uses : List Use}
    (hok : AtEach (World.step mapped first fuel) (World.Legal mapped fuel)
      ⟨⟨Arenas.arenaCreateMin (2 ^ k) memory reserveSize commitSize min, bytes⟩, [], []⟩ uses) :
    ∃ w, exec (World.step mapped first fuel)
        ⟨⟨Arenas.arenaCreateMin (2 ^ k) memory reserveSize commitSize min, bytes⟩, [], []⟩ uses =
      some w ∧ w.Holds mapped := by
  have hnew : World.Sound k
      ⟨⟨Arenas.arenaCreateMin (2 ^ k) memory reserveSize commitSize min, bytes⟩, [], []⟩ :=
    ⟨⟨Arenas.kept_create hsmall hcommit, .nil, rfl, fun e he => by cases he⟩,
      fun o ho => (List.not_mem_nil ho).elim, .nil⟩
  obtain ⟨w, hw, hsound⟩ := AtEach.exec_invariant (World.Sound k)
    (fun _ _ h hok => h.step hfirst hfuel hok) hnew hok
  exact ⟨w, hw, hsound.holds mapped⟩

end Runs

/-- Two strings, one of which is appended to the other before the other is appended to itself.
The second is a copy of bytes beside the arena. -/
theorem strings_share_arena_two :
    ∃ w, exec (World.step (fun a => decide (4096 ≤ a ∧ a < 8192)) firstOccurence (2 ^ 32))
        ⟨⟨Arenas.arenaCreateMin (2 ^ 12) 65536 1048576 4096 0, fun _ => 97⟩, [], []⟩
        [.makeReserve 8, .makeLength (some 4096) 3, .appendString 65544 65608,
          .appendString 65544 65544, .clear 65608] = some w ∧
      w.Holds fun a => decide (4096 ≤ a ∧ a < 8192) := by
  refine strings_share_arena (by simp [firstOccurence]) (Nat.le_refl _) (by decide) (by decide)
    (.cons ⟨by decide, ⟨by decide, by decide⟩, fun _ l hl => by cases hl⟩ ?_)
  rintro s ⟨⟩
  refine .cons ⟨⟨by decide, ⟨by decide, by decide⟩, fun _ l hl => by cases hl⟩, ?_, ?_⟩ ?_
  · rintro init ⟨⟩
    exact Or.inl (by decide)
  · rintro init ⟨⟩ i hi
    exact Or.inr (decide_eq_true ⟨Nat.le_add_right 4096 i, by omega⟩)
  rintro s ⟨⟩
  refine .cons ⟨⟨_, List.mem_cons_of_mem _ (List.mem_cons_self ..), rfl⟩,
    ⟨_, List.mem_cons_self .., rfl⟩, by decide⟩ ?_
  rintro s ⟨⟩
  refine .cons ⟨⟨_, List.mem_cons_of_mem _ (List.mem_cons_self ..), rfl⟩,
    ⟨_, List.mem_cons_of_mem _ (List.mem_cons_self ..), rfl⟩, by decide⟩ ?_
  rintro s ⟨⟩
  refine .cons ⟨_, List.mem_cons_self .., rfl⟩ ?_
  intro _ _
  exact .nil

end ScalBase.Strings.InMemory
