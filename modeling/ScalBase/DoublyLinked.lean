/-
  DoublyLinked.lean --- the intrusive list macros of `Base.h`.

  `DLPushBackT` and `DLRemoveT` work on a first pointer, a last pointer and the
  links of the nodes, and take the names of the two links as arguments, so that
  one text serves both directions.  Both are read without their misplaced
  parentheses.  A store or a load through a null pointer is the outcome `none`.

  `DLPushFront` exchanges the links but not the first and the last pointer, and
  `DLRemove` of the only node goes on through the link of that node, which is
  null.  So the list is kept as long as neither happens, and no longer.
-/
import ScalBase.Foundation.LinkedList
import ScalBase.Foundation.Run

set_option autoImplicit false

namespace ScalBase.DoublyLinked

open ScalBase.Foundation

variable {A : Type*} [Zero A] [DecidableEq A]

/-! ## The macros -/

/-- The link that a macro is told to use. -/
inductive Field where
  | next
  | prev

/-- The link of an address. -/
def link (m : Links A) : Field → A → A
  | .next => m.next
  | .prev => m.prev

/-- `p->field`. -/
def load (m : Links A) (field : Field) (p : A) : Option A :=
  if p = 0 then none else some (link m field p)

/-- `p->field = v`. -/
def store (m : Links A) (field : Field) (p v : A) : Option (Links A) :=
  if p = 0 then none
  else match field with
    | .next => some { m with next := Function.update m.next p v }
    | .prev => some { m with prev := Function.update m.prev p v }

/-- The arguments `f` and `l` of the macros, and the links of all nodes. -/
structure DList (A : Type*) where
  f : A
  l : A
  links : Links A

/-- `DLPushBackT`. -/
def dlPushBackT (s : DList A) (n : A) (Next Prev : Field) : Option (DList A) :=
  if s.f = 0 then do
    let m ← store s.links Prev n 0
    let m ← store m Next n 0
    return ⟨n, n, m⟩
  else do
    let m ← store s.links Prev n s.l
    let m ← store m Next s.l n
    let m ← store m Next n 0
    return ⟨s.f, n, m⟩

/-- `DLPushBack`. -/
def dlPushBack (s : DList A) (n : A) : Option (DList A) := dlPushBackT s n .next .prev

/-- `DLPushFront`. -/
def dlPushFront (s : DList A) (n : A) : Option (DList A) := dlPushBackT s n .prev .next

/-- `DLRemoveT`. -/
def dlRemoveT (s : DList A) (n : A) (Next Prev : Field) : Option (DList A) :=
  if s.f = n then do
    let f ← load s.links Next s.f
    let m ← store s.links Prev f 0
    return ⟨f, s.l, m⟩
  else if s.l = n then do
    let l ← load s.links Prev s.l
    let m ← store s.links Next l 0
    return ⟨s.f, l, m⟩
  else do
    let next ← load s.links Next n
    let prev ← load s.links Prev n
    let m ← store s.links Prev next prev
    let prev ← load m Prev n
    let next ← load m Next n
    let m ← store m Next prev next
    return ⟨s.f, s.l, m⟩

/-- `DLRemove`. -/
def dlRemove (s : DList A) (n : A) : Option (DList A) := dlRemoveT s n .next .prev

/-- A use of one of the macros. -/
inductive Call (A : Type*) where
  | pushBack (n : A)
  | pushFront (n : A)
  | remove (n : A)

def step (s : DList A) : Call A → Option (DList A)
  | .pushBack n => dlPushBack s n
  | .pushFront n => dlPushFront s n
  | .remove n => dlRemove s n

/-! ## What the macros are for -/

/-- The sequence that the list stands for. -/
def reference (ns : List A) : Call A → List A
  | .pushBack n => ns ++ [n]
  | .pushFront n => n :: ns
  | .remove n => ns.erase n

/-- `Next` from `f` and `Prev` from `l` list the sequence, in order and in reverse, and
`f` and `l` are null for the empty one only. -/
structure Lists (s : DList A) (ns : List A) : Prop where
  linked : Linked s.links ns
  first : s.f = ns.headD 0
  last : s.l = lastD ns
  first_null : s.f = 0 ↔ ns = []
  last_null : s.l = 0 ↔ ns = []

/-- Nodes that are pushed are not in the list, nodes that are removed are. -/
def Valid (ns : List A) : Call A → Prop
  | .pushBack n => n ≠ 0 ∧ n ∉ ns
  | .pushFront n => n ≠ 0 ∧ n ∉ ns
  | .remove n => n ∈ ns

/-- A push to the front finds the list empty, a removal does not leave it so. -/
def Clean (ns : List A) : Call A → Prop
  | .pushBack _ => True
  | .pushFront _ => ns = []
  | .remove _ => 2 ≤ ns.length

omit [DecidableEq A] in
theorem Lists.of_linked {s : DList A} {ns : List A} (h : Linked s.links ns)
    (hf : s.f = ns.headD 0) (hl : s.l = lastD ns) : Lists s ns :=
  ⟨h, hf, hl, by rw [hf]; exact headD_eq_zero h.ne_zero, by rw [hl]; exact lastD_eq_zero h.ne_zero⟩

/-! ## Pushing -/

theorem store_next (m : Links A) {p : A} (hp : p ≠ 0) (v : A) :
    store m .next p v = some { m with next := Function.update m.next p v } := if_neg hp

theorem store_prev (m : Links A) {p : A} (hp : p ≠ 0) (v : A) :
    store m .prev p v = some { m with prev := Function.update m.prev p v } := if_neg hp

theorem load_of_ne (m : Links A) (field : Field) {p : A} (hp : p ≠ 0) :
    load m field p = some (link m field p) := if_neg hp

/-- On an empty list the direction does not matter. -/
theorem push_empty {s : DList A} (h : Lists s []) {n : A} (hn : n ≠ 0) :
    dlPushBackT s n .next .prev = some ⟨n, n, s.links.link n 0 0⟩ ∧
      dlPushBackT s n .prev .next = some ⟨n, n, s.links.link n 0 0⟩ := by
  have hf : s.f = 0 := h.first
  constructor <;>
    simp [dlPushBackT, hf, store_next, store_prev, hn, Links.link]

theorem pushBack_nonempty {s : DList A} {ns : List A} (h : Lists s ns) (hns : ns ≠ []) {n : A}
    (hn : n ≠ 0) : dlPushBack s n = some ⟨s.f, n, s.links.link n (lastD ns) 0⟩ := by
  have hf : s.f ≠ 0 := fun hf => hns (h.first_null.mp hf)
  have hl : lastD ns ≠ 0 := fun hl => hns ((lastD_eq_zero h.linked.ne_zero).mp hl)
  simp [dlPushBack, dlPushBackT, hf, h.last, store_next, store_prev, hn, hl, Links.link,
    bridge_of_ne]

theorem Lists.link_back {s : DList A} {ns : List A} (h : Lists s ns) {n : A} (hn : n ≠ 0)
    (hnew : n ∉ ns) : Linked (s.links.link n (lastD ns) 0) (ns ++ [n]) := by
  have hlinked : Linked s.links (ns ++ []) := by rw [List.append_nil]; exact h.linked
  exact hlinked.link hn (by rwa [List.append_nil])

theorem pushBack_spec {s : DList A} {ns : List A} (h : Lists s ns) {n : A} (hn : n ≠ 0)
    (hnew : n ∉ ns) : ∃ t, dlPushBack s n = some t ∧ Lists t (ns ++ [n]) := by
  have hlinked := h.link_back hn hnew
  cases ns with
  | nil => exact ⟨_, (push_empty h hn).1, .of_linked hlinked rfl rfl⟩
  | cons x xs =>
    have hnonempty := pushBack_nonempty h (List.cons_ne_nil x xs) hn
    exact ⟨_, hnonempty, .of_linked hlinked h.first (lastD_concat _ _).symm⟩

theorem pushFront_iff {s : DList A} {ns : List A} (h : Lists s ns) {n : A} (hn : n ≠ 0)
    (hnew : n ∉ ns) : (∃ t, dlPushFront s n = some t ∧ Lists t (n :: ns)) ↔ ns = [] := by
  constructor
  · -- The first pointer stays at the first node, which is not the new one.
    rintro ⟨t, ht, hlists⟩
    by_contra hns
    have hf : s.f ≠ 0 := fun hf => hns (h.first_null.mp hf)
    have hl : s.l ≠ 0 := fun hl => hns (h.last_null.mp hl)
    have htf : t.f = s.f := by
      simp only [dlPushFront, dlPushBackT, hf, if_false, store_next _ hn, store_prev _ hl,
        store_prev _ hn, Option.bind_eq_bind, Option.bind_some, Option.pure_def,
        Option.some.injEq] at ht
      rw [← ht]
    have hmem : s.f ∈ ns := by
      rw [h.first]
      exact (headD_mem_or ns).resolve_left (by rwa [← h.first])
    rw [← htf, hlists.first] at hmem
    exact hnew hmem
  · rintro rfl
    exact ⟨_, (push_empty h hn).2, .of_linked (h.link_back hn hnew) rfl rfl⟩

/-! ## Removing -/

section Remove

variable {s : DList A} {xs ys : List A} {p n y : A}

omit [Zero A] [DecidableEq A] in
theorem headD_mem_concat (xs : List A) (p : A) : xs.headD p ∈ xs ++ [p] := by
  cases xs <;> simp

omit [DecidableEq A] in
theorem lastD_append_cons (xs ys : List A) (y : A) : lastD (xs ++ y :: ys) = lastD (y :: ys) := by
  obtain ⟨zs, q, hzs⟩ := (List.eq_nil_or_concat (y :: ys)).resolve_left (List.cons_ne_nil y ys)
  rw [hzs, List.concat_eq_append, ← List.append_assoc, lastD_concat, lastD_concat]

omit [DecidableEq A] in
theorem headD_append_concat (xs ys : List A) (p : A) :
    (xs ++ [p] ++ ys).headD 0 = xs.headD p := by
  rw [List.append_assoc, headD_append]
  rfl

/-- The first of two or more nodes. -/
theorem remove_head (h : Lists s (n :: y :: ys)) :
    dlRemove s n = some ⟨y, s.l, s.links.unlink n⟩ := by
  have hlinked : Linked s.links ([] ++ n :: y :: ys) := h.linked
  have hn : n ≠ 0 := fun hn => h.linked.ne_zero (by simp [hn])
  have hy : y ≠ 0 := fun hy => h.linked.ne_zero (by simp [hy])
  have hnext : s.links.next n = y := hlinked.next_mid
  have hprev : s.links.prev n = 0 := hlinked.prev_mid
  have hf : s.f = n := h.first
  simp [dlRemove, dlRemoveT, hf, load_of_ne _ _ hn, link, hnext, store_prev _ hy, Links.unlink,
    hprev, bridge_of_ne hy]

/-- The last of two or more nodes. -/
theorem remove_last (h : Lists s (xs ++ [p] ++ [n])) :
    dlRemove s n = some ⟨s.f, p, s.links.unlink n⟩ := by
  have hn : n ≠ 0 := fun hn => h.linked.ne_zero (by simp [hn])
  have hp : p ≠ 0 := fun hp => h.linked.ne_zero (by simp [hp])
  have hnext : s.links.next n = 0 := h.linked.next_mid
  have hprev : s.links.prev n = p := by rw [h.linked.prev_mid, lastD_concat]
  have hf : s.f ≠ n := by
    rw [h.first, headD_append_concat]
    exact fun heq => (List.nodup_append.mp h.linked.nodup).2.2 _ (headD_mem_concat xs p) n
      (List.mem_singleton_self n) heq
  have hl : s.l = n := by rw [h.last, lastD_concat]
  simp [dlRemove, dlRemoveT, hf, hl, load_of_ne _ _ hn, link, hprev, store_next _ hp, Links.unlink,
    hnext, bridge_of_ne hp]

/-- A node between two others. -/
theorem remove_inner (h : Lists s (xs ++ [p] ++ n :: y :: ys)) :
    dlRemove s n = some ⟨s.f, s.l, s.links.unlink n⟩ := by
  have hn : n ≠ 0 := fun hn => h.linked.ne_zero (by simp [hn])
  have hp : p ≠ 0 := fun hp => h.linked.ne_zero (by simp [hp])
  have hy : y ≠ 0 := fun hy => h.linked.ne_zero (by simp [hy])
  have hnext : s.links.next n = y := h.linked.next_mid
  have hprev : s.links.prev n = p := by rw [h.linked.prev_mid, lastD_concat]
  obtain ⟨-, hnodup, hdisj⟩ := List.nodup_append.mp h.linked.nodup
  have hny : n ∉ y :: ys := (List.nodup_cons.mp hnodup).1
  have hf : s.f ≠ n := by
    rw [h.first, headD_append_concat]
    exact fun heq => hdisj _ (headD_mem_concat xs p) n (List.mem_cons_self ..) heq
  have hl : s.l ≠ n := by
    have hzero : 0 ∉ y :: ys := fun h0 => h.linked.ne_zero (by simp_all)
    have hlast : lastD (y :: ys) ∈ y :: ys :=
      (lastD_mem_or (y :: ys)).resolve_left fun h0 =>
        List.cons_ne_nil y ys ((lastD_eq_zero hzero).mp h0)
    rw [h.last, lastD_append_cons, ← List.singleton_append, lastD_append_cons]
    exact fun heq => hny (heq ▸ hlast)
  have hne : n ≠ y := fun heq => hny (heq ▸ List.mem_cons_self ..)
  simp [dlRemove, dlRemoveT, hf, hl, load_of_ne _ _ hn, link, hnext, hprev, store_prev _ hy,
    store_next _ hp, Function.update_of_ne hne, Links.unlink, bridge_of_ne hp, bridge_of_ne hy]

/-- The only node: its link is null, and is stored through. -/
theorem remove_only (h : Lists s [n]) : dlRemove s n = none := by
  have hlinked : Linked s.links ([] ++ n :: []) := h.linked
  have hn : n ≠ 0 := fun hn => h.linked.ne_zero (by simp [hn])
  have hnext : s.links.next n = 0 := hlinked.next_mid
  have hf : s.f = n := h.first
  simp [dlRemove, dlRemoveT, hf, load_of_ne _ _ hn, link, hnext, store]

theorem remove_iff {ns : List A} (h : Lists s ns) (hmem : n ∈ ns) :
    (∃ t, dlRemove s n = some t ∧ Lists t (ns.erase n)) ↔ 2 ≤ ns.length := by
  obtain ⟨xs, ys, rfl, hnew⟩ := List.eq_append_cons_of_mem hmem
  have hunlink := h.linked.unlink
  have herase : (xs ++ n :: ys).erase n = xs ++ ys := by
    rw [List.erase_append_right _ hnew, List.erase_cons_head]
  rw [herase]
  rcases List.eq_nil_or_concat xs with rfl | ⟨xs, p, rfl⟩
  · cases ys with
    | nil => simp [remove_only h]
    | cons y ys =>
      have hl : s.l = lastD (y :: ys) := by
        rw [h.last, List.nil_append, ← List.singleton_append, lastD_append_cons]
      exact ⟨fun _ => by simp, fun _ => ⟨_, remove_head h, .of_linked hunlink rfl hl⟩⟩
  · rw [List.concat_eq_append] at *
    have hf (zs : List A) : s.f = (xs ++ [p] ++ zs).headD 0 := by
      rw [h.first, headD_append_concat, headD_append_concat]
    refine ⟨fun _ => by simp; omega, fun _ => ?_⟩
    cases ys with
    | nil => exact ⟨_, remove_last h, .of_linked hunlink (hf []) (by simp)⟩
    | cons y ys =>
      have hl : s.l = lastD (xs ++ [p] ++ y :: ys) := by
        rw [h.last, lastD_append_cons, lastD_append_cons, ← List.singleton_append,
          lastD_append_cons]
      exact ⟨_, remove_inner h, .of_linked hunlink (hf (y :: ys)) hl⟩

end Remove

/-! ## Sequences of calls -/

theorem step_iff {s : DList A} {ns : List A} {call : Call A} (h : Lists s ns)
    (hvalid : Valid ns call) :
    (∃ t, step s call = some t ∧ Lists t (reference ns call)) ↔ Clean ns call := by
  cases call with
  | pushBack n => exact iff_of_true (pushBack_spec h hvalid.1 hvalid.2) trivial
  | pushFront n => exact pushFront_iff h hvalid.1 hvalid.2
  | remove n => exact remove_iff h hvalid

/-- Before any call `f` and `l` are null. -/
def initial (m : Links A) : DList A := ⟨0, 0, m⟩

/-- A sequence of calls keeps the list after each of them, and dereferences no null
pointer, exactly when every push to the front finds it empty and no removal leaves it
empty. -/
theorem dlist_keeps_iff (m : Links A) (calls : List (Call A))
    (hvalid : AtEach (fun ns call => some (reference ns call)) Valid [] calls) :
    (∀ done, done <+: calls →
        ∃ t, exec step (initial m) done = some t ∧ Lists t (done.foldl reference [])) ↔
      AtEach (fun ns call => some (reference ns call)) Clean [] calls := by
  have hstart : Lists (initial m) [] := .of_linked (.nil m) rfl rfl
  exact simulates_iff Lists (fun s ns call h hv => @step_iff A _ _ s ns call h hv) calls hstart
    hvalid

instance Valid.decidable : ∀ (ns : List A) (call : Call A), Decidable (Valid ns call)
  | ns, .pushBack n => inferInstanceAs (Decidable (n ≠ 0 ∧ n ∉ ns))
  | ns, .pushFront n => inferInstanceAs (Decidable (n ≠ 0 ∧ n ∉ ns))
  | ns, .remove n => inferInstanceAs (Decidable (n ∈ ns))

instance Clean.decidable : ∀ (ns : List A) (call : Call A), Decidable (Clean ns call)
  | _, .pushBack _ => isTrue trivial
  | ns, .pushFront _ => inferInstanceAs (Decidable (ns = []))
  | ns, .remove _ => inferInstanceAs (Decidable (2 ≤ ns.length))

/-- Two nodes pushed to the back, and the first of them removed. -/
theorem dlist_keeps_two : ∃ t, exec step (initial ⟨fun _ => 0, fun _ => 0⟩)
    [.pushBack 1, .pushBack 2, .remove (1 : Nat)] = some t ∧ Lists t [2] := by
  exact (dlist_keeps_iff ⟨fun _ => 0, fun _ => 0⟩ [.pushBack 1, .pushBack 2, .remove (1 : Nat)]
    (by decide)).mpr (by decide) _ (List.prefix_refl _)

/-- A node pushed to the front of another one is not first. -/
theorem pushFront_lost : ¬ ∀ done, done <+: [.pushBack 1, .pushFront (2 : Nat)] →
    ∃ t, exec step (initial ⟨fun _ => 0, fun _ => 0⟩) done = some t ∧
      Lists t (done.foldl reference []) := by
  intro h
  obtain ⟨t, ht, hlists⟩ := h _ (List.prefix_refl _)
  have hf : (exec step (initial ⟨fun _ => 0, fun _ => 0⟩)
    [.pushBack 1, .pushFront (2 : Nat)]).map DList.f = some 1 := rfl
  rw [ht] at hf
  have hfirst : t.f = 2 := hlists.first
  simp [hfirst] at hf

end ScalBase.DoublyLinked
