/-
  Foundation/LinkedList.lean --- doubly linked lists in a store of links.

  Addresses are of a type with a zero, which is the null link.  `Links` is the
  store: the `next` and the `prev` link of every address.  A list of addresses is
  `Linked` when `next` leads through it to null and `prev` leads back through it
  to null.

  The two directions are the same notion, `Path`, on a list and on its reverse, so
  each operation is proved once for a path: `Path.bypass` takes an element out and
  `Path.insert` puts one in.
-/
import Mathlib.Tactic

set_option autoImplicit false

namespace ScalBase.Foundation

variable {A : Type*}

/-! ## Paths -/

/-- `f` leads from each element of the list to the one after it, and from the last to
`stop`. -/
def Path (f : A → A) : List A → A → Prop
  | [], _ => True
  | x :: xs, stop => f x = xs.headD stop ∧ Path f xs stop

theorem headD_append (xs ys : List A) (stop : A) :
    (xs ++ ys).headD stop = xs.headD (ys.headD stop) := by
  cases xs <;> rfl

theorem path_append {f : A → A} {ys : List A} {stop : A} : ∀ {xs : List A},
    Path f (xs ++ ys) stop ↔ Path f xs (ys.headD stop) ∧ Path f ys stop := by
  intro xs
  induction xs with
  | nil => simp [Path]
  | cons x xs ih => rw [List.cons_append, Path, Path, headD_append, ih, and_assoc]

/-- Only the links of the elements matter. -/
theorem Path.congr {f g : A → A} {stop : A} : ∀ {xs : List A},
    (∀ x ∈ xs, g x = f x) → Path f xs stop → Path g xs stop := by
  intro xs
  induction xs with
  | nil => exact fun _ _ => trivial
  | cons x xs ih =>
    intro hsame hpath
    exact ⟨(hsame x (List.mem_cons_self ..)).trans hpath.1,
      ih (fun y hy => hsame y (List.mem_cons_of_mem x hy)) hpath.2⟩

/-- The link of the element between `xs` and `ys`. -/
theorem Path.link_mid {f : A → A} {xs ys : List A} {x stop : A}
    (h : Path f (xs ++ x :: ys) stop) : f x = ys.headD stop :=
  (path_append.mp h).2.1

/-- A path that is not empty has an element that leads to the end. -/
theorem Path.exists_end {f : A → A} {stop : A} : ∀ {xs : List A}, Path f xs stop → xs ≠ [] →
    ∃ x ∈ xs, f x = stop := by
  intro xs
  induction xs with
  | nil => exact fun _ hne => absurd rfl hne
  | cons x xs ih =>
    intro hpath _
    cases xs with
    | nil => exact ⟨x, List.mem_cons_self .., hpath.1⟩
    | cons y ys =>
      obtain ⟨z, hz, hend⟩ := ih hpath.2 (List.cons_ne_nil y ys)
      exact ⟨z, List.mem_cons_of_mem x hz, hend⟩

variable [Zero A]

/-- The last element before a cut, null when there is none. -/
def lastD (xs : List A) : A := xs.reverse.headD 0

@[simp] theorem lastD_nil : lastD ([] : List A) = 0 := rfl

@[simp] theorem lastD_concat (xs : List A) (x : A) : lastD (xs ++ [x]) = x := by simp [lastD]

@[simp] theorem lastD_reverse (xs : List A) : lastD xs.reverse = xs.headD 0 := by simp [lastD]

theorem lastD_mem_or (xs : List A) : lastD xs = 0 ∨ lastD xs ∈ xs := by
  rcases List.eq_nil_or_concat xs with rfl | ⟨xs, p, rfl⟩
  · exact Or.inl rfl
  · rw [List.concat_eq_append, lastD_concat]
    exact Or.inr (by simp)

theorem headD_mem_or (ys : List A) : ys.headD 0 = 0 ∨ ys.headD 0 ∈ ys := by
  cases ys with
  | nil => exact Or.inl rfl
  | cons y ys => exact Or.inr (List.mem_cons_self ..)

theorem headD_eq_zero {xs : List A} (h : 0 ∉ xs) : xs.headD 0 = 0 ↔ xs = [] := by
  cases xs with
  | nil => simp
  | cons y ys =>
    simp only [List.headD_cons, reduceCtorEq, iff_false]
    rintro rfl
    exact h (List.mem_cons_self ..)

theorem lastD_eq_zero {xs : List A} (h : 0 ∉ xs) : lastD xs = 0 ↔ xs = [] := by
  have hrev := @headD_eq_zero A _ xs.reverse (by rwa [List.mem_reverse])
  rwa [List.reverse_eq_nil_iff] at hrev

/-- The last element of a list is not among those of a list disjoint from it. -/
theorem ne_lastD {xs ys : List A} (hzero : 0 ∉ ys) (hdisj : List.Disjoint xs ys) {x : A}
    (hx : x ∈ ys) : x ≠ lastD xs := by
  rcases List.eq_nil_or_concat xs with rfl | ⟨xs, p, rfl⟩
  · rintro rfl
    exact hzero hx
  · rw [List.concat_eq_append] at *
    rintro rfl
    exact hdisj (by simp) hx

section

variable [DecidableEq A]

/-- Let `p` lead to `v`, unless `p` is null. -/
def bridge (f : A → A) (p v : A) : A → A := if p = 0 then f else Function.update f p v

@[simp] theorem bridge_zero (f : A → A) (v : A) : bridge f 0 v = f := if_pos rfl

theorem bridge_of_ne {f : A → A} {p : A} (hp : p ≠ 0) (v : A) :
    bridge f p v = Function.update f p v := if_neg hp

theorem bridge_apply_of_ne {f : A → A} {p x : A} (hx : x ≠ p) (v : A) : bridge f p v x = f x := by
  unfold bridge
  split_ifs
  · rfl
  · exact Function.update_of_ne hx ..

/-- Turn a path off at its end. -/
theorem Path.retarget {f : A → A} {xs : List A} {stop : A} (h : Path f xs stop) (hnodup : xs.Nodup)
    (hzero : 0 ∉ xs) (v : A) : Path (bridge f (lastD xs) v) xs v := by
  rcases List.eq_nil_or_concat xs with rfl | ⟨xs, p, rfl⟩
  · trivial
  · rw [List.concat_eq_append] at *
    have hp : p ≠ 0 := fun hp => hzero (by simp [hp])
    rw [lastD_concat, bridge_of_ne hp, path_append]
    refine ⟨(path_append.mp h).1.congr ?_, Function.update_self .., trivial⟩
    intro x hx
    refine Function.update_of_ne ?_ ..
    rintro rfl
    exact (List.nodup_append.mp hnodup).2.2 x hx x (List.mem_singleton_self x) rfl

/-- Take an element out of a path. -/
theorem Path.bypass {f : A → A} {xs ys : List A} {x stop : A} (h : Path f (xs ++ x :: ys) stop)
    (hnodup : (xs ++ x :: ys).Nodup) (hzero : 0 ∉ xs ++ x :: ys) :
    Path (bridge f (lastD xs) (f x)) (xs ++ ys) stop := by
  obtain ⟨hxs, hx, hys⟩ := path_append.mp h
  obtain ⟨hn, hn', hdisj⟩ := List.nodup_append'.mp hnodup
  simp only [List.mem_append, List.mem_cons, not_or] at hzero
  rw [path_append, ← hx]
  refine ⟨hxs.retarget hn hzero.1 _, hys.congr fun y hy => bridge_apply_of_ne ?_ _⟩
  exact ne_lastD hzero.2.2 (fun z hz hz' => hdisj hz (List.mem_cons_of_mem x hz')) hy

/-- Put an element into a path. -/
theorem Path.insert {f : A → A} {xs ys : List A} {z stop : A} (h : Path f (xs ++ ys) stop)
    (hnodup : (xs ++ ys).Nodup) (hzero : 0 ∉ xs ++ ys) (hz : z ∉ xs ++ ys) :
    Path (Function.update (bridge f (lastD xs) z) z (ys.headD stop)) (xs ++ z :: ys) stop := by
  obtain ⟨hxs, hys⟩ := path_append.mp h
  obtain ⟨hn, -, hdisj⟩ := List.nodup_append'.mp hnodup
  simp only [List.mem_append, not_or] at hzero hz
  have hother : ∀ {zs : List A} {w : A}, z ∉ zs → Path (bridge f (lastD xs) z) zs w →
      Path (Function.update (bridge f (lastD xs) z) z (ys.headD stop)) zs w := by
    intro zs w hzs hpath
    refine hpath.congr fun y hy => Function.update_of_ne ?_ ..
    rintro rfl
    exact hzs hy
  rw [path_append]
  refine ⟨hother hz.1 (hxs.retarget hn hzero.1 z), Function.update_self .., hother hz.2 ?_⟩
  exact hys.congr fun y hy => bridge_apply_of_ne (ne_lastD hzero.2 hdisj hy) z

end

/-! ## Linked lists -/

/-- The links of every address. -/
structure Links (A : Type*) where
  next : A → A
  prev : A → A

/-- The addresses of a list, linked both ways. -/
structure Linked (m : Links A) (ns : List A) : Prop where
  ne_zero : 0 ∉ ns
  nodup : ns.Nodup
  next : Path m.next ns 0
  prev : Path m.prev ns.reverse 0

namespace Linked

variable {m m' : Links A} {ns xs ys : List A} {x z : A}

theorem nil (m : Links A) : Linked m [] := ⟨List.not_mem_nil, List.nodup_nil, trivial, trivial⟩

/-- Only the links of the elements matter. -/
theorem congr (h : Linked m ns) (hnext : ∀ x ∈ ns, m'.next x = m.next x)
    (hprev : ∀ x ∈ ns, m'.prev x = m.prev x) : Linked m' ns :=
  ⟨h.ne_zero, h.nodup, h.next.congr hnext, h.prev.congr fun x hx =>
    hprev x (List.mem_reverse.mp hx)⟩

theorem next_mid (h : Linked m (xs ++ x :: ys)) : m.next x = ys.headD 0 := h.next.link_mid

theorem prev_mid (h : Linked m (xs ++ x :: ys)) : m.prev x = lastD xs := by
  have hprev := h.prev
  rw [List.reverse_append, List.reverse_cons, List.append_assoc] at hprev
  exact hprev.link_mid

end Linked

variable [DecidableEq A]

/-- Take `x` out: its neighbours lead to each other. -/
def Links.unlink (m : Links A) (x : A) : Links A where
  next := bridge m.next (m.prev x) (m.next x)
  prev := bridge m.prev (m.next x) (m.prev x)

/-- Put `z` between the neighbours `p` and `n`. -/
def Links.link (m : Links A) (z p n : A) : Links A where
  next := Function.update (bridge m.next p z) z n
  prev := Function.update (bridge m.prev n z) z p

/-- A neighbour that is no node of the list is null, so nothing else is redirected. -/
theorem bridge_neighbour {f : A → A} {xs : List A} {p v w : A} (hp : p = 0 ∨ p ∈ xs) (hw : w ∉ xs) :
    bridge f p v w = f w := by
  rcases hp with rfl | hp
  · rw [bridge_zero]
  · refine bridge_apply_of_ne ?_ v
    rintro rfl
    exact hw hp

namespace Linked

variable {m : Links A} {xs ys : List A} {x z w : A}

/-- Taking out changes the links of nodes of the list only. -/
theorem unlink_other (h : Linked m (xs ++ x :: ys)) (hw : w ∉ xs ++ ys) :
    (m.unlink x).next w = m.next w ∧ (m.unlink x).prev w = m.prev w := by
  rw [List.mem_append, not_or] at hw
  rw [Links.unlink, h.prev_mid, h.next_mid]
  exact ⟨bridge_neighbour (lastD_mem_or xs) hw.1, bridge_neighbour (headD_mem_or ys) hw.2⟩

/-- Putting in changes the links of the new node and of nodes of the list only. -/
theorem link_other (m : Links A) (hwz : w ≠ z) (hw : w ∉ xs ++ ys) :
    (m.link z (lastD xs) (ys.headD 0)).next w = m.next w ∧
      (m.link z (lastD xs) (ys.headD 0)).prev w = m.prev w := by
  rw [List.mem_append, not_or] at hw
  unfold Links.link
  simp only [Function.update_of_ne hwz]
  exact ⟨bridge_neighbour (lastD_mem_or xs) hw.1, bridge_neighbour (headD_mem_or ys) hw.2⟩

theorem unlink (h : Linked m (xs ++ x :: ys)) : Linked (m.unlink x) (xs ++ ys) := by
  have hsub : (xs ++ ys).Sublist (xs ++ x :: ys) :=
    (List.Sublist.refl xs).append (List.sublist_cons_self x ys)
  refine ⟨fun h0 => h.ne_zero (hsub.subset h0), h.nodup.sublist hsub, ?_, ?_⟩
  · rw [Links.unlink, h.prev_mid]
    exact h.next.bypass h.nodup h.ne_zero
  · -- The way back is the same on the reversed list.
    have hrev : (xs ++ x :: ys).reverse = ys.reverse ++ x :: xs.reverse := by simp
    have hprev := h.prev
    rw [hrev] at hprev
    have hback := hprev.bypass (by rw [← hrev]; exact List.nodup_reverse.mpr h.nodup)
      (by rw [← hrev, List.mem_reverse]; exact h.ne_zero)
    rw [lastD_reverse, ← h.next_mid] at hback
    rw [List.reverse_append]
    exact hback

theorem link (h : Linked m (xs ++ ys)) (hz : z ≠ 0) (hnew : z ∉ xs ++ ys) :
    Linked (m.link z (lastD xs) (ys.headD 0)) (xs ++ z :: ys) := by
  have hperm : (xs ++ z :: ys).Perm (z :: (xs ++ ys)) := List.perm_middle
  refine ⟨fun h0 => ?_, hperm.nodup_iff.mpr (List.nodup_cons.mpr ⟨hnew, h.nodup⟩), ?_, ?_⟩
  · rcases List.mem_cons.mp (hperm.mem_iff.mp h0) with h0 | h0
    · exact hz h0.symm
    · exact h.ne_zero h0
  · exact h.next.insert h.nodup h.ne_zero hnew
  · have hrev : (xs ++ ys).reverse = ys.reverse ++ xs.reverse := List.reverse_append
    have hrev' : (xs ++ z :: ys).reverse = ys.reverse ++ z :: xs.reverse := by simp
    have hprev := h.prev
    rw [hrev] at hprev
    have hback := hprev.insert (by rw [← hrev]; exact List.nodup_reverse.mpr h.nodup)
      (by rw [← hrev, List.mem_reverse]; exact h.ne_zero)
      (show z ∉ ys.reverse ++ xs.reverse by rwa [← hrev, List.mem_reverse])
    rw [lastD_reverse] at hback
    rw [hrev']
    exact hback

end Linked

end ScalBase.Foundation
