import Mathlib.Data.List.Perm.Subperm
import MagiC.Aes.Objects

/-!
# Well-formed Object Trees

The child list of an object is read off the links. A tree is well formed if every object
that is reached from its root has a child list, if no object is in two of them, and if the
root is in none.

A routine that changes the child list of one object changes its two ends and the links of
the objects in it. All other child lists are then as before, and if no object has come
into the list the tree is still well formed.

## Main definitions

* `WellFormed`: A tree.

## Theorems

* `WellFormed.relist`: A child list has got another order, or has lost objects.
-/

namespace MagiC

namespace Aes

namespace Obj

open Chains

variable {t t' : Objs} {r p o x y c : Nat} {l m k : List Nat}

/-- The child list of an object. -/
structure Kids (t : Objs) (x : Nat) (l : List Nat) : Prop where
  sibs : Sibs t.obNext NIL x (t.obHead x) (t.obTail x) l
  self : x ∉ l
  lt : ∀ c ∈ l, c < t.size

/-- The objects that are reached from a root. -/
inductive Reach (t : Objs) (r : Nat) : Nat → Prop where
  | root : Reach t r r
  | child {x c : Nat} {l : List Nat} (hx : Reach t r x) (hl : Kids t x l) (hc : c ∈ l) : Reach t r c

/-- A tree. -/
structure WellFormed (t : Objs) (r : Nat) : Prop where
  lt : r < t.size
  kids : ∀ x, Reach t r x → ∃ l, Kids t x l
  root : ∀ x l, Reach t r x → Kids t x l → r ∉ l
  once : ∀ x y l m c, Reach t r x → Reach t r y → Kids t x l → Kids t y m → c ∈ l → c ∈ m → x = y

theorem ne_NIL (h : x < t.size) : x ≠ NIL := by
  have := t.small
  rw [NIL]
  omega

theorem Kids.nodup (h : Kids t x l) : l.Nodup := by
  rcases h.sibs with ⟨rfl, -⟩ | ⟨-, hp, -⟩
  · exact List.nodup_nil
  · exact path_nodup t.obNext (t.obHead x) x l hp h.self

theorem Kids.unique (h : Kids t x l) (h' : Kids t x m) : l = m := by
  have apart : ∀ {a b : List Nat}, Kids t x a → Kids t x b → a = [] → b = [] := by
    intro a b ha hb hnil
    by_contra hne
    have hmem := hb.sibs.head_mem hne
    rcases ha.sibs with ⟨-, hhead, -⟩ | ⟨hne', -⟩
    · exact ne_NIL (hb.lt _ hmem) hhead
    · exact hne' hnil
  by_cases hl : l = []
  · rw [hl, apart h h' hl]
  · have hm : m ≠ [] := fun hm => hl (apart h' h hm)
    exact path_unique t.obNext (t.obHead x) x l m (h.sibs.path hl).1 (h'.sibs.path hm).1 h.self
      h'.self

theorem Reach.lt (hw : WellFormed t r) (h : Reach t r x) : x < t.size := by
  cases h with
  | root => exact hw.lt
  | child _ hl hc => exact hl.lt x hc

theorem Kids.length_le (h : Kids t x l) : l.length ≤ t.size := by
  have hsub : l ⊆ List.range t.size := fun c hc => List.mem_range.mpr (h.lt c hc)
  simpa using (List.subperm_of_subset h.nodup hsub).length_le

theorem rd_ok {f : Nat → Nat} (h : x < t.size) : t.rd f x = .ok (f x) := if_pos h

theorem setNext_ok (v : Nat) (h : x < t.size) :
    t.setNext x v = .ok { t with obNext := Function.update t.obNext x v } := if_pos h

theorem setHead_ok (v : Nat) (h : x < t.size) :
    t.setHead x v = .ok { t with obHead := Function.update t.obHead x v } := if_pos h

theorem setTail_ok (v : Nat) (h : x < t.size) :
    t.setTail x v = .ok { t with obTail := Function.update t.obTail x v } := if_pos h

theorem Kids.next_brother (h : Kids t p (l ++ o :: y :: m)) : t.obNext o = y := by
  rcases (path_append t.obNext _ _ l _).mp (h.sibs.path (by simp)).1 with ⟨c, -, rfl, hy, -⟩
  exact hy

theorem Kids.next_parent (h : Kids t p (l ++ [o])) : t.obNext o = p ∧ t.obTail p = o :=
  ⟨(sibs_last_iff h.sibs List.not_mem_nil).mpr rfl, by simpa using (h.sibs.path (by simp)).2.symm⟩

theorem WellFormed.tail_ne (hw : WellFormed t r) (hp : Reach t r p) (hl : Kids t p l) (ho : o ∈ l)
    (hc : c ∈ l) : t.obTail c ≠ o := by
  have hrc := Reach.child hp hl hc
  rcases hw.kids c hrc with ⟨m, hm⟩
  intro htail
  rcases hm.sibs with ⟨-, -, hnil⟩ | ⟨hne, -⟩
  · exact ne_NIL (hl.lt o ho) (htail ▸ hnil)
  · have hmem := htail ▸ hm.sibs.mem_tail hne
    have heq := hw.once c p m l o hrc hp hm hl hmem ho
    exact hl.self (heq ▸ hc)

theorem parobLoop_spec (hw : WellFormed t r) (hp : Reach t r p) (n : Nat)
    (hl : Kids t p (l ++ o :: m)) (hn : m.length < n) : parobLoop t n o = .ok p := by
  have hplt := hp.lt hw
  -- from brother to brother, up to the last one
  induction m generalizing l o n with
  | nil =>
    rcases n with - | n
    · exact absurd hn (by simp)
    · rcases hl.next_parent with ⟨hnext, htail⟩
      rw [parobLoop, rd_ok (hl.lt o (by simp)), Outcome.ok_bind, hnext, rd_ok hplt,
        Outcome.ok_bind, htail, if_pos rfl]
      rfl
  | cons z m ih =>
    rcases n with - | n
    · exact absurd hn (by simp)
    · have hne : t.obTail z ≠ o := hw.tail_ne hp hl (by simp) (by simp)
      have happ : l ++ o :: z :: m = (l ++ [o]) ++ z :: m := by simp
      rw [parobLoop, rd_ok (hl.lt o (by simp)), Outcome.ok_bind, hl.next_brother,
        rd_ok (hl.lt z (by simp)), Outcome.ok_bind, if_neg hne]
      rw [happ] at hl
      exact ih n hl (by simpa using hn)

/-- The parent of an object is found. -/
theorem WellFormed.parentob (hw : WellFormed t r) (hp : Reach t r p) (hl : Kids t p l)
    (ho : o ∈ l) : parentob t o = .ok p := by
  rcases List.append_of_mem ho with ⟨a, b, rfl⟩
  have hlen := hl.length_le
  rw [List.length_append, List.length_cons] at hlen
  exact parobLoop_spec hw hp t.size hl (by omega)

theorem prdoLoop_spec (n : Nat) (hl : Kids t p (l ++ x :: m ++ o :: k)) (hn : m.length < n) :
    prdoLoop t o n x = .ok ((x :: m).getLast (List.cons_ne_nil x m)) := by
  induction m generalizing l x n with
  | nil =>
    rcases n with - | n
    · exact absurd hn (by simp)
    · have hx : x < t.size := hl.lt x (by simp)
      rw [List.append_assoc] at hl
      rw [prdoLoop, rd_ok hx, Outcome.ok_bind, hl.next_brother, if_pos rfl]
      rfl
  | cons z m ih =>
    rcases n with - | n
    · exact absurd hn (by simp)
    · -- the object looked for comes once
      have hne : z ≠ o := by
        have hnd := hl.nodup
        intro heq
        rw [heq] at hnd
        simp [List.nodup_append] at hnd
      have happ : l ++ x :: z :: m ++ o :: k = (l ++ [x]) ++ z :: m ++ o :: k := by simp
      have hx : x < t.size := hl.lt x (by simp)
      have hnext : t.obNext x = z := by
        rw [List.append_assoc] at hl
        exact hl.next_brother
      rw [happ] at hl
      rw [prdoLoop, rd_ok hx, Outcome.ok_bind, hnext, if_neg hne, ih n hl (by simpa using hn),
        List.getLast_cons_cons]

theorem Kids.predObjc_first (hp : p < t.size) (hl : Kids t p (o :: m)) :
    predObjc t p o = .ok NIL := by
  have hhead := (hl.sibs.path (List.cons_ne_nil o m)).1.1
  rw [predObjc, rd_ok hp, Outcome.ok_bind, if_pos hhead]
  rfl

theorem Kids.predObjc_next (hp : p < t.size) (hl : Kids t p (l ++ y :: o :: m)) :
    predObjc t p o = .ok y := by
  have hnd := hl.nodup
  have hlen := hl.length_le
  rcases l with - | ⟨z, l⟩
  · have hhead := (hl.sibs.path (by simp)).1.1
    have hne : y ≠ o := by
      intro heq
      rw [heq] at hnd
      simp at hnd
    rw [predObjc, rd_ok hp, Outcome.ok_bind, hhead, if_neg hne]
    exact prdoLoop_spec (l := []) (m := []) t.size hl (by simp at hlen ⊢; omega)
  · have hhead := (hl.sibs.path (by simp)).1.1
    have hne : z ≠ o := by
      intro heq
      rw [heq] at hnd
      simp at hnd
    have happ : z :: l ++ y :: o :: m = [] ++ z :: (l ++ [y]) ++ o :: m := by simp
    have hfuel : (l ++ [y]).length < t.size := by
      simp at hlen ⊢
      omega
    rw [happ] at hl
    rw [predObjc, rd_ok hp, Outcome.ok_bind, hhead, if_neg hne, prdoLoop_spec t.size hl hfuel]
    simp

theorem WellFormed.predObjc (hw : WellFormed t r) (hp : Reach t r p) (hl : Kids t p l)
    (ho : o ∈ l) : ∃ y, predObjc t p o = .ok y := by
  rcases List.append_of_mem ho with ⟨a, b, rfl⟩
  rcases List.eq_nil_or_concat a with rfl | ⟨a, y, rfl⟩
  · exact ⟨NIL, hl.predObjc_first (hp.lt hw)⟩
  · rw [List.concat_eq_append, List.append_assoc] at hl
    exact ⟨y, hl.predObjc_next (hp.lt hw)⟩

/-- Only the child list of one object has been touched, and the links of some objects. -/
structure Frame (t t' : Objs) (p : Nat) (l : List Nat) : Prop where
  size : t'.size = t.size
  head : ∀ x, x ≠ p → t'.obHead x = t.obHead x
  tail : ∀ x, x ≠ p → t'.obTail x = t.obTail x
  next : ∀ x, x ∉ l → t'.obNext x = t.obNext x

theorem Frame.trans {a b : Objs} (h : Frame t a p l) (h' : Frame a b p l) : Frame t b p l :=
  ⟨h'.size.trans h.size, fun x hx => (h'.head x hx).trans (h.head x hx),
    fun x hx => (h'.tail x hx).trans (h.tail x hx), fun x hx => (h'.next x hx).trans (h.next x hx)⟩

theorem Frame.mono (h : Frame t t' p l) (hsub : ∀ x ∈ l, x ∈ m) : Frame t t' p m :=
  ⟨h.size, h.head, h.tail, fun x hx => h.next x fun hxl => hx (hsub x hxl)⟩

theorem Frame.kids (h : Frame t t' p l) (hx : x ≠ p) (hm : Kids t x m) (hd : ∀ c ∈ m, c ∉ l) :
    Kids t' x m := by
  refine ⟨?_, hm.self, fun c hc => h.size ▸ hm.lt c hc⟩
  rw [h.head x hx, h.tail x hx]
  exact sibs_congr hm.sibs fun c hc => h.next c (hd c hc)

section

variable (hw : WellFormed t r) (h : Frame t t' p l) (hp : Reach t r p) (hl : Kids t p l)

include hw h hp hl

theorem Frame.others (hr : Reach t r x) (hx : x ≠ p) (hm : Kids t x m) : Kids t' x m :=
  h.kids hx hm fun c hc hcl => hx (hw.once x p m l c hr hp hm hl hc hcl)

theorem Frame.reach (hm : Kids t' p m) (hsub : ∀ c ∈ m, c ∈ l) (hx : Reach t' r x) :
    Reach t r x := by
  induction hx with
  | root => exact Reach.root
  | @child y c k _ hk hc ih =>
    by_cases hy : y = p
    · subst hy
      exact Reach.child hp hl (hsub c (hk.unique hm ▸ hc))
    · rcases hw.kids y ih with ⟨k', hk'⟩
      have heq := (h.others hw hp hl ih hy hk').unique hk
      exact Reach.child ih hk' (heq ▸ hc)

/-- A child list has got another order, or has lost objects. -/
theorem WellFormed.relist (hm : Kids t' p m) (hsub : ∀ c ∈ m, c ∈ l) : WellFormed t' r := by
  -- every child list of the new tree is part of one of the old tree
  have old : ∀ x k, Reach t' r x → Kids t' x k → ∃ k', Kids t x k' ∧ ∀ c ∈ k, c ∈ k' := by
    intro x k hx hk
    by_cases hxp : x = p
    · subst hxp
      exact ⟨l, hl, fun c hc => hsub c (hk.unique hm ▸ hc)⟩
    · have hx' := h.reach hw hp hl hm hsub hx
      rcases hw.kids x hx' with ⟨k', hk'⟩
      have heq := (h.others hw hp hl hx' hxp hk').unique hk
      exact ⟨k', hk', fun c hc => heq ▸ hc⟩
  refine ⟨h.size ▸ hw.lt, ?_, ?_, ?_⟩
  · intro x hx
    by_cases hxp : x = p
    · subst hxp
      exact ⟨m, hm⟩
    · have hx' := h.reach hw hp hl hm hsub hx
      rcases hw.kids x hx' with ⟨k, hk⟩
      exact ⟨k, h.others hw hp hl hx' hxp hk⟩
  · intro x k hx hk hr
    rcases old x k hx hk with ⟨k', hk', hsub'⟩
    exact hw.root x k' (h.reach hw hp hl hm hsub hx) hk' (hsub' r hr)
  · intro x y k j c hx hy hk hj hck hcj
    rcases old x k hx hk with ⟨k', hk', hsubk⟩
    rcases old y j hy hj with ⟨j', hj', hsubj⟩
    exact hw.once x y k' j' c (h.reach hw hp hl hm hsub hx) (h.reach hw hp hl hm hsub hy) hk' hj'
      (hsubk c hck) (hsubj c hcj)

end

end Obj

end Aes

end MagiC
