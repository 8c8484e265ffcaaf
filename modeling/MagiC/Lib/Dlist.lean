import Mathlib.Data.List.Nodup
import Mathlib.Logic.Function.Basic
import Mathlib.Tactic.Common

/-!
# Doubly Linked Lists

Nodes that are linked in both directions, with 0 in place of a missing neighbour.

`Seg` is a stretch of such a list: it says which node comes before the first one
of the stretch and which one its last node leads to, so stretches can be joined
(`seg_append`). A stretch may be given other neighbours by changing the links at
its two ends only (`seg_reseat`), and that is all that moving a node needs:
`toFront` cuts one out and puts it before the others.

## Main definitions

* `Links`: The links of all nodes, and the first node.

## Theorems

* `toFront_linked`: Moving a node to the front keeps the list linked.
-/

namespace MagiC

namespace Dlist

/-- The nodes `l` lead from `a` to `b`, and `p` is the one before them. -/
def Seg (next prev : Nat → Nat) : Nat → Nat → List Nat → Nat → Prop
  | _, a, [], b => a = b
  | p, a, x :: xs, b => a = x ∧ x ≠ 0 ∧ prev x = p ∧ Seg next prev x (next x) xs b

/-- The nodes of a list that begins at `a`. -/
def Linked (next prev : Nat → Nat) (a : Nat) (l : List Nat) : Prop := Seg next prev 0 a l 0

theorem seg_append (next prev : Nat → Nat) (p a b : Nat) (l m : List Nat) :
    Seg next prev p a (l ++ m) b ↔
      ∃ c, Seg next prev p a l c ∧ Seg next prev (l.getLastD p) c m b := by
  induction l generalizing p a with
  | nil =>
    simp only [List.nil_append, List.getLastD_nil, Seg]
    exact ⟨fun h => ⟨a, rfl, h⟩, fun ⟨c, hc, h⟩ => hc ▸ h⟩
  | cons x xs ih =>
    simp only [List.cons_append, Seg, ih, List.getLastD_cons]
    constructor
    · rintro ⟨ha, h0, hp, c, hxs, hm⟩
      exact ⟨c, ⟨ha, h0, hp, hxs⟩, hm⟩
    · rintro ⟨c, ⟨ha, h0, hp, hxs⟩, hm⟩
      exact ⟨ha, h0, hp, c, hxs, hm⟩

/-- A stretch whose first node has another predecessor and whose last node leads
    elsewhere. -/
theorem seg_reseat (next prev next' prev' : Nat → Nat) (p a c p' c' : Nat) (l : List Nat)
    (hl : Seg next prev p a l c) (hprev : ∀ x ∈ l.tail, prev' x = prev x)
    (hfirst : l ≠ [] → prev' a = p') (hnext : ∀ x ∈ l.dropLast, next' x = next x)
    (hlast : ∀ x ∈ l.getLast?, next' x = c') (hnil : l = [] → a = c') :
    Seg next' prev' p' a l c' := by
  induction l generalizing p a p' with
  | nil => exact hnil rfl
  | cons x xs ih =>
    rcases hl with ⟨rfl, h0, _, hxs⟩
    refine ⟨rfl, h0, hfirst (List.cons_ne_nil _ _), ?_⟩
    cases xs with
    | nil =>
      have ha := hlast a rfl
      exact ha
    | cons y ys =>
      rw [hnext a (by rw [List.dropLast_cons_cons]; exact List.mem_cons_self)]
      refine ih a (next a) a hxs ?_ ?_ ?_ ?_ ?_
      · exact fun z hz => hprev z (List.mem_cons_of_mem _ hz)
      · intro _
        rcases hxs with ⟨hy, _, hpy, _⟩
        rw [hy, hprev y List.mem_cons_self, hpy]
      · intro z hz
        exact hnext z (by rw [List.dropLast_cons_cons]; exact List.mem_cons_of_mem _ hz)
      · exact fun z hz => hlast z (by rw [List.getLast?_cons_cons]; exact hz)
      · exact fun h => absurd h (List.cons_ne_nil _ _)

theorem seg_last (next prev : Nat → Nat) (p a c : Nat) (l : List Nat)
    (hl : Seg next prev p a l c) : ∀ x ∈ l.getLast?, next x = c := by
  induction l generalizing p a with
  | nil =>
    intro x hx
    simp only [List.getLast?_nil, Option.mem_def, reduceCtorEq] at hx
  | cons x xs ih =>
    rcases hl with ⟨rfl, _, _, hxs⟩
    cases xs with
    | nil =>
      rintro y ⟨⟩
      exact hxs
    | cons y ys =>
      intro z hz
      rw [List.getLast?_cons_cons] at hz
      exact ih a (next a) hxs z hz

theorem seg_congr (next prev next' prev' : Nat → Nat) (p a c : Nat) (l : List Nat)
    (hl : Seg next prev p a l c) (hprev : ∀ x ∈ l, prev' x = prev x)
    (hnext : ∀ x ∈ l, next' x = next x) : Seg next' prev' p a l c := by
  refine seg_reseat next prev next' prev' p a c p c l hl ?_ ?_ ?_ ?_ ?_
  · exact fun x hx => hprev x (List.mem_of_mem_tail hx)
  · intro hne
    cases l with
    | nil => exact absurd rfl hne
    | cons x xs =>
      rcases hl with ⟨rfl, _, hp, _⟩
      rw [hprev a List.mem_cons_self, hp]
  · exact fun x hx => hnext x ((List.dropLast_prefix l).subset hx)
  · intro x hx
    rw [hnext x (List.mem_of_getLast? hx)]
    exact seg_last next prev p a c l hl x hx
  · rintro rfl
    exact hl

theorem seg_ne_zero (next prev : Nat → Nat) (p a c : Nat) (l : List Nat)
    (hl : Seg next prev p a l c) : ∀ x ∈ l, x ≠ 0 := by
  induction l generalizing p a with
  | nil => exact fun x hx => absurd hx List.not_mem_nil
  | cons y ys ih =>
    rcases hl with ⟨_, h0, _, hys⟩
    intro x hx
    rcases List.mem_cons.mp hx with rfl | hx
    · exact h0
    · exact ih y (next y) hys x hx

/-- The links of all nodes, and the first node of a list. -/
structure Links where
  next : Nat → Nat
  prev : Nat → Nat
  first : Nat

/-- Cut a node out and link it in before the first one, unless it is the first
    one. -/
def toFront (ls : Links) (a : Nat) : Links :=
  if ls.prev a = 0 then ls
  else
    let next := Function.update ls.next (ls.prev a) (ls.next a)
    let prev := if ls.next a = 0 then ls.prev
      else Function.update ls.prev (ls.next a) (ls.prev a)
    { next := Function.update next a ls.first
      prev := Function.update (Function.update prev ls.first a) a 0
      first := a }

theorem seg_middle (next prev : Nat → Nat) (first a : Nat) (l m : List Nat)
    (hl : Linked next prev first (l ++ a :: m)) :
    Seg next prev 0 first l a ∧ prev a = l.getLastD 0 ∧ a ≠ 0 ∧ Seg next prev a (next a) m 0 := by
  rcases (seg_append next prev 0 first 0 l (a :: m)).mp hl with ⟨c, hseg, rfl, h0, hprev, hm⟩
  exact ⟨hseg, hprev, h0, hm⟩

theorem toFront_of_prev (ls : Links) (a : Nat) (h : ls.prev a ≠ 0) :
    (toFront ls a).first = a ∧ (toFront ls a).next a = ls.first ∧ (toFront ls a).prev a = 0 ∧
      (∀ x, x ≠ a → (toFront ls a).next x = if x = ls.prev a then ls.next a else ls.next x) ∧
      (∀ x, x ≠ a → x ≠ ls.first → (toFront ls a).prev x
        = if x = ls.next a ∧ x ≠ 0 then ls.prev a else ls.prev x) ∧
      (ls.first ≠ a → (toFront ls a).prev ls.first = a) := by
  unfold toFront
  rw [if_neg h]
  refine ⟨rfl, Function.update_self .., Function.update_self .., ?_, ?_, ?_⟩
  · intro x hx
    simp only [Function.update_of_ne hx, Function.update_apply]
  · intro x hx hfirst
    simp only [Function.update_of_ne hx, Function.update_of_ne hfirst]
    by_cases h0 : ls.next a = 0
    · rw [if_pos h0, if_neg]
      rintro ⟨rfl, hne⟩
      exact hne h0
    · rw [if_neg h0, Function.update_apply]
      by_cases hxn : x = ls.next a
      · rw [if_pos hxn, if_pos ⟨hxn, hxn ▸ h0⟩]
      · rw [if_neg hxn, if_neg fun hc => hxn hc.1]
  · intro hne
    simp only [Function.update_of_ne hne, Function.update_self]

/-- The list is linked as before, with one node in front of the others. -/
theorem toFront_linked (ls : Links) (a : Nat) (l m : List Nat) (hnd : (l ++ a :: m).Nodup)
    (hl : Linked ls.next ls.prev ls.first (l ++ a :: m)) :
    Linked (toFront ls a).next (toFront ls a).prev (toFront ls a).first (a :: (l ++ m)) := by
  rcases seg_middle ls.next ls.prev ls.first a l m hl with ⟨hseg, hprev, h0, hm⟩
  cases l with
  | nil =>
    -- The node is the first one already.
    rw [List.getLastD_nil] at hprev
    unfold toFront
    rw [if_pos hprev]
    exact hl
  | cons b l =>
    have hlne : ∀ x ∈ b :: l, x ≠ 0 := seg_ne_zero _ _ _ _ _ _ hseg
    obtain ⟨z, hz⟩ : ∃ z, (b :: l).getLast? = some z :=
      ⟨_, List.getLast?_eq_some_getLast (List.cons_ne_nil b l)⟩
    have hzp : ls.prev a = z := by
      rw [hprev, List.getLastD_eq_getLast?, hz]
      rfl
    have hzmem : z ∈ b :: l := List.mem_of_getLast? hz
    rcases toFront_of_prev ls a (by rw [hzp]; exact hlne z hzmem) with
      ⟨hfirst, hnexta, hpreva, hnext, hprev', hprevf⟩
    have hb : ls.first = b := hseg.1
    rcases List.nodup_append.mp hnd with ⟨hndl, hndm, hdisj⟩
    have ham : a ∉ m := (List.nodup_cons.mp hndm).1
    have hla : ∀ x ∈ b :: l, x ≠ a := fun x hx => hdisj x hx a List.mem_cons_self
    have hlm : ∀ x ∈ b :: l, ∀ y ∈ m, x ≠ y :=
      fun x hx y hy => hdisj x hx y (List.mem_cons_of_mem _ hy)
    have hma : ∀ x ∈ m, x ≠ a := fun x hx hxa => ham (hxa ▸ hx)
    unfold Linked
    rw [hfirst]
    refine ⟨rfl, h0, hpreva, ?_⟩
    rw [hnexta]
    refine (seg_append _ _ a ls.first 0 (b :: l) m).mpr ⟨ls.next a, ?_, ?_⟩
    · -- The nodes before it: the first one has it as predecessor, the last one its successor.
      refine seg_reseat ls.next ls.prev _ _ 0 ls.first a a (ls.next a) (b :: l) hseg ?_ ?_ ?_ ?_ ?_
      · intro x hx
        have hxl : x ∈ b :: l := List.mem_of_mem_tail hx
        have hxb : x ≠ ls.first := by
          rw [hb]
          rintro rfl
          exact (List.nodup_cons.mp hndl).1 hx
        rw [hprev' x (hla x hxl) hxb, if_neg]
        rintro ⟨hxn, hx0⟩
        -- The successor is not among the nodes before it.
        cases m with
        | nil => exact hx0 (hxn.trans hm)
        | cons y ys => exact hlm x hxl y List.mem_cons_self (hxn.trans hm.1)
      · exact fun _ => hprevf (by rw [hb]; exact hla b List.mem_cons_self)
      · intro x hx
        have hxl : x ∈ b :: l := (List.dropLast_prefix _).subset hx
        rw [hnext x (hla x hxl), if_neg]
        rw [hzp]
        rintro rfl
        -- The last one is not among those before the last one.
        have hsplit := List.dropLast_append_getLast? x hz
        rw [← hsplit] at hndl
        exact (List.nodup_append.mp hndl).2.2 x hx x List.mem_cons_self rfl
      · intro x hx
        have hxz : x = z := by
          rw [hz] at hx
          exact (Option.some.inj hx).symm
        rw [hxz, hnext z (hla z hzmem), if_pos hzp.symm]
      · exact fun h => absurd h (List.cons_ne_nil _ _)
    · -- The nodes behind it.
      have hlast : (b :: l).getLastD a = z := by
        rw [List.getLastD_eq_getLast?, hz]
        rfl
      rw [hlast]
      refine seg_reseat ls.next ls.prev _ _ a (ls.next a) 0 z 0 m hm ?_ ?_ ?_ ?_ ?_
      · intro x hx
        have hxm : x ∈ m := List.mem_of_mem_tail hx
        have hxf : x ≠ ls.first := by
          rw [hb]
          exact fun h => hlm b List.mem_cons_self x hxm h.symm
        rw [hprev' x (hma x hxm) hxf, if_neg]
        rintro ⟨hxn, _⟩
        cases m with
        | nil => exact absurd hx List.not_mem_nil
        | cons y ys =>
          rw [hxn.trans hm.1] at hx
          exact (List.nodup_cons.mp (List.nodup_cons.mp hndm).2).1 hx
      · intro hne
        cases m with
        | nil => exact absurd rfl hne
        | cons y ys =>
          have hy := hm.1
          have hy0 := hm.2.1
          rw [hy, hprev' y (hma y List.mem_cons_self) (by
            rw [hb]; exact fun h => hlm b List.mem_cons_self y List.mem_cons_self h.symm),
            if_pos ⟨hy.symm, hy0⟩, hzp]
      · intro x hx
        have hxm : x ∈ m := (List.dropLast_prefix _).subset hx
        rw [hnext x (hma x hxm), if_neg]
        rw [hzp]
        exact fun h => hlm z hzmem x hxm h.symm
      · intro x hx
        have hxm : x ∈ m := List.mem_of_getLast? hx
        rw [hnext x (hma x hxm), if_neg]
        · exact seg_last _ _ _ _ _ _ hm x hx
        · rw [hzp]
          exact fun h => hlm z hzmem x hxm h.symm
      · rintro rfl
        exact hm

end Dlist

end MagiC
