import Mathlib.Tactic.Common

/-!
# Rooted Trees

A tree is given by its edges: every node has slots, and a slot may lead to a
node. Each node except for the root is led to by one slot, and all of them are
reached from the root.

To move a subtree is to clear the slot that leads to it and to let another one
lead there. If the new slot does not lie in the subtree, the result is a tree
again, and what was reached is still reached.

## Main definitions

* `Tree`: The edges form a tree.

## Theorems

* `Shifted.tree`: A tree stays a tree.
-/

namespace MagiC

namespace Rooted

section

variable {ν κ : Type}

/-- A node is reached from another one through slots. -/
inductive Reach (e : ν → κ → Option ν) (r : ν) : ν → Prop where
  | root : Reach e r r
  | step (s : ν) (k : κ) (x : ν) : Reach e r s → e s k = some x → Reach e r x

/-- The slots form a tree: none leads to the root, no two lead to the same node, and every node
    that one leads to is reached from the root. -/
structure Tree (e : ν → κ → Option ν) (r : ν) : Prop where
  root : ∀ s k, e s k ≠ some r
  once : ∀ s k s' k' x, e s k = some x → e s' k' = some x → s = s' ∧ k = k'
  reach : ∀ s k x, e s k = some x → Reach e r x

/-- The subtree `x` has been moved from the slot `k` of `o` to the slot `k'` of `n`. -/
structure Shifted (e e' : ν → κ → Option ν) (o : ν) (k : κ) (n : ν) (k' : κ) (x : ν) : Prop where
  old : e o k = some x
  free : e n k' = none ∨ (n = o ∧ k' = k)
  new : e' n k' = some x
  gone : e' o k = none ∨ (n = o ∧ k' = k)
  rest : ∀ s p, ¬ (s = o ∧ p = k) → ¬ (s = n ∧ p = k') → e' s p = e s p

variable {e e' : ν → κ → Option ν} {r o n x : ν} {k k' : κ}

theorem Reach.trans {s t : ν} (hs : Reach e r s) (ht : Reach e s t) : Reach e r t := by
  induction ht with
  | root => exact hs
  | step u p y _ hy ih => exact .step u p y ih hy

/-- A slot does not lead back to where the way to it came from. -/
theorem Tree.acyclic (ht : Tree e r) {s : ν} (hs : Reach e r s) :
    ∀ y p, e s p = some y → ¬ Reach e y s := by
  induction hs with
  | root =>
    intro y p hy hback
    cases hback with
    | root => exact ht.root r p hy
    | step u q _ _ hq => exact ht.root u q hq
  | step u q z _ hz ih =>
    intro y p hy hback
    cases hback with
    | root =>
      -- The slot leads to the node itself, so the way came from there.
      have huz := (ht.once _ _ _ _ _ hy hz).1
      rw [← huz] at hz ih
      exact ih z q hz .root
    | step v q' _ hv hq' =>
      have hvu := (ht.once _ _ _ _ _ hq' hz).1
      rw [hvu] at hv
      exact ih z q hz ((Reach.step z p y .root hy).trans hv)

theorem Shifted.edge (hm : Shifted e e' o k n k' x) {s y : ν} {p : κ} (hy : e' s p = some y) :
    (s = n ∧ p = k' ∧ y = x) ∨ (e s p = some y ∧ ¬ (s = o ∧ p = k)) := by
  by_cases hnew : s = n ∧ p = k'
  · have hy' := hm.new
    rw [← hnew.1, ← hnew.2, hy] at hy'
    exact .inl ⟨hnew.1, hnew.2, Option.some.inj hy'⟩
  · right
    have hold : ¬ (s = o ∧ p = k) := by
      rintro ⟨rfl, rfl⟩
      rcases hm.gone with h0 | ⟨hn, hk⟩
      · rw [h0] at hy
        cases hy
      · exact hnew ⟨hn.symm, hk.symm⟩
    rw [← hm.rest s p hold hnew]
    exact ⟨hy, hold⟩

theorem Shifted.keeps (hm : Shifted e e' o k n k' x) {s y : ν} {p : κ} (hy : e s p = some y)
    (hold : ¬ (s = o ∧ p = k)) : e' s p = some y := by
  have hnew : ¬ (s = n ∧ p = k') := by
    rintro ⟨rfl, rfl⟩
    rcases hm.free with h0 | hsame
    · rw [h0] at hy
      cases hy
    · exact hold hsame
  rw [hm.rest s p hold hnew]
  exact hy

theorem Shifted.reach_outside (hm : Shifted e e' o k n k' x) {s : ν} (hs : Reach e r s) :
    ¬ Reach e x s → Reach e' r s := by
  induction hs with
  | root => exact fun _ => .root
  | step u p y _ hy ih =>
    intro hxy
    have hxu : ¬ Reach e x u := fun hu => hxy (.step u p y hu hy)
    refine .step u p y (ih hxu) (hm.keeps hy ?_)
    rintro ⟨rfl, rfl⟩
    rw [hm.old] at hy
    exact hxy (Option.some.inj hy ▸ .root)

theorem Shifted.reach (ht : Tree e r) (hm : Shifted e e' o k n k' x) (hn : Reach e r n)
    (hx : ¬ Reach e x n) {s : ν} (hs : Reach e r s) : Reach e' r s := by
  have hxnew : Reach e' r x := .step n k' x (hm.reach_outside hn hx) hm.new
  by_cases hxs : Reach e x s
  · -- The way from the subtree's root on is what it was.
    induction hxs with
    | root => exact hxnew
    | step u p y hu hy ih =>
      have hru : Reach e r u := (ht.reach o k x hm.old).trans hu
      by_cases hold : u = o ∧ p = k
      · rw [hold.1, hold.2, hm.old] at hy
        exact Option.some.inj hy ▸ hxnew
      · exact .step u p y (ih hru) (hm.keeps hy hold)
  · exact hm.reach_outside hs hxs

theorem Shifted.tree (ht : Tree e r) (hm : Shifted e e' o k n k' x) (hn : Reach e r n)
    (hx : ¬ Reach e x n) : Tree e' r where
  root := by
    intro s p hr
    rcases hm.edge hr with ⟨_, _, rfl⟩ | ⟨hold, _⟩
    · exact ht.root o k hm.old
    · exact ht.root s p hold
  once := by
    intro s p s' p' y hy hy'
    rcases hm.edge hy with ⟨rfl, rfl, rfl⟩ | ⟨hold, hne⟩
    · rcases hm.edge hy' with ⟨rfl, rfl, _⟩ | ⟨hold', hne'⟩
      · exact ⟨rfl, rfl⟩
      · exact absurd (ht.once s' p' o k y hold' hm.old) hne'
    · rcases hm.edge hy' with ⟨rfl, rfl, rfl⟩ | ⟨hold', _⟩
      · exact absurd (ht.once s p o k y hold hm.old) hne
      · exact ht.once s p s' p' y hold hold'
  reach := by
    intro s p y hy
    rcases hm.edge hy with ⟨rfl, rfl, rfl⟩ | ⟨hold, _⟩
    · exact hm.reach ht hn hx (ht.reach o k y hm.old)
    · exact hm.reach ht hn hx (ht.reach s p y hold)

end

end Rooted

end MagiC
