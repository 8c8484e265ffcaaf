import Mathlib.Algebra.Group.Nat.Defs
import Mathlib.Data.List.Nodup
import Mathlib.Logic.Equiv.Basic
import Mathlib.Tactic.Common

/-!
# Sorting with Gaps

The elements that are a gap apart are sorted by insertion, for smaller and smaller gaps.

Whatever the gaps are, the elements are only moved. With the gap one, all that comes before
an element is in order when the element is inserted, so the last pass alone makes the order.

## Main definitions

* `Shuffled`: The elements have only been moved.

## Theorems

* `gapSort_ascending`: They are in order.
-/

namespace MagiC

namespace Gapsort

section

variable {α : Type} (gt : α → α → Prop) [DecidableRel gt]

def swap (a : Nat → α) (i j : Nat) : Nat → α := a ∘ Equiv.swap i j

/-- The element at `r + g` is exchanged with greater ones in front of it. -/
def sink (g : Nat) : Nat → (Nat → α) → Nat → Nat → α
  | 0, a, _ => a
  | n + 1, a, r =>
    if gt (a r) (a (r + g)) then
      if g ≤ r then sink g n (swap a r (r + g)) (r - g) else swap a r (r + g)
    else a

/-- This is done with `s` elements from the one at `r + g` on. -/
def pass (g : Nat) : Nat → Nat → (Nat → α) → Nat → α
  | 0, _, a => a
  | s + 1, r, a => pass g s (r + 1) (sink gt g (r + 1) a r)

/-- The gaps are halved. -/
def gapSort (n : Nat) : Nat → Nat → (Nat → α) → Nat → α
  | 0, _, a => a
  | f + 1, g, a => if g = 0 then a else gapSort n f (g / 2) (pass gt g (n - g) 0 a)

/-- The first `n` elements have only been moved, and the others have not. -/
def Shuffled (n : Nat) (a b : Nat → α) : Prop :=
  ∃ e : Equiv.Perm Nat, (∀ i, n ≤ i → e i = i) ∧ b = a ∘ e

/-- No element is greater than one behind it, up to the element `n`. -/
def Ascending (a : Nat → α) (n : Nat) : Prop := ∀ p q, p < q → q < n → ¬ gt (a p) (a q)

/-- Some elements can be put in order. -/
structure Ordered (S : α → Prop) : Prop where
  total : ∀ x y, S x → S y → ¬ gt x y ∨ ¬ gt y x
  trans : ∀ x y z, S x → S y → S z → ¬ gt x y → ¬ gt y z → ¬ gt x z

end

section

variable {α : Type} {gt : α → α → Prop} [DecidableRel gt] {a b c : Nat → α} {n g r i j : Nat}
  {S : α → Prop}

theorem Shuffled.refl (n : Nat) (a : Nat → α) : Shuffled n a a := ⟨Equiv.refl _, fun _ _ => rfl,
    rfl⟩

theorem Shuffled.trans (h : Shuffled n a b) (h' : Shuffled n b c) : Shuffled n a c := by
  rcases h with ⟨e, he, rfl⟩
  rcases h' with ⟨e', he', rfl⟩
  refine ⟨e'.trans e, fun i hi => ?_, rfl⟩
  rw [Equiv.trans_apply, he' i hi, he i hi]

theorem shuffled_swap (a : Nat → α) (hi : i < n) (hj : j < n) : Shuffled n a (swap a i j) :=
  ⟨Equiv.swap i j, fun _ hk => Equiv.swap_apply_of_ne_of_ne (by omega) (by omega), rfl⟩

theorem perm_lt {e : Equiv.Perm Nat} (he : ∀ i, n ≤ i → e i = i) (hi : i < n) : e i < n := by
  by_contra hge
  have hfix := he (e i) (Nat.le_of_not_lt hge)
  rw [e.injective hfix] at hge
  exact hge hi

theorem Shuffled.mem (h : Shuffled n a b) (hS : ∀ i < n, S (a i)) : ∀ i < n, S (b i) := by
  rcases h with ⟨e, he, rfl⟩
  exact fun i hi => hS (e i) (perm_lt he hi)

theorem Shuffled.perm (h : Shuffled n a b) :
    ((List.range n).map b).Perm ((List.range n).map a) := by
  rcases h with ⟨e, he, rfl⟩
  rw [← List.map_map]
  refine List.Perm.map a ((List.perm_ext_iff_of_nodup ?_ List.nodup_range).mpr fun x => ?_)
  · exact List.nodup_range.map e.injective
  · rw [List.mem_map, List.mem_range]
    constructor
    · rintro ⟨i, hi, rfl⟩
      exact perm_lt he (List.mem_range.mp hi)
    · intro hx
      refine ⟨e.symm x, List.mem_range.mpr (perm_lt (fun i hi => ?_) hx), e.apply_symm_apply x⟩
      rw [Equiv.symm_apply_eq, he i hi]

theorem sink_shuffled (f : Nat) (hr : r + g < n) : Shuffled n a (sink gt g f a r) := by
  induction f generalizing a r with
  | zero => exact Shuffled.refl n a
  | succ f ih =>
    rw [sink]
    have hswap := shuffled_swap a (by omega : r < n) hr
    split
    · split
      · exact hswap.trans (ih (by omega))
      · exact hswap
    · exact Shuffled.refl n a

theorem pass_shuffled (s : Nat) (hr : r + s + g ≤ n) : Shuffled n a (pass gt g s r a) := by
  induction s generalizing a r with
  | zero => exact Shuffled.refl n a
  | succ s ih => exact (sink_shuffled (r + 1) (by omega)).trans (ih (by omega))

/-- The elements have only been moved. -/
theorem gapSort_shuffled (f : Nat) (hg : g ≤ n) : Shuffled n a (gapSort gt n f g a) := by
  induction f generalizing a g with
  | zero => exact Shuffled.refl n a
  | succ f ih =>
    rw [gapSort]
    split
    · exact Shuffled.refl n a
    · exact (pass_shuffled (n - g) (by omega)).trans (ih (by omega))

theorem sink_ascending (hS : Ordered gt S) (f : Nat) (hf : r < f) (hri : r + 1 ≤ i)
    (hmem : ∀ p ≤ i, S (a p))
    (hrest : ∀ p q, p < q → q ≤ i → p ≠ r + 1 → q ≠ r + 1 → ¬ gt (a p) (a q))
    (hself : ∀ q, r + 1 < q → q ≤ i → ¬ gt (a (r + 1)) (a q)) :
    Ascending gt (sink gt 1 f a r) (i + 1) := by
  induction f generalizing a r with
  | zero => exact absurd hf (Nat.not_lt_zero _)
  | succ f ih =>
    have hle : ∀ p, p ≠ r → p ≠ r + 1 → swap a r (r + 1) p = a p := fun p h h' =>
      congrArg a (Equiv.swap_apply_of_ne_of_ne h h')
    have hat : swap a r (r + 1) r = a (r + 1) := congrArg a (Equiv.swap_apply_left _ _)
    have hnext : swap a r (r + 1) (r + 1) = a r := congrArg a (Equiv.swap_apply_right _ _)
    rw [sink]
    by_cases hgt : gt (a r) (a (r + 1))
    · -- the element goes down by one, and is smaller than what it has been exchanged with
      have hless : ¬ gt (a (r + 1)) (a r) :=
        (hS.total _ _ (hmem r (by omega)) (hmem (r + 1) hri)).resolve_left (not_not.mpr hgt)
      have hmem' : ∀ p ≤ i, S (swap a r (r + 1) p) := fun p hp =>
        (shuffled_swap a (by omega : r < i + 1) (by omega)).mem
          (fun q hq => hmem q (Nat.le_of_lt_succ hq)) p (Nat.lt_succ_of_le hp)
      have hrest' : ∀ p q, p < q → q ≤ i → p ≠ r → q ≠ r →
          ¬ gt (swap a r (r + 1) p) (swap a r (r + 1) q) := by
        intro p q hpq hq hpr hqr
        by_cases hp1 : p = r + 1
        · rw [hp1, hnext, hle q hqr (by omega)]
          exact hrest r q (by omega) hq (by omega) (by omega)
        · by_cases hq1 : q = r + 1
          · rw [hq1, hnext, hle p hpr hp1]
            exact hrest p r (by omega) (by omega) hp1 (by omega)
          · rw [hle p hpr hp1, hle q hqr hq1]
            exact hrest p q hpq hq hp1 hq1
      have hself' : ∀ q, r < q → q ≤ i → ¬ gt (swap a r (r + 1) r) (swap a r (r + 1) q) := by
        intro q hrq hq
        rw [hat]
        by_cases hq1 : q = r + 1
        · rw [hq1, hnext]
          exact hless
        · rw [hle q (by omega) hq1]
          exact hself q (by omega) hq
      rw [if_pos hgt]
      by_cases hr : 1 ≤ r
      · rw [if_pos hr]
        rcases Nat.exists_eq_add_of_le' hr with ⟨r, rfl⟩
        exact ih (by omega) (by omega) hmem' hrest' hself'
      · rw [if_neg hr]
        intro p q hpq hq
        by_cases hp : p = r
        · rw [hp]
          exact hself' q (by omega) (by omega)
        · exact hrest' p q hpq (by omega) hp (by omega)
    · -- the element is where it belongs, as what is in front is not greater than `a r`
      rw [if_neg hgt]
      intro p q hpq hq
      by_cases hp : p = r + 1
      · rw [hp]
        exact hself q (by omega) (by omega)
      · by_cases hq1 : q = r + 1
        · rw [hq1]
          by_cases hpr : p = r
          · rw [hpr]
            exact hgt
          · exact hS.trans _ _ _ (hmem p (by omega)) (hmem r (by omega)) (hmem (r + 1) hri)
              (hrest p r (by omega) (by omega) hp (by omega)) hgt
        · exact hrest p q hpq (by omega) hp hq1

theorem pass_ascending (hS : Ordered gt S) (s : Nat) (hr : r + s + 1 ≤ n) (hmem : ∀ p < n, S (a p))
    (h : Ascending gt a (r + 1)) : Ascending gt (pass gt 1 s r a) (r + 1 + s) := by
  induction s generalizing a r with
  | zero => exact h
  | succ s ih =>
    have hsink : Ascending gt (sink gt 1 (r + 1) a r) (r + 1 + 1) :=
      sink_ascending hS (r + 1) (Nat.lt_succ_self r) (Nat.le_refl _) (fun p hp => hmem p
        (by omega))
        (fun p q hpq hq _ hq1 => h p q hpq (by omega)) fun q hq hq' => absurd hq' (by omega)
    have hrun := ih (by omega) ((sink_shuffled (r + 1) (by omega)).mem hmem) hsink
    rwa [Nat.add_right_comm (r + 1) 1 s] at hrun

/-- The last pass puts the elements in order. -/
theorem gapSort_ascending (hS : Ordered gt S) (f : Nat) (hg : 0 < g) (hgn : g < n) (hf : g < 2 ^ f)
    (hmem : ∀ p < n, S (a p)) : Ascending gt (gapSort gt n f g a) n := by
  induction f generalizing a g with
  | zero => omega
  | succ f ih =>
    rw [gapSort, if_neg (by omega)]
    have hshuf : Shuffled n a (pass gt g (n - g) 0 a) := pass_shuffled (n - g) (by omega)
    by_cases h1 : g = 1
    · have hpass := pass_ascending (r := 0) hS (n - 1) (by omega) hmem fun p q hpq hq => by omega
      have hstop : ∀ b : Nat → α, gapSort gt n f (1 / 2) b = b := by
        intro b
        cases f with
        | zero => rfl
        | succ f => exact if_pos rfl
      rw [h1, hstop]
      rwa [Nat.zero_add, Nat.add_sub_cancel' (by omega)] at hpass
    · exact ih (by omega) (by omega) (by rw [Nat.pow_succ] at hf; omega) (hshuf.mem hmem)

end

end Gapsort

end MagiC
