import Mathlib.Data.Fintype.Card
import Mathlib.Data.Finset.Card
import Mathlib.Tactic.Common

/-!
# Counting the Cells of a Table

How many cells of a finite table hold a value.

A counter beside a table stays right when every write to a cell moves it along:
the value that leaves the cell is counted one less, the value that comes in one
more. `uses_update` says both at once, so that a write of the value that is
there already is no special case.

## Main definitions

* `uses`: How many cells hold a value.

## Theorems

* `uses_le`: There are no more uses than cells.
-/

namespace MagiC

namespace Census

section

variable {ι α : Type} [Fintype ι] [DecidableEq α]

/-- How many cells of the table hold the value. -/
def uses (t : ι → α) (a : α) : Nat := (Finset.univ.filter fun i => t i = a).card

theorem uses_pos_iff {t : ι → α} {a : α} : 0 < uses t a ↔ ∃ i, t i = a := by
  unfold uses
  rw [Finset.card_pos]
  constructor
  · intro h
    rcases h with ⟨i, hi⟩
    exact ⟨i, (Finset.mem_filter.mp hi).2⟩
  · intro h
    rcases h with ⟨i, hi⟩
    exact ⟨i, Finset.mem_filter.mpr ⟨Finset.mem_univ i, hi⟩⟩

theorem uses_eq_zero {t : ι → α} {a : α} (h : ∀ i, t i ≠ a) : uses t a = 0 := by
  by_contra hne
  rcases uses_pos_iff.mp (Nat.pos_of_ne_zero hne) with ⟨i, hi⟩
  exact h i hi

/-- Two tables that hold a value in the same cells. -/
theorem uses_congr {t t' : ι → α} {a : α} (h : ∀ i, t i = a ↔ t' i = a) :
    uses t a = uses t' a := by
  unfold uses
  congr 1
  ext i
  simp only [Finset.mem_filter, Finset.mem_univ, true_and]
  exact h i

theorem uses_le (t : ι → α) (a : α) : uses t a ≤ Fintype.card ι := by
  unfold uses
  exact Finset.card_le_univ _

variable [DecidableEq ι]

theorem uses_eq_countP {t : ι → α} {a : α} {l : List ι} (hl : l.Nodup)
    (hall : ∀ i, t i = a → i ∈ l) : uses t a = l.countP fun i => decide (t i = a) := by
  unfold uses
  rw [List.countP_eq_length_filter, ← List.toFinset_card_of_nodup (hl.filter _)]
  congr 1
  ext i
  simp only [Finset.mem_filter, Finset.mem_univ, true_and, List.mem_toFinset, List.mem_filter,
    decide_eq_true_eq]
  constructor
  · intro hi
    exact ⟨hall i hi, hi⟩
  · intro hi
    exact hi.2

/-- The cells other than one that hold the value. -/
def elsewhere (t : ι → α) (i : ι) (a : α) : Nat :=
  (Finset.univ.filter fun j => j ≠ i ∧ t j = a).card

theorem uses_split (t : ι → α) (i : ι) (a : α) :
    uses t a = elsewhere t i a + if t i = a then 1 else 0 := by
  unfold uses elsewhere
  by_cases h : t i = a
  · rw [if_pos h]
    have hset : (Finset.univ.filter fun j => t j = a)
        = insert i (Finset.univ.filter fun j => j ≠ i ∧ t j = a) := by
      ext j
      simp only [Finset.mem_filter, Finset.mem_univ, true_and, Finset.mem_insert]
      constructor
      · intro hj
        by_cases hji : j = i
        · exact Or.inl hji
        · exact Or.inr ⟨hji, hj⟩
      · intro hj
        rcases hj with hji | hj
        · rw [hji]
          exact h
        · exact hj.2
    rw [hset, Finset.card_insert_of_notMem (by simp)]
  · rw [if_neg h, Nat.add_zero]
    congr 1
    ext j
    simp only [Finset.mem_filter, Finset.mem_univ, true_and]
    constructor
    · intro hj
      exact ⟨fun hji => h (hji ▸ hj), hj⟩
    · intro hj
      exact hj.2

theorem elsewhere_update (t : ι → α) (i : ι) (b a : α) :
    elsewhere (Function.update t i b) i a = elsewhere t i a := by
  unfold elsewhere
  congr 1
  ext j
  simp only [Finset.mem_filter, Finset.mem_univ, true_and]
  constructor
  · intro hj
    rw [Function.update_of_ne hj.1] at hj
    exact hj
  · intro hj
    rw [Function.update_of_ne hj.1]
    exact hj

/-- A write to a cell: the value that leaves is counted one less, the value that
comes in one more. -/
theorem uses_update (t : ι → α) (i : ι) (b a : α) :
    uses (Function.update t i b) a + (if t i = a then 1 else 0)
      = uses t a + if b = a then 1 else 0 := by
  rw [uses_split (Function.update t i b) i a, uses_split t i a, elsewhere_update,
    Function.update_self]
  omega

theorem uses_update_ne (t : ι → α) (i : ι) {b a : α} (ht : t i ≠ a) (hb : b ≠ a) :
    uses (Function.update t i b) a = uses t a := by
  have h := uses_update t i b a
  rw [if_neg ht, if_neg hb] at h
  exact h

theorem uses_leave {t : ι → α} {i : ι} {a b : α} (ht : t i = a) (hb : b ≠ a) :
    uses (Function.update t i b) a + 1 = uses t a := by
  have h := uses_update t i b a
  rw [if_pos ht, if_neg hb] at h
  exact h

theorem uses_enter {t : ι → α} {i : ι} {a : α} (ht : t i ≠ a) :
    uses (Function.update t i a) a = uses t a + 1 := by
  have h := uses_update t i a a
  rw [if_neg ht, if_pos rfl] at h
  exact h

end

end Census

end MagiC
