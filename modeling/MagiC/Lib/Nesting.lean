import Mathlib.Data.List.Count

/-!
# Nested Sequences

Sequences in which what has been begun is ended, and what has been begun last is ended first.

Some elements may stand anywhere. The others come in pairs of sequences, a beginning and an
end, with a nested sequence between them.

## Main definitions

* `Nested`: Everything that is begun is ended.

## Theorems

* `Nested.count_eq`: There are as many of one element as of another.
-/

namespace MagiC

namespace Nesting

section

variable {α : Type} {single : α → Prop} {pair : List α → List α → Prop} {l m u v : List α} {a b : α}

/-- Everything that is begun is ended. -/
inductive Nested (single : α → Prop) (pair : List α → List α → Prop) : List α → Prop
  | nil : Nested single pair []
  | single {a : α} {l : List α} (ha : single a) (hl : Nested single pair l) :
      Nested single pair (a :: l)
  | pair {u v l m : List α} (huv : pair u v) (hl : Nested single pair l)
      (hm : Nested single pair m) : Nested single pair (u ++ l ++ v ++ m)

/-- One nested sequence after the other. -/
theorem Nested.append (hl : Nested single pair l) (hm : Nested single pair m) :
    Nested single pair (l ++ m) := by
  induction hl with
  | nil => exact hm
  | single ha _ ih => exact .single ha ih
  | pair huv hl _ _ ih =>
    rw [List.append_assoc]
    exact .pair huv hl ih

theorem Nested.around (huv : pair u v) (hl : Nested single pair l) :
    Nested single pair (u ++ l ++ v) := by
  have h := Nested.pair huv hl (.nil : Nested single pair [])
  rwa [List.append_nil] at h

/-- There are as many of one element as of another if this is so in all that is put together. -/
theorem Nested.count_eq [DecidableEq α] (hs : ∀ c, single c → c ≠ a ∧ c ≠ b)
    (hp : ∀ u v, pair u v → (u ++ v).count a = (u ++ v).count b) (h : Nested single pair l) :
    l.count a = l.count b := by
  induction h with
  | nil => rfl
  | single hc _ ih =>
    rw [List.count_cons_of_ne (hs _ hc).1, List.count_cons_of_ne (hs _ hc).2, ih]
  | pair huv _ _ ihl ihm =>
    have hpair := hp _ _ huv
    simp only [List.count_append] at hpair ⊢
    omega

end

end Nesting

end MagiC
