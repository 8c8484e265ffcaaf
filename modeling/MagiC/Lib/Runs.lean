import Mathlib.Tactic.Common

/-!
# Runs of a Labelled Step Relation

A system is a relation between a state, a label and a next state. A run is a
sequence of labels taken one after the other, and what a run preserves is what
each of its steps preserves.

The label of a step is the call that was made, or the action of one party, so
an interleaving of several parties is a list of labels like any other and a
statement about all runs is a statement about all interleavings.

## Main definitions

* `Run`: A sequence of steps, with the labels it takes.

## Theorems

* `run_append`: A run may be continued by another.
-/

namespace MagiC

namespace Runs

section

variable {σ α : Type} (step : σ → α → σ → Prop)

/-- A sequence of steps from one state to another, with their labels. -/
inductive Run : σ → List α → σ → Prop where
  | nil (s : σ) : Run s [] s
  | cons (s t u : σ) (a : α) (as : List α) : step s a t → Run t as u → Run s (a :: as) u

/-- What every step preserves holds at the end of a run. -/
theorem run_preserves (inv : σ → Prop) (hstep : ∀ s a t, inv s → step s a t → inv t)
    (s t : σ) (as : List α) (hrun : Run step s as t) (hs : inv s) : inv t := by
  induction hrun with
  | nil s => exact hs
  | cons s t u a as h _ ih => exact ih (hstep s a t hs h)

theorem run_append (s t u : σ) (as bs : List α) (h1 : Run step s as t) (h2 : Run step t bs u) :
    Run step s (as ++ bs) u := by
  induction h1 with
  | nil s => exact h2
  | cons s t' t a as h _ ih => exact Run.cons s t' u a (as ++ bs) h (ih h2)

end

end Runs

end MagiC
