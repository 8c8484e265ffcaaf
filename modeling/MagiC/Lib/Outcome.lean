import Mathlib.Tactic.Common

/-!
# Results of Fallible Routines

A routine that returns has come to its end without a fault, and so have all of
its parts.

## Theorems

* `ok_of_bind`: A routine that returns has gone through its first part.
-/

namespace MagiC

namespace Outcome

section

variable {ε α β : Type} {r : Except ε α}

/-- A part that is known goes first. -/
@[simp]
theorem ok_bind (a : α) (f : α → Except ε β) : (Except.ok a >>= f) = f a := rfl

theorem ok_of_bind {f : α → Except ε β} {b : β} (h : (r >>= f) = .ok b) :
    ∃ a, r = .ok a ∧ f a = .ok b := by
  cases r with
  | error e => exact absurd h (by simp [bind, Except.bind])
  | ok a => exact ⟨a, rfl, h⟩

end

end Outcome

end MagiC
