import MagiC.Lib.Runs

/-!
# Bounded Queues

A bounded queue as a list, with the operations as labels of a run.

An operation names the elements it moves. Appending is possible while there is
room and taking out takes from the front. What went in and what came out of a
queue are then functions of the labels of a run, and the conservation law says
that the elements still in the queue are exactly the difference, in order.

A buffer that several parties share is such a queue whenever each of their
steps is one of its operations.

## Main definitions

* `pushed`: All that went in, in order.

## Theorems

* `run_bounded`: The capacity is never exceeded.
-/

namespace MagiC

namespace Fifo

section

variable {α : Type}

/-- An operation on a queue, with the elements it moves. -/
inductive Op (α : Type) where
  | push (xs : List α)
  | pop (xs : List α)

/-- What an operation does to a queue that holds at most `cap` elements. -/
def Step (cap : Nat) (q : List α) : Op α → List α → Prop
  | .push xs, q' => q' = q ++ xs ∧ q'.length ≤ cap
  | .pop xs, q' => q = xs ++ q'

def pushed : List (Op α) → List α
  | [] => []
  | .push xs :: ops => xs ++ pushed ops
  | .pop _ :: ops => pushed ops

def popped : List (Op α) → List α
  | [] => []
  | .push _ :: ops => popped ops
  | .pop xs :: ops => xs ++ popped ops

/-- Nothing is lost, duplicated or reordered. -/
theorem run_conserves (cap : Nat) (q q' : List α) (ops : List (Op α))
    (hrun : Runs.Run (Step cap) q ops q') : q ++ pushed ops = popped ops ++ q' := by
  induction hrun with
  | nil q => simp only [pushed, popped, List.append_nil, List.nil_append]
  | cons q r q' op ops hstep _ ih =>
    cases op with
    | push xs =>
      rw [hstep.1, List.append_assoc] at ih
      exact ih
    | pop xs =>
      have hq : q = xs ++ r := hstep
      simp only [pushed, popped, hq, List.append_assoc, ih]

theorem run_bounded (cap : Nat) (q q' : List α) (ops : List (Op α))
    (hrun : Runs.Run (Step cap) q ops q') (hq : q.length ≤ cap) : q'.length ≤ cap := by
  refine Runs.run_preserves (Step cap) (fun q => q.length ≤ cap) (fun q op r hq hstep => ?_)
    q q' ops hrun hq
  cases op with
  | push xs => exact hstep.2
  | pop xs =>
    have heq : q = xs ++ r := hstep
    rw [heq, List.length_append] at hq
    omega

end

end Fifo

end MagiC
