import Mathlib.Data.Nat.Find
import Mathlib.Order.Interval.Set.Defs
import Mathlib.Order.Monotone.Defs
import Mathlib.Tactic.Common

/-!
# Search by Halving

The greatest argument up to a bound at which a growing function does not exceed a limit.

The search keeps an interval. At its lower end the function is below the limit, and its
upper end is the bound, or the function has reached the limit there. Only the last step
tells whether the upper end itself will do.

## Main definitions

* `halving`: The search.

## Theorems

* `probe_le`: The search stays in its interval.
-/

namespace MagiC

namespace Bisect

/-- The search in an interval. -/
def halving (w : Nat → Nat) (x u o : Nat) : Nat :=
  if u < o then
    if o - u = 1 then if w o ≤ x then o else u
    else if w ((u + o) / 2) < x then halving w x ((u + o) / 2) o
    else halving w x u ((u + o) / 2)
  else u
termination_by o - u

/-- The arguments at which the search looks. -/
inductive Probe (w : Nat → Nat) (x : Nat) : Nat → Nat → Nat → Prop where
  | last {u o : Nat} (h : o - u = 1) : Probe w x u o o
  | mid {u o : Nat} (h : u < o) (hne : o - u ≠ 1) : Probe w x u o ((u + o) / 2)
  | right {u o n : Nat} (h : u < o) (hne : o - u ≠ 1) (hw : w ((u + o) / 2) < x)
      (hn : Probe w x ((u + o) / 2) o n) : Probe w x u o n
  | left {u o n : Nat} (h : u < o) (hne : o - u ≠ 1) (hw : ¬ w ((u + o) / 2) < x)
      (hn : Probe w x u ((u + o) / 2) n) : Probe w x u o n

variable {w : Nat → Nat} {x u o n : Nat}

theorem probe_le (h : Probe w x u o n) : u < n ∧ n ≤ o := by
  induction h with
  | last h => omega
  | mid h hne => omega
  | right h hne _ _ ih => omega
  | left h hne _ _ ih => omega

theorem halving_spec {b : Nat} (hmono : StrictMonoOn w (Set.Iic b)) (huo : u ≤ o) (hob : o ≤ b)
    (hu : w u ≤ x) (ho : o = b ∨ x ≤ w o) :
    halving w x u o ≤ b ∧ w (halving w x u o) ≤ x ∧
      ∀ n, n ≤ b → w n ≤ x → n ≤ halving w x u o := by
  induction hd : o - u using Nat.strong_induction_on generalizing u o with
  | _ d ih =>
    have above : ∀ n, o < n → n ≤ b → x < w n := by
      intro n hon hnb
      rcases ho with rfl | ho
      · omega
      · exact ho.trans_lt (hmono (Set.mem_Iic.mpr hob) (Set.mem_Iic.mpr hnb) hon)
    rw [halving]
    split
    · split
      · rename_i hone
        split
        · rename_i hfit
          refine ⟨hob, hfit, fun n hnb hn => ?_⟩
          by_contra hlt
          exact absurd (above n (by omega) hnb) (by omega)
        · rename_i hfit
          refine ⟨by omega, hu, fun n hnb hn => ?_⟩
          -- the upper end is the next argument, and it is too great
          by_contra hlt
          rcases Nat.lt_trichotomy n o with hno | rfl | hno
          · omega
          · exact hfit hn
          · exact absurd (above n hno hnb) (by omega)
      · split
        · rename_i hlt
          exact ih _ (by omega) (by omega) hob (Nat.le_of_lt hlt) ho rfl
        · rename_i hge
          exact ih _ (by omega) (by omega) (by omega) hu (.inr (by omega)) rfl
    · rename_i hend
      refine ⟨by omega, hu, fun n hnb hn => ?_⟩
      by_contra hlt
      exact absurd (above n (by omega) hnb) (by omega)

/-- The search finds the greatest argument at which the limit is kept. -/
theorem halving_eq {b : Nat} (hmono : StrictMonoOn w (Set.Iic b)) (h0 : w 0 ≤ x) :
    halving w x 0 b = Nat.findGreatest (fun n => w n ≤ x) b := by
  rcases halving_spec hmono (Nat.zero_le b) (Nat.le_refl b) h0 (.inl rfl) with ⟨hle, hfit, hmax⟩
  refine Nat.le_antisymm (Nat.le_findGreatest hle hfit) ?_
  exact hmax _ (Nat.findGreatest_le b) (Nat.findGreatest_spec (P := fun n => w n ≤ x)
    (Nat.zero_le b) h0)

end Bisect

end MagiC
