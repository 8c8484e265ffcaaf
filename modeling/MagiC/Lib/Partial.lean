import Mathlib.Tactic.Common

/-!
# Partial Correctness

What holds whenever a computation with a state comes back.

A computation may fail or may have been given too little time. `Wlp` says nothing about these
cases: it is the weakest condition under which what comes back is as it should be. It goes
through a computation from its end to its beginning.

## Main definitions

* `lift`: A computation that does not touch the state.

## Theorems

* `wlp_run`: A computation that has come back.
-/

namespace MagiC

namespace Partial

section

variable {σ ε α β : Type} {s : σ} {Q R : α → σ → Prop}

/-- A computation that does not touch the state. -/
def lift (x : Except ε α) : StateT σ (Except ε) α := fun s =>
  match x with
  | .ok a => .ok (a, s)
  | .error e => .error e

/-- Whenever `x` comes back the outcome is as it should be. -/
def Wlp (x : StateT σ (Except ε) α) (Q : α → σ → Prop) (s : σ) : Prop :=
  ∀ a s', x s = .ok (a, s') → Q a s'

/-- A computation that has come back. -/
theorem wlp_run {x : StateT σ (Except ε) α} {a : α} {s' : σ} (h : Wlp x Q s)
    (hrun : x s = .ok (a, s')) : Q a s' := h a s' hrun

theorem wlp_mono {x : StateT σ (Except ε) α} (h : Wlp x Q s) (hqr : ∀ a s', Q a s' → R a s') :
    Wlp x R s := fun a s' hrun => hqr a s' (h a s' hrun)

@[simp]
theorem wlp_pure (a : α) : Wlp (pure a : StateT σ (Except ε) α) Q s ↔ Q a s := by
  constructor
  · intro h
    exact h a s rfl
  · intro h b s' hrun
    cases hrun
    exact h

/-- One computation after the other. -/
@[simp]
theorem wlp_bind (x : StateT σ (Except ε) β) (f : β → StateT σ (Except ε) α) :
    Wlp (x >>= f) Q s ↔ Wlp x (fun b s' => Wlp (f b) Q s') s := by
  constructor
  · intro h b s' hx a s'' hf
    refine h a s'' ?_
    show (x s >>= fun r => f r.1 r.2) = _
    rw [hx]
    exact hf
  · intro h a s'' hrun
    have hrun' : (x s >>= fun r => f r.1 r.2) = .ok (a, s'') := hrun
    cases hx : x s with
    | error e =>
      rw [hx] at hrun'
      exact absurd hrun' (by simp [bind, Except.bind])
    | ok r =>
      rw [hx] at hrun'
      exact h r.1 r.2 hx a s'' hrun'

@[simp]
theorem wlp_get {P : σ → σ → Prop} : Wlp (get : StateT σ (Except ε) σ) P s ↔ P s s := by
  constructor
  · intro h
    exact h s s rfl
  · intro h b s' hrun
    cases hrun
    exact h

@[simp]
theorem wlp_set {P : PUnit → σ → Prop} (t : σ) :
    Wlp (set t : StateT σ (Except ε) PUnit) P s ↔ P ⟨⟩ t := by
  constructor
  · intro h
    exact h ⟨⟩ t rfl
  · intro h b s' hrun
    cases hrun
    exact h

@[simp]
theorem wlp_modify {P : PUnit → σ → Prop} (f : σ → σ) :
    Wlp (modify f : StateT σ (Except ε) PUnit) P s ↔ P ⟨⟩ (f s) := by
  constructor
  · intro h
    exact h ⟨⟩ (f s) rfl
  · intro h b s' hrun
    cases hrun
    exact h

/-- A computation that fails does not come back. -/
@[simp]
theorem wlp_throw (e : ε) : Wlp (throw e : StateT σ (Except ε) α) Q s :=
  fun _ _ hrun => by cases hrun

@[simp]
theorem wlp_lift (x : Except ε α) :
    Wlp (lift x : StateT σ (Except ε) α) Q s ↔ ∀ a, x = .ok a → Q a s := by
  constructor
  · intro h a hx
    subst hx
    exact h a s rfl
  · intro h a s' hrun
    cases x with
    | error e => exact absurd hrun (fun hbad => by cases hbad)
    | ok b =>
      cases hrun
      exact h a rfl

theorem wlp_ite {x y : StateT σ (Except ε) α} {c : Prop} [Decidable c]
    (hx : c → Wlp x Q s) (hy : ¬ c → Wlp y Q s) : Wlp (if c then x else y) Q s := by
  by_cases hc : c
  · rw [if_pos hc]
    exact hx hc
  · rw [if_neg hc]
    exact hy hc

end

end Partial

end MagiC
