import MagiC.Aes.Semaphore

/-!
# Nobody Waits for Ever

How long an application waits for a semaphore.

The queue is served from its front, and who comes later joins its end. So with `n` others in
front the wait is over when the semaphore has been given back `n + 1` times, whatever all
applications do in between. It may end sooner, when the semaphore is removed.

## Theorems

* `waiting_bounded`: The same for the list of the kernel.
-/

namespace MagiC

namespace Aes

open Chains

/-- The holder of a semaphore gives it back. -/
def gives (s : Nat) : Act × Option Int → Bool
  | (.free _ t, some 0) => t = s
  | _ => false

/-- The first one of a queue leaves it, or others join its end, or the queue is dissolved. -/
theorem Spec.step_queue {m m' : Spec} {l : Act × Option Int} (h : Spec.Step m l m') (s : Nat) :
    (gives s l = true ∧ m'.queue s = (m.queue s).tail) ∨
      (gives s l = false ∧ ∃ v, m'.queue s = m.queue s ++ v) ∨ m'.queue s = [] := by
  have keeps : ∀ q : List Nat, ∃ v, q = q ++ v := fun q => ⟨[], (List.append_nil q).symm⟩
  cases h with
  | set_ok => exact .inr (.inl ⟨rfl, keeps _⟩)
  | set_mine => exact .inr (.inl ⟨rfl, keeps _⟩)
  | set_wait a t =>
    refine .inr (.inl ⟨rfl, ?_⟩)
    by_cases hst : s = t
    · subst hst
      exact ⟨[a], by simp [Spec.join]⟩
    · exact ⟨[], by simp [Spec.join, hst]⟩
  | cset_ok => exact .inr (.inl ⟨rfl, keeps _⟩)
  | cset_mine => exact .inr (.inl ⟨rfl, keeps _⟩)
  | cset_busy => exact .inr (.inl ⟨rfl, keeps _⟩)
  | free_ok a t =>
    by_cases hst : s = t
    · subst hst
      refine .inl ⟨by simp [gives], ?_⟩
      cases hq : m.queue s with
      | nil => simp [Spec.release_nil m s hq, hq]
      | cons b q => simp [Spec.release_cons m s b q hq]
    · refine .inr (.inl ⟨by simp [gives, Ne.symm hst], [], ?_⟩)
      cases hq : m.queue t with
      | nil => simp [Spec.release_nil m t hq]
      | cons b q => simp [Spec.release_cons m t b q hq, hst]
  | free_err => exact .inr (.inl ⟨rfl, keeps _⟩)
  | del_ok a t =>
    by_cases hst : s = t
    · subst hst
      exact .inr (.inr (by simp [Spec.dismiss]))
    · exact .inr (.inl ⟨rfl, [], by simp [Spec.dismiss, hst]⟩)
  | del_err => exact .inr (.inl ⟨rfl, keeps _⟩)
  | tim => exact .inr (.inl ⟨rfl, keeps _⟩)
  | resume_ok => exact .inr (.inl ⟨rfl, keeps _⟩)
  | resume_gone => exact .inr (.inl ⟨rfl, keeps _⟩)

section

variable {w : Setting} {k k' : Kernel} {m : Spec} {ls : List (Act × Option Int)} {s a : Nat}
  {u v : List Nat}

/-- At some point of the run the wait is over. -/
def Served (w : Setting) (k : Kernel) (ls : List (Act × Option Int)) (k' : Kernel) (a s : Nat) :
    Prop :=
  ∃ pre post k₁, ls = pre ++ post ∧ Runs.Run (PromptStep w) k pre k₁ ∧
    Runs.Run (PromptStep w) k₁ post k' ∧ ¬ k₁.Suspended a s

theorem run_served (h : Refines w k m) (hrun : Runs.Run (PromptStep w) k ls k')
    (hq : m.queue s = u ++ a :: v) (hcount : u.length < ls.countP (gives s)) :
    Served w k ls k' a s := by
  induction hrun generalizing m u v with
  | nil k => exact absurd hcount (Nat.not_lt_zero _)
  | cons k k1 k' l ls hstep hrun ih =>
    rcases step_refines h l.1 l.2 hstep.1 hstep.2 with ⟨m1, hm1, h1⟩
    have hone := Runs.Run.cons k k1 k1 l [] hstep (Runs.Run.nil k1)
    -- Whoever is not in the queue does not wait.
    have hleft : a ∉ m1.queue s → Served w k (l :: ls) k' a s := fun hno =>
      ⟨[l], ls, k1, rfl, hone, hrun, fun hs => hno ((h1.sound.queued a s).mpr
        ((h1.phase a).trans ((Kernel.phase_waiting k1 a s).mpr hs)))⟩
    have hlater : Served w k1 ls k' a s → Served w k (l :: ls) k' a s := by
      rintro ⟨pre, post, k₂, rfl, hpre, hpost, hs⟩
      exact ⟨l :: pre, post, k₂, rfl, Runs.Run.cons k k1 k₂ l pre hstep hpre, hpost, hs⟩
    rw [List.countP_cons] at hcount
    rcases Spec.step_queue hm1 s with ⟨hg, htail⟩ | ⟨hg, x, happ⟩ | hnil
    · rw [hg, if_pos rfl] at hcount
      rw [hq] at htail
      cases u with
      | nil =>
        refine hleft fun hmem => ?_
        rw [htail] at hmem
        have hnd := h.sound.nodup s
        rw [hq] at hnd
        exact (List.nodup_cons.mp hnd).1 hmem
      | cons b u => exact hlater (ih h1 htail (Nat.lt_of_succ_lt_succ hcount))
    · rw [hg] at hcount
      refine hlater (ih (v := v ++ x) h1 ?_ (by simpa using hcount))
      rw [happ, hq, List.append_assoc, List.cons_append]
    · exact hleft fun hmem => absurd (hnil ▸ hmem) List.not_mem_nil

/-- Who has `older` in front of it waits no longer once the semaphore has been given back once
    more than they are. -/
theorem waiting_bounded {k₀ : Kernel} (h₀ : Fresh w k₀) {ls₀ : List (Act × Option Int)}
    (hrun₀ : Runs.Run (PromptStep w) k₀ ls₀ k) {newer older : List Nat}
    (hq : Linked k.apNxtsem 0 (k.blWaiting s) (newer ++ a :: older))
    (hrun : Runs.Run (PromptStep w) k ls k') (hcount : older.length < ls.countP (gives s)) :
    Served w k ls k' a s := by
  rcases run_refines ls₀ hrun₀ h₀.refines with ⟨m, -, h⟩
  have hrev := congrArg List.reverse (linked_unique (h.list s) hq)
  rw [List.reverse_reverse, List.reverse_append, List.reverse_cons, List.append_assoc] at hrev
  exact run_served h hrun hrev (by rwa [List.length_reverse])

end

/-- The second application gives the semaphore back in its turn. -/
def handover : List (Act × Option Int) :=
  [(.free 1 9, some 0), (.resume 2, some 0), (.free 2 9, some 0)]

/-- The third application waits behind the second one. -/
theorem waiting_bounded_handover : ∃ k k', k.Suspended 3 9 ∧
    Runs.Run (PromptStep demoSetting) k handover k' ∧ Served demoSetting k handover k' 3 9 := by
  obtain ⟨k, k', h₀, hsus, hq, hrun⟩ : ∃ k k', Runs.Run (PromptStep demoSetting) demoKernel
      [(.set 1 9 0, some 0), (.set 2 9 5, none), (.set 3 9 5, none)] k ∧ k.Suspended 3 9 ∧
        Linked k.apNxtsem 0 (k.blWaiting 9) ([] ++ 3 :: [2]) ∧
          Runs.Run (PromptStep demoSetting) k handover k' :=
    ⟨_, _, .cons _ _ _ _ _ ⟨⟨by decide, rfl⟩, trivial⟩
      (.cons _ _ _ _ _ ⟨⟨by decide, rfl⟩, trivial⟩
        (.cons _ _ _ _ _ ⟨⟨by decide, rfl⟩, trivial⟩ (.nil _))), ⟨.inl rfl, rfl⟩,
      by
        show Linked _ 0 _ [3, 2]
        exact ⟨⟨rfl, rfl, rfl⟩, by decide⟩,
      .cons _ _ _ _ _ ⟨⟨by decide, rfl⟩, trivial⟩
        (.cons _ _ _ _ _ ⟨⟨by decide, rfl⟩, rfl⟩
          (.cons _ _ _ _ _ ⟨⟨by decide, rfl⟩, trivial⟩ (.nil _)))⟩
  exact ⟨k, k', hsus, hrun, waiting_bounded demoKernel_fresh h₀ hq hrun (by decide)⟩

end Aes

end MagiC
