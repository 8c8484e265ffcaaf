import MagiC.Aes.Blockage
import MagiC.Lib.Runs
import MagiC.Lib.Slist
import Mathlib.Data.List.Perm.Subperm

/-!
# Who Owns a Semaphore

Any calls of `evnt_sem` by any applications, in any order.

`Spec` is what a semaphore is for: it has a holder and a queue, in which the
longest waiting application is the first one, and every application is idle, or
waits for a semaphore, or was handed one, or was told that its semaphore is
gone. The semaphores of the kernel behave like this as long as no wait ends by
`EV_TIM`. The list that hangs on `bl_waiting` is the queue in reverse order.

When `EV_TIM` alone ends a wait, `evnt_sem` returns without taking the
application off the list, and it stays there as if it were still waiting.

## Main definitions

* `Refines`: A kernel as abstract semaphores.

## Theorems

* `semaphores_refine`: Semaphores have the right owners and waiting lists.
-/

namespace MagiC

namespace Aes

open Chains

theorem fsemLoop_spec (nxtsem : Nat → Nat) (l : List Nat) (x a : Nat) (p : Option Nat)
    (fuel : Nat) (h : Linked nxtsem 0 a (l ++ [x])) (hfuel : l.length < fuel) :
    fsemLoop nxtsem fuel p a = some (l.getLast?.or p, x) := by
  induction l generalizing a p fuel with
  | nil =>
    have hx := (linked_cons x).mp h
    rcases Nat.exists_eq_succ_of_ne_zero (Nat.ne_of_gt hfuel) with ⟨f, rfl⟩
    rw [hx.1]
    exact if_pos (linked_last x (l := []) (hx.1 ▸ h))
  | cons y ys ih =>
    have hy := (linked_cons y).mp h
    rcases Nat.exists_eq_succ_of_ne_zero (Nat.ne_of_gt (Nat.zero_lt_of_lt hfuel)) with ⟨f, rfl⟩
    have hne : nxtsem y ≠ 0 := by
      intro h0
      have hnil := linked_null (h0 ▸ hy.2.2)
      exact absurd hnil (List.append_ne_nil_of_right_ne_nil _ (List.cons_ne_nil _ _))
    rw [hy.1, fsemLoop, if_neg hne, ih (nxtsem y) (some y) f hy.2.2 (Nat.lt_of_succ_lt_succ hfuel),
      List.getLast?_cons]
    cases ys.getLast? <;> rfl

/-- What `free_semaphore` does when `b` is the longest waiting application and
    those of `q` came later. -/
structure HandedOver (k : Kernel) (s b : Nat) (q : List Nat) (k' : Kernel) : Prop where
  blApp : k'.blApp = Function.update k.blApp s b
  blCnt : k'.blCnt = Function.update k.blCnt s 1
  list : Linked k'.apNxtsem 0 (k'.blWaiting s) q.reverse
  waiting : ∀ t, t ≠ s → k'.blWaiting t = k.blWaiting t
  nxtsem : ∀ x, x ∉ q → k'.apNxtsem x = k.apNxtsem x
  hbits : k'.apHbits = Function.update k.apHbits b (Function.update (k.apHbits b) .sem true)
  rbits : k'.apRbits = k.apRbits
  semaph : k'.apSemaph = k.apSemaph
  blNext : k'.blNext = k.blNext
  pc : k'.pc = k.pc

theorem freeSemaphore_nil (fuel : Nat) (k : Kernel) (s : Nat) (h : k.blWaiting s = 0) :
    freeSemaphore fuel k s = some { k with blApp := Function.update k.blApp s 0 } := if_pos h

/-- `free_semaphore` hands over to the first of the queue. -/
theorem freeSemaphore_spec (fuel : Nat) (k : Kernel) (s b : Nat) (q : List Nat)
    (h : Linked k.apNxtsem 0 (k.blWaiting s) (b :: q).reverse) (hfuel : q.length < fuel) :
    ∃ k', freeSemaphore fuel k s = some k' ∧ HandedOver k s b q k' := by
  rw [List.reverse_cons] at h
  have hw : k.blWaiting s ≠ 0 := by
    intro h0
    exact absurd (linked_null (h0 ▸ h))
      (List.append_ne_nil_of_right_ne_nil _ (List.cons_ne_nil _ _))
  have hloop := fsemLoop_spec k.apNxtsem q.reverse b (k.blWaiting s) none fuel h
    (by rwa [List.length_reverse])
  rw [Option.or_none] at hloop
  simp only [freeSemaphore, if_neg hw, hloop]
  refine ⟨_, rfl, ?_⟩
  cases q with
  | nil => exact ⟨rfl, rfl,
    by simp [Kernel.makeready, Kernel.eventHappened, Kernel.clrLink, linked_nil],
      fun t ht => Function.update_of_ne ht _ _, fun _ _ => rfl, rfl, rfl, rfl, rfl, rfl⟩
  | cons c q =>
    rw [List.reverse_cons, List.append_assoc] at h
    have hnd := linked_nodup h
    have hlast : (c :: q).reverse.getLast? = some c := by simp
    rw [hlast]
    refine ⟨rfl, rfl, ?_, fun _ _ => rfl, fun x hx => ?_, rfl, rfl, rfl, rfl, rfl⟩
    · -- The last one but one becomes the last one.
      rw [List.reverse_cons]
      refine linked_chop c b h (Function.update_self _ _ _) fun y hy => ?_
      refine Function.update_of_ne ?_ _ _
      rintro rfl
      exact (List.nodup_append.mp hnd).2.2 _ hy _ List.mem_cons_self rfl
    · refine Function.update_of_ne ?_ _ _
      rintro rfl
      exact hx List.mem_cons_self

theorem dsemLoop_spec (l : List Nat) (k : Kernel) (a fuel : Nat)
    (h : Linked k.apNxtsem 0 a l) (hfuel : l.length < fuel) :
    ∃ k', dsemLoop fuel k a = some k' ∧
      (∀ x ∈ l, k'.apHbits x .sem = true ∧ k'.apSemaph x = 0) ∧
      (∀ x, x ∉ l → k'.apHbits x = k.apHbits x ∧ k'.apSemaph x = k.apSemaph x) ∧
      k' = { k with apHbits := k'.apHbits, apSemaph := k'.apSemaph } := by
  induction l generalizing k a fuel with
  | nil =>
    have ha : a = 0 := h.1
    rcases Nat.exists_eq_succ_of_ne_zero (Nat.ne_of_gt hfuel) with ⟨f, rfl⟩
    exact ⟨k, by rw [dsemLoop, if_pos ha], fun x hx => absurd hx List.not_mem_nil,
      fun x _ => ⟨rfl, rfl⟩, rfl⟩
  | cons y ys ih =>
    have hy := (linked_cons y).mp h
    rcases Nat.exists_eq_succ_of_ne_zero (Nat.ne_of_gt (Nat.zero_lt_of_lt hfuel)) with ⟨f, rfl⟩
    have hyys : y ∉ ys := (List.nodup_cons.mp (linked_nodup h)).1
    obtain ⟨k', hrun, hin, hout, hk'⟩ := ih
      { k.eventHappened y .sem with
        apSemaph := Function.update k.apSemaph y 0 } (k.apNxtsem y) f hy.2.2
      (Nat.lt_of_succ_lt_succ hfuel)
    have hyk := hout y hyys
    refine ⟨k', ?_, ?_, ?_, ?_⟩
    · rw [dsemLoop, hy.1, if_neg hy.2.1]
      exact hrun
    · intro x hx
      rcases List.mem_cons.mp hx with rfl | hx
      · rw [hyk.1, hyk.2]
        simp [Kernel.eventHappened]
      · exact hin x hx
    · intro x hx
      have hne : x ≠ y := fun e => hx (e ▸ List.mem_cons_self)
      have hxk := hout x fun e => hx (List.mem_cons_of_mem _ e)
      rw [hxk.1, hxk.2]
      exact ⟨Function.update_of_ne hne _ _, Function.update_of_ne hne _ _⟩
    · rw [hk']
      rfl

theorem evdLoop_spec (next : Nat → Nat) (s : Nat) (l : List Nat) (a fuel : Nat)
    (h : Linked next 0 a l) (ha : a ≠ 0) (hfuel : l.length < fuel) :
    ∃ r, evdLoop next s fuel a = some r ∧
      ∀ p, r = some p → ∃ u v, l = u ++ p :: s :: v := by
  induction l generalizing a fuel with
  | nil => exact absurd h.1 ha
  | cons y ys ih =>
    have hy := (linked_cons y).mp h
    rcases Nat.exists_eq_succ_of_ne_zero (Nat.ne_of_gt (Nat.zero_lt_of_lt hfuel)) with ⟨f, rfl⟩
    rw [hy.1, evdLoop]
    by_cases h0 : next y = 0
    · exact ⟨none, by rw [if_pos h0], fun p hp => absurd hp (by simp)⟩
    · rw [if_neg h0]
      by_cases hs : next y = s
      · rcases linked_head hy.2.2 h0 with ⟨m, hm, _⟩
        refine ⟨some y, by rw [if_pos hs], fun p hp => ⟨[], m, ?_⟩⟩
        rw [← Option.some.inj hp, hm, hs]
        rfl
      · rw [if_neg hs]
        rcases ih (next y) f hy.2.2 h0 (Nat.lt_of_succ_lt_succ hfuel) with ⟨r, hr, hp⟩
        refine ⟨r, hr, fun p hrp => ?_⟩
        rcases hp p hrp with ⟨u, v, rfl⟩
        exact ⟨y :: u, v, rfl⟩

theorem destroySemaphore_spec (fuel : Nat) (k : Kernel) (s : Nat) (l : List Nat)
    (h : Linked k.apNxtsem 0 (k.blWaiting s) l) (hfuel : l.length < fuel) :
    ∃ k', destroySemaphore fuel k s = some k' ∧
      (∀ x ∈ l, k'.apHbits x .sem = true ∧ k'.apSemaph x = 0) ∧
      (∀ x, x ∉ l → k'.apHbits x = k.apHbits x ∧ k'.apSemaph x = k.apSemaph x) ∧
      k' = { k with
        blWaiting := Function.update k.blWaiting s 0
        apHbits := k'.apHbits
        apSemaph := k'.apSemaph } :=
  dsemLoop_spec l { k with blWaiting := Function.update k.blWaiting s 0 } _ fuel h hfuel

/-- A call of `evnt_sem` by the running application, a timeout that expires, or
    a suspended call that goes on. -/
inductive Act where
  | set (a s d1 : Nat)
  | cset (a s : Nat)
  | free (a s : Nat)
  | del (a s : Nat)
  | tim (a : Nat)
  | resume (a : Nat)

/-- The first semaphore, which cannot be deleted, and the applications there
    are. -/
structure Setting where
  firstSem : Nat
  apps : List Nat
  fuel : Nat
  firstSem_ne : firstSem ≠ 0
  apps_ne : 0 ∉ apps
  apps_lt : apps.length < fuel

/-- What an action does, with the result that is returned, if one is. -/
def exec (w : Setting) (k : Kernel) : Act → Option (Kernel × Option Int)
  | .set a s d1 => some (evsSet k a s d1)
  | .cset a s => some (evsCset k a s)
  | .free a s => evsFree w.fuel k a s
  | .del a s => evsDel w.fuel w.firstSem k a s
  | .tim a => some (handleTim k a, none)
  | .resume a => some (resume k a)

/-- Whether a call is suspended with a timeout. -/
def Pc.timed : Pc → Bool
  | .evsTim _ => true
  | _ => false

def Enabled (w : Setting) (k : Kernel) : Act → Prop
  | .set a s _ | .cset a s | .free a s | .del a s => a ∈ w.apps ∧ k.pc a = .user ∧ s ≠ 0
  | .tim a => (k.pc a).timed = true
  | .resume a => k.pc a ≠ .user ∧ k.woken a = true

instance (w : Setting) (k : Kernel) : DecidablePred (Enabled w k)
  | .set _ _ _ | .cset _ _ | .free _ _ | .del _ _ => inferInstanceAs (Decidable (_ ∧ _ ∧ _))
  | .tim _ => inferInstanceAs (Decidable (_ = _))
  | .resume _ => inferInstanceAs (Decidable (_ ∧ _))

def Step (w : Setting) (k : Kernel) (l : Act × Option Int) (k' : Kernel) : Prop :=
  Enabled w k l.1 ∧ exec w k l.1 = some (k', l.2)

/-- What an application is about. -/
inductive Phase where
  | idle
  | waiting (s : Nat)
  | granted (s : Nat)
  | deleted
  deriving DecidableEq

/-- Abstract semaphores: the holders, or 0, the queues, and the applications. -/
structure Spec where
  holder : Nat → Nat
  queue : Nat → List Nat
  phase : Nat → Phase

def Spec.take (m : Spec) (a s : Nat) : Spec :=
  { m with holder := Function.update m.holder s a }

def Spec.join (m : Spec) (a s : Nat) : Spec :=
  { m with
    queue := Function.update m.queue s (m.queue s ++ [a])
    phase := Function.update m.phase a (.waiting s) }

/-- A semaphore is handed to the one that has waited longest. -/
def Spec.release (m : Spec) (s : Nat) : Spec :=
  match m.queue s with
  | [] => { m with holder := Function.update m.holder s 0 }
  | b :: q =>
    { holder := Function.update m.holder s b
      queue := Function.update m.queue s q
      phase := Function.update m.phase b (.granted s) }

/-- A semaphore is gone for everybody who waits for it. -/
def Spec.dismiss (m : Spec) (s : Nat) : Spec :=
  { m with
    queue := Function.update m.queue s []
    phase := fun x => if x ∈ m.queue s then .deleted else m.phase x }

/-- A call of an application comes to its end. -/
def Spec.return (m : Spec) (a : Nat) : Spec :=
  { m with phase := Function.update m.phase a .idle }

/-- What the calls mean. A wait ends with the semaphore or without, but not
    because of the time. -/
inductive Spec.Step : Spec → Act × Option Int → Spec → Prop where
  | set_ok (m : Spec) (a s d1 : Nat) (h : m.holder s = 0) :
      Spec.Step m (.set a s d1, some 0) (m.take a s)
  | set_mine (m : Spec) (a s d1 : Nat) (h : m.holder s = a) :
      Spec.Step m (.set a s d1, some (-1)) m
  | set_wait (m : Spec) (a s d1 : Nat) (h : m.holder s ≠ 0) (ha : m.holder s ≠ a) :
      Spec.Step m (.set a s d1, none) (m.join a s)
  | cset_ok (m : Spec) (a s : Nat) (h : m.holder s = 0) :
      Spec.Step m (.cset a s, some 0) (m.take a s)
  | cset_mine (m : Spec) (a s : Nat) (h : m.holder s = a) : Spec.Step m (.cset a s, some (-1)) m
  | cset_busy (m : Spec) (a s : Nat) (h : m.holder s ≠ 0) (ha : m.holder s ≠ a) :
      Spec.Step m (.cset a s, some 1) m
  | free_ok (m : Spec) (a s : Nat) (h : m.holder s = a) :
      Spec.Step m (.free a s, some 0) (m.release s)
  | free_err (m : Spec) (a s : Nat) (h : m.holder s ≠ a) : Spec.Step m (.free a s, some (-1)) m
  | del_ok (m : Spec) (a s : Nat) (h : m.holder s = 0 ∨ m.holder s = a) :
      Spec.Step m (.del a s, some 0) (m.dismiss s)
  | del_err (m : Spec) (a s : Nat) : Spec.Step m (.del a s, some (-1)) m
  | tim (m : Spec) (a : Nat) : Spec.Step m (.tim a, none) m
  | resume_ok (m : Spec) (a s : Nat) (h : m.phase a = .granted s) (ha : m.holder s = a) :
      Spec.Step m (.resume a, some 0) (m.return a)
  | resume_gone (m : Spec) (a : Nat) (h : m.phase a = .deleted) :
      Spec.Step m (.resume a, some (-2)) (m.return a)

/-- What the words of an application say it is about. -/
def Kernel.phase (k : Kernel) (a : Nat) : Phase :=
  match k.pc a with
  | .user | .wu => .idle
  | .evsTim s | .evsNotim s =>
    if k.apHbits a .sem then if k.apSemaph a ≠ 0 then .granted s else .deleted
    else .waiting s

/-- The application is suspended in `SEM_SET` on `s`, and did not get it yet. -/
def Kernel.Suspended (k : Kernel) (a s : Nat) : Prop :=
  (k.pc a = .evsTim s ∨ k.pc a = .evsNotim s) ∧ k.apHbits a .sem = false

/-- The queues and the applications of abstract semaphores agree. -/
structure Spec.Sound (m : Spec) (apps : List Nat) : Prop where
  queued : ∀ a s, a ∈ m.queue s ↔ m.phase a = .waiting s
  granted : ∀ a s, m.phase a = .granted s → m.holder s = a
  held : ∀ s, m.queue s ≠ [] → m.holder s ≠ 0
  busy : ∀ a, m.phase a ≠ .idle → a ∈ apps
  nodup : ∀ s, (m.queue s).Nodup

/-- A kernel as abstract semaphores. -/
structure Refines (w : Setting) (k : Kernel) (m : Spec) : Prop where
  holder : ∀ s, k.blApp s = m.holder s
  list : ∀ s, Linked k.apNxtsem 0 (k.blWaiting s) (m.queue s).reverse
  phase : ∀ a, m.phase a = k.phase a
  semaph : ∀ a s, m.phase a = .waiting s → k.apSemaph a = s ∧ s ≠ 0
  sound : m.Sound w.apps
  sems : ∃ l, Linked k.blNext 0 w.firstSem l ∧ l.length < w.fuel
  wu : ∀ a, k.pc a ≠ .wu

theorem Spec.Sound.ne {m : Spec} {apps : List Nat} (h : m.Sound apps) (a b s : Nat)
    (hb : b ∈ m.queue s) (ha : m.phase a ≠ .waiting s) : b ≠ a := by
  rintro rfl
  exact ha ((h.queued b s).mp hb)

theorem Spec.Sound.take {m : Spec} {apps : List Nat} (h : m.Sound apps) (a s : Nat)
    (hs : m.holder s = 0) (h0 : 0 ∉ apps) (ha : a ≠ 0) : (m.take a s).Sound apps := by
  refine ⟨h.queued, fun c t hc => ?_, fun t ht => ?_, h.busy, h.nodup⟩
  · have hct := h.granted c t hc
    have hne : t ≠ s := by
      rintro rfl
      have hc0 : c ∈ apps := h.busy c (by rw [show m.phase c = _ from hc]; simp)
      exact h0 (hs.symm.trans hct ▸ hc0)
    exact (Function.update_of_ne hne _ _).trans hct
  · by_cases hts : t = s
    · rw [hts]
      simpa [Spec.take] using ha
    · exact fun e => h.held t ht ((Function.update_of_ne hts a m.holder).symm.trans
        (show Function.update m.holder s a t = 0 from e))

theorem Spec.Sound.join {m : Spec} {apps : List Nat} (h : m.Sound apps) (a s : Nat)
    (hs : m.holder s ≠ 0) (ha : a ∈ apps) (hidle : m.phase a = .idle) :
    (m.join a s).Sound apps := by
  have hna : ∀ t, a ∉ m.queue t := by
    intro t hat
    have hp := (h.queued a t).mp hat
    rw [hidle] at hp
    cases hp
  refine ⟨fun b t => ?_, fun b t hb => ?_, fun t ht => ?_, fun b hb => ?_, fun t => ?_⟩
  · by_cases hba : b = a
    · subst hba
      by_cases hts : t = s
      · subst hts
        simp [Spec.join]
      · simp [Spec.join, Function.update_of_ne hts, hna t, Ne.symm hts]
    · by_cases hts : t = s
      · subst hts
        simpa [Spec.join, Function.update_of_ne hba, hba] using h.queued b t
      · simpa [Spec.join, Function.update_of_ne hba, Function.update_of_ne hts] using h.queued b t
  · by_cases hba : b = a
    · subst hba
      simp [Spec.join] at hb
    · exact h.granted b t (by simpa [Spec.join, Function.update_of_ne hba] using hb)
  · by_cases hts : t = s
    · rw [hts]
      exact hs
    · exact h.held t (by simpa [Spec.join, Function.update_of_ne hts] using ht)
  · by_cases hba : b = a
    · rw [hba]
      exact ha
    · exact h.busy b (by simpa [Spec.join, Function.update_of_ne hba] using hb)
  · by_cases hts : t = s
    · subst hts
      simp only [Spec.join, Function.update_self]
      exact List.nodup_append.mpr ⟨h.nodup t, List.nodup_singleton a, fun b hb c hc => by
        rintro rfl
        exact hna t (List.mem_singleton.mp hc ▸ hb)⟩
    · simpa [Spec.join, Function.update_of_ne hts] using h.nodup t

theorem Spec.release_cons (m : Spec) (s b : Nat) (q : List Nat) (h : m.queue s = b :: q) :
    m.release s =
      { holder := Function.update m.holder s b
        queue := Function.update m.queue s q
        phase := Function.update m.phase b (.granted s) } := by
  simp only [Spec.release, h]

theorem Spec.release_nil (m : Spec) (s : Nat) (h : m.queue s = []) :
    m.release s = { m with holder := Function.update m.holder s 0 } := by
  simp only [Spec.release, h]

theorem Spec.Sound.release {m : Spec} {apps : List Nat} (h : m.Sound apps) (a s : Nat)
    (hs : m.holder s = a) (hidle : m.phase a = .idle) (h0 : 0 ∉ apps) :
    (m.release s).Sound apps := by
  have hng : ∀ c t, m.phase c = .granted t → t ≠ s := by
    rintro c t hc rfl
    have hca : c = a := (h.granted c t hc).symm.trans hs
    rw [hca, hidle] at hc
    cases hc
  cases hq : m.queue s with
  | nil =>
    rw [Spec.release_nil m s hq]
    refine ⟨h.queued, fun c t hc => ?_, fun t ht => ?_, h.busy, h.nodup⟩
    · exact (Function.update_of_ne (hng c t hc) _ _).trans (h.granted c t hc)
    · have hts : t ≠ s := by
        rintro rfl
        exact ht hq
      exact fun e => h.held t ht ((Function.update_of_ne hts 0 m.holder).symm.trans e)
  | cons b q =>
    have hb : m.phase b = .waiting s := (h.queued b s).mp (hq ▸ List.mem_cons_self)
    have hbq : b ∉ q := (List.nodup_cons.mp (hq ▸ h.nodup s)).1
    have hbapps : b ∈ apps := h.busy b (by rw [hb]; simp)
    rw [Spec.release_cons m s b q hq]
    refine ⟨fun c t => ?_, fun c t hc => ?_, fun t ht => ?_, fun c hc => ?_, fun t => ?_⟩
    · have hct := h.queued c t
      by_cases hcb : c = b
      · subst hcb
        by_cases hts : t = s
        · subst hts
          simp [hbq]
        · have hnt : c ∉ m.queue t :=
            fun hmem => hts (Phase.waiting.inj ((hct.mp hmem).symm.trans hb))
          simp [Function.update_of_ne hts, hnt]
      · by_cases hts : t = s
        · subst hts
          rw [hq] at hct
          simpa [Function.update_of_ne hcb, hcb] using hct
        · simpa [Function.update_of_ne hcb, Function.update_of_ne hts] using hct
    · by_cases hcb : c = b
      · subst hcb
        have hst : s = t := by simpa using hc
        simp [hst]
      · have hc' : m.phase c = .granted t := by simpa [Function.update_of_ne hcb] using hc
        exact (Function.update_of_ne (hng c t hc') _ _).trans (h.granted c t hc')
    · by_cases hts : t = s
      · subst hts
        simp only [Function.update_self]
        rintro rfl
        exact h0 hbapps
      · have ht' : m.queue t ≠ [] := by simpa [Function.update_of_ne hts] using ht
        exact fun e => h.held t ht' ((Function.update_of_ne hts b m.holder).symm.trans e)
    · by_cases hcb : c = b
      · rw [hcb]
        exact hbapps
      · exact h.busy c (by simpa [Function.update_of_ne hcb] using hc)
    · by_cases hts : t = s
      · subst hts
        simpa using (List.nodup_cons.mp (hq ▸ h.nodup t)).2
      · simpa [Function.update_of_ne hts] using h.nodup t

theorem Spec.Sound.dismiss {m : Spec} {apps : List Nat} (h : m.Sound apps) (s : Nat) :
    (m.dismiss s).Sound apps := by
  refine ⟨fun c t => ?_, fun c t hc => ?_, fun t ht => ?_, fun c hc => ?_, fun t => ?_⟩
  · have hct := h.queued c t
    by_cases hts : t = s
    · subst hts
      by_cases hmem : c ∈ m.queue t
      · simp [Spec.dismiss, hmem]
      · simp [Spec.dismiss, hmem, mt hct.mpr hmem]
    · by_cases hmem : c ∈ m.queue s
      · have hcs := (h.queued c s).mp hmem
        have hnt : c ∉ m.queue t := fun hc => hts (Phase.waiting.inj ((hct.mp hc).symm.trans hcs))
        simp [Spec.dismiss, Function.update_of_ne hts, hmem, hnt]
      · simpa [Spec.dismiss, Function.update_of_ne hts, hmem] using hct
  · by_cases hmem : c ∈ m.queue s
    · simp [Spec.dismiss, hmem] at hc
    · exact h.granted c t (by simpa [Spec.dismiss, hmem] using hc)
  · by_cases hts : t = s
    · subst hts
      simp [Spec.dismiss] at ht
    · exact h.held t (by simpa [Spec.dismiss, Function.update_of_ne hts] using ht)
  · by_cases hmem : c ∈ m.queue s
    · exact h.busy c (by rw [(h.queued c s).mp hmem]; simp)
    · exact h.busy c (by simpa [Spec.dismiss, hmem] using hc)
  · by_cases hts : t = s
    · subst hts
      simp [Spec.dismiss]
    · simpa [Spec.dismiss, Function.update_of_ne hts] using h.nodup t

theorem Spec.Sound.return {m : Spec} {apps : List Nat} (h : m.Sound apps) (a : Nat)
    (ha : ∀ s, m.phase a ≠ .waiting s) : (m.return a).Sound apps := by
  have hne : ∀ c s, m.phase c = .waiting s → c ≠ a := fun c s hc e => ha s (e ▸ hc)
  refine ⟨fun c t => ?_, fun c t hc => ?_, h.held, fun c hc => ?_, h.nodup⟩
  · by_cases hca : c = a
    · subst hca
      simpa [Spec.return] using mt (h.queued c t).mp (ha t)
    · simpa [Spec.return, Function.update_of_ne hca] using h.queued c t
  · by_cases hca : c = a
    · subst hca
      simp [Spec.return] at hc
    · exact h.granted c t (by simpa [Spec.return, Function.update_of_ne hca] using hc)
  · by_cases hca : c = a
    · subst hca
      simp [Spec.return] at hc
    · exact h.busy c (by simpa [Spec.return, Function.update_of_ne hca] using hc)

section

variable {w : Setting} {k k' : Kernel} {m : Spec}

theorem Refines.idle (h : Refines w k m) (a : Nat) (ha : k.pc a = .user) : m.phase a = .idle := by
  rw [h.phase a, Kernel.phase, ha]

theorem Refines.pc_ne (h : Refines w k m) (a b s : Nat) (ha : k.pc a = .user)
    (hb : b ∈ m.queue s) : b ≠ a :=
  h.sound.ne a b s hb (by rw [h.idle a ha]; simp)

theorem Refines.length_lt (h : Refines w k m) (s : Nat) : (m.queue s).length < w.fuel := by
  have hsub : m.queue s ⊆ w.apps := fun a ha =>
    h.sound.busy a (by rw [(h.sound.queued a s).mp ha]; simp)
  exact Nat.lt_of_le_of_lt ((List.subperm_of_subset (h.sound.nodup s) hsub).length_le)
    w.apps_lt

theorem Kernel.phase_congr (a : Nat) (hpc : k'.pc a = k.pc a)
    (hh : k'.apHbits a .sem = k.apHbits a .sem) (hs : k'.apSemaph a = k.apSemaph a) : k'.phase a =
      k.phase a := by
  rw [Kernel.phase, Kernel.phase, hpc, hh, hs]

theorem Kernel.phase_waiting (k : Kernel) (a s : Nat) :
    k.phase a = .waiting s ↔ k.Suspended a s := by
  unfold Kernel.phase Kernel.Suspended
  cases k.pc a <;> cases k.apHbits a .sem <;> by_cases hs : k.apSemaph a = 0 <;> simp [hs]

theorem Kernel.phase_granted (k : Kernel) (a s : Nat)
    (hpc : k.pc a = .evsTim s ∨ k.pc a = .evsNotim s) (hh : k.apHbits a .sem = true)
    (hs : k.apSemaph a ≠ 0) : k.phase a = .granted s := by
  unfold Kernel.phase
  rcases hpc with hpc | hpc <;> simp [hpc, hh, hs]

theorem Kernel.phase_deleted (k : Kernel) (a s : Nat)
    (hpc : k.pc a = .evsTim s ∨ k.pc a = .evsNotim s) (hh : k.apHbits a .sem = true)
    (hs : k.apSemaph a = 0) : k.phase a = .deleted := by
  unfold Kernel.phase
  rcases hpc with hpc | hpc <;> simp [hpc, hh, hs]

section

variable (h : Refines w k m)

include h

theorem evsS1_refines (a s : Nat) (ha : a ∈ w.apps) (hs : k.blApp s = 0) :
    Refines w (k.evsS1 a s) (m.take a s) where
  holder := fun t => by
    by_cases hts : t = s
    · subst hts
      simp [Kernel.evsS1, Spec.take]
    · simp [Kernel.evsS1, Spec.take, Function.update_of_ne hts, h.holder t]
  list := h.list
  phase := h.phase
  semaph := h.semaph
  sound := h.sound.take a s (h.holder s ▸ hs) w.apps_ne (fun h0 => w.apps_ne (h0 ▸ ha))
  sems := h.sems
  wu := h.wu

theorem einhaengen_refines (a s : Nat) (evtyp : Ev → Bool) (pc : Pc)
    (ha : a ∈ w.apps) (hpc : k.pc a = .user) (hs0 : s ≠ 0) (hs : k.blApp s ≠ 0)
    (hp : pc = .evsTim s ∨ pc = .evsNotim s) :
    Refines w ((k.einhaengen a s).applWait a evtyp pc) (m.join a s) where
  holder := h.holder
  list := fun t => by
    have hna : ∀ t, ∀ b ∈ (m.queue t).reverse, b ≠ a := fun t b hb =>
      h.pc_ne a b t hpc (List.mem_reverse.mp hb)
    by_cases hts : t = s
    · subst hts
      simp only [Kernel.applWait, Kernel.einhaengen, Spec.join, Function.update_self,
        List.reverse_append, List.reverse_singleton, List.singleton_append]
      exact linked_push a (h.list t) (fun h0 => w.apps_ne (h0 ▸ ha)) (Function.update_self _ _ _)
        fun b hb => Function.update_of_ne (hna t b hb) _ _
    · simp only [Kernel.applWait, Kernel.einhaengen, Spec.join, Function.update_of_ne hts]
      exact linked_congr (h.list t) fun b hb => Function.update_of_ne (hna t b hb) _ _
  phase := fun b => by
    by_cases hba : b = a
    · subst hba
      rcases hp with rfl | rfl <;> simp [Spec.join, Kernel.phase, Kernel.applWait]
    · simp only [Spec.join, Function.update_of_ne hba, h.phase b]
      exact (Kernel.phase_congr b (Function.update_of_ne hba _ _)
        (congrFun (Function.update_of_ne hba _ _) _) (Function.update_of_ne hba _ _)).symm
  semaph := fun b t hb => by
    by_cases hba : b = a
    · subst hba
      have hst : s = t := by simpa [Spec.join] using hb
      exact ⟨by simp [Kernel.applWait, Kernel.einhaengen, hst], hst ▸ hs0⟩
    · have hbt := h.semaph b t (by simpa [Spec.join, Function.update_of_ne hba] using hb)
      exact ⟨(Function.update_of_ne hba _ _).trans hbt.1, hbt.2⟩
  sound := h.sound.join a s (h.holder s ▸ hs) ha (h.idle a hpc)
  sems := h.sems
  wu := fun b => by
    by_cases hba : b = a
    · subst hba
      rcases hp with rfl | rfl <;> simp [Kernel.applWait]
    · simpa [Kernel.applWait, Kernel.einhaengen, Function.update_of_ne hba] using h.wu b

theorem evsSet_refines (a s d1 : Nat) (ha : a ∈ w.apps) (hpc : k.pc a = .user) (hs0 : s ≠ 0) :
    ∃ m', Spec.Step m (.set a s d1, (evsSet k a s d1).2) m' ∧
      Refines w (evsSet k a s d1).1 m' := by
  unfold evsSet
  by_cases h0 : k.blApp s = 0
  · rw [if_pos h0]
    exact ⟨_, .set_ok m a s d1 (h.holder s ▸ h0), evsS1_refines h a s ha h0⟩
  · rw [if_neg h0]
    by_cases hm : k.blApp s = a
    · rw [if_pos hm]
      exact ⟨m, .set_mine m a s d1 (h.holder s ▸ hm), h⟩
    · rw [if_neg hm]
      have hstep := Spec.Step.set_wait m a s d1 (h.holder s ▸ h0) (h.holder s ▸ hm)
      by_cases hd : d1 = 0
      · rw [if_pos hd]
        exact ⟨_, hstep, einhaengen_refines h a s _ _ ha hpc hs0 h0 (.inr rfl)⟩
      · rw [if_neg hd]
        exact ⟨_, hstep, einhaengen_refines h a s _ _ ha hpc hs0 h0 (.inl rfl)⟩

theorem evsCset_refines (a s : Nat) (ha : a ∈ w.apps) :
    ∃ m', Spec.Step m (.cset a s, (evsCset k a s).2) m' ∧ Refines w (evsCset k a s).1 m' := by
  unfold evsCset
  by_cases h0 : k.blApp s = 0
  · rw [if_pos h0]
    exact ⟨_, .cset_ok m a s (h.holder s ▸ h0), evsS1_refines h a s ha h0⟩
  · rw [if_neg h0]
    by_cases hm : k.blApp s = a
    · rw [if_pos hm]
      exact ⟨m, .cset_mine m a s (h.holder s ▸ hm), h⟩
    · rw [if_neg hm]
      exact ⟨m, .cset_busy m a s (h.holder s ▸ h0) (h.holder s ▸ hm), h⟩

theorem freeSemaphore_refines (a s : Nat) (hpc : k.pc a = .user) (hs : k.blApp s = a) :
    ∃ k', freeSemaphore w.fuel k s = some k' ∧ Refines w k' (m.release s) := by
  have hsound := h.sound.release a s (h.holder s ▸ hs) (h.idle a hpc) w.apps_ne
  have hlist := h.list s
  cases hq : m.queue s with
  | nil =>
    rw [Spec.release_nil m s hq] at hsound ⊢
    rw [hq] at hlist
    refine ⟨_, freeSemaphore_nil w.fuel k s hlist.1, ?_, h.list, h.phase, h.semaph, hsound,
      h.sems, h.wu⟩
    intro t
    by_cases hts : t = s
    · subst hts
      simp
    · simp [Function.update_of_ne hts, h.holder t]
  | cons b q =>
    rw [Spec.release_cons m s b q hq] at hsound ⊢
    rw [hq] at hlist
    have hfuel := h.length_lt s
    rw [hq] at hfuel
    have hb : m.phase b = .waiting s := (h.sound.queued b s).mp (hq ▸ List.mem_cons_self)
    have hbq := List.nodup_cons.mp (hq ▸ h.sound.nodup s)
    obtain ⟨k', hrun, ho⟩ := freeSemaphore_spec w.fuel k s b q hlist
      (Nat.lt_of_succ_lt hfuel)
    refine ⟨k', hrun, fun t => ?_, fun t => ?_, fun c => ?_, fun c t hc => ?_, hsound, ?_,
      fun c => ?_⟩
    · by_cases hts : t = s
      · subst hts
        simp [ho.blApp]
      · simp [ho.blApp, Function.update_of_ne hts, h.holder t]
    · by_cases hts : t = s
      · subst hts
        simpa using ho.list
      · -- Nobody of another queue is in this one, so its links are as they were.
        simp only [Function.update_of_ne hts, ho.waiting t hts]
        refine linked_congr (h.list t) fun x hx => ho.nxtsem x fun hxq => hts ?_
        have hxt := (h.sound.queued x t).mp (List.mem_reverse.mp hx)
        have hxs := (h.sound.queued x s).mp (hq ▸ List.mem_cons_of_mem b hxq)
        exact Phase.waiting.inj (hxt.symm.trans hxs)
    · by_cases hcb : c = b
      · subst hcb
        have hsus := (Kernel.phase_waiting k c s).mp ((h.phase c).symm.trans hb)
        have hsem := h.semaph c s hb
        rw [Kernel.phase_granted k' c s (ho.pc ▸ hsus.1) (by simp [ho.hbits])
          (by rw [ho.semaph, hsem.1]; exact hsem.2)]
        exact Function.update_self _ _ _
      · rw [Kernel.phase_congr c (congrFun ho.pc c)
          (congrFun ((congrFun ho.hbits c).trans (Function.update_of_ne hcb _ _)) _)
          (congrFun ho.semaph c)]
        exact (Function.update_of_ne hcb _ _).trans (h.phase c)
    · by_cases hcb : c = b
      · subst hcb
        simp at hc
      · rw [ho.semaph]
        exact h.semaph c t (by simpa [Function.update_of_ne hcb] using hc)
    · rw [ho.blNext]
      exact h.sems
    · rw [ho.pc]
      exact h.wu c

theorem evsFree_refines (a s : Nat) (hpc : k.pc a = .user) :
    ∃ k' r, evsFree w.fuel k a s = some (k', r) ∧
      ∃ m', Spec.Step m (.free a s, r) m' ∧ Refines w k' m' := by
  unfold evsFree
  by_cases hs : k.blApp s = a
  · rcases freeSemaphore_refines h a s hpc hs with ⟨k', hrun, hk'⟩
    rw [if_neg (not_not.mpr hs), hrun]
    exact ⟨k', some 0, rfl, _, .free_ok m a s (h.holder s ▸ hs), hk'⟩
  · rw [if_pos hs]
    exact ⟨k, _, rfl, m, .free_err m a s (h.holder s ▸ hs), h⟩

theorem destroySemaphore_refines (s : Nat) :
    ∃ k', destroySemaphore w.fuel k s = some k' ∧ Refines w k' (m.dismiss s) := by
  have hmem : ∀ x, x ∈ (m.queue s).reverse ↔ x ∈ m.queue s := fun x => List.mem_reverse
  obtain ⟨k', hrun, hin, hout, hk'⟩ := destroySemaphore_spec w.fuel k s _ (h.list s)
    (by rw [List.length_reverse]; exact h.length_lt s)
  have hpc : k'.pc = k.pc := by rw [hk']
  refine ⟨k', hrun, fun t => ?_, fun t => ?_, fun c => ?_, fun c t hc => ?_,
    h.sound.dismiss s, ?_, fun c => ?_⟩
  · rw [hk']
    exact h.holder t
  · have hw : k'.blWaiting = Function.update k.blWaiting s 0 := by rw [hk']
    have hn : k'.apNxtsem = k.apNxtsem := by rw [hk']
    rw [hw, hn]
    by_cases hts : t = s
    · subst hts
      simpa [Spec.dismiss] using linked_nil k.apNxtsem (0 : Nat)
    · simpa [Spec.dismiss, Function.update_of_ne hts] using h.list t
  · by_cases hc : c ∈ m.queue s
    · have hsus := (Kernel.phase_waiting k c s).mp
        ((h.phase c).symm.trans ((h.sound.queued c s).mp hc))
      have hcin := hin c ((hmem c).mpr hc)
      rw [Kernel.phase_deleted k' c s (hpc ▸ hsus.1) hcin.1 hcin.2]
      exact if_pos hc
    · have hcout := hout c (mt (hmem c).mp hc)
      rw [Kernel.phase_congr c (congrFun hpc c) (congrFun hcout.1 _) hcout.2, ← h.phase c]
      exact if_neg hc
  · by_cases hcs : c ∈ m.queue s
    · simp [Spec.dismiss, hcs] at hc
    · rw [(hout c (mt (hmem c).mp hcs)).2]
      exact h.semaph c t (by simpa [Spec.dismiss, hcs] using hc)
  · rw [hk']
    exact h.sems
  · rw [hpc]
    exact h.wu c

theorem evsDel_refines (a s : Nat) : ∃ k' r, evsDel w.fuel w.firstSem k a s = some (k', r) ∧
      ∃ m', Spec.Step m (.del a s, r) m' ∧ Refines w k' m' := by
  unfold evsDel
  by_cases hs : k.blApp s ≠ 0 ∧ k.blApp s ≠ a
  · rw [if_pos hs]
    exact ⟨k, _, rfl, m, .del_err m a s, h⟩
  · rw [if_neg hs]
    rcases h.sems with ⟨l, hl, hlf⟩
    rcases evdLoop_spec k.blNext s l w.firstSem w.fuel hl w.firstSem_ne hlf with ⟨r, hr, hrp⟩
    rw [hr]
    cases r with
    | none => exact ⟨k, _, rfl, m, .del_err m a s, h⟩
    | some p =>
      rcases hrp p rfl with ⟨u, v, rfl⟩
      have hcut : Refines w { k with blNext := Function.update k.blNext p (k.blNext s) } m := by
        refine ⟨h.holder, h.list, h.phase, h.semaph, h.sound, ⟨u ++ p :: v, ?_, ?_⟩, h.wu⟩
        · have hnd := linked_nodup hl
          refine linked_cut p s hl (Function.update_self _ _ _) fun y hy => ?_
          refine Function.update_of_ne ?_ _ _
          rintro rfl
          rw [List.nodup_append] at hnd
          rcases List.mem_append.mp hy with hyu | hyv
          · exact hnd.2.2 y hyu y List.mem_cons_self rfl
          · exact (List.nodup_cons.mp hnd.2.1).1 (List.mem_cons_of_mem s hyv)
        · simp only [List.length_append, List.length_cons] at hlf ⊢
          omega
      rcases destroySemaphore_refines hcut s with ⟨k', hrun, hk'⟩
      refine ⟨k', some 0, by simp only [hrun, Option.map_some], _, .del_ok m a s ?_, hk'⟩
      rw [← h.holder s]
      by_contra hc
      exact hs (not_or.mp hc)

theorem handleTim_refines (a : Nat) : Refines w (handleTim k a) m := by
  unfold handleTim
  split
  · refine ⟨h.holder, h.list, fun b => ?_, h.semaph, h.sound, h.sems, h.wu⟩
    rw [h.phase b]
    symm
    refine Kernel.phase_congr b rfl ?_ rfl
    by_cases hba : b = a
    · subst hba
      simp [Kernel.eventHappened]
    · simp [Kernel.eventHappened, Function.update_of_ne hba]
  · exact h

end

/-- The wait that goes on was not ended by `EV_TIM` alone. -/
def Prompt (k : Kernel) : Act → Prop
  | .resume a => k.apHbits a .sem = true
  | _ => True

theorem resume_refines (h : Refines w k m) (a : Nat) (hpc : k.pc a ≠ .user)
    (hsem : k.apHbits a .sem = true) :
    ∃ m', Spec.Step m (.resume a, (resume k a).2) m' ∧ Refines w (resume k a).1 m' := by
  have hres : ∃ s, (k.pc a = .evsTim s ∨ k.pc a = .evsNotim s) ∧
    (resume k a).2 = some (k.evsTstdel a) ∧
      (resume k a).1 = { k with
        apRbits := Function.update k.apRbits a (fun _ => false)
        pc := Function.update k.pc a .user } := by
    unfold resume
    cases hp : k.pc a with
    | user => exact absurd hp hpc
    | wu => exact absurd hp (h.wu a)
    | evsTim s => exact ⟨s, .inl rfl, by simp [hsem], rfl⟩
    | evsNotim s => exact ⟨s, .inr rfl, rfl, rfl⟩
  rcases hres with ⟨s, hs, hr, hk'⟩
  have hph : m.phase a = .granted s ∨ m.phase a = .deleted := by
    rw [h.phase a]
    by_cases h0 : k.apSemaph a = 0
    · exact .inr (k.phase_deleted a s hs hsem h0)
    · exact .inl (k.phase_granted a s hs hsem h0)
  refine ⟨m.return a, ?_, ?_⟩
  · rw [hr, Kernel.evsTstdel]
    by_cases h0 : k.apSemaph a = 0
    · rw [if_neg (not_not.mpr h0)]
      exact .resume_gone m a (h.phase a ▸ k.phase_deleted a s hs hsem h0)
    · rw [if_pos h0]
      have hg : m.phase a = .granted s := h.phase a ▸ k.phase_granted a s hs hsem h0
      exact .resume_ok m a s hg (h.sound.granted a s hg)
  · rw [hk']
    refine ⟨h.holder, h.list, fun b => ?_, fun b t hb => ?_, h.sound.return a fun t => ?_, h.sems,
      fun b => ?_⟩
    · by_cases hba : b = a
      · subst hba
        simp [Spec.return, Kernel.phase]
      · simp only [Spec.return, Function.update_of_ne hba, h.phase b]
        symm
        exact Kernel.phase_congr b (Function.update_of_ne hba _ _) rfl rfl
    · by_cases hba : b = a
      · subst hba
        simp [Spec.return] at hb
      · exact h.semaph b t (by simpa [Spec.return, Function.update_of_ne hba] using hb)
    · rcases hph with hph | hph <;> rw [hph] <;> simp
    · by_cases hba : b = a
      · subst hba
        simp
      · simpa [Function.update_of_ne hba] using h.wu b

/-- Each step is one of the abstract semaphores. -/
theorem step_refines (h : Refines w k m) (act : Act) (r : Option Int)
    (hstep : Step w k (act, r) k') (hprompt : Prompt k act) :
    ∃ m', Spec.Step m (act, r) m' ∧ Refines w k' m' := by
  rcases hstep with ⟨hen, hexec⟩
  cases act with
  | set a s d1 =>
    have hr : evsSet k a s d1 = (k', r) := Option.some.inj hexec
    have hm := evsSet_refines h a s d1 hen.1 hen.2.1 hen.2.2
    rwa [hr] at hm
  | cset a s =>
    have hr : evsCset k a s = (k', r) := Option.some.inj hexec
    have hm := evsCset_refines h a s hen.1
    rwa [hr] at hm
  | free a s =>
    rcases evsFree_refines h a s hen.2.1 with ⟨k1, r1, hrun, hm⟩
    cases hrun.symm.trans hexec
    exact hm
  | del a s =>
    rcases evsDel_refines h a s with ⟨k1, r1, hrun, hm⟩
    cases hrun.symm.trans hexec
    exact hm
  | tim a =>
    cases hexec
    exact ⟨m, .tim m a, handleTim_refines h a⟩
  | resume a =>
    have hr : resume k a = (k', r) := Option.some.inj hexec
    have hm := resume_refines h a hen.1 hprompt
    rwa [hr] at hm

/-- Nobody holds a semaphore or waits for one. -/
structure Fresh (w : Setting) (k : Kernel) : Prop where
  blApp : ∀ s, k.blApp s = 0
  blWaiting : ∀ s, k.blWaiting s = 0
  pc : ∀ a, k.pc a = .user
  sems : ∃ l, Linked k.blNext 0 w.firstSem l ∧ l.length < w.fuel

/-- Nobody holds a semaphore, and all applications are idle. -/
def Spec.initial : Spec := ⟨fun _ => 0, fun _ => [], fun _ => .idle⟩

theorem Fresh.refines (h : Fresh w k) : Refines w k Spec.initial where
  holder := h.blApp
  list := fun s => by
    rw [h.blWaiting s]
    exact linked_nil _ _
  phase := fun a => by
    rw [Kernel.phase, h.pc a]
    rfl
  semaph := fun _ _ ha => absurd ha (by simp [Spec.initial])
  sound := by
    refine ⟨fun a s => ?_, fun a s ha => ?_, fun s hs => absurd rfl hs, fun a ha => absurd rfl ha,
      fun s => List.nodup_nil⟩
    · simp [Spec.initial]
    · simp [Spec.initial] at ha
  sems := h.sems
  wu := fun a => by
    rw [h.pc a]
    simp

/-- The steps at which no wait is ended by `EV_TIM` alone. -/
def PromptStep (w : Setting) (k : Kernel) (l : Act × Option Int) (k' : Kernel) : Prop :=
  Step w k l k' ∧ Prompt k l.1

theorem run_refines (ls : List (Act × Option Int)) (hrun : Runs.Run (PromptStep w) k ls k')
    (h : Refines w k m) : ∃ m', Runs.Run Spec.Step m ls m' ∧ Refines w k' m' := by
  induction hrun generalizing m with
  | nil k => exact ⟨m, .nil m, h⟩
  | cons k k1 k' l ls hstep _ ih =>
    rcases step_refines h l.1 l.2 hstep.1 hstep.2 with ⟨m1, hm1, h1⟩
    rcases ih h1 with ⟨m', hm', h'⟩
    exact ⟨m', .cons m m1 m' l ls hm1 hm', h'⟩

theorem not_prompt_listed (h : Refines w k m) (l : Act × Option Int) (hstep : Step w k l k')
    (hp : ¬ Prompt k l.1) :
    ∃ a s q, Linked k'.apNxtsem 0 (k'.blWaiting s) q ∧ a ∈ q ∧ ¬ k'.Suspended a s := by
  rcases l with ⟨act, r⟩
  rcases hstep with ⟨hen, hexec⟩
  cases act with
  | resume a =>
    have hr : resume k a = (k', r) := Option.some.inj hexec
    have hsem : k.apHbits a .sem = false := by simpa [Prompt] using hp
    have hon : ∃ s, k.pc a = .evsTim s ∨ k.pc a = .evsNotim s := by
      cases hpc : k.pc a with
      | user => exact absurd hpc hen.1
      | wu => exact absurd hpc (h.wu a)
      | evsTim s => exact ⟨s, .inl rfl⟩
      | evsNotim s => exact ⟨s, .inr rfl⟩
    rcases hon with ⟨s, hs⟩
    have hq : a ∈ m.queue s := by
      refine (h.sound.queued a s).mpr ((h.phase a).trans ?_)
      exact (Kernel.phase_waiting k a s).mpr ⟨hs, hsem⟩
    have hk' : k' = { k with
        apRbits := Function.update k.apRbits a (fun _ => false)
        pc := Function.update k.pc a .user } := by
      refine (congrArg Prod.fst hr).symm.trans ?_
      unfold resume
      rcases hs with hs | hs <;> rw [hs]
    refine ⟨a, s, _, ?_, List.mem_reverse.mpr hq, ?_⟩
    · rw [hk']
      exact h.list s
    · rw [hk']
      simp [Kernel.Suspended]
  | set a s d1 => exact absurd trivial hp
  | cset a s => exact absurd trivial hp
  | free a s => exact absurd trivial hp
  | del a s => exact absurd trivial hp
  | tim a => exact absurd trivial hp

end

/-- Semaphores have the right owners and waiting lists, at the end of every run
    in which no wait is ended by `EV_TIM` alone, and a step that ends one in
    this way leaves somebody on a list who does not wait. -/
theorem semaphores_refine (w : Setting) (k₀ k : Kernel) (ls : List (Act × Option Int))
    (h₀ : Fresh w k₀) (hrun : Runs.Run (PromptStep w) k₀ ls k) :
    (∃ m, Runs.Run Spec.Step Spec.initial ls m ∧
      ∀ s, k.blApp s = m.holder s ∧ (m.queue s).Nodup ∧
        Linked k.apNxtsem 0 (k.blWaiting s) (m.queue s).reverse ∧
        ∀ a, a ∈ m.queue s ↔ k.Suspended a s) ∧
    ∀ l k', Step w k l k' → ¬ Prompt k l.1 →
      ∃ a s q, Linked k'.apNxtsem 0 (k'.blWaiting s) q ∧ a ∈ q ∧ ¬ k'.Suspended a s := by
  rcases run_refines ls hrun h₀.refines with ⟨m, hm, h⟩
  refine ⟨⟨m, hm, fun s => ⟨h.holder s, h.sound.nodup s, h.list s, fun a => ?_⟩⟩,
    fun l k' hstep hp => not_prompt_listed h l hstep hp⟩
  rw [h.sound.queued a s, h.phase a]
  exact Kernel.phase_waiting k a s

/-- Three applications, and the semaphores 8 and 9. -/
def demoSetting : Setting := ⟨8, [1, 2, 3], 4, by decide, by decide, by decide⟩

def demoKernel : Kernel where
  blCnt := fun _ => 0
  blApp := fun _ => 0
  blPd := fun _ => 0
  blWaiting := fun _ => 0
  blNext := fun s => if s = 8 then 9 else 0
  apPd := fun _ => 0
  apNxtsem := fun _ => 0
  apSemaph := fun _ => 0
  apRbits := fun _ _ => false
  apHbits := fun _ _ => false
  pc := fun _ => .user

theorem demoKernel_fresh : Fresh demoSetting demoKernel :=
  ⟨fun _ => rfl, fun _ => rfl, fun _ => rfl, [8, 9],
    ⟨⟨rfl, rfl, rfl⟩, by decide⟩, by decide⟩

/-- A run in which a semaphore is handed over. -/
theorem semaphores_refine_handover :
    ∃ (k : Kernel) (m : Spec), Runs.Run (PromptStep demoSetting) demoKernel
      [(.set 1 9 0, some 0), (.set 2 9 5, none), (.free 1 9, some 0), (.resume 2, some 0)] k ∧
      k.blApp 9 = m.holder 9 ∧ k.blApp 9 = 2 := by
  have hrun : ∃ k, Runs.Run (PromptStep demoSetting) demoKernel
      [(.set 1 9 0, some 0), (.set 2 9 5, none), (.free 1 9, some 0), (.resume 2, some 0)] k ∧
      k.blApp 9 = 2 := by
    refine ⟨_, .cons _ _ _ _ _ ⟨⟨by decide, rfl⟩, trivial⟩
      (.cons _ _ _ _ _ ⟨⟨by decide, rfl⟩, trivial⟩
      (.cons _ _ _ _ _ ⟨⟨by decide, rfl⟩, trivial⟩
      (.cons _ _ _ _ _ ⟨⟨by decide, rfl⟩, rfl⟩ (.nil _)))), by decide⟩
  rcases hrun with ⟨k, hrun, hk⟩
  rcases semaphores_refine demoSetting demoKernel k _ demoKernel_fresh hrun with ⟨⟨m, _, h⟩, _⟩
  exact ⟨k, m, hrun, (h 9).1, hk⟩

/-- A call that timed out becomes the owner later. -/
theorem semaphores_lose_timeout :
    ∃ k, Runs.Run (Step demoSetting) demoKernel
      [(.set 1 9 0, some 0), (.set 2 9 5, none), (.tim 2, none), (.resume 2, some 1),
        (.free 1 9, some 0)] k ∧ k.pc 2 = .user ∧ k.blApp 9 = 2 := by
  refine ⟨_, .cons _ _ _ _ _ ⟨by decide, rfl⟩
    (.cons _ _ _ _ _ ⟨by decide, rfl⟩
    (.cons _ _ _ _ _ ⟨by decide, rfl⟩
    (.cons _ _ _ _ _ ⟨by decide, rfl⟩
    (.cons _ _ _ _ _ ⟨by decide, rfl⟩ (.nil _))))), by decide, by decide⟩

end Aes

end MagiC
