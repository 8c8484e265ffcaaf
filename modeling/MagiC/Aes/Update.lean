import MagiC.Aes.Semaphore

/-!
# Who Owns the Screen

Any calls of `wind_update` by any applications, in any order.

`Lock` is what the screen lock is for: an owner, the number of times it has to
give the lock back, and a queue. An `END_UPDATE` only counts when it comes from
the owner. The code does not ask for the owner at `END_UPDATE`, only whether
the counter is positive, so it behaves like the lock as long as nobody else
calls `END_UPDATE` while the screen is locked, and as long as the nesting fits
into the counter.

## Main definitions

* `Locks`: A kernel as an abstract lock.

## Theorems

* `screen_locks`: The screen lock excludes.
-/

namespace MagiC

namespace Aes

open Chains

/-- A call of `wind_update` by the running application, or a suspended call
    that goes on. -/
inductive WuAct where
  | beg (a : Nat) (cas : Bool)
  | fin (a : Nat)
  | resume (a : Nat)

/-- `upd_blockage`, and the applications there are. -/
structure Screen where
  upd : Nat
  apps : List Nat
  fuel : Nat
  apps_ne : 0 ∉ apps
  apps_lt : apps.length < fuel

/-- What an action does, with the result that is returned, if one is. -/
def wuExec (w : Screen) (k : Kernel) : WuAct → Option (Kernel × Option Int)
  | .beg a cas => some (windUpdate k w.upd a cas)
  | .fin _ => endUpdate w.fuel k w.upd
  | .resume a => some (resume k a)

def WuEnabled (w : Screen) (k : Kernel) : WuAct → Prop
  | .beg a _ | .fin a => a ∈ w.apps ∧ k.pc a = .user
  | .resume a => k.pc a = .wu ∧ k.woken a = true

instance (w : Screen) (k : Kernel) : DecidablePred (WuEnabled w k)
  | .beg _ _ | .fin _ | .resume _ => inferInstanceAs (Decidable (_ ∧ _))

def WuStep (w : Screen) (k : Kernel) (l : WuAct × Option Int) (k' : Kernel) : Prop :=
  WuEnabled w k l.1 ∧ wuExec w k l.1 = some (k', l.2)

/-- An abstract lock: the owner, or 0, how often it has to give the lock back,
    and those that wait. -/
structure Lock where
  owner : Nat
  count : Nat
  queue : List Nat

/-- The owner gives the lock back for the last time. -/
def Lock.release (m : Lock) : Lock :=
  match m.queue with
  | [] => ⟨0, 0, []⟩
  | b :: q => ⟨b, 1, q⟩

/-- What the calls mean. -/
inductive Lock.Step : Lock → WuAct × Option Int → Lock → Prop where
  | beg_free (m : Lock) (a : Nat) (cas : Bool) (h : m.owner = 0) :
      Lock.Step m (.beg a cas, some 1) ⟨a, 1, m.queue⟩
  | beg_again (m : Lock) (a : Nat) (cas : Bool) (h : m.owner = a) :
      Lock.Step m (.beg a cas, some 1) ⟨a, m.count + 1, m.queue⟩
  | beg_busy (m : Lock) (a : Nat) (h : m.owner ≠ 0) (ha : m.owner ≠ a) :
      Lock.Step m (.beg a true, some 0) m
  | beg_wait (m : Lock) (a : Nat) (h : m.owner ≠ 0) (ha : m.owner ≠ a) :
      Lock.Step m (.beg a false, none) ⟨m.owner, m.count, m.queue ++ [a]⟩
  | fin_nested (m : Lock) (a : Nat) (h : m.owner = a) (hc : 1 < m.count) :
      Lock.Step m (.fin a, some 1) ⟨a, m.count - 1, m.queue⟩
  | fin_last (m : Lock) (a : Nat) (h : m.owner = a) (hc : m.count = 1) :
      Lock.Step m (.fin a, some 1) m.release
  | fin_err (m : Lock) (a : Nat) (h : m.owner ≠ a) : Lock.Step m (.fin a, some 0) m
  | resume (m : Lock) (a : Nat) (h : m.owner = a) : Lock.Step m (.resume a, some 1) m

/-- A kernel as an abstract lock. -/
structure Locks (w : Screen) (k : Kernel) (m : Lock) : Prop where
  owner : k.blApp w.upd = m.owner
  cnt : k.blCnt w.upd = m.count
  bound : m.count < 2 ^ 16
  zero : m.owner = 0 ↔ m.count = 0
  held : m.queue ≠ [] → m.owner ≠ 0
  list : Linked k.apNxtsem 0 (k.blWaiting w.upd) m.queue.reverse
  waits : ∀ a, a ∈ m.queue ↔ k.pc a = .wu ∧ k.apHbits a .sem = false
  granted : ∀ a, k.pc a = .wu → k.apHbits a .sem = true → m.owner = a
  apps : ∀ a, k.pc a = .wu → a ∈ w.apps
  rbits : ∀ a, k.pc a = .wu → k.apRbits a .tim = false

/-- Only the owner ends an update, unless the counter says that there is none,
    and the counter has room for one more update. -/
def Owned (w : Screen) (k : Kernel) : WuAct → Prop
  | .beg a _ => k.blApp w.upd = a → k.blCnt w.upd + 1 < 2 ^ 16
  | .fin a => (k.blApp w.upd = a ↔ k.blCnt w.upd ≠ 0 ∧ k.blCnt w.upd < 2 ^ 15)
  | .resume _ => True

instance (w : Screen) (k : Kernel) : DecidablePred (Owned w k)
  | .beg _ _ => inferInstanceAs (Decidable (_ → _))
  | .fin _ => inferInstanceAs (Decidable (_ ↔ _))
  | .resume _ => inferInstanceAs (Decidable True)

section

variable {w : Screen} {k k' : Kernel} {m : Lock}

section

variable (h : Locks w k m)

include h

theorem Locks.nodup : m.queue.Nodup :=
  List.nodup_reverse.mp (linked_nodup h.list)

theorem Locks.length_lt : m.queue.length < w.fuel := by
  have hsub : m.queue ⊆ w.apps := fun a ha => h.apps a ((h.waits a).mp ha).1
  exact Nat.lt_of_le_of_lt (List.subperm_of_subset h.nodup hsub).length_le w.apps_lt

theorem begUpdate_true (a : Nat) (ha0 : a ≠ 0)
    (ha : m.owner = 0 ∨ m.owner = a) (hroom : m.owner = a → m.count + 1 < 2 ^ 16) :
    (begUpdate k w.upd a).2 = true ∧ Locks w (begUpdate k w.upd a).1 ⟨a, m.count + 1, m.queue⟩ := by
  have hcnt : m.count + 1 < 2 ^ 16 := by
    rcases ha with h0 | ha
    · rw [h.zero.mp h0]
      decide
    · exact hroom ha
  have hmod : (k.blCnt w.upd + 1) % 2 ^ 16 = m.count + 1 := by
    rw [h.cnt]
    exact Nat.mod_eq_of_lt hcnt
  have hgr : ∀ b, k.pc b = .wu → k.apHbits b .sem = true → a = b := by
    intro b hb hs
    have hob := h.granted b hb hs
    rcases ha with h0 | ha
    · have hbapps := h.apps b hb
      rw [← hob, h0] at hbapps
      exact absurd hbapps w.apps_ne
    · exact ha.symm.trans hob
  unfold begUpdate
  simp only [hmod]
  by_cases hown : k.blApp w.upd = a
  · rw [if_pos hown]
    exact ⟨rfl, hown, Function.update_self _ _ _, hcnt, by simp [ha0], fun _ => ha0, h.list,
      h.waits, hgr, h.apps, h.rbits⟩
  · have h0 : m.count = 0 := by
      rcases ha with h0 | ha
      · exact h.zero.mp h0
      · exact absurd (h.owner.trans ha) hown
    rw [if_neg hown, if_pos (by omega)]
    exact ⟨rfl, Function.update_self _ _ _, Function.update_self _ _ _, hcnt, by simp [ha0],
      fun _ => ha0, h.list, h.waits, hgr, h.apps, h.rbits⟩

theorem begUpdate_false (a : Nat) (h0 : m.owner ≠ 0) (ha : m.owner ≠ a) :
    begUpdate k w.upd a = (k, false) := by
  have hc : m.count ≠ 0 := mt h.zero.mpr h0
  have hb := h.bound
  have hne : (m.count + 1) % 2 ^ 16 ≠ 1 := by omega
  have hback : ((m.count + 1) % 2 ^ 16 + 2 ^ 16 - 1) % 2 ^ 16 = m.count := by omega
  unfold begUpdate
  simp only [h.cnt, h.owner, if_neg ha, if_neg hne, hback]
  rw [← h.cnt, Function.update_eq_self]

theorem windUpdate_locks (a : Nat) (cas : Bool) (ha : a ∈ w.apps)
    (hpc : k.pc a = .user) (hroom : m.owner = a → m.count + 1 < 2 ^ 16) :
    ∃ m', Lock.Step m (.beg a cas, (windUpdate k w.upd a cas).2) m' ∧
      Locks w (windUpdate k w.upd a cas).1 m' := by
  have ha0 : a ≠ 0 := fun h0 => w.apps_ne (h0 ▸ ha)
  unfold windUpdate
  by_cases hfree : m.owner = 0 ∨ m.owner = a
  · rcases begUpdate_true h a ha0 hfree hroom with ⟨h2, hl⟩
    simp only [h2, if_true]
    refine ⟨_, ?_, hl⟩
    rcases hfree with h0 | hown
    · have hstep := Lock.Step.beg_free m a cas h0
      rw [h.zero.mp h0]
      exact hstep
    · exact .beg_again m a cas hown
  · have h0 := fun e => hfree (.inl e)
    have hne := fun e => hfree (.inr e)
    rw [begUpdate_false h a h0 hne]
    cases cas with
    | true => exact ⟨m, .beg_busy m a h0 hne, h⟩
    | false =>
      have hna : a ∉ m.queue := fun hq => by
        have hwu := ((h.waits a).mp hq).1
        rw [hpc] at hwu
        cases hwu
      refine ⟨_, .beg_wait m a h0 hne, h.owner, h.cnt, h.bound, h.zero, fun _ => h0, ?_,
        fun b => ?_, fun b hb hs => ?_, fun b hb => ?_, fun b hb => ?_⟩
      · simp only [Bool.false_eq_true, if_false, Kernel.applWait, Kernel.einhaengen,
          Function.update_self, List.reverse_append, List.reverse_singleton,
          List.singleton_append]
        refine linked_push a h.list ha0 (Function.update_self _ _ _) fun b hb => ?_
        refine Function.update_of_ne ?_ _ _
        rintro rfl
        exact hna (List.mem_reverse.mp hb)
      · by_cases hba : b = a
        · subst hba
          simp [Kernel.applWait]
        · simpa [Kernel.applWait, Kernel.einhaengen, Function.update_of_ne hba, hba]
            using h.waits b
      · by_cases hba : b = a
        · subst hba
          simp [Kernel.applWait] at hs
        · exact h.granted b
            (by simpa [Kernel.applWait, Kernel.einhaengen, Function.update_of_ne hba] using hb)
            (by simpa [Kernel.applWait, Kernel.einhaengen, Function.update_of_ne hba] using hs)
      · by_cases hba : b = a
        · rw [hba]
          exact ha
        · exact h.apps b
            (by simpa [Kernel.applWait, Kernel.einhaengen, Function.update_of_ne hba] using hb)
      · by_cases hba : b = a
        · subst hba
          simp [Kernel.applWait]
        · simpa [Kernel.applWait, Kernel.einhaengen, Function.update_of_ne hba] using h.rbits b
            (by simpa [Kernel.applWait, Kernel.einhaengen, Function.update_of_ne hba] using hb)

theorem release_locks (a : Nat) (hpc : k.pc a = .user) (hown : m.owner = a) :
    ∃ k', freeSemaphore w.fuel { k with blCnt := Function.update k.blCnt w.upd 0 } w.upd = some k' ∧
      Locks w k' m.release := by
  have hng : ∀ b, k.pc b = .wu → k.apHbits b .sem = false := by
    intro b hb
    by_contra hs
    have hba : a = b := hown.symm.trans (h.granted b hb (by simpa using hs))
    rw [← hba, hpc] at hb
    cases hb
  have hlist := h.list
  have hfuel := h.length_lt
  unfold Lock.release
  cases hq : m.queue with
  | nil =>
    rw [hq] at hlist
    refine ⟨_, freeSemaphore_nil w.fuel _ w.upd hlist.1, Function.update_self _ _ _,
      Function.update_self _ _ _, by decide, by simp, fun hne => absurd rfl hne, hlist,
      fun b => ?_, fun b hb hs => ?_, h.apps, h.rbits⟩
    · have hb := h.waits b
      rwa [hq] at hb
    · exact absurd hs (by simp [hng b hb])
  | cons b q =>
    rw [hq] at hlist hfuel
    have hb := (h.waits b).mp (hq ▸ List.mem_cons_self)
    have hnd : b ∉ q := (List.nodup_cons.mp (hq ▸ h.nodup)).1
    obtain ⟨k', hrun, ho⟩ := freeSemaphore_spec w.fuel
      { k with blCnt := Function.update k.blCnt w.upd 0 } w.upd b q hlist
      (Nat.lt_of_succ_lt hfuel)
    have hb0 : b ≠ 0 := fun h0 => w.apps_ne (h0 ▸ h.apps b hb.1)
    have hpcs : ∀ c, k'.pc c = k.pc c := fun c => congrFun ho.pc c
    have hsem : ∀ c, c ≠ b → k'.apHbits c .sem = k.apHbits c .sem := fun c hc =>
      congrFun ((congrFun ho.hbits c).trans (Function.update_of_ne hc _ _)) _
    have hsemb : k'.apHbits b .sem = true := by simp [ho.hbits]
    refine ⟨k', hrun, by simp [ho.blApp], by simp [ho.blCnt], by simp, by simp [hb0],
      fun _ => hb0, ho.list, fun c => ?_, fun c hc hs => ?_, fun c hc => ?_, fun c hc => ?_⟩
    · rw [hpcs c]
      by_cases hcb : c = b
      · subst hcb
        simp [hnd, hsemb]
      · have hc := h.waits c
        rw [hq] at hc
        rw [hsem c hcb, ← hc]
        simp [hcb]
    · by_contra hbc
      rw [hpcs c] at hc
      rw [hsem c (Ne.symm hbc), hng c hc] at hs
      cases hs
    · exact h.apps c (hpcs c ▸ hc)
    · rw [ho.rbits]
      exact h.rbits c (hpcs c ▸ hc)

theorem endUpdate_locks (a : Nat) (hpc : k.pc a = .user) (ha0 : a ≠ 0)
    (howned : Owned w k (.fin a)) :
    ∃ k' r, endUpdate w.fuel k w.upd = some (k', r) ∧
      ∃ m', Lock.Step m (.fin a, r) m' ∧ Locks w k' m' := by
  have hiff : m.owner = a ↔ m.count ≠ 0 ∧ m.count < 2 ^ 15 := by
    have ho := howned
    rwa [Owned, h.owner, h.cnt] at ho
  unfold endUpdate
  simp only [h.cnt]
  by_cases hown : m.owner = a
  · have hc := hiff.mp hown
    rw [if_neg (by omega)]
    simp only [Function.update_self]
    by_cases h1 : m.count = 1
    · rcases release_locks h a hpc hown with ⟨k', hrun, hk'⟩
      rw [if_neg (by omega), h1]
      refine ⟨k', some 1, by simp only [Nat.sub_self, hrun, Option.map_some], _,
        .fin_last m a hown h1, hk'⟩
    · rw [if_pos (by omega)]
      refine ⟨_, _, rfl, _, .fin_nested m a hown (by omega), ?_⟩
      have hm0 : m.count - 1 ≠ 0 := by omega
      exact ⟨h.owner.trans hown, Function.update_self _ _ _, by simp only; omega,
        by simp [ha0, hm0], fun _ => ha0, h.list, h.waits, fun b hb hs => by
          rw [← hown]
          exact h.granted b hb hs, h.apps, h.rbits⟩
  · have hc := mt hiff.mpr hown
    rw [if_pos (by omega)]
    exact ⟨k, _, rfl, m, .fin_err m a hown, h⟩

theorem wuResume_locks (a : Nat) (hpc : k.pc a = .wu) (hwoken : k.woken a = true) :
    Lock.Step m (.resume a, (resume k a).2) m ∧ Locks w (resume k a).1 m := by
  have hsem : k.apHbits a .sem = true := by
    have hw := hwoken
    simp only [Kernel.woken, h.rbits a hpc, Bool.false_and, Bool.false_or, Bool.and_eq_true] at hw
    exact hw.2
  have hne : ∀ b, (Function.update k.pc a .user) b = .wu → b ≠ a ∧ k.pc b = .wu := by
    intro b hb
    by_cases hba : b = a
    · subst hba
      simp at hb
    · exact ⟨hba, by simpa [Function.update_of_ne hba] using hb⟩
  have hown := h.granted a hpc hsem
  unfold resume
  rw [hpc]
  refine ⟨.resume m a hown, h.owner, h.cnt, h.bound, h.zero, h.held, h.list, fun b => ?_,
    fun b hb hs => h.granted b (hne b hb).2 hs, fun b hb => h.apps b (hne b hb).2, fun b hb => ?_⟩
  · rw [h.waits b]
    by_cases hba : b = a
    · subst hba
      simp [hsem]
    · simp [Function.update_of_ne hba]
  · simpa [Function.update_of_ne (hne b hb).1] using h.rbits b (hne b hb).2

/-- Each step is one of the abstract lock. -/
theorem wuStep_locks (act : WuAct) (r : Option Int)
    (hstep : WuStep w k (act, r) k') (howned : Owned w k act) :
    ∃ m', Lock.Step m (act, r) m' ∧ Locks w k' m' := by
  rcases hstep with ⟨hen, hexec⟩
  cases act with
  | beg a cas =>
    have hr : windUpdate k w.upd a cas = (k', r) := Option.some.inj hexec
    have hroom : m.owner = a → m.count + 1 < 2 ^ 16 := by
      have ho := howned
      rwa [Owned, h.owner, h.cnt] at ho
    have hm := windUpdate_locks h a cas hen.1 hen.2 hroom
    rwa [hr] at hm
  | fin a =>
    obtain ⟨k1, r1, hrun, hm⟩ := endUpdate_locks h a hen.2 (fun h0 => w.apps_ne (h0 ▸ hen.1))
      howned
    cases hrun.symm.trans hexec
    exact hm
  | resume a =>
    have hr : resume k a = (k', r) := Option.some.inj hexec
    have hm := wuResume_locks h a hen.1 hen.2
    rw [hr] at hm
    exact ⟨m, hm⟩

end

theorem endUpdate_result (fuel : Nat) (b : Nat) (r : Option Int)
    (h : endUpdate fuel k b = some (k', r)) :
    r = some (if k.blCnt b = 0 ∨ 2 ^ 15 ≤ k.blCnt b then 0 else 1) := by
  unfold endUpdate at h
  by_cases hc : k.blCnt b = 0 ∨ 2 ^ 15 ≤ k.blCnt b
  · rw [if_pos hc] at h ⊢
    exact ((Prod.mk.inj (Option.some.inj h)).2).symm
  · rw [if_neg hc] at h ⊢
    simp only at h
    split at h
    · exact ((Prod.mk.inj (Option.some.inj h)).2).symm
    · rcases Option.map_eq_some_iff.mp h with ⟨k1, _, hk1⟩
      exact ((Prod.mk.inj hk1).2).symm

/-- A step that is not `Owned` is none of the abstract lock. -/
theorem wuStep_unowned (h : Locks w k m) (l : WuAct × Option Int) (hstep : WuStep w k l k')
    (howned : ¬ Owned w k l.1) :
    ¬ ∃ m', Lock.Step m l m' ∧ k'.blApp w.upd = m'.owner ∧ k'.blCnt w.upd = m'.count := by
  rcases l with ⟨act, r⟩
  rcases hstep with ⟨hen, hexec⟩
  rintro ⟨m', hm, happ, hcnt⟩
  cases act with
  | resume a => exact howned trivial
  | beg a cas =>
    have ho : m.owner = a ∧ ¬ m.count + 1 < 2 ^ 16 := by
      have hno := howned
      rwa [Owned, h.owner, h.cnt, Classical.not_imp] at hno
    have hfull : m.count = 2 ^ 16 - 1 := by
      have hb := h.bound
      omega
    -- The counter starts again from 0, and the owner still owns the lock.
    have hr : windUpdate k w.upd a cas = (k', r) := Option.some.inj hexec
    unfold windUpdate begUpdate at hr
    simp only [h.cnt, hfull, h.owner, ho.1, if_true] at hr
    rw [← (Prod.mk.inj hr).1] at hcnt
    have ha0 : a ≠ 0 := fun h0 => w.apps_ne (h0 ▸ hen.1)
    cases hm with
    | beg_free _ _ h0 => exact ha0 (ho.1.symm.trans h0)
    | beg_again _ _ _ => simp [hfull] at hcnt
    | beg_busy _ _ hne => exact hne ho.1
    | beg_wait _ _ hne => exact hne ho.1
  | fin a =>
    have hres := endUpdate_result w.fuel w.upd r hexec
    rw [h.cnt] at hres
    have hiff : ¬ (m.owner = a ↔ m.count ≠ 0 ∧ m.count < 2 ^ 15) := by
      have hno := howned
      rwa [Owned, h.owner, h.cnt] at hno
    have ha0 : a ≠ 0 := fun h0 => w.apps_ne (h0 ▸ hen.1)
    have hz := h.zero
    by_cases hown : m.owner = a
    · have hc0 : m.count ≠ 0 := fun e => ha0 (hown.symm.trans (hz.mpr e))
      have hc : ¬ m.count < 2 ^ 15 := fun e => hiff ⟨fun _ => ⟨hc0, e⟩, fun _ => hown⟩
      rw [if_pos (by omega)] at hres
      subst hres
      cases hm with
      | fin_err _ hne => exact hne hown
    · have hc : m.count ≠ 0 ∧ m.count < 2 ^ 15 := by
        by_contra e
        exact hiff ⟨fun e' => absurd e' hown, fun e' => absurd e' e⟩
      rw [if_neg (by omega)] at hres
      subst hres
      cases hm with
      | fin_nested _ e _ => exact hown e
      | fin_last _ e _ => exact hown e

/-- Nobody holds the lock or waits for it. -/
structure Unlocked (w : Screen) (k : Kernel) : Prop where
  blApp : k.blApp w.upd = 0
  blCnt : k.blCnt w.upd = 0
  blWaiting : k.blWaiting w.upd = 0
  pc : ∀ a, k.pc a = .user

theorem Unlocked.locks (h : Unlocked w k) : Locks w k ⟨0, 0, []⟩ := by
  have hpc : ∀ a, k.pc a ≠ .wu := fun a => by
    rw [h.pc a]
    simp
  refine ⟨h.blApp, h.blCnt, by decide, by simp, fun hne => absurd rfl hne, ?_, fun a => ?_,
    fun a ha => absurd ha (hpc a), fun a ha => absurd ha (hpc a), fun a ha => absurd ha (hpc a)⟩
  · rw [h.blWaiting]
    exact linked_nil _ _
  · simp [hpc a]

/-- The steps at which only the owner ends an update. -/
def OwnedStep (w : Screen) (k : Kernel) (l : WuAct × Option Int) (k' : Kernel) : Prop :=
  WuStep w k l k' ∧ Owned w k l.1

theorem run_locks (ls : List (WuAct × Option Int)) (hrun : Runs.Run (OwnedStep w) k ls k')
    (h : Locks w k m) : ∃ m', Runs.Run Lock.Step m ls m' ∧ Locks w k' m' := by
  induction hrun generalizing m with
  | nil k => exact ⟨m, .nil m, h⟩
  | cons k k1 k' l ls hstep _ ih =>
    rcases wuStep_locks h l.1 l.2 hstep.1 hstep.2 with ⟨m1, hm1, h1⟩
    rcases ih h1 with ⟨m', hm', h'⟩
    exact ⟨m', .cons m m1 m' l ls hm1 hm', h'⟩

end

/-- The screen lock excludes, at the end of every run in which only the owner
    ends an update and the nesting fits into the counter. The next step is one
    of the lock if and only if it is of this kind too. -/
theorem screen_locks (w : Screen) (k₀ k : Kernel) (ls : List (WuAct × Option Int))
    (h₀ : Unlocked w k₀) (hrun : Runs.Run (OwnedStep w) k₀ ls k) :
    ∃ m, Runs.Run Lock.Step ⟨0, 0, []⟩ ls m ∧
      k.blApp w.upd = m.owner ∧ k.blCnt w.upd = m.count ∧
      Linked k.apNxtsem 0 (k.blWaiting w.upd) m.queue.reverse ∧
      (∀ a, a ∈ m.queue ↔ k.pc a = .wu ∧ k.apHbits a .sem = false) ∧
      ∀ l k', WuStep w k l k' →
        ((∃ m', Lock.Step m l m' ∧ k'.blApp w.upd = m'.owner ∧ k'.blCnt w.upd = m'.count) ↔
          Owned w k l.1) := by
  rcases run_locks ls hrun h₀.locks with ⟨m, hm, h⟩
  refine ⟨m, hm, h.owner, h.cnt, h.list, h.waits, fun l k' hstep => ⟨fun hl => ?_, fun ho => ?_⟩⟩
  · by_contra ho
    exact wuStep_unowned h l hstep ho hl
  · rcases wuStep_locks h l.1 l.2 hstep ho with ⟨m', hm', h'⟩
    exact ⟨m', hm', h'.owner, h'.cnt⟩

/-- Three applications. -/
def demoScreen : Screen := ⟨9, [1, 2, 3], 4, demoSetting.apps_ne, demoSetting.apps_lt⟩

theorem demoKernel_unlocked : Unlocked demoScreen demoKernel := ⟨rfl, rfl, rfl, fun _ => rfl⟩

/-- A run with a nested update and a handover. -/
theorem screen_locks_nested :
    ∃ (k : Kernel) (m : Lock), Runs.Run (OwnedStep demoScreen) demoKernel
      [(.beg 1 false, some 1), (.beg 1 true, some 1), (.beg 2 false, none), (.fin 1, some 1),
        (.fin 1, some 1), (.resume 2, some 1)] k ∧ k.blApp 9 = m.owner ∧ k.blApp 9 = 2 := by
  have hrun : ∃ k, Runs.Run (OwnedStep demoScreen) demoKernel
      [(.beg 1 false, some 1), (.beg 1 true, some 1), (.beg 2 false, none), (.fin 1, some 1),
        (.fin 1, some 1), (.resume 2, some 1)] k ∧ k.blApp 9 = 2 := by
    refine ⟨_, .cons _ _ _ _ _ ⟨⟨by decide, rfl⟩, by decide⟩
      (.cons _ _ _ _ _ ⟨⟨by decide, rfl⟩, by decide⟩
      (.cons _ _ _ _ _ ⟨⟨by decide, rfl⟩, by decide⟩
      (.cons _ _ _ _ _ ⟨⟨by decide, rfl⟩, by decide⟩
      (.cons _ _ _ _ _ ⟨⟨by decide, rfl⟩, by decide⟩
      (.cons _ _ _ _ _ ⟨⟨by decide, rfl⟩, trivial⟩ (.nil _)))))), by decide⟩
  rcases hrun with ⟨k, hrun, hk⟩
  rcases screen_locks demoScreen demoKernel k _ demoKernel_unlocked hrun with ⟨m, _, h⟩
  exact ⟨k, m, hrun, h.1, hk⟩

/-- Somebody who is not the owner ends an update, and the next one gets the
    screen while the owner still has it. -/
theorem screen_unlocked_by_other :
    ∃ k, Runs.Run (WuStep demoScreen) demoKernel
      [(.beg 1 false, some 1), (.fin 2, some 1), (.beg 2 false, some 1)] k ∧ k.blApp 9 = 2 := by
  refine ⟨_, .cons _ _ _ _ _ ⟨by decide, rfl⟩
    (.cons _ _ _ _ _ ⟨by decide, rfl⟩
    (.cons _ _ _ _ _ ⟨by decide, rfl⟩ (.nil _))), by decide⟩

end Aes

end MagiC
