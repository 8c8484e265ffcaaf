import MagiC.Aes.Timer

/-!
# Alarms of the AES

`appl_alrm`, `wait_alrm`, `rmv_ap_alrm`, `handle_alm` and the alarm part of `timer_int` of
`aesevt.s`, in any order.

The list of the alarms, the countdown and the event in the ring buffer are those of the timers, so
what is known of the timers is known of the alarms. An application has a flag besides, which
`appl_alrm` asks before it looks for the alarm in the list. `handle_alm` takes an alarm out of the
list when its time has come, but it leaves the flag set. The link and the offset of the element
stay as well, and the next `appl_alrm` of the application adds the one to the element that the
other leads to, which is another application's alarm.

The milliseconds are divided into a word. When the quotient is none, nothing is divided, and the
lower word of the milliseconds is taken for the ticks.

Only the alarm events of the ring buffer are there. The number of interrupts, the tick that was
asked for, and whether an alarm has expired are a record for the statements.

## Main definitions

* `OnTime`: No alarm is set at a wrong moment, or for too long.

## Theorems

* `alarms_exact`: What holds in every run.
-/

namespace MagiC

namespace Aes

/-- The alarm list with `ap_alrmms`, the counters, the codes of the queued `handle_alm` events,
    `ap_isalarm`, the applications with a process, and the ticks of the clock in milliseconds. For
    elements that have been taken out of the list there are `ap_nxtalrm` and `ap_alrmms`. The last
    three are the number of interrupts so far, the one asked for, and the applications whose alarm
    has expired since they were there. -/
structure Alarm where
  evlist : List (Nat × Int)
  cntdown : Nat
  cntup : Nat
  ringbuf : List Nat
  isalarm : Nat → Bool
  nxtalrm : Nat → Option Nat
  alrmms : Nat → Int
  pd : Nat → Bool
  click : Nat
  now : Nat
  due : Nat → Nat
  expired : Nat → Bool

def Alarm.waiting (s : Alarm) : List Nat := s.evlist.map Prod.fst

/-- What is added to the offset of an element, wherever that is. -/
def addAlrmms (s : Alarm) (b : Nat) (d : Int) : Alarm :=
  { s with
    evlist := s.evlist.map fun p => if p.1 = b then (p.1, s32 (p.2 + d)) else p
    alrmms := Function.update s.alrmms b (s32 (s.alrmms b + d)) }

/-- `rmv_ap_alrm`. The offset is added to the next element, on which the list need not lead, and
    the element is looked for in the list. -/
def rmvApAlrm (s : Alarm) (a : Nat) : Alarm :=
  if s.isalarm a then
    let s :=
      if a ∈ s.waiting then { s with evlist := rmvLstelm a s.evlist }
      else
        match s.nxtalrm a with
        | none => s
        | some b => if s.alrmms a = 0 then s else addAlrmms s b (s.alrmms a)
    { s with
      isalarm := Function.update s.isalarm a false
      cntdown := if s.evlist = [] then 0 else s.cntdown
      expired := Function.update s.expired a false }
  else s

def waitAlrm (s : Alarm) (a d : Nat) : Alarm :=
  let d0 := if d = 0 then 1 else d
  let start := s.cntdown = 0
  let cntup := if start then 0 else s.cntup
  { s with
    evlist := wtSort a cntup d0 s.evlist
    cntdown := if start ∨ d0 ≤ s.cntdown then d0 else s.cntdown
    cntup := cntup
    isalarm := Function.update s.isalarm a true }

/-- `divu ms_per_click` and the lower word. A quotient that is no word is not stored. -/
def alrmTicks (click ms : Nat) : Nat := if ms / click < 2 ^ 16 then ms / click else ms % 2 ^ 16

/-- `apal_loop`: the offsets up to the application less what has been counted, or all offsets. -/
def apalLoop (a cntup : Nat) : List (Nat × Int) → Int → Int
  | [], d0 => d0
  | (b, ms) :: l, d0 =>
    if b = a then s32 (s32 (d0 + ms) - cntup) else apalLoop a cntup l (s32 (d0 + ms))

/-- `apal_get`: the milliseconds, of which there are a word of ticks. -/
def apalGet (s : Alarm) (a : Nat) : Nat :=
  if s.isalarm a then (apalLoop a s.cntup s.evlist 0 % 2 ^ 16).toNat * s.click else 0

/-- `appl_alrm` of the application `a`. -/
def applAlrm (s : Alarm) (a : Nat) (ms : Int) : Alarm × Nat :=
  if ms < 0 then (s, apalGet s a)
  else
    let s := rmvApAlrm s a
    if ms = 0 then (s, apalGet s a)
    else
      let s :=
        { waitAlrm s a (alrmTicks s.click ms.toNat) with
          due := Function.update s.due a (s.now + ms.toNat / s.click) }
      (s, apalGet s a)

/-- The alarm part of `timer_int`. An event that finds the ring buffer full is delayed. -/
def alrmInt (s : Alarm) (full : Bool) : Alarm :=
  let s := { s with now := s.now + 1 }
  if s.cntdown = 0 then s
  else
    let cntup := (s.cntup + 1) % 2 ^ 32
    if s.cntdown - 1 ≠ 0 then { s with cntup := cntup, cntdown := s.cntdown - 1 }
    else if full then { s with cntup := cntup, cntdown := 1 }
    else { s with cntup := cntup, cntdown := 0, ringbuf := s.ringbuf ++ [cntup] }

/-- `ha_loop`: take those out of the list whose time has come, and send SIGALRM to those that have
    a process. -/
def haLoop (s : Alarm) : List (Nat × Int) → Int → Alarm × List Nat
  | [], _ => ({ s with evlist := [] }, [])
  | (a, ms) :: l, d1 =>
    if d1 < ms then
      ({ s with
         evlist := (a, s32 (ms - d1)) :: l
         cntdown := u32 (s32 (ms - d1))
         cntup := 0 }, [])
    else
      let s :=
        { s with
          nxtalrm := Function.update s.nxtalrm a (l.head?.map Prod.fst)
          alrmms := Function.update s.alrmms a (s32 (ms - d1))
          expired := Function.update s.expired a true }
      let r := haLoop s l (s32 (d1 - ms))
      (r.1, if s.pd a then a :: r.2 else r.2)

/-- `handle_alm`, with the applications that SIGALRM is sent to. -/
def handleAlm (s : Alarm) : Alarm × List Nat :=
  match s.ringbuf with
  | [] => (s, [])
  | c :: ring => haLoop { s with ringbuf := ring } s.evlist (s32 c)

/-- An application calls `appl_alrm`, the timer interrupt, and a queued event. -/
inductive AlmAct where
  | alrm (a : Nat) (ms : Int)
  | tick (full : Bool)
  | handle

/-- What an action does, with what `appl_alrm` answers and whom SIGALRM is sent to. -/
def almExec (s : Alarm) : AlmAct → Alarm × Nat × List Nat
  | .alrm a ms => ((applAlrm s a ms).1, (applAlrm s a ms).2, [])
  | .tick full => (alrmInt s full, 0, [])
  | .handle => ((handleAlm s).1, 0, (handleAlm s).2)

def AlmEnabled (s : Alarm) : AlmAct → Prop
  | .alrm a ms => s.pd a = true ∧ ms < 2 ^ 31
  | .tick _ => True
  | .handle => s.ringbuf ≠ []

instance (s : Alarm) : DecidablePred (AlmEnabled s)
  | .alrm _ _ => inferInstanceAs (Decidable (_ ∧ _))
  | .tick _ => inferInstanceAs (Decidable True)
  | .handle => inferInstanceAs (Decidable (_ ≠ _))

def AlmStep (s : Alarm) (l : AlmAct × Nat × List Nat) (s' : Alarm) : Prop :=
  AlmEnabled s l.1 ∧ almExec s l.1 = (s', l.2)

/-- The ticks that are left of an alarm, as `apal_get` counts them. -/
def Alarm.remaining (s : Alarm) (a : Nat) : Int := upto a s.evlist - s.cntup

/-- What is left in the fields of an expired alarm does no harm. -/
def Harmless (s : Alarm) (a : Nat) : Prop :=
  s.expired a = true → s.alrmms a = 0 ∨ ∀ b ∈ s.nxtalrm a, b ∉ s.waiting

/-- An alarm of `d` ticks comes in front of the alarms of the others. -/
def Overtakes (s : Alarm) (a d : Nat) : Prop :=
  ∃ p ∈ (rmvLstelm a s.evlist).head?, ((if d = 0 then 1 else d : Nat) : Int) ≤ p.2 - s.cntup

/-- Nobody sets an alarm while an event is queued, in front of a countdown that has been running,
    or for so long that the ticks are no word, and nobody calls after an alarm has expired the
    fields of which still lead to another one. -/
def OnTime (s : Alarm) : AlmAct → Prop
  | .alrm a ms =>
    (0 ≤ ms → Harmless s a) ∧ (0 < ms → ms.toNat / s.click < 2 ^ 16 ∧ s.ringbuf = [] ∧
      (Overtakes s a (ms.toNat / s.click) → s.cntup = 0))
  | .tick _ => s.cntdown = 0 ∨ s.cntup + 1 + 2 ^ 16 < 2 ^ 31
  | .handle => True

/-- What a step should do. A call sets or cancels the alarm of the caller, leaves those of the
    others alone, and answers zero when there is none. SIGALRM is sent once for an alarm, not
    before its time, and only then or by a call an alarm goes. -/
structure Exact (s : Alarm) (l : AlmAct × Nat × List Nat) (s' : Alarm) : Prop where
  others : ∀ a ms, l.1 = .alrm a ms → ∀ b ∈ s.waiting, b ≠ a →
    b ∈ s'.waiting ∧ s'.remaining b = s.remaining b
  sets : ∀ a ms, l.1 = .alrm a ms → 0 ≤ ms → (a ∈ s'.waiting ↔ 0 < ms)
  answer : ∀ a ms, l.1 = .alrm a ms → a ∉ s'.waiting → s'.expired a = false → l.2.1 = 0
  once : l.2.2.Nodup ∧ ∀ a ∈ l.2.2, a ∈ s.waiting ∧ a ∉ s'.waiting
  due : ∀ a ∈ l.2.2, s.due a ≤ s.now
  stays : ∀ a ∈ s.waiting, a ∈ s'.waiting ∨ a ∈ l.2.2 ∨ ∃ ms, l.1 = .alrm a ms ∧ 0 ≤ ms

/-- The alarms as timers that are waited for. -/
def Alarm.timer (s : Alarm) : Timer where
  evlist := s.evlist
  cntdown := s.cntdown
  cntup := s.cntup
  ringbuf := s.ringbuf
  rbits := fun a => decide (a ∈ s.waiting)
  hbits := fun _ => false
  now := s.now
  due := s.due

/-- The list, the countdown, the queued event and the flags belong together. -/
structure Alarmed (s : Alarm) : Prop where
  timed : Timed s.timer
  bound : ∀ a ∈ s.waiting, upto a s.evlist < s.cntup + 2 ^ 16
  up : s.cntup + 2 ^ 16 < 2 ^ 31
  click : 0 < s.click
  flag : ∀ a, s.isalarm a = true ↔ a ∈ s.waiting ∨ s.expired a = true
  apart : ∀ a ∈ s.waiting, s.expired a = false
  pds : ∀ a ∈ s.waiting, s.pd a = true

section

variable {due due' : Nat → Nat} {b : Int} {l : List (Nat × Int)}

theorem later_due_le (h : Later due b l) (hd : ∀ a ∈ l.map Prod.fst, due' a ≤ due a) :
    Later due' b l := by
  induction l generalizing b with
  | nil => trivial
  | cons p l ih =>
    rcases h with ⟨hp, h0, h1, hl⟩
    have hle := hd p.1 List.mem_cons_self
    exact ⟨by omega, h0, h1, ih hl fun a ha => hd a (List.mem_cons_of_mem _ ha)⟩

theorem rmvLstelm_absent (a : Nat) (ha : a ∉ l.map Prod.fst) : rmvLstelm a l = l := by
  induction l with
  | nil => rfl
  | cons p l ih =>
    rw [List.map_cons, List.mem_cons, not_or] at ha
    rw [rmvLstelm, if_neg (Ne.symm ha.1), ih ha.2]

theorem rmvFits_of_upto (a : Nat) (h : Later due b l) (hnd : (l.map Prod.fst).Nodup)
    (hfit : ∀ x ∈ l.map Prod.fst, upto x l < 2 ^ 31) : RmvFits a l := by
  induction l generalizing b with
  | nil => trivial
  | cons p l ih =>
    cases l with
    | nil => trivial
    | cons q l =>
      have hnd' := List.nodup_cons.mp hnd
      have hne : p.1 ≠ q.1 := fun he => hnd'.1 (he ▸ List.mem_cons_self)
      refine ⟨fun _ => ?_, ih h.2.2.2 hnd'.2 fun x hx => ?_⟩
      · have hq := hfit q.1 (List.mem_cons_of_mem _ List.mem_cons_self)
        rw [upto, if_neg hne, upto, if_pos rfl] at hq
        exact hq
      · have hpx : p.1 ≠ x := fun he => hnd'.1 (he ▸ hx)
        have hx' := hfit x (List.mem_cons_of_mem _ hx)
        have hp0 := h.2.1
        rw [upto, if_neg hpx] at hx'
        omega

theorem upto_rmvLstelm (a x : Nat) (h : Later due b l) (hfits : RmvFits a l) (hxa : x ≠ a)
    (hx : x ∈ l.map Prod.fst) : upto x (rmvLstelm a l) = upto x l := by
  induction l generalizing b with
  | nil => rfl
  | cons p l ih =>
    rw [rmvLstelm]
    by_cases hpa : p.1 = a
    · -- The ticks of the alarm go to the next one.
      have hpx : p.1 ≠ x := fun he => hxa (he.symm.trans hpa)
      have hxl : x ∈ l.map Prod.fst := (List.mem_cons.mp hx).resolve_left (Ne.symm hpx)
      rw [if_pos hpa]
      cases l with
      | nil => exact absurd hxl List.not_mem_nil
      | cons q l =>
        have hq := h.2.2.2
        have hsum := hfits.1 hpa
        have hp0 := h.2.1
        have hq0 := hq.2.1
        rw [addMs, s32_eq (q.2 + p.2) (by omega) (by omega)]
        simp only [upto, if_neg hpx]
        split <;> omega
    · rw [if_neg hpa]
      by_cases hpx : p.1 = x
      · simp only [upto, if_pos hpx]
      · have hxl : x ∈ l.map Prod.fst := (List.mem_cons.mp hx).resolve_left (Ne.symm hpx)
        have hrest : RmvFits a l := by
          cases l with
          | nil => trivial
          | cons q l => exact hfits.2
        simp only [upto, if_neg hpx, ih h.2.2.2 hrest hxl]

theorem upto_wtLoop (a x : Nat) (d0 : Int) (h : Later due b l) (h0 : 0 ≤ d0) (h1 : d0 < 2 ^ 31)
    (ha : a ∉ l.map Prod.fst) (hx : x = a ∨ x ∈ l.map Prod.fst) :
    upto x (wtLoop a l d0) = if x = a then d0 else upto x l := by
  induction l generalizing b d0 with
  | nil =>
    have hxa := hx.resolve_right List.not_mem_nil
    rw [if_pos hxa, wtLoop, upto, if_pos hxa.symm]
  | cons p l ih =>
    rcases h with ⟨-, hp0, hp1, hl⟩
    rw [List.map_cons, List.mem_cons, not_or] at ha
    rw [wtLoop]
    by_cases hle : d0 ≤ p.2
    · rw [if_pos hle, s32_eq _ (by omega) (by omega)]
      by_cases hxa : x = a
      · rw [if_pos hxa, upto, if_pos hxa.symm]
      · rw [if_neg hxa, upto, if_neg (Ne.symm hxa), upto, upto]
        split <;> omega
    · rw [if_neg hle, s32_eq _ (by omega) (by omega), upto]
      by_cases hpx : p.1 = x
      · have hxa : x ≠ a := fun he => ha.1 (he.symm.trans hpx.symm)
        rw [if_pos hpx, if_neg hxa, upto, if_pos hpx]
      · have hxl : x = a ∨ x ∈ l.map Prod.fst := hx.imp_right fun hm =>
          (List.mem_cons.mp hm).resolve_left (Ne.symm hpx)
        rw [if_neg hpx, ih _ hl (by omega) (by omega) ha.2 hxl, upto, if_neg hpx]
        split <;> omega

theorem upto_wtSort (a x cntup : Nat) (d0 : Int) (h : Later due b l) (h0 : 0 ≤ d0)
    (h1 : d0 < 2 ^ 16) (hup : cntup + 2 ^ 16 < 2 ^ 31) (ha : a ∉ l.map Prod.fst)
    (hx : x = a ∨ x ∈ l.map Prod.fst) :
    (x ≠ a → upto x (wtSort a cntup d0 l) = upto x l) ∧
      (x = a → upto x (wtSort a cntup d0 l) ≤ cntup + d0) := by
  cases l with
  | nil =>
    have hxa := hx.resolve_right List.not_mem_nil
    refine ⟨fun hne => absurd hxa hne, fun _ => ?_⟩
    rw [wtSort, upto, if_pos hxa.symm]
    omega
  | cons p l =>
    rcases h with ⟨-, hp0, hp1, hl⟩
    rw [List.map_cons, List.mem_cons, not_or] at ha
    rw [wtSort, s32_eq (p.2 - cntup) (by omega) (by omega)]
    by_cases hle : d0 ≤ p.2 - cntup
    · rw [if_pos hle, s32_eq _ (by omega) (by omega)]
      refine ⟨fun hne => ?_, fun he => ?_⟩
      · rw [upto, if_neg (Ne.symm hne), upto, upto]
        split <;> omega
      · rw [upto, if_pos he.symm]
        omega
    · rw [if_neg hle, s32_eq _ (by omega) (by omega), upto]
      by_cases hpx : p.1 = x
      · have hxa : x ≠ a := fun he => ha.1 (he.symm.trans hpx.symm)
        rw [if_pos hpx, upto, if_pos hpx]
        exact ⟨fun _ => rfl, fun he => absurd he hxa⟩
      · have hxl : x = a ∨ x ∈ l.map Prod.fst := hx.imp_right fun hm =>
          (List.mem_cons.mp hm).resolve_left (Ne.symm hpx)
        rw [if_neg hpx, upto_wtLoop a x _ hl (by omega) (by omega) ha.2 hxl, upto, if_neg hpx]
        refine ⟨fun hne => ?_, fun he => ?_⟩
        · rw [if_neg hne]
        · rw [if_pos he]
          omega

end

section

variable {t t' : Timer}

theorem Timed.congr (h : Timed t) (hl : t'.evlist = t.evlist) (hdown : t'.cntdown = t.cntdown)
    (hup : t'.cntup = t.cntup) (hring : t'.ringbuf = t.ringbuf) (hnow : t'.now = t.now)
    (hdue : ∀ a ∈ t.waiting, t'.due a ≤ t.due a)
    (hw : ∀ a, a ∈ t'.waiting ↔ t'.rbits a = true ∧ t'.hbits a = false) : Timed t' where
  later := by
    rw [hl, hup, hnow]
    exact later_due_le h.later hdue
  nodup := by
    rw [Timer.waiting, hl]
    exact h.nodup
  waits := hw
  cntup := by
    rw [hup]
    exact h.cntup
  stopped hn := by
    rw [hdown]
    exact h.stopped (hl ▸ hn)
  queued := by
    rw [hring, hup, hdown]
    exact h.queued
  running hr a ms l he := by
    rw [hdown, hup]
    exact h.running (hring ▸ hr) a ms l (hl ▸ he)

end

section

variable {s s' : Alarm} {a : Nat}

theorem Alarm.timer_waits (s : Alarm) (a : Nat) :
    a ∈ s.timer.waiting ↔ s.timer.rbits a = true ∧ s.timer.hbits a = false := by
  have hbits : s.timer.rbits a = true ↔ a ∈ s.waiting := decide_eq_true_iff
  rw [hbits]
  exact ⟨fun ha => ⟨ha, rfl⟩, fun ha => ha.1⟩

theorem Alarmed.later (h : Alarmed s) : Later s.due (s.now - s.cntup) s.evlist := h.timed.later

theorem Alarmed.nodup (h : Alarmed s) : s.waiting.Nodup := h.timed.nodup

theorem Alarmed.rmvFits (h : Alarmed s) (a : Nat) : RmvFits a s.evlist := by
  refine rmvFits_of_upto a h.later h.nodup fun x hx => ?_
  have hb := h.bound x hx
  have hup := h.up
  omega

/-- The alarm of an application is off, and those of the others are as they were. -/
structure Removed (s s' : Alarm) (a : Nat) : Prop where
  ok : Alarmed s'
  evlist : s'.evlist = rmvLstelm a s.evlist
  cntup : s'.cntup = s.cntup
  ringbuf : s'.ringbuf = s.ringbuf
  now : s'.now = s.now
  pd : s'.pd = s.pd
  click : s'.click = s.click
  flag : s'.isalarm a = false
  expired : s'.expired a = false

theorem Removed.waiting (hr : Removed s s' a) : s'.waiting = s.waiting.erase a := by
  rw [Alarm.waiting, hr.evlist]
  exact rmvLstelm_keys a

theorem Removed.absent (h : Alarmed s) (hr : Removed s s' a) : a ∉ s'.waiting := by
  rw [hr.waiting]
  exact List.Nodup.not_mem_erase h.nodup

theorem Removed.mem (hr : Removed s s' a) {b : Nat} (hba : b ≠ a) :
    b ∈ s'.waiting ↔ b ∈ s.waiting := by
  rw [hr.waiting, List.mem_erase_of_ne hba]

theorem Removed.upto (h : Alarmed s) (hr : Removed s s' a) {b : Nat} (hba : b ≠ a)
    (hb : b ∈ s.waiting) : Aes.upto b s'.evlist = Aes.upto b s.evlist := by
  rw [hr.evlist]
  exact upto_rmvLstelm a b h.later (h.rmvFits a) hba hb

theorem Alarmed.unset (h : Alarmed s) (hf : ¬ s.isalarm a = true) :
    a ∉ s.waiting ∧ s.expired a = false := by
  have hno := mt (h.flag a).mpr hf
  rw [not_or] at hno
  exact ⟨hno.1, Bool.eq_false_iff.mpr hno.2⟩

theorem removed_of (h : Alarmed s) (hl : s'.evlist = rmvLstelm a s.evlist)
    (hdown : s'.cntdown = if s'.evlist = [] then 0 else s.cntdown) (hup : s'.cntup = s.cntup)
    (hring : s'.ringbuf = s.ringbuf) (hnow : s'.now = s.now) (hdue : s'.due = s.due)
    (hpd : s'.pd = s.pd) (hclick : s'.click = s.click)
    (hflag : s'.isalarm = Function.update s.isalarm a false)
    (hexp : s'.expired = Function.update s.expired a false) : Removed s s' a := by
  have hnd := h.nodup
  have hw : ∀ x, x ∈ s'.waiting ↔ x ≠ a ∧ x ∈ s.waiting := by
    intro x
    rw [Alarm.waiting, hl, rmvLstelm_keys]
    exact hnd.mem_erase_iff
  refine ⟨⟨?_, fun x hx => ?_, ?_, ?_, fun x => ?_, fun x hx => ?_, fun x hx => ?_⟩,
    hl, hup, hring, hnow, hpd, hclick, ?_, ?_⟩
  · -- The list and the countdown are those of the timers.
    have htimer := rmvApTimer_timed h.timed a (Or.inr (h.rmvFits a))
    refine htimer.congr hl ?_ hup hring hnow (fun x _ => ?_) (Alarm.timer_waits _)
    · rw [hl] at hdown
      exact hdown
    · exact Nat.le_of_eq (congrFun hdue x)
  · obtain ⟨hxa, hxs⟩ := (hw x).mp hx
    rw [hl, hup, upto_rmvLstelm a x h.later (h.rmvFits a) hxa hxs]
    exact h.bound x hxs
  · rw [hup]
    exact h.up
  · rw [hclick]
    exact h.click
  · rw [hw, hflag, hexp]
    by_cases hxa : x = a
    · rw [hxa, Function.update_self, Function.update_self]
      simp
    · rw [Function.update_of_ne hxa, Function.update_of_ne hxa, h.flag x]
      simp [hxa]
  · obtain ⟨hxa, hxs⟩ := (hw x).mp hx
    rw [hexp, Function.update_of_ne hxa]
    exact h.apart x hxs
  · rw [hpd]
    exact h.pds x ((hw x).mp hx).2
  · rw [hflag, Function.update_self]
  · rw [hexp, Function.update_self]

theorem addAlrmms_absent {b : Nat} (d : Int) (hb : b ∉ s.waiting) :
    (addAlrmms s b d).evlist = s.evlist := by
  refine (List.map_congr_left fun p hp => ?_).trans (List.map_id _)
  refine if_neg fun he => hb ?_
  rw [← he]
  exact List.mem_map_of_mem hp

/-- `rmv_ap_alrm`. -/
theorem rmvApAlrm_removed (h : Alarmed s) (hok : Harmless s a) : Removed s (rmvApAlrm s a) a := by
  unfold rmvApAlrm
  by_cases hf : s.isalarm a = true
  · rw [if_pos hf]
    by_cases ha : a ∈ s.waiting
    · rw [if_pos ha]
      exact removed_of h rfl rfl rfl rfl rfl rfl rfl rfl rfl rfl
    · -- The alarm has expired, and what is added is nothing, or not added in the list.
      have hexp : s.expired a = true := ((h.flag a).mp hf).resolve_left ha
      have habs : s.evlist = rmvLstelm a s.evlist := (rmvLstelm_absent a ha).symm
      rw [if_neg ha]
      cases hn : s.nxtalrm a with
      | none => exact removed_of h habs rfl rfl rfl rfl rfl rfl rfl rfl rfl
      | some b =>
        by_cases h0 : s.alrmms a = 0
        · simp only [if_pos h0]
          exact removed_of h habs rfl rfl rfl rfl rfl rfl rfl rfl rfl
        · have hb : b ∉ s.waiting := (hok hexp).resolve_left h0 b (by rw [hn]; rfl)
          have hadd := (addAlrmms_absent (s.alrmms a) hb).trans habs
          simp only [if_neg h0]
          exact removed_of h hadd rfl rfl rfl rfl rfl rfl rfl rfl rfl
  · obtain ⟨ha, hexp⟩ := h.unset hf
    rw [if_neg hf]
    exact ⟨h, (rmvLstelm_absent a ha).symm, rfl, rfl, rfl, rfl, rfl, Bool.eq_false_iff.mpr hf, hexp⟩

end

section

variable {s : Alarm} {a c d e k : Nat}

theorem waitAlrm_timed (h : Alarmed s) (ha : a ∉ s.waiting) (hring : s.ringbuf = []) (he0 : 0 < e)
    (he1 : e < 2 ^ 31) (hfits : SortFits s.cntup e s.evlist) (hk : k ≤ s.now + e)
    (hc : c = if s.cntdown = 0 then 0 else s.cntup) (flags : Nat → Bool) :
    Timed (Alarm.timer
      { s with
        evlist := wtSort a c e s.evlist
        cntdown := if s.cntdown = 0 ∨ e ≤ s.cntdown then e else s.cntdown
        cntup := c
        isalarm := flags
        due := Function.update s.due a k }) := by
  have hidle : s.timer.rbits a = false := decide_eq_false ha
  have htimer := waitTimer_timed h.timed a e he0 he1 hidle hring hfits
  rw [waitTimer_eq _ _ he0] at htimer
  rw [hc]
  refine htimer.congr rfl rfl rfl rfl rfl (fun x _ => ?_) (Alarm.timer_waits _)
  -- The timer's tick is the last at which the alarm may be due.
  simp only [Alarm.timer]
  by_cases hxa : x = a
  · rw [hxa, Function.update_self, Function.update_self]
    exact hk
  · exact Nat.le_of_eq
      ((Function.update_of_ne hxa _ _).trans (Function.update_of_ne hxa _ _).symm)

theorem waitAlrm_alarmed (h : Alarmed s) (ha : a ∉ s.waiting) (hexp : s.expired a = false)
    (hpd : s.pd a = true) (hd : d < 2 ^ 16) (hring : s.ringbuf = [])
    (hfirst : ∀ p ∈ s.evlist.head?, ((if d = 0 then 1 else d : Nat) : Int) ≤ p.2 - s.cntup →
      s.cntup = 0) (hk : k ≤ s.now + d) :
    Alarmed { waitAlrm s a d with due := Function.update s.due a k } ∧
      (∀ x, x ∈ (waitAlrm s a d).waiting ↔ x = a ∨ x ∈ s.waiting) ∧
      ∀ x ∈ s.waiting, (waitAlrm s a d).remaining x = s.remaining x := by
  obtain ⟨e, he⟩ : ∃ e, e = if d = 0 then 1 else d := ⟨_, rfl⟩
  have hele : 0 < e ∧ d ≤ e ∧ e < 2 ^ 16 := by
    rw [he]
    split <;> omega
  rw [← he] at hfirst
  have hup := h.up
  have hfits : SortFits s.cntup e s.evlist := by
    cases hl : s.evlist with
    | nil => trivial
    | cons p l =>
      have hlat := h.later
      rw [hl] at hlat hfirst
      exact ⟨hfirst p rfl, by have := hlat.2.1; omega⟩
  -- The countdown starts anew when the list is empty, and only then.
  obtain ⟨c, hc⟩ : ∃ c, c = if s.cntdown = 0 then 0 else s.cntup := ⟨_, rfl⟩
  have hcle : c ≤ s.cntup := by
    rw [hc]
    split <;> omega
  have hsame : ∀ x ∈ s.waiting, c = s.cntup := by
    intro x hx
    rw [hc]
    refine if_neg fun h0 => ?_
    have hnil : s.evlist = [] := h.timed.idle hring h0
    rw [Alarm.waiting, hnil] at hx
    exact List.not_mem_nil hx
  have hkeys : (wtSort a c e s.evlist).map Prod.fst |>.Perm (a :: s.waiting) := wtSort_keys a c e
  have hmem : ∀ x, x ∈ (wtSort a c e s.evlist).map Prod.fst ↔ x = a ∨ x ∈ s.waiting := by
    intro x
    rw [hkeys.mem_iff, List.mem_cons]
  have hsort : ∀ x, (x = a ∨ x ∈ s.waiting) →
      (x ≠ a → upto x (wtSort a c e s.evlist) = upto x s.evlist) ∧
        (x = a → upto x (wtSort a c e s.evlist) ≤ c + e) := fun x hx =>
    upto_wtSort a x c e h.later (by omega) (by omega) (by omega) ha hx
  have hrun : waitAlrm s a d =
      { s with
        evlist := wtSort a c e s.evlist
        cntdown := if s.cntdown = 0 ∨ e ≤ s.cntdown then e else s.cntdown
        cntup := c
        isalarm := Function.update s.isalarm a true } := by
    rw [hc, he]
    rfl
  rw [hrun]
  refine ⟨⟨?_, fun x hx => ?_, ?_, h.click, fun x => ?_, fun x hx => ?_, fun x hx => ?_⟩, hmem,
    fun x hx => ?_⟩
  · exact waitAlrm_timed h ha hring hele.1 (by omega) hfits (by omega) hc _
  · obtain ⟨hold, hnew⟩ := hsort x ((hmem x).mp hx)
    simp only
    by_cases hxa : x = a
    · have hle := hnew hxa
      omega
    · have hxs := ((hmem x).mp hx).resolve_left hxa
      rw [hold hxa, hsame x hxs]
      exact h.bound x hxs
  · simp only
    omega
  · simp only [Alarm.waiting]
    rw [hmem]
    by_cases hxa : x = a
    · rw [hxa, Function.update_self]
      simp
    · rw [Function.update_of_ne hxa, h.flag x]
      simp [hxa]
  · rcases (hmem x).mp hx with hxa | hxs
    · rw [hxa]
      exact hexp
    · exact h.apart x hxs
  · rcases (hmem x).mp hx with hxa | hxs
    · rw [hxa]
      exact hpd
    · exact h.pds x hxs
  · have hxa : x ≠ a := fun hxe => ha (hxe ▸ hx)
    unfold Alarm.remaining
    simp only
    rw [(hsort x (Or.inr hx)).1 hxa, hsame x hx]

theorem alrmInt_alarmed (h : Alarmed s) (full : Bool)
    (hup : s.cntdown = 0 ∨ s.cntup + 1 + 2 ^ 16 < 2 ^ 31) :
    Alarmed (alrmInt s full) ∧ (alrmInt s full).evlist = s.evlist := by
  have hu := h.up
  have htimer := timerInt_timed h.timed full (hup.imp_right fun hlt => by
    have : s.timer.cntup = s.cntup := rfl
    omega)
  -- The list and the flags stay, and what has been counted grows.
  obtain ⟨c, dn, ring, hrun, hle, hlt, ht⟩ : ∃ c dn ring, alrmInt s full =
      { s with now := s.now + 1, cntup := c, cntdown := dn, ringbuf := ring } ∧ s.cntup ≤ c ∧
      c + 2 ^ 16 < 2 ^ 31 ∧ timerInt s.timer full =
        { s.timer with now := s.now + 1, cntup := c, cntdown := dn, ringbuf := ring } := by
    have htup : s.timer.cntup = s.cntup := rfl
    have htdown : s.timer.cntdown = s.cntdown := rfl
    unfold alrmInt timerInt
    simp only [htup, htdown]
    by_cases h0 : s.cntdown = 0
    · rw [if_pos h0, if_pos h0]
      exact ⟨s.cntup, s.cntdown, s.ringbuf, rfl, Nat.le_refl _, hu, rfl⟩
    · have hmod : (s.cntup + 1) % 2 ^ 32 = s.cntup + 1 := Nat.mod_eq_of_lt (by omega)
      have hlt := hup.resolve_left h0
      rw [if_neg h0, if_neg h0, hmod]
      by_cases h1 : s.cntdown - 1 ≠ 0
      · rw [if_pos h1, if_pos h1]
        exact ⟨_, _, s.ringbuf, rfl, Nat.le_succ _, hlt, rfl⟩
      · rw [if_neg h1, if_neg h1]
        cases full with
        | true => exact ⟨_, 1, s.ringbuf, rfl, Nat.le_succ _, hlt, rfl⟩
        | false => exact ⟨_, 0, _, rfl, Nat.le_succ _, hlt, rfl⟩
  rw [ht] at htimer
  rw [hrun]
  refine ⟨⟨htimer.congr rfl rfl rfl rfl rfl (fun _ _ => Nat.le_refl _) (Alarm.timer_waits _),
    fun x hx => ?_, hlt, h.click, h.flag, h.apart, h.pds⟩, rfl⟩
  have hb := h.bound x hx
  simp only
  omega

end

section

variable {rbits hbits : Nat → Bool} {due : Nat → Nat} {b d : Int} {l : List (Nat × Int)}

theorem htLoop_upto (h : Later due b l) (hnd : (l.map Prod.fst).Nodup) (h0 : 0 ≤ d)
    (h1 : d < 2 ^ 31) (hw : ∀ a ∈ l.map Prod.fst, rbits a = true ∧ hbits a = false) {x : Nat}
    (hx : x ∈ (htLoop rbits l d hbits).2.1.map Prod.fst) :
    upto x (htLoop rbits l d hbits).2.1 = upto x l - d := by
  induction l generalizing b d hbits with
  | nil => exact absurd hx List.not_mem_nil
  | cons p l ih =>
    have hp0 := h.2.1
    have hp1 := h.2.2.1
    have hnd' := List.nodup_cons.mp hnd
    rw [htLoop] at hx ⊢
    by_cases hlt : d < p.2
    · rw [if_pos hlt, s32_eq _ (by omega) (by omega)]
      simp only [upto]
      split <;> omega
    · obtain ⟨hr, hh⟩ := hw p.1 List.mem_cons_self
      have hw' : ∀ a ∈ l.map Prod.fst,
          rbits a = true ∧ Function.update hbits p.1 true a = false := by
        intro a ha
        have hne : a ≠ p.1 := fun he => hnd'.1 (he ▸ ha)
        rw [Function.update_of_ne hne]
        exact hw a (List.mem_cons_of_mem _ ha)
      rw [if_neg hlt, hr, hh, s32_eq _ (by omega) (by omega)] at hx ⊢
      simp only [Bool.not_false, Bool.and_self, if_true] at hx ⊢
      rw [ih h.2.2.2 hnd'.2 (by omega) (by omega) hw' hx]
      -- Who is left is not the first one.
      have hkeys := (htLoop_spec rbits (Function.update hbits p.1 true) (d - p.2) h.2.2.2 hnd'.2
        (by omega) (by omega) hw').keys
      have hxl : x ∈ l.map Prod.fst := by
        rw [hkeys]
        exact List.mem_append_right _ hx
      have hpx : p.1 ≠ x := fun he => hnd'.1 (he ▸ hxl)
      rw [upto, if_neg hpx]
      omega

theorem haLoop_eq (hbits : Nat → Bool) (s : Alarm) (hnd : (l.map Prod.fst).Nodup)
    (hw : ∀ a ∈ l.map Prod.fst, rbits a = true ∧ hbits a = false)
    (hpd : ∀ a ∈ l.map Prod.fst, s.pd a = true) :
    ∃ nxt ms exp, haLoop s l d =
        ({ s with
           evlist := (htLoop rbits l d hbits).2.1
           cntdown := ((htLoop rbits l d hbits).2.1.head?.map fun p => u32 p.2).getD s.cntdown
           cntup := if (htLoop rbits l d hbits).2.1 = [] then s.cntup else 0
           nxtalrm := nxt
           alrmms := ms
           expired := exp }, (htLoop rbits l d hbits).1) ∧
      ∀ x, exp x = true ↔ s.expired x = true ∨ x ∈ (htLoop rbits l d hbits).1 := by
  induction l generalizing s d hbits with
  | nil =>
    refine ⟨s.nxtalrm, s.alrmms, s.expired, rfl, fun x => ⟨Or.inl, fun hx => ?_⟩⟩
    exact hx.resolve_right List.not_mem_nil
  | cons p l ih =>
    have hnd' := List.nodup_cons.mp hnd
    rw [haLoop, htLoop]
    by_cases hlt : d < p.2
    · rw [if_pos hlt, if_pos hlt]
      refine ⟨s.nxtalrm, s.alrmms, s.expired, rfl, fun x => ⟨Or.inl, fun hx => ?_⟩⟩
      exact hx.resolve_right List.not_mem_nil
    · obtain ⟨hr, hh⟩ := hw p.1 List.mem_cons_self
      rw [if_neg hlt, if_neg hlt, hr, hh]
      simp only [Bool.not_false, Bool.and_self, if_true]
      obtain ⟨nxt, ms, exp, hrun, hexp⟩ := ih (d := s32 (d - p.2))
        (Function.update hbits p.1 true)
        { s with
          nxtalrm := Function.update s.nxtalrm p.1 (l.head?.map Prod.fst)
          alrmms := Function.update s.alrmms p.1 (s32 (p.2 - d))
          expired := Function.update s.expired p.1 true } hnd'.2 (fun a ha => by
            have hne : a ≠ p.1 := fun he => hnd'.1 (he ▸ ha)
            rw [Function.update_of_ne hne]
            exact hw a (List.mem_cons_of_mem _ ha))
          fun a ha => hpd a (List.mem_cons_of_mem _ ha)
      have hp := hpd p.1 List.mem_cons_self
      refine ⟨nxt, ms, exp, ?_, fun x => ?_⟩
      · rw [hrun]
        simp only [hp, if_true]
      · rw [hexp x, List.mem_cons]
        simp only
        by_cases hxp : x = p.1
        · rw [hxp, Function.update_self]
          simp
        · rw [Function.update_of_ne hxp]
          simp [hxp]

end

section

variable {s : Alarm}

theorem handleAlm_eq (h : Alarmed s) (hq : s.ringbuf = [s.cntup]) {r}
    (hr : r = htLoop s.timer.rbits s.evlist s.cntup s.timer.hbits) :
    ∃ nxt ms exp, handleAlm s =
        ({ s with
           evlist := r.2.1
           cntdown := (r.2.1.head?.map fun p => u32 p.2).getD s.cntdown
           cntup := if r.2.1 = [] then s.cntup else 0
           ringbuf := []
           nxtalrm := nxt
           alrmms := ms
           expired := exp }, r.1) ∧
      ∀ x, exp x = true ↔ s.expired x = true ∨ x ∈ r.1 := by
  have hup := h.up
  have hs32 : s32 s.cntup = s.cntup := s32_eq _ (by omega) (by omega)
  have hhandle : handleAlm s = haLoop { s with ringbuf := [] } s.evlist s.cntup := by
    unfold handleAlm
    rw [hq]
    simp only [hs32]
  rw [hhandle, hr]
  exact haLoop_eq (d := (s.cntup : Int)) s.timer.hbits { s with ringbuf := [] } h.nodup
    (fun a ha => (s.timer_waits a).mp ha) h.pds

/-- `handle_alm`: those whose time has come go, and get SIGALRM. -/
theorem handleAlm_spec (h : Alarmed s) (hring : s.ringbuf ≠ []) :
    Alarmed (handleAlm s).1 ∧ s.waiting = (handleAlm s).2 ++ (handleAlm s).1.waiting ∧
      ∀ a ∈ (handleAlm s).2, s.due a ≤ s.now := by
  have hq : s.ringbuf = [s.cntup] := (h.timed.queued.resolve_left hring).1
  have hup := h.up
  have hw : ∀ a ∈ s.waiting, s.timer.rbits a = true ∧ s.timer.hbits a = false :=
    fun a ha => (s.timer_waits a).mp ha
  obtain ⟨r, hr⟩ : ∃ r, r = htLoop s.timer.rbits s.evlist s.cntup s.timer.hbits := ⟨_, rfl⟩
  have hspec := htLoop_spec s.timer.rbits s.timer.hbits s.cntup h.later h.nodup (by omega)
    (by omega) hw
  have hupto := fun x => htLoop_upto (x := x) (d := (s.cntup : Int)) h.later h.nodup (by omega)
    (by omega) hw
  rw [← hr] at hspec hupto
  rcases handleAlm_eq h hq hr with ⟨nxt, ms, exp, hrun, hexp⟩
  -- The same becomes of the timers.
  rcases handleTimer_timed h.timed hring with ⟨htimer, hfired⟩
  rw [handleTimer_eq (t := s.timer) hq h.timed.cntup hr] at htimer hfired
  have hkeys : s.waiting = r.1 ++ r.2.1.map Prod.fst := hspec.keys
  have hxw : ∀ x, x ∈ s.waiting ↔ x ∈ r.1 ∨ x ∈ r.2.1.map Prod.fst := by
    intro x
    rw [hkeys, List.mem_append]
  have hnd := h.nodup
  rw [hkeys] at hnd
  rcases List.nodup_append.mp hnd with ⟨-, -, hdis⟩
  rw [hrun]
  refine ⟨⟨?_, fun x hx => ?_, ?_, h.click, fun x => ?_, fun x hx => ?_, fun x hx => ?_⟩, hkeys,
    hfired⟩
  · exact htimer.congr rfl rfl rfl rfl rfl (fun _ _ => Nat.le_refl _) (Alarm.timer_waits _)
  · have hx' : x ∈ r.2.1.map Prod.fst := hx
    have hne : r.2.1 ≠ [] := by
      intro hnil
      rw [hnil] at hx'
      exact List.not_mem_nil hx'
    have hb := h.bound x ((hxw x).mpr (Or.inr hx'))
    simp only
    rw [hupto x hx', if_neg hne]
    omega
  · simp only
    split <;> omega
  · -- Who goes has expired, so the flag stays.
    simp only [Alarm.waiting]
    rw [hexp x, h.flag x, hxw x]
    constructor
    · rintro ((h1 | h1) | h1)
      · exact Or.inr (Or.inr h1)
      · exact Or.inl h1
      · exact Or.inr (Or.inl h1)
    · rintro (h1 | h1 | h1)
      · exact Or.inl (Or.inr h1)
      · exact Or.inr h1
      · exact Or.inl (Or.inl h1)
  · have hx' : x ∈ r.2.1.map Prod.fst := hx
    simp only
    rw [← Bool.not_eq_true, hexp x, not_or]
    exact ⟨by simp [h.apart x ((hxw x).mpr (Or.inr hx'))], fun hxr => hdis x hxr x hx' rfl⟩
  · exact h.pds x ((hxw x).mpr (Or.inr hx))

end

section

variable {s s' : Alarm} {a : Nat} {ms : Int}

theorem applAlrm_answer (s : Alarm) (a : Nat) (ms : Int) :
    (applAlrm s a ms).2 = apalGet (applAlrm s a ms).1 a := by
  unfold applAlrm
  split_ifs <;> rfl

theorem Alarmed.answer (h : Alarmed s) (ha : a ∉ s.waiting) (hexp : s.expired a = false) :
    apalGet s a = 0 := by
  unfold apalGet
  refine if_neg fun hf => ?_
  rcases (h.flag a).mp hf with hw | he
  · exact ha hw
  · rw [hexp] at he
    exact Bool.false_ne_true he

theorem applAlrm_spec (h : Alarmed s) (hpd : s.pd a = true) (hon : OnTime s (.alrm a ms)) :
    Alarmed (applAlrm s a ms).1 ∧
      (∀ b ∈ s.waiting, b ≠ a →
        b ∈ (applAlrm s a ms).1.waiting ∧ (applAlrm s a ms).1.remaining b = s.remaining b) ∧
      (0 ≤ ms → (a ∈ (applAlrm s a ms).1.waiting ↔ 0 < ms)) ∧
      (ms < 0 → (applAlrm s a ms).1 = s) := by
  unfold applAlrm
  by_cases hneg : ms < 0
  · -- The alarm is only asked for.
    rw [if_pos hneg]
    exact ⟨h, fun b hb _ => ⟨hb, rfl⟩, fun hge => absurd hge (by omega), fun _ => rfl⟩
  rw [if_neg hneg]
  obtain ⟨hharm, hset⟩ := hon
  have hr := rmvApAlrm_removed h (hharm (by omega))
  have hrem : ∀ b ∈ s.waiting, b ≠ a →
      b ∈ (rmvApAlrm s a).waiting ∧ (rmvApAlrm s a).remaining b = s.remaining b := by
    intro b hb hba
    refine ⟨(hr.mem hba).mpr hb, ?_⟩
    unfold Alarm.remaining
    rw [hr.upto h hba hb, hr.cntup]
  by_cases h0 : ms = 0
  · -- The alarm is cancelled.
    simp only [if_pos h0]
    refine ⟨hr.ok, hrem, fun _ => ⟨fun hm => ?_, fun hp => ?_⟩, fun hlt => absurd hlt hneg⟩
    · exact absurd hm (hr.absent h)
    · exact absurd hp (by omega)
  · -- The old alarm is gone, and the new one is put into the list.
    obtain ⟨hword, hring, hfirst⟩ := hset (by omega)
    obtain ⟨g, hg⟩ : ∃ g, g = rmvApAlrm s a := ⟨_, rfl⟩
    rw [← hg] at hr hrem
    have hticks : alrmTicks g.click ms.toNat = ms.toNat / s.click := by
      unfold alrmTicks
      rw [hr.click, if_pos hword]
    obtain ⟨hok, hmem, hkeep⟩ := waitAlrm_alarmed (d := ms.toNat / s.click)
      (k := g.now + ms.toNat / g.click) hr.ok (hr.absent h) hr.expired (by rw [hr.pd]; exact hpd)
      hword (by rw [hr.ringbuf]; exact hring) (fun p hp hle => by
        rw [hr.evlist] at hp
        rw [hr.cntup] at hle ⊢
        exact hfirst ⟨p, hp, hle⟩) (Nat.le_of_eq (by rw [hr.click]))
    simp only [if_neg h0, ← hg, hticks]
    refine ⟨hok, fun b hb hba => ?_, fun _ => ⟨fun _ => by omega, fun _ => ?_⟩,
      fun hlt => absurd hlt hneg⟩
    · obtain ⟨hbg, hbr⟩ := hrem b hb hba
      exact ⟨(hmem b).mpr (Or.inr hbg), (hkeep b hbg).trans hbr⟩
    · exact (hmem a).mpr (Or.inl rfl)

theorem almStep_alarmed (h : Alarmed s) {act : AlmAct} {out : Nat × List Nat}
    (hstep : AlmStep s (act, out) s') (hon : OnTime s act) :
    Alarmed s' ∧ Exact s (act, out) s' := by
  rcases hstep with ⟨hen, hexec⟩
  cases act with
  | alrm c m =>
    cases hexec
    obtain ⟨hok, hothers, hsets, hasks⟩ := applAlrm_spec h hen.1 hon
    refine ⟨hok, fun a ms he b hb hba => ?_, fun a ms he => ?_, fun a ms he hno hexp => ?_,
      ⟨List.nodup_nil, fun _ ha => absurd ha List.not_mem_nil⟩,
      fun _ ha => absurd ha List.not_mem_nil, fun a ha => ?_⟩
    · cases he
      exact hothers b hb hba
    · cases he
      exact hsets
    · cases he
      exact (applAlrm_answer s c m).trans (hok.answer hno hexp)
    · -- An alarm that goes is the caller's.
      by_cases hac : a = c
      · by_cases hm : m < 0
        · refine Or.inl ?_
          rw [hasks hm]
          exact ha
        · exact Or.inr (Or.inr ⟨m, by rw [hac], by omega⟩)
      · exact Or.inl (hothers a ha hac).1
  | tick full =>
    cases hexec
    obtain ⟨hok, hlist⟩ := alrmInt_alarmed h full hon
    refine ⟨hok, fun a ms he => ?_, fun a ms he => ?_, fun a ms he => ?_,
      ⟨List.nodup_nil, fun _ ha => absurd ha List.not_mem_nil⟩,
      fun _ ha => absurd ha List.not_mem_nil, fun a ha => Or.inl ?_⟩
    · cases he
    · cases he
    · cases he
    · rw [Alarm.waiting, hlist]
      exact ha
  | handle =>
    cases hexec
    obtain ⟨hok, hkeys, hdue⟩ := handleAlm_spec h hen
    have hnd := h.nodup
    rw [hkeys] at hnd
    obtain ⟨hnd', -, hdis⟩ := List.nodup_append.mp hnd
    have hmem : ∀ x, x ∈ s.waiting ↔ x ∈ (handleAlm s).2 ∨ x ∈ (handleAlm s).1.waiting := by
      intro x
      rw [hkeys, List.mem_append]
    refine ⟨hok, fun a ms he => ?_, fun a ms he => ?_, fun a ms he => ?_,
      ⟨hnd', fun a ha => ⟨(hmem a).mpr (Or.inl ha), fun hw => hdis a ha a hw rfl⟩⟩, hdue,
      fun a ha => ?_⟩
    · cases he
    · cases he
    · cases he
    · rcases (hmem a).mp ha with hf | hw
      · exact Or.inr (Or.inl hf)
      · exact Or.inl hw

/-- Nobody has set an alarm, and nothing is queued. -/
structure Unset (s : Alarm) : Prop where
  evlist : s.evlist = []
  cntdown : s.cntdown = 0
  cntup : s.cntup = 0
  ringbuf : s.ringbuf = []
  isalarm : ∀ a, s.isalarm a = false
  expired : ∀ a, s.expired a = false
  click : 0 < s.click

theorem Unset.alarmed (h : Unset s) : Alarmed s := by
  have hw : ∀ a, a ∉ s.waiting := by
    intro a
    rw [Alarm.waiting, h.evlist]
    exact List.not_mem_nil
  have hquiet : Quiet s.timer := ⟨h.evlist, h.cntdown, h.cntup, h.ringbuf, fun a =>
    decide_eq_false (hw a)⟩
  refine ⟨hquiet.timed, fun a ha => absurd ha (hw a), ?_, h.click, fun a => ?_,
    fun a ha => absurd ha (hw a), fun a ha => absurd ha (hw a)⟩
  · rw [h.cntup]
    decide
  · rw [h.isalarm a, h.expired a]
    simp [hw a]

/-- The steps at the right moment. -/
def OnTimeStep (s : Alarm) (l : AlmAct × Nat × List Nat) (s' : Alarm) : Prop :=
  AlmStep s l s' ∧ OnTime s l.1

end

/-- What holds in every run in which nobody sets an alarm at a wrong moment or for too long. Each
    step does what it should, an alarm that is set is announced by an event, or by a countdown that
    ends no later than it is due, and the flags are those of the list if and only if no alarm has
    expired without its application having called since. -/
theorem alarms_exact (s₀ s : Alarm) (ls : List (AlmAct × Nat × List Nat)) (h₀ : Unset s₀)
    (hrun : Runs.Run OnTimeStep s₀ ls s) :
    (∀ l s', OnTimeStep s l s' → Exact s l s') ∧
      (∀ a ∈ s.waiting,
        s.ringbuf ≠ [] ∨ s.cntdown ≠ 0 ∧ (s.cntdown : Int) ≤ max 1 (s.remaining a)) ∧
      ((∀ a, s.isalarm a = true ↔ a ∈ s.waiting) ↔ ∀ a, s.expired a = false) := by
  have h : Alarmed s := Runs.run_preserves OnTimeStep Alarmed
    (fun s l s' hs hstep => (almStep_alarmed hs hstep.1 hstep.2).1) s₀ s ls hrun h₀.alarmed
  refine ⟨fun l s' hstep => (almStep_alarmed h hstep.1 hstep.2).2,
    fun a ha => h.timed.announced a ha, fun hflag a => ?_, fun hexp a => ?_⟩
  · -- Whose alarm has expired is not in the list.
    by_contra hne
    have he := Bool.not_eq_false _ ▸ hne
    have hw := (hflag a).mp ((h.flag a).mpr (Or.inr he))
    rw [h.apart a hw] at he
    exact Bool.false_ne_true he
  · rw [h.flag a, hexp a]
    simp

/-- Nobody has set an alarm yet, and the clock ticks every twenty milliseconds. -/
def demoAlarm : Alarm :=
  ⟨[], 0, 0, [], fun _ => false, fun _ => none, fun _ => 0, fun _ => true, 20, 0, fun _ => 0,
    fun _ => false⟩

theorem demoAlarm_unset : Unset demoAlarm :=
  ⟨rfl, rfl, rfl, rfl, fun _ => rfl, fun _ => rfl, by decide⟩

/-- A run with two alarms, at the end of which the second one is left. -/
theorem alarms_exact_two :
    ∃ s, Runs.Run OnTimeStep demoAlarm
      [(.alrm 1 40, 40, []), (.alrm 2 60, 60, []), (.tick false, 0, []), (.tick false, 0, []),
        (.handle, 0, [1])] s ∧ 2 ∈ s.waiting ∧
      (s.ringbuf ≠ [] ∨ s.cntdown ≠ 0 ∧ (s.cntdown : Int) ≤ max 1 (s.remaining 2)) := by
  have hrun : ∃ s, Runs.Run OnTimeStep demoAlarm
      [(.alrm 1 40, 40, []), (.alrm 2 60, 60, []), (.tick false, 0, []), (.tick false, 0, []),
        (.handle, 0, [1])] s ∧ 2 ∈ s.waiting := by
    refine ⟨_, .cons _ _ _ _ _ ⟨⟨by decide, rfl⟩, fun _ he => absurd he Bool.false_ne_true,
        fun _ => ⟨by decide, rfl, fun _ => rfl⟩⟩
      (.cons _ _ _ _ _ ⟨⟨by decide, rfl⟩, fun _ he => absurd he Bool.false_ne_true,
        fun _ => ⟨by decide, rfl, fun _ => rfl⟩⟩
      (.cons _ _ _ _ _ ⟨⟨trivial, rfl⟩, .inr (by decide)⟩
      (.cons _ _ _ _ _ ⟨⟨trivial, rfl⟩, .inr (by decide)⟩
      (.cons _ _ _ _ _ ⟨⟨by decide, rfl⟩, trivial⟩ (.nil _))))), by decide⟩
  obtain ⟨s, hrun, hs⟩ := hrun
  exact ⟨s, hrun, hs, (alarms_exact demoAlarm s _ demoAlarm_unset hrun).2.1 2 hs⟩

/-- The flag of an expired alarm stays, the application is told that it has an alarm, and when it
    cancels it the alarm of another one comes earlier. An alarm of so many ticks that they are no
    word expires at once. -/
theorem alarms_stale :
    (∃ s, Runs.Run AlmStep demoAlarm
      [(.alrm 1 20, 20, []), (.tick false, 0, []), (.handle, 0, [1])] s ∧
      s.isalarm 1 = true ∧ 1 ∉ s.waiting) ∧
    (∃ s, Runs.Run AlmStep demoAlarm
      [(.alrm 1 20, 20, []), (.alrm 2 200, 200, []), (.tick false, 0, []), (.handle, 0, [1]),
        (.alrm 1 (-1), 180, [])] s ∧ 1 ∉ s.waiting) ∧
    (∃ s s', Runs.Run AlmStep demoAlarm
      [(.alrm 1 20, 20, []), (.alrm 2 200, 200, []), (.tick true, 0, []), (.tick false, 0, []),
        (.handle, 0, [1])] s ∧ AlmStep s (.alrm 1 0, 0, []) s' ∧ 2 ∈ s.waiting ∧
      s'.remaining 2 < s.remaining 2) ∧
    ∃ s, Runs.Run AlmStep demoAlarm
      [(.alrm 1 1310720, 20, []), (.tick false, 0, []), (.handle, 0, [1])] s ∧ s.now < s.due 1 := by
  refine ⟨⟨_, .cons _ _ _ _ _ ⟨by decide, rfl⟩ (.cons _ _ _ _ _ ⟨trivial, rfl⟩
      (.cons _ _ _ _ _ ⟨by decide, rfl⟩ (.nil _))), by decide, by decide⟩,
    ⟨_, .cons _ _ _ _ _ ⟨by decide, rfl⟩ (.cons _ _ _ _ _ ⟨by decide, rfl⟩
      (.cons _ _ _ _ _ ⟨trivial, rfl⟩ (.cons _ _ _ _ _ ⟨by decide, rfl⟩
      (.cons _ _ _ _ _ ⟨by decide, rfl⟩ (.nil _))))), by decide⟩,
    ⟨_, _, .cons _ _ _ _ _ ⟨by decide, rfl⟩ (.cons _ _ _ _ _ ⟨by decide, rfl⟩
      (.cons _ _ _ _ _ ⟨trivial, rfl⟩ (.cons _ _ _ _ _ ⟨trivial, rfl⟩
      (.cons _ _ _ _ _ ⟨by decide, rfl⟩ (.nil _))))), ⟨by decide, rfl⟩, by decide, by decide⟩,
    ⟨_, .cons _ _ _ _ _ ⟨by decide, rfl⟩ (.cons _ _ _ _ _ ⟨trivial, rfl⟩
      (.cons _ _ _ _ _ ⟨by decide, rfl⟩ (.nil _))), by decide⟩⟩

end Aes

end MagiC
