import Mathlib.Algebra.Group.Int.Defs
import Mathlib.Algebra.Group.Nat.Defs
import Mathlib.Data.List.Nodup
import Mathlib.Logic.Function.Basic
import MagiC.Lib.Runs

/-!
# Timers of the AES

`wait_timer`, `handle_tim`, `__rmv_ap_timer` and `timer_int` of `aesevt.s`, in
any order.

The applications that wait for a time are on a list, each with the ticks from
the one before it. A countdown runs for the first of them. What has been
counted since the offset of the first one was taken is in `timer_cntup`. When
the countdown ends, the interrupt puts an event with `timer_cntup` into the
ring buffer, and the countdown stands still until `handle_tim` gets the event.

`Later` is what the offsets mean: each application is due no later than the
list says. It holds as long as nobody starts to wait while the event of an
expired countdown is in the ring buffer, and as long as nobody who comes in
front of the list finds a countdown that has been running.

Only the timer events of the ring buffer are there. The number of interrupts and
the tick an application asked for are a record for the statements.

## Main definitions

* `handleTim`: `handle_tim` for the oldest queued event.

## Theorems

* `timers_in_time`: Timers fire neither early nor never.
-/

namespace MagiC

namespace Aes

def s32 (x : Int) : Int := Int.bmod x (2 ^ 32)

/-- A longword without a sign. -/
def u32 (x : Int) : Nat := (x % 2 ^ 32).toNat

/-- The timer list with `ap_ms`, the counters, the codes of the queued
    `handle_tim` events, and the `EV_TIM` bits of the event words. The last two
    are the number of interrupts so far and the one asked for. -/
structure Timer where
  evlist : List (Nat × Int)
  cntdown : Nat
  cntup : Nat
  ringbuf : List Nat
  rbits : Nat → Bool
  hbits : Nat → Bool
  now : Nat
  due : Nat → Nat

/-- `wt_loop`: insert into the list behind the first timer. -/
def wtLoop (a : Nat) : List (Nat × Int) → Int → List (Nat × Int)
  | [], d0 => [(a, d0)]
  | (b, ms) :: l, d0 =>
    if d0 ≤ ms then (a, d0) :: (b, s32 (ms - d0)) :: l
    else (b, ms) :: wtLoop a l (s32 (d0 - ms))

/-- `wt_sort`: insert into the list, where the offset of the first timer is
    compared less what has been counted already. -/
def wtSort (a cntup : Nat) (d0 : Int) : List (Nat × Int) → List (Nat × Int)
  | [] => [(a, d0)]
  | (b, ms) :: l =>
    if d0 ≤ s32 (ms - cntup) then (a, d0) :: (b, s32 (ms - d0)) :: l
    else (b, ms) :: wtLoop a l (s32 (d0 - s32 (ms - cntup)))

/-- `wait_timer`. Nothing but interrupts can come between it and `appl_wait`,
    which clears what has happened and waits for `EV_TIM`. -/
def waitTimer (t : Timer) (a d : Nat) : Timer :=
  let d0 := if d = 0 then 1 else d
  let start := t.cntdown = 0
  let cntup := if start then 0 else t.cntup
  { t with
    evlist := wtSort a cntup d0 t.evlist
    cntdown := if start ∨ d0 ≤ t.cntdown then d0 else t.cntdown
    cntup := cntup
    rbits := Function.update t.rbits a true
    hbits := Function.update t.hbits a false
    due := Function.update t.due a (t.now + d0) }

/-- `timer_int`. An event that finds the ring buffer full is delayed. -/
def timerInt (t : Timer) (full : Bool) : Timer :=
  let t := { t with now := t.now + 1 }
  if t.cntdown = 0 then t
  else
    let cntup := (t.cntup + 1) % 2 ^ 32
    if t.cntdown - 1 ≠ 0 then { t with cntup := cntup, cntdown := t.cntdown - 1 }
    else if full then { t with cntup := cntup, cntdown := 1 }
    else { t with cntup := cntup, cntdown := 0, ringbuf := t.ringbuf ++ [cntup] }

/-- `ht_loop`: the applications that get `EV_TIM`, the rest of the list and what
    has happened then. -/
def htLoop (rbits : Nat → Bool) :
    List (Nat × Int) → Int → (Nat → Bool) → List Nat × List (Nat × Int) × (Nat → Bool)
  | [], _, hbits => ([], [], hbits)
  | (a, ms) :: l, d1, hbits =>
    if d1 < ms then ([], (a, s32 (ms - d1)) :: l, hbits)
    else if rbits a && !hbits a then
      let r := htLoop rbits l (s32 (d1 - ms)) (Function.update hbits a true)
      (a :: r.1, r.2)
    else htLoop rbits l (s32 (d1 - ms)) hbits

/-- `handle_tim`, with the applications that get `EV_TIM`. -/
def handleTimer (t : Timer) : Timer × List Nat :=
  match t.ringbuf with
  | [] => (t, [])
  | c :: ring =>
    let r := htLoop t.rbits t.evlist (s32 c) t.hbits
    let t := { t with evlist := r.2.1, hbits := r.2.2, ringbuf := ring }
    match r.2.1 with
    | [] => (t, r.1)
    | (_, ms) :: _ => ({ t with cntdown := u32 ms, cntup := 0 }, r.1)

/-- The offset of a timer that is taken out is added to that of the next one. -/
def addMs (ms : Int) : List (Nat × Int) → List (Nat × Int)
  | [] => []
  | (c, ms') :: l => (c, s32 (ms' + ms)) :: l

/-- Take a timer out of the list. -/
def rmvLstelm (a : Nat) : List (Nat × Int) → List (Nat × Int)
  | [] => []
  | (b, ms) :: l => if b = a then addMs ms l else (b, ms) :: rmvLstelm a l

/-- `__rmv_ap_timer`, once `appl_wait` has returned. -/
def rmvApTimer (t : Timer) (a : Nat) : Timer :=
  let t := { t with rbits := Function.update t.rbits a false }
  if t.hbits a then t
  else
    let evlist := rmvLstelm a t.evlist
    { t with evlist := evlist, cntdown := if evlist = [] then 0 else t.cntdown }

/-- Somebody starts to wait, the timer interrupt, a queued event, and somebody
    who does not wait any more. -/
inductive TimAct where
  | wait (a d : Nat)
  | tick (full : Bool)
  | handle
  | rmv (a : Nat)

/-- What an action does, with the applications that get `EV_TIM`. -/
def timExec (t : Timer) : TimAct → Timer × List Nat
  | .wait a d => (waitTimer t a d, [])
  | .tick full => (timerInt t full, [])
  | .handle => handleTimer t
  | .rmv a => (rmvApTimer t a, [])

def TimEnabled (t : Timer) : TimAct → Prop
  | .wait a d => t.rbits a = false ∧ 0 < d ∧ d < 2 ^ 31
  | .tick _ => True
  | .handle => t.ringbuf ≠ []
  | .rmv a => t.rbits a = true

instance (t : Timer) : DecidablePred (TimEnabled t)
  | .wait _ _ => inferInstanceAs (Decidable (_ ∧ _ ∧ _))
  | .tick _ => inferInstanceAs (Decidable True)
  | .handle => inferInstanceAs (Decidable (_ ≠ _))
  | .rmv _ => inferInstanceAs (Decidable (_ = _))

def TimStep (t : Timer) (l : TimAct × List Nat) (t' : Timer) : Prop :=
  TimEnabled t l.1 ∧ timExec t l.1 = (t', l.2)

/-- The ticks up to an application, counted from where the list starts. -/
def upto (a : Nat) : List (Nat × Int) → Int
  | [] => 0
  | (b, ms) :: l => if b = a then ms else ms + upto a l

/-- The ticks an application has to wait according to the list, until the
    interrupt that announces it, which is the next one at the earliest. -/
def Timer.remaining (t : Timer) (a : Nat) : Int := max 1 (upto a t.evlist - t.cntup)

/-- Whether the offsets that are added when a timer is taken out have a sum. -/
def RmvFits (a : Nat) : List (Nat × Int) → Prop
  | [] => True
  | [_] => True
  | (b, ms) :: (c, ms') :: l => (b = a → ms + ms' < 2 ^ 31) ∧ RmvFits a ((c, ms') :: l)

/-- Whether a new timer that comes first finds a countdown that has just begun,
    and the ticks it has to wait behind an overdue one have a sum. -/
def SortFits (cntup : Nat) (d0 : Int) : List (Nat × Int) → Prop
  | [] => True
  | (_, ms) :: _ => (d0 ≤ ms - cntup → cntup = 0) ∧ d0 - (ms - cntup) < 2 ^ 31

/-- Nobody starts to wait while an event is queued, or in front of a countdown
    that has been running, and no sum overflows. -/
def InTime (t : Timer) : TimAct → Prop
  | .wait _ d => t.ringbuf = [] ∧ SortFits t.cntup d t.evlist
  | .tick _ => t.cntdown = 0 ∨ t.cntup + 1 < 2 ^ 31
  | .handle => True
  | .rmv a => t.hbits a = true ∨ RmvFits a t.evlist

/-- Each application is due no later than its offset from `b` says, and the
    offsets are positive longwords. -/
def Later (due : Nat → Nat) : Int → List (Nat × Int) → Prop
  | _, [] => True
  | b, (a, ms) :: l => (due a : Int) ≤ b + ms ∧ 0 ≤ ms ∧ ms < 2 ^ 31 ∧ Later due (b + ms) l

def Timer.waiting (t : Timer) : List Nat := t.evlist.map Prod.fst

/-- The list, the countdown and the queued event belong together. -/
structure Timed (t : Timer) : Prop where
  later : Later t.due (t.now - t.cntup) t.evlist
  nodup : t.waiting.Nodup
  waits : ∀ a, a ∈ t.waiting ↔ t.rbits a = true ∧ t.hbits a = false
  cntup : t.cntup < 2 ^ 31
  stopped : t.evlist = [] → t.cntdown = 0
  queued : t.ringbuf = [] ∨ t.ringbuf = [t.cntup] ∧ t.cntdown = 0
  running : t.ringbuf = [] → ∀ a ms l, t.evlist = (a, ms) :: l →
    t.cntdown ≠ 0 ∧ (t.cntdown : Int) ≤ max 1 (ms - t.cntup)

theorem s32_eq (x : Int) (h1 : -2 ^ 31 ≤ x) (h2 : x < 2 ^ 31) : s32 x = x := by
  simp only [s32, Int.bmod_def]
  split <;> omega

theorem u32_eq {x : Int} (h1 : 0 ≤ x) (h2 : x < 2 ^ 31) : u32 x = x.toNat := by
  unfold u32
  omega

section

variable {due due' : Nat → Nat} {b b' : Int} {l : List (Nat × Int)}

theorem later_mono (h : Later due b l) (hb : b ≤ b') : Later due b' l := by
  induction l generalizing b b' with
  | nil => trivial
  | cons p l ih =>
    rcases h with ⟨hd, h0, h1, hl⟩
    exact ⟨by omega, h0, h1, ih hl (by omega)⟩

theorem later_congr (h : Later due b l) (hd : ∀ a ∈ l.map Prod.fst, due' a = due a) :
    Later due' b l := by
  induction l generalizing b with
  | nil => trivial
  | cons p l ih =>
    rcases h with ⟨hp, h0, h1, hl⟩
    refine ⟨?_, h0, h1, ih hl fun a ha => hd a (List.mem_cons_of_mem _ ha)⟩
    rw [hd p.1 List.mem_cons_self]
    exact hp

theorem later_upto (a c : Nat) (ms : Int) (h : Later due b ((c, ms) :: l))
    (ha : a ∈ ((c, ms) :: l).map Prod.fst) : ms ≤ upto a ((c, ms) :: l) := by
  rw [upto]
  by_cases hca : c = a
  · exact Int.le_of_eq (if_pos hca).symm
  · rw [if_neg hca]
    have hal : a ∈ l.map Prod.fst := by
      rcases List.mem_cons.mp ha with rfl | hal
      · exact absurd rfl hca
      · exact hal
    have h0 : ∀ (b : Int) (l : List (Nat × Int)), Later due b l → 0 ≤ upto a l := by
      intro b l
      induction l generalizing b with
      | nil => exact fun _ => Int.le_refl 0
      | cons p l ih =>
        intro h
        have hp := ih _ h.2.2.2
        have hms := h.2.1
        rw [upto]
        split <;> omega
    have hl := h0 _ l h.2.2.2
    omega

theorem wtLoop_later (a : Nat) (d0 : Int) (h : Later due b l) (ha : (due a : Int) ≤ b + d0)
    (h0 : 0 ≤ d0) (h1 : d0 < 2 ^ 31) : Later due b (wtLoop a l d0) := by
  induction l generalizing b d0 with
  | nil => exact ⟨ha, h0, h1, trivial⟩
  | cons p l ih =>
    rcases h with ⟨hp, hp0, hp1, hl⟩
    rw [wtLoop]
    by_cases hle : d0 ≤ p.2
    · rw [if_pos hle, s32_eq _ (by omega) (by omega)]
      refine ⟨ha, h0, h1, by omega, by omega, by omega, ?_⟩
      exact later_mono hl (by omega)
    · rw [if_neg hle, s32_eq _ (by omega) (by omega)]
      exact ⟨hp, hp0, hp1, ih _ hl (by omega) (by omega) (by omega)⟩

theorem wtLoop_keys (a : Nat) (d0 : Int) :
    ((wtLoop a l d0).map Prod.fst).Perm (a :: l.map Prod.fst) := by
  induction l generalizing d0 with
  | nil => exact List.Perm.refl _
  | cons p l ih =>
    rw [wtLoop]
    split
    · exact List.Perm.refl _
    · exact ((ih _).cons p.1).trans (List.Perm.swap a p.1 _)

theorem wtSort_keys (a cntup : Nat) (d0 : Int) :
    ((wtSort a cntup d0 l).map Prod.fst).Perm (a :: l.map Prod.fst) := by
  cases l with
  | nil => exact List.Perm.refl _
  | cons p l =>
    rw [wtSort]
    split
    · exact List.Perm.refl _
    · exact ((wtLoop_keys a _).cons p.1).trans (List.Perm.swap a p.1 _)

theorem wtSort_later (a cntup : Nat) (d0 : Int) (h : Later due b l)
    (ha : (due a : Int) ≤ b + cntup + d0) (h0 : 0 ≤ d0) (h1 : d0 < 2 ^ 31)
    (hup : cntup < 2 ^ 31) (hfits : SortFits cntup d0 l) (hnil : l = [] → cntup = 0) :
    Later due b (wtSort a cntup d0 l) := by
  cases l with
  | nil =>
    have hc := hnil rfl
    exact ⟨by omega, h0, h1, trivial⟩
  | cons p l =>
    rcases h with ⟨hp, hp0, hp1, hl⟩
    rcases hfits with ⟨hfirst, hsum⟩
    rw [wtSort, s32_eq (p.2 - cntup) (by omega) (by omega)]
    by_cases hle : d0 ≤ p.2 - cntup
    · have hc := hfirst hle
      rw [if_pos hle, s32_eq _ (by omega) (by omega)]
      refine ⟨by omega, h0, h1, by omega, by omega, by omega, ?_⟩
      exact later_mono hl (by omega)
    · rw [if_neg hle, s32_eq _ (by omega) (by omega)]
      exact ⟨hp, hp0, hp1, wtLoop_later a _ hl (by omega) (by omega) (by omega)⟩

theorem rmvLstelm_keys (a : Nat) : (rmvLstelm a l).map Prod.fst = (l.map Prod.fst).erase a := by
  induction l with
  | nil => rfl
  | cons p l ih =>
    rw [rmvLstelm, List.map_cons]
    by_cases hpa : p.1 = a
    · rw [if_pos hpa, hpa, List.erase_cons_head]
      cases l <;> rfl
    · rw [if_neg hpa, List.erase_cons_tail (by simpa using hpa), List.map_cons, ih]

theorem rmvLstelm_later (a : Nat) (h : Later due b l) (hfits : RmvFits a l) :
    Later due b (rmvLstelm a l) := by
  induction l generalizing b with
  | nil => trivial
  | cons p l ih =>
    rcases h with ⟨hp, hp0, hp1, hl⟩
    rw [rmvLstelm]
    cases l with
    | nil =>
      split
      · trivial
      · exact ⟨hp, hp0, hp1, trivial⟩
    | cons q l =>
      by_cases hpa : p.1 = a
      · rcases hl with ⟨hq, hq0, hq1, hl⟩
        have hsum := hfits.1 hpa
        rw [if_pos hpa]
        rw [addMs, s32_eq (q.2 + p.2) (by omega) (by omega)]
        exact ⟨by omega, by omega, by omega, later_mono hl (by omega)⟩
      · rw [if_neg hpa]
        exact ⟨hp, hp0, hp1, ih hl hfits.2⟩

theorem rmvLstelm_head (a c : Nat) (ms : Int) (m : List (Nat × Int)) (h : Later due b l)
    (hfits : RmvFits a l) (hm : rmvLstelm a l = (c, ms) :: m) :
    ∃ c' ms' m', l = (c', ms') :: m' ∧ ms' ≤ ms := by
  cases l with
  | nil => cases hm
  | cons p l =>
    refine ⟨p.1, p.2, l, rfl, ?_⟩
    rcases h with ⟨hp, hp0, hp1, hl⟩
    rw [rmvLstelm] at hm
    by_cases hpa : p.1 = a
    · rw [if_pos hpa] at hm
      cases l with
      | nil => cases hm
      | cons q l =>
        rcases hl with ⟨hq, hq0, hq1, hl⟩
        have hsum := hfits.1 hpa
        rw [addMs, s32_eq (q.2 + p.2) (by omega) (by omega)] at hm
        cases hm
        omega
    · rw [if_neg hpa] at hm
      cases hm
      exact Int.le_refl _

/-- What `handle_tim` does with a list on which everybody waits for `EV_TIM`. -/
structure Handled (due : Nat → Nat) (b d : Int) (l : List (Nat × Int)) (hbits : Nat → Bool)
    (r : List Nat × List (Nat × Int) × (Nat → Bool)) : Prop where
  fired : ∀ a ∈ r.1, (due a : Int) ≤ b + d
  later : Later due (b + d) r.2.1
  keys : l.map Prod.fst = r.1 ++ r.2.1.map Prod.fst
  hbits : ∀ x, r.2.2 x = true ↔ hbits x = true ∨ x ∈ r.1
  head : ∀ a ms m, r.2.1 = (a, ms) :: m → 0 < ms

theorem htLoop_spec (rbits hbits : Nat → Bool) (d : Int) (h : Later due b l)
    (hnd : (l.map Prod.fst).Nodup) (h0 : 0 ≤ d) (h1 : d < 2 ^ 31)
    (hw : ∀ a ∈ l.map Prod.fst, rbits a = true ∧ hbits a = false) :
    Handled due b d l hbits (htLoop rbits l d hbits) := by
  induction l generalizing b d hbits with
  | nil =>
    exact ⟨fun _ ha => absurd ha List.not_mem_nil, trivial, rfl, fun x => by simp [htLoop],
      fun _ _ _ hnil => by cases hnil⟩
  | cons p l ih =>
    rcases h with ⟨hp, hp0, hp1, hl⟩
    rw [htLoop]
    by_cases hlt : d < p.2
    · rw [if_pos hlt, s32_eq _ (by omega) (by omega)]
      refine ⟨fun _ ha => absurd ha List.not_mem_nil, ⟨by omega, by omega, by omega, ?_⟩,
        rfl, fun x => by simp, fun a ms m he => ?_⟩
      · exact later_mono hl (by omega)
      · cases he
        omega
    · have hpw := hw p.1 List.mem_cons_self
      have hnd' := List.nodup_cons.mp hnd
      have hih := ih (Function.update hbits p.1 true) (d - p.2) hl hnd'.2 (by omega) (by omega)
        fun a ha => by
          have hne : a ≠ p.1 := fun e => hnd'.1 (e ▸ ha)
          rw [Function.update_of_ne hne]
          exact hw a (List.mem_cons_of_mem _ ha)
      have hbd : b + p.2 + (d - p.2) = b + d := by omega
      rw [if_neg hlt, hpw.1, hpw.2, s32_eq _ (by omega) (by omega)]
      simp only [Bool.not_false, Bool.and_self, if_true]
      refine ⟨fun a ha => ?_, ?_, ?_, fun x => ?_, hih.head⟩
      · rcases List.mem_cons.mp ha with rfl | ha
        · omega
        · have hf := hih.fired a ha
          omega
      · have hlat := hih.later
        rwa [hbd] at hlat
      · rw [List.map_cons, hih.keys, List.cons_append]
      · rw [hih.hbits x, List.mem_cons]
        by_cases hx : x = p.1
        · simp [hx]
        · simp [hx]

end

section

variable {t t' : Timer}

theorem Timed.idle (h : Timed t) (hring : t.ringbuf = []) (h0 : t.cntdown = 0) :
    t.evlist = [] := by
  cases hl : t.evlist with
  | nil => rfl
  | cons p l => exact absurd h0 (h.running hring p.1 p.2 l hl).1

theorem waitTimer_eq (t : Timer) (a : Nat) {d : Nat} (hd : 0 < d) :
    waitTimer t a d =
      { t with
        evlist := wtSort a (if t.cntdown = 0 then 0 else t.cntup) d t.evlist
        cntdown := if t.cntdown = 0 ∨ d ≤ t.cntdown then d else t.cntdown
        cntup := if t.cntdown = 0 then 0 else t.cntup
        rbits := Function.update t.rbits a true
        hbits := Function.update t.hbits a false
        due := Function.update t.due a (t.now + d) } := by
  have hd' : (if d = 0 then 1 else d) = d := if_neg (by omega)
  unfold waitTimer
  simp only [hd']

theorem waitTimer_timed (h : Timed t) (a d : Nat) (hd0 : 0 < d) (hd1 : d < 2 ^ 31)
    (hidle : t.rbits a = false) (hring : t.ringbuf = [])
    (hfits : SortFits t.cntup d t.evlist) : Timed (waitTimer t a d) := by
  have hna : a ∉ t.waiting := fun hmem => by
    have hr := ((h.waits a).mp hmem).1
    rw [hidle] at hr
    cases hr
  have hkeys : ∀ c, ((wtSort a c (d : Int) t.evlist).map Prod.fst).Perm (a :: t.waiting) :=
    fun c => wtSort_keys a c d
  have hdue : ∀ x ∈ t.waiting, Function.update t.due a (t.now + d) x = t.due x := by
    intro x hx
    refine Function.update_of_ne ?_ _ _
    rintro rfl
    exact hna hx
  have hself : Function.update t.due a (t.now + d) a = t.now + d := Function.update_self _ _ _
  rw [waitTimer_eq t a hd0]
  by_cases h0 : t.cntdown = 0
  · have hnil := h.idle hring h0
    simp only [h0, hnil, if_true, true_or, wtSort]
    refine ⟨⟨by simp only [hself]; omega, by omega, by omega, trivial⟩, List.nodup_singleton a,
      fun x => ?_, Nat.zero_lt_of_lt h.cntup, fun hne => absurd hne (List.cons_ne_nil _ _),
      .inl hring, fun _ c ms l hl => ?_⟩
    · have hx := h.waits x
      simp only [Timer.waiting, hnil, List.map_nil, List.not_mem_nil, false_iff] at hx
      by_cases hxa : x = a
      · subst hxa
        simp [Timer.waiting]
      · simpa [Timer.waiting, Function.update_of_ne hxa, hxa] using hx
    · cases hl
      exact ⟨by dsimp only; omega, by dsimp only; omega⟩
  · have hcons : t.evlist ≠ [] := fun e => h0 (h.stopped e)
    simp only [h0, if_false, false_or]
    have hcnt := h.cntup
    refine ⟨?_, ?_, fun x => ?_, hcnt, fun e => ?_, .inl hring, fun _ c ms l hl => ?_⟩
    · refine wtSort_later a t.cntup d (later_congr h.later hdue) ?_ (by omega) (by omega) hcnt hfits
        fun e => absurd e hcons
      dsimp only
      rw [hself]
      omega
    · exact (hkeys t.cntup).nodup_iff.mpr (List.nodup_cons.mpr ⟨hna, h.nodup⟩)
    · rw [Timer.waiting, (hkeys t.cntup).mem_iff, List.mem_cons, h.waits x]
      by_cases hxa : x = a
      · subst hxa
        simp
      · simp [hxa]
    · have hperm := (hkeys t.cntup).length_eq
      dsimp only at e
      rw [e] at hperm
      cases hperm
    · cases hel : t.evlist with
      | nil => exact absurd hel hcons
      | cons p m =>
        have hrun := h.running hring p.1 p.2 m hel
        have hlat := h.later
        rw [hel] at hl hfits hlat
        rw [wtSort, s32_eq _ (by have := hlat.2.1; omega) (by have := hlat.2.2.1; omega)] at hl
        by_cases hle : (d : Int) ≤ p.2 - t.cntup
        · have hc := hfits.1 hle
          rw [if_pos hle] at hl
          cases hl
          dsimp only
          split <;> omega
        · rw [if_neg hle] at hl
          cases hl
          dsimp only
          split <;> omega

theorem timerInt_timed (h : Timed t) (full : Bool) (hup : t.cntdown = 0 ∨ t.cntup + 1 < 2 ^ 31) :
    Timed (timerInt t full) := by
  unfold timerInt
  simp only
  by_cases h0 : t.cntdown = 0
  · rw [if_pos h0]
    exact { h with later := later_mono h.later (by simp only; omega) }
  · have hring : t.ringbuf = [] := by
      rcases h.queued with hq | hq
      · exact hq
      · exact absurd hq.2 h0
    have hup' : t.cntup + 1 < 2 ^ 31 := by
      rcases hup with hup | hup
      · exact absurd hup h0
      · exact hup
    have hmod : (t.cntup + 1) % 2 ^ 32 = t.cntup + 1 := Nat.mod_eq_of_lt (by omega)
    have hcons : t.evlist ≠ [] := fun e => h0 (h.stopped e)
    rw [if_neg h0, hmod]
    by_cases h1 : t.cntdown - 1 ≠ 0
    · rw [if_pos h1]
      refine ⟨later_mono h.later (by simp only; omega), h.nodup, h.waits, hup',
        fun e => absurd e hcons, .inl hring, fun hr a ms l hl => ?_⟩
      have hrun := h.running hr a ms l hl
      exact ⟨h1, by simp only; omega⟩
    · rw [if_neg h1]
      cases full with
      | true =>
        rw [if_pos rfl]
        refine ⟨later_mono h.later (by dsimp only; omega), h.nodup, h.waits, hup',
          fun e => absurd e hcons, .inl hring, fun hr a ms l hl => ⟨Nat.one_ne_zero, ?_⟩⟩
        dsimp only
        omega
      | false =>
        rw [if_neg Bool.false_ne_true]
        refine ⟨later_mono h.later (by dsimp only; omega), h.nodup, h.waits, hup', fun _ => rfl,
          .inr ⟨by rw [hring]; rfl, rfl⟩, fun hr => ?_⟩
        exact absurd hr (List.append_ne_nil_of_right_ne_nil _ (List.cons_ne_nil _ _))

theorem handleTimer_eq (hq : t.ringbuf = [t.cntup]) (hup : t.cntup < 2 ^ 31) {r}
    (hr : r = htLoop t.rbits t.evlist t.cntup t.hbits) :
    handleTimer t =
      ({ t with
         evlist := r.2.1
         cntdown := (r.2.1.head?.map fun p => u32 p.2).getD t.cntdown
         cntup := if r.2.1 = [] then t.cntup else 0
         ringbuf := []
         hbits := r.2.2 }, r.1) := by
  unfold handleTimer
  simp only [hq, s32_eq t.cntup (by omega) (by omega)]
  rw [← hr]
  cases r.2.1 with
  | nil => rfl
  | cons p l => rfl

theorem handleTimer_timed (h : Timed t) (hring : t.ringbuf ≠ []) :
    Timed (handleTimer t).1 ∧ ∀ a ∈ (handleTimer t).2, t.due a ≤ t.now := by
  have hq : t.ringbuf = [t.cntup] ∧ t.cntdown = 0 := by
    rcases h.queued with hq | hq
    · exact absurd hq hring
    · exact hq
  have hup := h.cntup
  have hs := htLoop_spec t.rbits t.hbits t.cntup h.later h.nodup (by omega) (by omega)
    fun a ha => (h.waits a).mp ha
  have hbase : (t.now : Int) - t.cntup + t.cntup = t.now := by omega
  have hkeys : t.waiting.Nodup := h.nodup
  rw [Timer.waiting, hs.keys] at hkeys
  have hnd : (List.map Prod.fst (htLoop t.rbits t.evlist t.cntup t.hbits).2.1).Nodup :=
    (List.nodup_append.mp hkeys).2.1
  have hwaits : ∀ a, a ∈ List.map Prod.fst (htLoop t.rbits t.evlist t.cntup t.hbits).2.1 ↔
      t.rbits a = true ∧ (htLoop t.rbits t.evlist t.cntup t.hbits).2.2 a = false := by
    intro a
    have ha := h.waits a
    rw [Timer.waiting, hs.keys, List.mem_append] at ha
    have hb := hs.hbits a
    have hdis := (List.nodup_append.mp hkeys).2.2
    constructor
    · intro hmem
      have hw := ha.mp (.inr hmem)
      refine ⟨hw.1, ?_⟩
      rw [← Bool.not_eq_true, hb, not_or]
      exact ⟨by simp [hw.2], fun hf => hdis a hf a hmem rfl⟩
    · intro hw
      rw [← Bool.not_eq_true, hb, not_or] at hw
      rcases ha.mpr ⟨hw.1, by simpa using hw.2.1⟩ with hf | hmem
      · exact absurd hf hw.2.2
      · exact hmem
  have hfired : ∀ a ∈ (htLoop t.rbits t.evlist t.cntup t.hbits).1, t.due a ≤ t.now := by
    intro a ha
    have hd := hs.fired a ha
    omega
  unfold handleTimer
  simp only [hq.1, s32_eq t.cntup (by omega) (by omega)]
  have hlat := hs.later
  rw [hbase] at hlat
  cases hr : (htLoop t.rbits t.evlist t.cntup t.hbits).2.1 with
  | nil =>
    rw [hr] at hnd hwaits
    exact ⟨⟨trivial, hnd, hwaits, hup, fun _ => hq.2, .inl rfl, fun _ a ms l e => by cases e⟩,
      hfired⟩
  | cons p l =>
    rw [hr] at hnd hwaits hlat
    have hpos := hs.head p.1 p.2 l hr
    refine ⟨⟨later_mono hlat (by simp only; omega), hnd, hwaits, Nat.zero_lt_of_lt hup,
      fun e => absurd e (List.cons_ne_nil _ _), .inl rfl, fun _ a ms l e => ?_⟩, hfired⟩
    cases e
    have hms := u32_eq hlat.2.1 hlat.2.2.1
    exact ⟨by simp only; omega, by simp only; omega⟩

theorem rmvApTimer_timed (h : Timed t) (a : Nat)
    (hfits : t.hbits a = true ∨ RmvFits a t.evlist) : Timed (rmvApTimer t a) := by
  unfold rmvApTimer
  by_cases hb : t.hbits a = true
  · rw [if_pos hb]
    refine { h with waits := fun x => ?_ }
    by_cases hxa : x = a
    · subst hxa
      have hx := h.waits x
      simp only [hb, Bool.true_eq_false, and_false, iff_false] at hx
      simpa [Timer.waiting] using (show x ∉ t.evlist.map Prod.fst from hx)
    · have hx : x ∈ t.evlist.map Prod.fst ↔ _ := h.waits x
      simpa [Timer.waiting, Function.update_of_ne hxa] using hx
  · rw [if_neg hb]
    have hf : RmvFits a t.evlist := by
      rcases hfits with hfits | hfits
      · exact absurd hfits hb
      · exact hfits
    refine ⟨rmvLstelm_later a h.later hf, ?_, fun x => ?_, h.cntup, fun e => if_pos e, ?_,
      fun hr c ms m hm => ?_⟩
    · rw [Timer.waiting, rmvLstelm_keys]
      exact h.nodup.erase a
    · rw [Timer.waiting, rmvLstelm_keys]
      dsimp only
      rw [List.Nodup.mem_erase_iff (show (t.evlist.map Prod.fst).Nodup from h.nodup)]
      by_cases hxa : x = a
      · subst hxa
        simp
      · have hx := h.waits x
        rw [Timer.waiting] at hx
        simp [hxa, hx]
    · rcases h.queued with hq | hq
      · exact .inl hq
      · refine .inr ⟨hq.1, ?_⟩
        simp only [hq.2, ite_self]
    · rcases rmvLstelm_head a c ms m h.later hf hm with ⟨c', ms', m', hl, hle⟩
      have hrun := h.running hr c' ms' m' hl
      simp only at hm
      simp only [hm, reduceCtorEq, if_false]
      exact ⟨hrun.1, by omega⟩

/-- Each step keeps the offsets right, and wakes nobody too early. -/
theorem step_timed (h : Timed t) (act : TimAct) (fired : List Nat)
    (hstep : TimStep t (act, fired) t') (hin : InTime t act) :
    Timed t' ∧ ∀ a ∈ fired, t.due a ≤ t.now := by
  rcases hstep with ⟨hen, hexec⟩
  cases act with
  | wait a d =>
    cases hexec
    exact ⟨waitTimer_timed h a d hen.2.1 hen.2.2 hen.1 hin.1 hin.2,
      fun _ ha => absurd ha List.not_mem_nil⟩
  | tick full =>
    cases hexec
    exact ⟨timerInt_timed h full hin, fun _ ha => absurd ha List.not_mem_nil⟩
  | handle =>
    have hr : handleTimer t = (t', fired) := hexec
    have hm := handleTimer_timed h hen
    rwa [hr] at hm
  | rmv a =>
    cases hexec
    exact ⟨rmvApTimer_timed h a hin, fun _ ha => absurd ha List.not_mem_nil⟩

theorem Timed.announced (h : Timed t) (a : Nat) (ha : a ∈ t.waiting) :
    t.ringbuf ≠ [] ∨ t.cntdown ≠ 0 ∧ (t.cntdown : Int) ≤ t.remaining a := by
  by_cases hring : t.ringbuf = []
  · refine .inr ?_
    cases hl : t.evlist with
    | nil =>
      rw [Timer.waiting, hl] at ha
      exact absurd ha List.not_mem_nil
    | cons p l =>
      rcases p with ⟨c, ms⟩
      have hrun := h.running hring c ms l hl
      have hlat := h.later
      rw [Timer.waiting, hl] at ha
      rw [hl] at hlat
      have hle := later_upto a c ms hlat ha
      refine ⟨hrun.1, ?_⟩
      rw [Timer.remaining, hl]
      omega
  · exact .inl hring

/-- Nobody waits for a time, and nothing is queued. -/
structure Quiet (t : Timer) : Prop where
  evlist : t.evlist = []
  cntdown : t.cntdown = 0
  cntup : t.cntup = 0
  ringbuf : t.ringbuf = []
  rbits : ∀ a, t.rbits a = false

theorem Quiet.timed (h : Quiet t) : Timed t := by
  refine ⟨?_, ?_, fun a => ?_, ?_, fun _ => h.cntdown, .inl h.ringbuf, fun _ a ms l hl => ?_⟩
  · rw [h.evlist]
    trivial
  · rw [Timer.waiting, h.evlist]
    exact List.nodup_nil
  · simp [Timer.waiting, h.evlist, h.rbits a]
  · rw [h.cntup]
    decide
  · rw [h.evlist] at hl
    cases hl

/-- The steps that come in time. -/
def InTimeStep (t : Timer) (l : TimAct × List Nat) (t' : Timer) : Prop :=
  TimStep t l t' ∧ InTime t l.1

end

/-- Timers fire neither early nor never, in every run in which nobody starts to
    wait while an event is queued or in front of a countdown that has been
    running. -/
theorem timers_in_time (t₀ t : Timer) (ls : List (TimAct × List Nat)) (h₀ : Quiet t₀)
    (hrun : Runs.Run InTimeStep t₀ ls t) :
    (∀ a ∈ t.waiting,
      t.ringbuf ≠ [] ∨ t.cntdown ≠ 0 ∧ (t.cntdown : Int) ≤ t.remaining a) ∧
    ∀ l t', InTimeStep t l t' → ∀ a ∈ l.2, t.due a ≤ t.now := by
  have h : Timed t := Runs.run_preserves InTimeStep Timed
    (fun s l s' hs hstep => (step_timed hs l.1 l.2 hstep.1 hstep.2).1) t₀ t ls hrun h₀.timed
  exact ⟨fun a ha => h.announced a ha,
    fun l t' hstep => (step_timed h l.1 l.2 hstep.1 hstep.2).2⟩

def demoTimer : Timer := ⟨[], 0, 0, [], fun _ => false, fun _ => false, 0, fun _ => 0⟩

theorem demoTimer_quiet : Quiet demoTimer := ⟨rfl, rfl, rfl, rfl, fun _ => rfl⟩

/-- A run with two timers, at the end of which the second one is left. -/
theorem timers_in_time_two :
    ∃ t, Runs.Run InTimeStep demoTimer
      [(.wait 1 2, []), (.wait 2 3, []), (.tick false, []), (.tick false, []),
        (.handle, [1])] t ∧ 2 ∈ t.waiting ∧
      (t.ringbuf ≠ [] ∨ t.cntdown ≠ 0 ∧ (t.cntdown : Int) ≤ t.remaining 2) := by
  have hrun : ∃ t, Runs.Run InTimeStep demoTimer
      [(.wait 1 2, []), (.wait 2 3, []), (.tick false, []), (.tick false, []),
        (.handle, [1])] t ∧ 2 ∈ t.waiting := by
    refine ⟨_, .cons _ _ _ _ _ ⟨⟨by decide, rfl⟩, by decide, trivial⟩
      (.cons _ _ _ _ _ ⟨⟨by decide, rfl⟩, by decide, by decide, by decide⟩
      (.cons _ _ _ _ _ ⟨⟨trivial, rfl⟩, .inr (by decide)⟩
      (.cons _ _ _ _ _ ⟨⟨trivial, rfl⟩, .inr (by decide)⟩
      (.cons _ _ _ _ _ ⟨⟨by decide, rfl⟩, trivial⟩ (.nil _))))), by decide⟩
  rcases hrun with ⟨t, hrun, ht⟩
  exact ⟨t, hrun, ht, (timers_in_time demoTimer t _ demoTimer_quiet hrun).1 2 ht⟩

/-- A timer that is started while the event of another one is queued, and one
    that is overtaken twice, fire early. -/
theorem timers_fire_early :
    (∃ t, Runs.Run TimStep demoTimer
      [(.wait 1 3, []), (.tick false, []), (.tick false, []), (.tick false, []), (.wait 2 2, []),
        (.handle, [2, 1])] t ∧ t.now < t.due 2) ∧
    ∃ t, Runs.Run TimStep demoTimer
      [(.wait 1 5, []), (.tick false, []), (.tick false, []), (.wait 2 2, []), (.wait 3 1, []),
        (.tick false, []), (.handle, [2, 3])] t ∧ t.now < t.due 2 := by
  constructor
  · refine ⟨_, .cons _ _ _ _ _ ⟨by decide, rfl⟩ (.cons _ _ _ _ _ ⟨trivial, rfl⟩
      (.cons _ _ _ _ _ ⟨trivial, rfl⟩ (.cons _ _ _ _ _ ⟨trivial, rfl⟩
      (.cons _ _ _ _ _ ⟨by decide, rfl⟩ (.cons _ _ _ _ _ ⟨by decide, rfl⟩ (.nil _)))))),
      by decide⟩
  · refine ⟨_, .cons _ _ _ _ _ ⟨by decide, rfl⟩ (.cons _ _ _ _ _ ⟨trivial, rfl⟩
      (.cons _ _ _ _ _ ⟨trivial, rfl⟩ (.cons _ _ _ _ _ ⟨by decide, rfl⟩
      (.cons _ _ _ _ _ ⟨by decide, rfl⟩ (.cons _ _ _ _ _ ⟨trivial, rfl⟩
      (.cons _ _ _ _ _ ⟨by decide, rfl⟩ (.nil _))))))), by decide⟩

end Aes

end MagiC
