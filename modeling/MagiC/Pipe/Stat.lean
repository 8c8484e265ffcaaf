import MagiC.Lib.Memory
import MagiC.Lib.Runs
import MagiC.Pipe.Code
import Mathlib.Logic.Function.Basic

/-!
# Waiting for a Pipe

Applications that wait for a pipe, from `dev_pipe.s`: `pipe_stat`, `pipe_unsel`,
`pipe_wakeup` and the waiting of a call that reads or writes.

Who waits is entered twice: the pipe holds the application and the address of its unselect
structure, and the structure holds the routine that withdraws the application and the
parameter of that routine, the pipe. `pipe_stat` stores what is in `d1` as the parameter.
A call for reading has put the pipe there, but for writing it is still the application. So
an application that gives up waiting for room in a pipe clears a longword of its own
structure, the pipe keeps it as the one that waits, and the next one to read from the pipe
stores into memory that may be something else by now.

All the pipes of all devices are in one memory, and everybody else may change what is not
theirs at any time. A run is good when nobody registers for writing and no call waits for a
pipe that somebody waits for already.

## Main definitions

* `Deed`: What can happen next.

## Theorems

* `pipeStat_withdrawable_iff`: An application can be withdrawn when it registers for
  reading.
-/

namespace MagiC

namespace Pipes

open Memory Runs

abbrev Mem := BitVec 32 → BitVec 8

def pipeWaiting (m : Mem) (p : BitVec 32) : BitVec 32 := getLong m (p + 2)

def pipeWaitunsl (m : Mem) (p : BitVec 32) : BitVec 32 := getLong m (p + 6)

def PIPE_SIZEOF : BitVec 32 := 2058

/-- `upipe_pipe`, `bipipe_crpipe` and `bipipe_clpipe`. -/
def pipeAt (xdata : BitVec 32) : Side → BitVec 32
  | .crpipe => xdata + 8
  | .clpipe => xdata + 8 + PIPE_SIZEOF

/-- There is something to read, or room to write. -/
def ready (m : Mem) (p : BitVec 32) : Rw → Bool
  | .read => getWord m p ≠ 0
  | .write => (getWord m p).toNat < 2048

section

variable (routine : BitVec 32)

/-- An application is entered in a pipe and in its structure, with a parameter. -/
def register (m : Mem) (p app unsel param : BitVec 32) : Mem :=
  setLong (setLong (setLong (setLong m (p + 2) app) (p + 6) unsel) unsel routine) (unsel + 4) param

/-- `us_ende2`: the result is stored if there is a structure. -/
def usEnde2 (m : Mem) (unsel d0 : BitVec 32) : Mem × BitVec 32 :=
  (if unsel = 0 then m else setLong m unsel d0, d0)

/-- `pipe_stat`. The parameter is in `d1`, where a call for writing finds the application. -/
def pipeStat (m : Mem) (p unsel : BitVec 32) (rw : Rw) (d1 : BitVec 32) : Mem × BitVec 32 :=
  let a2 := d1
  let d1 := match rw with
    | .read => p
    | .write => d1
  if ready m p rw then usEnde2 m unsel 1
  else if a2 = 0 then usEnde2 m unsel 0
  else if pipeWaiting m p ≠ 0 then usEnde2 m unsel a2
  else (register routine m p a2 unsel d1, routine)

def upipeStat (m : Mem) (xdata unsel : BitVec 32) (rw : Rw) (apcode : BitVec 32) :
    Mem × BitVec 32 :=
  pipeStat routine m (pipeAt xdata .crpipe) unsel rw apcode

def bipipeStat (m : Mem) (head : Bool) (xdata unsel : BitVec 32) (rw : Rw) (apcode : BitVec 32) :
    Mem × BitVec 32 :=
  pipeStat routine m (pipeAt xdata (bipipePipe head rw)) unsel rw apcode

/-- The `dev_stat` of a device. -/
def devStat (kind : Kind) (m : Mem) (head : Bool) (xdata unsel : BitVec 32) (rw : Rw)
    (apcode : BitVec 32) : Mem × BitVec 32 :=
  match kind with
  | .upipe => upipeStat routine m xdata unsel rw apcode
  | .bipipe => bipipeStat routine m head xdata unsel rw apcode

def pipeUnsel (m : Mem) (unsel : BitVec 32) : Mem :=
  let m := setLong m unsel 0
  setLong m (getLong m (unsel + 4) + 2) 0

/-- `pipe_wakeup`, with the application that `appl_IOcomplete` wakes. -/
def pipeWakeup (m : Mem) (p : BitVec 32) : Mem × Option (BitVec 32) :=
  if pipeWaiting m p = 0 then (m, none)
  else
    let app := pipeWaiting m p
    let m := setLong m (p + 2) 0
    (setLong m (pipeWaitunsl m p) 1, some app)

/-- An application is registered, and not just told that the pipe is ready. -/
def Registers (m : Mem) (p : BitVec 32) (rw : Rw) (app : BitVec 32) : Prop :=
  ready m p rw = false ∧ app ≠ 0 ∧ pipeWaiting m p = 0

instance (m : Mem) (p : BitVec 32) (rw : Rw) (app : BitVec 32) :
    Decidable (Registers m p rw app) :=
  inferInstanceAs (Decidable (_ ∧ _ ∧ _))

theorem pipeStat_registers {m : Mem} {p app unsel : BitVec 32} {rw : Rw}
    (h : Registers m p rw app) :
    pipeStat routine m p unsel rw app =
      (register routine m p app unsel (if rw = .read then p else app), routine) := by
  unfold pipeStat
  rw [h.1, if_neg Bool.false_ne_true, if_neg h.2.1, if_neg (not_not_intro h.2.2)]
  cases rw
  · rfl
  · rfl

theorem pipeStat_result {m : Mem} {p app : BitVec 32} (unsel : BitVec 32) {rw : Rw}
    (h : ¬ Registers m p rw app) :
    ∃ d0, pipeStat routine m p unsel rw app = usEnde2 m unsel d0 := by
  unfold Registers at h
  unfold pipeStat
  by_cases hready : ready m p rw = true
  · exact ⟨1, if_pos hready⟩
  · by_cases happ : app = 0
    · exact ⟨0, (if_neg hready).trans (if_pos happ)⟩
    · by_cases hwait : pipeWaiting m p = 0
      · exact absurd ⟨Bool.eq_false_iff.mpr hready, happ, hwait⟩ h
      · exact ⟨app, (if_neg hready).trans ((if_neg happ).trans (if_pos hwait))⟩

end

/-- An application that waits, and its unselect structure. -/
structure Waiter where
  app : BitVec 32
  unsel : BitVec 32

/-- The memory, and who is registered for a pipe and has not been withdrawn or woken. -/
structure Waiting where
  mem : Mem
  waiter : BitVec 32 → Option Waiter

/-- The pipe of a device that a call is for. -/
def devPipe (kind : Kind) (xdata : BitVec 32) (head : Bool) (rw : Rw) : BitVec 32 :=
  pipeAt xdata (pipeOf kind head rw)

/-- What can happen next: an application asks for the state of a pipe, a call that reads or
writes waits with a structure on its stack, an application gives up, a call that has read or
written or a closing wakes, or memory is changed. -/
inductive Deed where
  | stat (kind : Kind) (xdata : BitVec 32) (head : Bool) (rw : Rw) (unsel app : BitVec 32)
  | wait (kind : Kind) (xdata : BitVec 32) (head : Bool) (rw : Rw) (sp app : BitVec 32)
  | unselect (p : BitVec 32) (w : Waiter)
  | wakeup (p : BitVec 32)
  | other (m : Mem)

theorem devStat_eq (routine : BitVec 32) (kind : Kind) (m : Mem) (head : Bool)
    (xdata unsel : BitVec 32) (rw : Rw) (apcode : BitVec 32) :
    devStat routine kind m head xdata unsel rw apcode =
      pipeStat routine m (devPipe kind xdata head rw) unsel rw apcode := by
  cases kind
  · rfl
  · rfl

section

variable (devs : List (Kind × BitVec 32)) (routine : BitVec 32)

/-- The pipes of all devices. -/
def IsPipe (p : BitVec 32) : Prop :=
  ∃ d ∈ devs, ∃ head rw, p = devPipe d.1 d.2 head rw

/-- No two pipes share memory. -/
def Layout : Prop := ∀ p q, IsPipe devs p → IsPipe devs q → p ≠ q → Apart p 10 q 10

/-- A structure shares no memory with a pipe or with a structure of somebody registered. -/
def Room (s : Waiting) (unsel : BitVec 32) : Prop :=
  ∀ p, IsPipe devs p →
    Apart unsel 8 p 10 ∧ ∀ w, s.waiter p = some w → Apart unsel 8 w.unsel 8

/-- What an action does. -/
def Waiting.next (s : Waiting) : Deed → Waiting
  | .stat kind xdata head rw unsel app =>
    let p := devPipe kind xdata head rw
    ⟨(devStat routine kind s.mem head xdata unsel rw app).1,
      if Registers s.mem p rw app then Function.update s.waiter p (some ⟨app, unsel⟩)
      else s.waiter⟩
  | .wait kind xdata head rw sp app =>
    let p := devPipe kind xdata head rw
    ⟨register routine s.mem p app sp p, Function.update s.waiter p (some ⟨app, sp⟩)⟩
  | .unselect p w => ⟨pipeUnsel s.mem w.unsel, Function.update s.waiter p none⟩
  | .wakeup p => ⟨(pipeWakeup s.mem p).1, Function.update s.waiter p none⟩
  | .other m => ⟨m, s.waiter⟩

/-- What those who call the driver see to. -/
def Waiting.Allowed (s : Waiting) : Deed → Prop
  | .stat kind xdata head rw unsel app =>
    (kind, xdata) ∈ devs ∧ (unsel ≠ 0 ∨ Registers s.mem (devPipe kind xdata head rw) rw app →
      Room devs s unsel)
  | .wait kind xdata _ _ sp app => (kind, xdata) ∈ devs ∧ app ≠ 0 ∧ Room devs s sp
  | .unselect p w => IsPipe devs p ∧ s.waiter p = some w
  | .wakeup p => IsPipe devs p
  | .other m => ∀ p, IsPipe devs p →
    Intact s.mem m (p + 2) 8 ∧ ∀ w, s.waiter p = some w → Intact s.mem m w.unsel 8

/-- Nobody registers for writing, and no call waits for a pipe that somebody waits for. -/
def Waiting.Good (s : Waiting) : Deed → Prop
  | .stat kind xdata head rw _ app =>
    Registers s.mem (devPipe kind xdata head rw) rw app → rw = .read
  | .wait kind xdata head rw _ _ => pipeWaiting s.mem (devPipe kind xdata head rw) = 0
  | _ => True

def goodStep (s : Waiting) (a : Deed) (t : Waiting) : Prop :=
  s.Allowed devs a ∧ s.Good a ∧ t = s.next routine a

def Idle (s : Waiting) : Prop := ∀ p, IsPipe devs p → pipeWaiting s.mem p = 0 ∧ s.waiter p = none

/-- Who is registered can be withdrawn, which changes `pipe_waiting` of the pipe and the
result and nothing else, and is the one to be woken. Where nobody is registered nobody is
woken. -/
structure Withdrawable (s : Waiting) : Prop where
  stored : ∀ p w, IsPipe devs p → s.waiter p = some w → getLong s.mem w.unsel = routine
  unsel : ∀ p w, IsPipe devs p → s.waiter p = some w →
    pipeUnsel s.mem w.unsel = setLong (setLong s.mem w.unsel 0) (p + 2) 0
  wakeup : ∀ p w, IsPipe devs p → s.waiter p = some w →
    pipeWakeup s.mem p = (setLong (setLong s.mem (p + 2) 0) w.unsel 1, some w.app)
  quiet : ∀ p, IsPipe devs p → s.waiter p = none → pipeWakeup s.mem p = (s.mem, none)

/-- What a registered application has entered in the pipe and in its structure. -/
structure Entry (m : Mem) (p : BitVec 32) (w : Waiter) : Prop where
  app : w.app ≠ 0
  waiting : pipeWaiting m p = w.app
  waitunsl : pipeWaitunsl m p = w.unsel
  stored : getLong m w.unsel = routine
  param : getLong m (w.unsel + 4) = p

/-- All entries are in order. -/
structure Entered (s : Waiting) : Prop where
  entry : ∀ p w, IsPipe devs p → s.waiter p = some w → Entry routine s.mem p w
  quiet : ∀ p, IsPipe devs p → s.waiter p = none → pipeWaiting s.mem p = 0
  pipe : ∀ p q w, IsPipe devs p → IsPipe devs q → s.waiter p = some w → Apart w.unsel 8 q 10
  structs : ∀ p q w v, IsPipe devs p → IsPipe devs q → p ≠ q → s.waiter p = some w →
    s.waiter q = some v → Apart w.unsel 8 v.unsel 8

end

section

variable {m m' : Mem} {p q unsel app param b i : BitVec 32} {w : Waiter} {n : Nat}

theorem long_fits : 4 ≤ 2 ^ 32 := by decide

theorem in_pipe (h : (i - (p + 2)).toNat < 8) : (i - p).toNat < 10 := by bv_omega

theorem in_waiting (h : (i - (p + 2)).toNat < 4) : (i - (p + 2)).toNat < 8 := by omega

theorem in_waitunsl (h : (i - (p + 6)).toNat < 4) : (i - (p + 2)).toNat < 8 := by bv_omega

theorem in_routine (h : (i - unsel).toNat < 4) : (i - unsel).toNat < 8 := by omega

theorem in_param (h : (i - (unsel + 4)).toNat < 4) : (i - unsel).toNat < 8 := by bv_omega

theorem apart_waitunsl : Apart (p + 2) 4 (p + 6) 4 := by
  intro i hi
  bv_omega

theorem apart_param : Apart unsel 4 (unsel + 4) 4 := by
  intro i hi
  bv_omega

section

variable {routine : BitVec 32}

theorem Entry.intact (h : Entry routine m p w) (hp : Intact m m' (p + 2) 8)
    (hu : Intact m m' w.unsel 8) : Entry routine m' p w where
  app := h.app
  waiting := (getLong_intact (hp.mono fun _ => in_waiting) long_fits).trans h.waiting
  waitunsl := (getLong_intact (hp.mono fun _ => in_waitunsl) long_fits).trans h.waitunsl
  stored := (getLong_intact (hu.mono fun _ => in_routine) long_fits).trans h.stored
  param := (getLong_intact (hu.mono fun _ => in_param) long_fits).trans h.param

theorem intact_register (hp : Apart b n (p + 2) 8) (hu : Apart b n unsel 8) :
    Intact m (register routine m p app unsel param) b n := by
  have h1 := intact_setLong (m := m) (v := app) (hp.mono (fun _ h => h) fun _ => in_waiting)
  have h2 := intact_setLong (m := setLong m (p + 2) app) (v := unsel)
    (hp.mono (fun _ h => h) fun _ => in_waitunsl)
  have h3 := intact_setLong (m := setLong (setLong m (p + 2) app) (p + 6) unsel) (v := routine)
    (hu.mono (fun _ h => h) fun _ => in_routine)
  exact ((h1.trans h2).trans h3).trans
    (intact_setLong (hu.mono (fun _ h => h) fun _ => in_param))

theorem register_waiting (routine app param : BitVec 32) (m : Mem) (hu : Apart unsel 8 (p + 2) 8) :
    pipeWaiting (register routine m p app unsel param) p = app ∧
    pipeWaitunsl (register routine m p app unsel param) p = unsel ∧
    getLong (register routine m p app unsel param) unsel = routine ∧
    getLong (register routine m p app unsel param) (unsel + 4) = param := by
  unfold pipeWaiting pipeWaitunsl register
  have hstruct : ∀ (m : Mem) (a r u : BitVec 32), Apart a 4 unsel 8 →
      getLong (setLong (setLong m unsel r) (unsel + 4) u) a = getLong m a := by
    intro m a r u h
    rw [getLong_intact (intact_setLong (h.mono (fun _ h => h) fun _ => in_param)) long_fits,
      getLong_intact (intact_setLong (h.mono (fun _ h => h) fun _ => in_routine)) long_fits]
  refine ⟨?_, ?_, ?_, ?_⟩
  · rw [hstruct _ _ _ _ (hu.symm.mono (fun _ => in_waiting) fun _ h => h),
      getLong_intact (intact_setLong apart_waitunsl) long_fits, getLong_setLong long_fits]
  · rw [hstruct _ _ _ _ (hu.symm.mono (fun _ => in_waitunsl) fun _ h => h),
      getLong_setLong long_fits]
  · rw [getLong_intact (intact_setLong apart_param) long_fits, getLong_setLong long_fits]
  · rw [getLong_setLong long_fits]

theorem pipeUnsel_eq (h : getLong m (unsel + 4) = param) :
    pipeUnsel m unsel = setLong (setLong m unsel 0) (param + 2) 0 := by
  unfold pipeUnsel
  simp only
  rw [getLong_intact (intact_setLong apart_param.symm) long_fits, h]

theorem Entry.wakeup (h : Entry routine m p w) :
    pipeWakeup m p = (setLong (setLong m (p + 2) 0) w.unsel 1, some w.app) := by
  have hunsl : pipeWaitunsl (setLong m (p + 2) 0) p = w.unsel :=
    (getLong_intact (intact_setLong apart_waitunsl.symm) long_fits).trans h.waitunsl
  unfold pipeWakeup
  rw [h.waiting, if_neg h.app]
  simp only
  rw [hunsl]

end

section

variable {devs : List (Kind × BitVec 32)} {routine : BitVec 32} {s t : Waiting}

theorem Entered.update {o : Option Waiter} (hs : Entered devs routine s) (hp : IsPipe devs p)
    (hothers : ∀ q, IsPipe devs q → q ≠ p → Intact s.mem m (q + 2) 8 ∧
      ∀ v, s.waiter q = some v → Intact s.mem m v.unsel 8)
    (hnew : ∀ w, o = some w → Entry routine m p w ∧ Room devs s w.unsel)
    (hnone : o = none → pipeWaiting m p = 0) :
    Entered devs routine ⟨m, Function.update s.waiter p o⟩ where
  entry := by
    intro q w hq hw
    by_cases hqp : q = p
    · subst hqp
      exact (hnew w ((Function.update_self q o s.waiter).symm.trans hw)).1
    · have hw' : s.waiter q = some w := (Function.update_of_ne hqp o s.waiter).symm.trans hw
      exact (hs.entry q w hq hw').intact (hothers q hq hqp).1 ((hothers q hq hqp).2 w hw')
  quiet := by
    intro q hq hw
    by_cases hqp : q = p
    · subst hqp
      exact hnone ((Function.update_self q o s.waiter).symm.trans hw)
    · have hw' : s.waiter q = none := (Function.update_of_ne hqp o s.waiter).symm.trans hw
      exact (getLong_intact ((hothers q hq hqp).1.mono fun _ => in_waiting) long_fits).trans
        (hs.quiet q hq hw')
  pipe := by
    intro q r w hq hr hw
    by_cases hqp : q = p
    · subst hqp
      exact ((hnew w ((Function.update_self q o s.waiter).symm.trans hw)).2 r hr).1
    · exact hs.pipe q r w hq hr ((Function.update_of_ne hqp o s.waiter).symm.trans hw)
  structs := by
    intro q r w v hq hr hne hw hv
    by_cases hqp : q = p
    · subst hqp
      have hv' : s.waiter r = some v := (Function.update_of_ne hne.symm o s.waiter).symm.trans hv
      exact ((hnew w ((Function.update_self q o s.waiter).symm.trans hw)).2 r hr).2 v hv'
    · have hw' : s.waiter q = some w := (Function.update_of_ne hqp o s.waiter).symm.trans hw
      by_cases hrp : r = p
      · subst hrp
        exact ((hnew v ((Function.update_self r o s.waiter).symm.trans hv)).2 q hq).2 w hw' |>.symm
      · have hv' : s.waiter r = some v := (Function.update_of_ne hrp o s.waiter).symm.trans hv
        exact hs.structs q r w v hq hr hne hw' hv'

theorem Entered.other (hs : Entered devs routine s)
    (h : ∀ p, IsPipe devs p → Intact s.mem m (p + 2) 8 ∧
      ∀ w, s.waiter p = some w → Intact s.mem m w.unsel 8) :
    Entered devs routine ⟨m, s.waiter⟩ where
  entry p w hp hw := (hs.entry p w hp hw).intact (h p hp).1 ((h p hp).2 w hw)
  quiet p hp hw := (getLong_intact ((h p hp).1.mono fun _ => in_waiting) long_fits).trans
    (hs.quiet p hp hw)
  pipe := hs.pipe
  structs := hs.structs

theorem Entered.register (hl : Layout devs) (hs : Entered devs routine s) (hp : IsPipe devs p)
    (happ : app ≠ 0) (hroom : Room devs s unsel) :
    Entered devs routine ⟨register routine s.mem p app unsel p,
      Function.update s.waiter p (some ⟨app, unsel⟩)⟩ := by
  have hpipe : Apart unsel 8 (p + 2) 8 := (hroom p hp).1.mono (fun _ h => h) fun _ => in_pipe
  obtain ⟨hwait, hunsl, hstored, hparam⟩ :=
    register_waiting routine app p s.mem hpipe
  refine hs.update hp (fun q hq hqp => ⟨?_, fun v hv => ?_⟩) (fun w hw => ?_) fun h => by cases h
  · exact intact_register ((hl q p hq hp hqp).mono (fun _ => in_pipe) fun _ => in_pipe)
      ((hroom q hq).1.symm.mono (fun _ => in_pipe) fun _ h => h)
  · exact intact_register ((hs.pipe q p v hq hp hv).mono (fun _ h => h) fun _ => in_pipe)
      ((hroom q hq).2 v hv).symm
  · cases hw
    exact ⟨⟨happ, hwait, hunsl, hstored, hparam⟩, hroom⟩

theorem Entered.leave {u v : BitVec 32} (hl : Layout devs) (hs : Entered devs routine s)
    (hp : IsPipe devs p) (hw : s.waiter p = some w) :
    ∀ q, IsPipe devs q → q ≠ p →
      Intact s.mem (setLong (setLong s.mem w.unsel u) (p + 2) v) (q + 2) 8 ∧
      ∀ x, s.waiter q = some x →
        Intact s.mem (setLong (setLong s.mem w.unsel u) (p + 2) v) x.unsel 8 := by
  intro q hq hqp
  constructor
  · have hu := (hs.pipe p q w hp hq hw).symm.mono (fun _ => in_pipe) fun _ => in_routine
    have hp' := (hl q p hq hp hqp).mono (fun _ => in_pipe) fun i h => in_pipe (in_waiting h)
    exact (intact_setLong hu).trans (intact_setLong hp')
  · intro x hx
    have hu := (hs.structs q p x w hq hp hqp hx hw).mono (fun _ h => h) fun _ => in_routine
    have hp' := (hs.pipe q p x hq hp hx).mono (fun _ h => h) fun i h => in_pipe (in_waiting h)
    exact (intact_setLong hu).trans (intact_setLong hp')

/-- Good actions keep the entries in order. -/
theorem Entered.next (hl : Layout devs) (hs : Entered devs routine s) {a : Deed}
    (h : goodStep devs routine s a t) : Entered devs routine t := by
  obtain ⟨hallow, hgood, rfl⟩ := h
  cases a with
  | stat kind xdata head rw unsel app =>
    obtain ⟨hdev, hroom⟩ := hallow
    have hp : IsPipe devs (devPipe kind xdata head rw) := ⟨_, hdev, head, rw, rfl⟩
    unfold Waiting.next
    simp only
    rw [devStat_eq]
    by_cases hreg : Registers s.mem (devPipe kind xdata head rw) rw app
    · rw [if_pos hreg, pipeStat_registers routine hreg, if_pos (hgood hreg)]
      exact hs.register hl hp hreg.2.1 (hroom (Or.inr hreg))
    · obtain ⟨d0, hd0⟩ := pipeStat_result routine unsel hreg
      rw [if_neg hreg, hd0]
      -- the result is stored in the structure of the one that asks
      refine hs.other fun q hq => ?_
      unfold usEnde2
      by_cases h0 : unsel = 0
      · rw [if_pos h0]
        exact ⟨Intact.refl 8, fun w _ => Intact.refl 8⟩
      · rw [if_neg h0]
        have hr := hroom (Or.inl h0) q hq
        exact ⟨intact_setLong (hr.1.symm.mono (fun _ => in_pipe) fun _ => in_routine),
          fun w hw => intact_setLong ((hr.2 w hw).symm.mono (fun _ h => h) fun _ => in_routine)⟩
  | wait kind xdata head rw sp app =>
    obtain ⟨hdev, happ, hroom⟩ := hallow
    exact hs.register hl ⟨_, hdev, head, rw, rfl⟩ happ hroom
  | unselect p w =>
    obtain ⟨hp, hw⟩ := hallow
    unfold Waiting.next
    simp only
    rw [pipeUnsel_eq (hs.entry p w hp hw).param]
    exact hs.update hp (hs.leave hl hp hw) (fun v hv => by cases hv) fun _ =>
      getLong_setLong long_fits
  | wakeup p =>
    unfold Waiting.next
    simp only
    rcases hw : s.waiter p with _ | w
    · have hquiet := hs.quiet p hallow hw
      have hsame : (pipeWakeup s.mem p).1 = s.mem := by
        unfold pipeWakeup
        rw [if_pos hquiet]
      have hnone : Function.update s.waiter p none = s.waiter := by
        rw [← hw, Function.update_eq_self]
      rw [hsame, hnone]
      exact hs
    · rw [(hs.entry p w hallow hw).wakeup]
      have hfar := (hs.pipe p p w hallow hallow hw).symm.mono
        (fun i h => in_pipe (in_waiting h)) fun _ => in_routine
      rw [setLong_comm hfar]
      exact hs.update hallow (hs.leave hl hallow hw) (fun v hv => by cases hv) fun _ =>
        getLong_setLong long_fits
  | other m => exact hs.other hallow

theorem Entered.withdrawable (hs : Entered devs routine s) : Withdrawable devs routine s where
  stored p w hp hw := (hs.entry p w hp hw).stored
  unsel p w hp hw := pipeUnsel_eq (hs.entry p w hp hw).param
  wakeup p w hp hw := (hs.entry p w hp hw).wakeup
  quiet p hp hw := if_pos (hs.quiet p hp hw)

theorem entered_run {acts : List Deed} (hl : Layout devs) (hs : Entered devs routine s)
    (hrun : Run (goodStep devs routine) s acts t) : Entered devs routine t :=
  run_preserves _ (Entered devs routine) (fun _ _ _ hs h => hs.next hl h) s t acts hrun hs

theorem Idle.entered (h : Idle devs s) : Entered devs routine s where
  entry p w hp hw := by
    rw [(h p hp).2] at hw
    cases hw
  quiet p hp _ := (h p hp).1
  pipe p q w hp _ hw := by
    rw [(h p hp).2] at hw
    cases hw
  structs p q w v hp _ _ hw _ := by
    rw [(h p hp).2] at hw
    cases hw

end

/-- An application that registers can be withdrawn whatever else happens, and the right ones
are woken, if and only if it registers for reading. -/
theorem pipeStat_withdrawable_iff (devs : List (Kind × BitVec 32)) (routine : BitVec 32)
    (s₀ s : Waiting) (acts : List Deed) (kind : Kind) (xdata : BitVec 32) (head : Bool) (rw : Rw)
    (unsel app : BitVec 32) (hl : Layout devs) (hidle : Idle devs s₀)
    (hrun : Run (goodStep devs routine) s₀ acts s)
    (hallow : s.Allowed devs (.stat kind xdata head rw unsel app))
    (happ : ∀ p, IsPipe devs p → Apart app 6 p 10)
    (hreg : Registers s.mem (devPipe kind xdata head rw) rw app) :
    (∀ as t,
      Run (goodStep devs routine) (s.next routine (.stat kind xdata head rw unsel app)) as t →
      Withdrawable devs routine t) ↔ rw = .read := by
  have hstart : Entered devs routine s₀ := hidle.entered
  have hs := entered_run hl hstart hrun
  constructor
  · intro h
    by_contra hwrite
    have hp : IsPipe devs (devPipe kind xdata head rw) := ⟨_, hallow.1, head, rw, rfl⟩
    have hroom := hallow.2 (Or.inr hreg) _ hp
    have hfar : Apart unsel 8 (devPipe kind xdata head rw + 2) 8 :=
      hroom.1.mono (fun _ h => h) fun _ => in_pipe
    have hnext : s.next routine (.stat kind xdata head rw unsel app) =
        ⟨register routine s.mem (devPipe kind xdata head rw) app unsel app,
          Function.update s.waiter (devPipe kind xdata head rw) (some ⟨app, unsel⟩)⟩ := by
      unfold Waiting.next
      simp only
      rw [devStat_eq, if_pos hreg, pipeStat_registers routine hreg, if_neg hwrite]
    have hunsel := (h [] _ (Run.nil _)).unsel _ ⟨app, unsel⟩ hp (by
      rw [hnext]
      exact Function.update_self _ _ _)
    rw [hnext] at hunsel
    obtain ⟨hwait, _, _, hparam⟩ :=
      register_waiting routine app app s.mem hfar
    simp only at hunsel
    rw [pipeUnsel_eq hparam] at hunsel
    -- the pipe still holds the application, where it should be cleared
    have happ2 : Apart (devPipe kind xdata head rw + 2) 4 (app + 2) 4 :=
      (happ _ hp).symm.mono (fun i h => in_pipe (in_waiting h)) fun i h => by bv_omega
    have hkeep := getLong_intact (intact_setLong (m := setLong (register routine s.mem
      (devPipe kind xdata head rw) app unsel app) unsel 0) (v := 0) happ2) long_fits
    have hunl := hfar.symm.mono (fun _ => in_waiting) fun _ => in_routine
    rw [hunsel, getLong_setLong long_fits, getLong_intact (intact_setLong hunl) long_fits] at hkeep
    exact hreg.2.1 (hwait.symm.trans hkeep.symm)
  · intro hread as t hafter
    have hgood : goodStep devs routine s (.stat kind xdata head rw unsel app)
        (s.next routine (.stat kind xdata head rw unsel app)) := ⟨hallow, fun _ => hread, rfl⟩
    exact (entered_run hl (hs.next hl hgood) hafter).withdrawable

end

theorem isPipe_upipe {xdata p : BitVec 32} (h : IsPipe [(.upipe, xdata)] p) : p = xdata + 8 := by
  obtain ⟨d, hd, head, rw, rfl⟩ := h
  rw [List.mem_singleton] at hd
  subst hd
  rfl

theorem pipeStat_withdrawable_iff_reader :
    Registers (fun _ => 0) (devPipe .upipe 0x1000 false .read) .read 0x4000 ∧
      ∀ as t, Run (goodStep [(.upipe, 0x1000)] 0x500)
        (Waiting.next 0x500 ⟨fun _ => 0, fun _ => none⟩
          (.stat .upipe 0x1000 false .read 0x8000 0x4000)) as t →
        Withdrawable [(.upipe, 0x1000)] 0x500 t := by
  have hreg : Registers (fun _ => 0) (devPipe .upipe 0x1000 false .read) .read 0x4000 := by decide
  refine ⟨hreg, (pipeStat_withdrawable_iff [(.upipe, 0x1000)] 0x500 ⟨fun _ => 0, fun _ => none⟩
    ⟨fun _ => 0, fun _ => none⟩ [] .upipe 0x1000 false .read 0x8000 0x4000 ?_ ?_ (Run.nil _)
    ⟨List.mem_cons_self, fun _ => ?_⟩ ?_ hreg).mpr rfl⟩
  · intro p q hp hq hne
    exact absurd ((isPipe_upipe hp).trans (isPipe_upipe hq).symm) hne
  · intro p hp
    rw [isPipe_upipe hp]
    exact ⟨by decide, rfl⟩
  · intro p hp
    rw [isPipe_upipe hp]
    refine ⟨fun i hi => by bv_omega, fun w hw => by cases hw⟩
  · intro p hp
    rw [isPipe_upipe hp]
    exact fun i hi => by bv_omega

def fullPipe : Mem := setWord (fun _ => 0) 0x1008 2048

/-- A writer waits for room in a full pipe and gives up. Then the next one to read from the
pipe stores into what was its structure. -/
theorem pipeStat_writer :
    (devStat 0x500 .upipe fullPipe false 0x1000 0x8000 .write 0x4000).2 = 0x500 ∧
    getLong (devStat 0x500 .upipe fullPipe false 0x1000 0x8000 .write 0x4000).1 0x8000 = 0x500 ∧
    (pipeUnsel (devStat 0x500 .upipe fullPipe false 0x1000 0x8000 .write 0x4000).1 0x8000 ≠
      setLong (setLong (devStat 0x500 .upipe fullPipe false 0x1000 0x8000 .write 0x4000).1 0x8000 0)
        (0x1008 + 2) 0) ∧
    (pipeWakeup (pipeUnsel (devStat 0x500 .upipe fullPipe false 0x1000 0x8000 .write 0x4000).1
      0x8000) 0x1008).2 = some 0x4000 ∧
    getLong (pipeWakeup (pipeUnsel (devStat 0x500 .upipe fullPipe false 0x1000 0x8000 .write
      0x4000).1 0x8000) 0x1008).1 0x8000 = 1 := by
  refine ⟨by decide, by decide, fun h => ?_, by decide, by decide⟩
  have hwait := congrArg (fun m => pipeWaiting m 0x1008) h
  revert hwait
  decide

end Pipes

end MagiC
