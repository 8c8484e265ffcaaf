import MagiC.Lib.Runs
import MagiC.Lib.Shared

/-!
# The Dispatcher of the AES

`appl_yield`, `event_happened`, `stp_thr`, `cnt_thr`, `app2ready` and
`read_evnts_from_ringbuf` of `aesevt.s`.

The applications are on one of three lists, which hang on `act_appl`,
`notready_list` and `suspend_list` and share the link `ap_next`. The first one
of the ready list is the running one. `ap_status` says on which list an
application is, except that the running one stays where it is until it yields.

`appl_yield` moves the running application and then stays in the kernel until
there is one that can run. What happens in between is `yield`, any number of
`kring` and `kio`, and at last `kswitch`, and interrupts can come at any time.
They only leave a note in `iocpbuf` or append an event to the ring buffer. What
the handler of an event does to applications are calls of `event_happened`.

The walks through the lists carry a fuel argument. A routine that runs dry would
never return.

## Main definitions

* `Sched`: The lists, the applications and the queued events.
-/

namespace MagiC

namespace Sched

open Chains

/-- `act_appl`, `notready_list` and `suspend_list`. -/
inductive Queue where
  | act
  | notready
  | suspend
  deriving DecidableEq

/-- `ap_status`. -/
inductive Status where
  | ready
  | waiting
  | suspended
  | zombie
  | stopped
  deriving DecidableEq

def EV_IO : BitVec 16 := 0x80#16

def EV_RESVD : BitVec 16 := 0x8000#16

def RNGBFLEN : Nat := 32

/-- The links, the applications, the counters of `appl_yield` and the events
    that are not yet read. `inKernel` says that no application is running, and
    `inWait` that an application is inside of `appl_wait`. -/
structure State where
  next : Cell Queue Nat → Nat
  status : Nat → Status
  rbits : Nat → BitVec 16
  hbits : Nat → BitVec 16
  unsuspcnt : Nat
  unSusp : Nat
  iocpbuf : Nat → Bool
  iocpbufCnt : Nat
  ringbuf : List (List (Nat × BitVec 16))
  inKernel : Bool
  inWait : Nat → Bool

/-- The head of the ready list, which is the running application if there is
    one. -/
def State.actAppl (s : State) : Nat := s.next (.head .act)

def apToLastready (fuel : Nat) (s : State) (a : Nat) : Option State :=
  (toLast fuel s.next 0 .act a).map fun next =>
    { s with next := next, status := Function.update s.status a .ready }

def eventHappened (fuel : Nat) (s : State) (a : Nat) (ev : BitVec 16) : Option State :=
  let s := { s with hbits := Function.update s.hbits a (s.hbits a ||| ev) }
  if s.status a = .ready ∨ s.status a = .stopped then some s
  else if s.hbits a &&& s.rbits a = 0 then some s
  else
    match unlink fuel s.next 0 .notready a with
    | none => none
    | some (next, true) => apToLastready fuel { s with next := next } a
    | some (_, false) =>
      if s.status a = .zombie then some s
      else some { s with status := Function.update s.status a .ready }

/-- `stp_ap_unlist`. -/
def stpUnlist (fuel : Nat) (s : State) (q : Queue) (a : Nat) : Option State :=
  (unlink fuel s.next 0 q a).map fun r =>
    { s with next := r.1, status := Function.update s.status a .stopped }

/-- `stp_thr`. The running application stays on its list until it yields. -/
def stpThr (fuel : Nat) (s : State) (a : Nat) : Option State :=
  match s.status a with
  | .ready =>
    if a = s.actAppl then some { s with status := Function.update s.status a .stopped }
    else stpUnlist fuel s .act a
  | .waiting => stpUnlist fuel s .notready a
  | .suspended => stpUnlist fuel s .suspend a
  | .zombie | .stopped => some { s with status := Function.update s.status a .stopped }

def cntThr (fuel : Nat) (s : State) (a : Nat) : Option State :=
  if s.status a ≠ .stopped then some s
  else if s.rbits a = 0 ∨ s.rbits a &&& s.hbits a ≠ 0 then apToLastready fuel s a
  else some { s with
    next := push s.next .notready a
    status := Function.update s.status a .waiting }

/-- `app2ready`: an application that waits gets an event it did not wait for. -/
def app2ready (fuel : Nat) (s : State) (a : Nat) : Option State :=
  match cntThr fuel s a with
  | none => none
  | some s =>
    if s.status a ≠ .waiting then some s
    else
      eventHappened fuel { s with rbits := Function.update s.rbits a (s.rbits a ||| EV_RESVD) } a
        EV_RESVD

/-- Every so often the first suspended application may run again. -/
def unsuspend (fuel : Nat) (s : State) : Option State :=
  if s.unsuspcnt ≠ 0 then some { s with unsuspcnt := s.unsuspcnt - 1 }
  else
    let s := { s with unsuspcnt := s.unSusp }
    let a := s.next (.head .suspend)
    if a = 0 then some s
    else
      apToLastready fuel
        { s with next := Function.update s.next (.head .suspend) (s.next (.elem a)) } a

/-- The running application leaves the head of the ready list and goes where its
    status says. -/
def leave (fuel : Nat) (s : State) : Option State :=
  let a := s.actAppl
  let s := { s with
    next := Function.update s.next (.head .act) (s.next (.elem a))
    inKernel := true }
  match s.status a with
  | .ready => apToLastready fuel s a
  | .waiting =>
    if s.rbits a &&& s.hbits a ≠ 0 then apToLastready fuel s a
    else some { s with next := push s.next .notready a }
  | .suspended => (toLast fuel s.next 0 .suspend a).map fun next => { s with next := next }
  | .zombie | .stopped => some s

/-- `appl_yield`, up to `ad__kernel`. -/
def yield (fuel : Nat) (s : State) : Option State := (unsuspend fuel s).bind (leave fuel)

/-- `appl_suspend`, up to `ad__kernel`. -/
def applSuspend (fuel : Nat) (s : State) : Option State :=
  yield fuel { s with status := Function.update s.status s.actAppl .suspended }

/-- `appl_wait`, up to `ad__kernel`. -/
def applWait (fuel : Nat) (s : State) (evtyp : BitVec 16) : Option State :=
  let a := s.actAppl
  yield fuel { s with
    hbits := Function.update s.hbits a 0
    rbits := Function.update s.rbits a evtyp
    status := Function.update s.status a .waiting
    inWait := Function.update s.inWait a true }

/-- `appl_wait`, once the application runs again. -/
def applWaitRet (s : State) : State :=
  { s with
    rbits := Function.update s.rbits s.actAppl 0
    inWait := Function.update s.inWait s.actAppl false }

/-- The calls of `event_happened` that a handler makes. -/
def handler (fuel : Nat) : List (Nat × BitVec 16) → State → Option State
  | [], s => some s
  | (a, ev) :: es, s => (eventHappened fuel s a ev).bind (handler fuel es)

/-- `refr_loop`: the oldest entry of the ring buffer. -/
def kring (fuel : Nat) (s : State) : Option State :=
  match s.ringbuf with
  | [] => some s
  | e :: es => handler fuel e { s with ringbuf := es }

/-- `refr_loop2`: those for which an input or output is complete. -/
def iocomplete (fuel : Nat) : List Nat → State → Option State
  | [], s => some s
  | a :: as, s =>
    if s.iocpbuf a then
      (eventHappened fuel { s with iocpbuf := Function.update s.iocpbuf a false } a EV_IO).bind
        (iocomplete fuel as)
    else iocomplete fuel as s

/-- `read_evnts_from_ringbuf`, once the ring buffer is empty. -/
def kio (fuel : Nat) (applx : List Nat) (s : State) : Option State :=
  (iocomplete fuel applx s).map fun s => { s with iocpbufCnt := 0 }

/-- The kernel is left with the first ready application, or with the first
    suspended one if there is none. -/
def kswitch (s : State) : State :=
  if s.actAppl ≠ 0 then { s with inKernel := false }
  else
    let a := s.next (.head .suspend)
    let next := Function.update s.next (.head .suspend) (s.next (.elem a))
    { s with
      next := Function.update (Function.update next (.elem a) 0) (.head .act) a
      status := Function.update s.status a .ready
      inKernel := false }

/-- `appl_IOcomplete`, an interrupt. -/
def applIocomplete (s : State) (a : Nat) : State :=
  if s.iocpbuf a then s
  else { s with iocpbuf := Function.update s.iocpbuf a true, iocpbufCnt := s.iocpbufCnt + 1 }

/-- `write_evnt_to_ringbuf`, an interrupt or `check_kb`. -/
def writeEvnt (s : State) (e : List (Nat × BitVec 16)) : State :=
  if RNGBFLEN ≤ s.ringbuf.length then s else { s with ringbuf := s.ringbuf ++ [e] }

end Sched

end MagiC
