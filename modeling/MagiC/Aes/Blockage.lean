import Mathlib.Algebra.Group.Int.Defs
import Mathlib.Algebra.Group.Nat.Defs
import Mathlib.Logic.Function.Basic

/-!
# Semaphores of the AES

`evnt_sem` and `wind_update` of `aesevt.s`.

A semaphore is a `BLOCKAGE`. It knows its owner and a list of the applications
that wait for it, which hang on `bl_waiting` and on each other's `ap_nxtsem`,
the last one to come in front. The screen lock is a semaphore with a counter.

A call that has to wait is suspended in `appl_wait`, and goes on when one of
the events it waits for has happened. What the call does up to there and what
it does from there on are two steps, and what the other applications do comes
in between. Of `event_happened` this is the part that concerns the event words,
of which only the two events of these calls are there; of the timer list only
that an application that waits for `EV_TIM` may get it.

The loop of `free_semaphore` and the search for a semaphore that is to be
deleted carry a fuel argument.

## Main definitions

* `windUpdate`: `wind_update` with `BEG_UPDATE` or `END_UPDATE`.
-/

namespace MagiC

namespace Aes

/-- The events `EV_TIM` and `EV_SEM`. -/
inductive Ev where
  | tim
  | sem
  deriving DecidableEq

/-- Where an application is: outside of the kernel, or suspended in a call for
    a semaphore, with a timeout, without one, or in `wind_update`. -/
inductive Pc where
  | user
  | evsTim (s : Nat)
  | evsNotim (s : Nat)
  | wu
  deriving DecidableEq

/-- The semaphores and the applications, by address. -/
structure Kernel where
  blCnt : Nat → Nat
  blApp : Nat → Nat
  blPd : Nat → Nat
  blWaiting : Nat → Nat
  blNext : Nat → Nat
  apPd : Nat → Nat
  apNxtsem : Nat → Nat
  apSemaph : Nat → Nat
  apRbits : Nat → Ev → Bool
  apHbits : Nat → Ev → Bool
  pc : Nat → Pc

/-- `event_happened`, as far as `ap_hbits` is concerned. -/
def Kernel.eventHappened (k : Kernel) (a : Nat) (e : Ev) : Kernel :=
  { k with apHbits := Function.update k.apHbits a (Function.update (k.apHbits a) e true) }

/-- `appl_wait`, up to the point where it is suspended. -/
def Kernel.applWait (k : Kernel) (a : Nat) (evtyp : Ev → Bool) (pc : Pc) : Kernel :=
  { k with
    apHbits := Function.update k.apHbits a (fun _ => false)
    apRbits := Function.update k.apRbits a evtyp
    pc := Function.update k.pc a pc }

/-- Whether one of the events an application waits for has happened. -/
def Kernel.woken (k : Kernel) (a : Nat) : Bool :=
  (k.apRbits a .tim && k.apHbits a .tim) || (k.apRbits a .sem && k.apHbits a .sem)

/-- `fsem_loop`: the application that has waited longest, which is the last of
    the list, and the one its link is in, if that is not `bl_waiting`. -/
def fsemLoop (nxtsem : Nat → Nat) : Nat → Option Nat → Nat → Option (Option Nat × Nat)
  | 0, _, _ => none
  | fuel + 1, a2, a1 =>
    if nxtsem a1 = 0 then some (a2, a1) else fsemLoop nxtsem fuel (some a1) (nxtsem a1)

/-- Clear the link that is in an application, or in the semaphore itself. -/
def Kernel.clrLink (k : Kernel) (s : Nat) : Option Nat → Kernel
  | none => { k with blWaiting := Function.update k.blWaiting s 0 }
  | some p => { k with apNxtsem := Function.update k.apNxtsem p 0 }

/-- `fsem_makeready`, with the list already cut. -/
def Kernel.makeready (k : Kernel) (s a1 : Nat) : Kernel :=
  { k with
    blApp := Function.update k.blApp s a1
    blPd := Function.update k.blPd s (k.apPd a1)
    blCnt := Function.update k.blCnt s 1 }.eventHappened a1 .sem

def freeSemaphore (fuel : Nat) (k : Kernel) (s : Nat) : Option Kernel :=
  if k.blWaiting s = 0 then some { k with blApp := Function.update k.blApp s 0 }
  else
    match fsemLoop k.apNxtsem fuel none (k.blWaiting s) with
    | none => none
    | some (a2, a1) => some ((k.clrLink s a2).makeready s a1)

/-- `dsem_loop`: every application of the list goes on and finds the semaphore
    gone. -/
def dsemLoop : Nat → Kernel → Nat → Option Kernel
  | 0, _, _ => none
  | fuel + 1, k, a5 =>
    if a5 = 0 then some k
    else
      let k := k.eventHappened a5 .sem
      dsemLoop fuel { k with apSemaph := Function.update k.apSemaph a5 0 } (k.apNxtsem a5)

def destroySemaphore (fuel : Nat) (k : Kernel) (s : Nat) : Option Kernel :=
  dsemLoop fuel { k with blWaiting := Function.update k.blWaiting s 0 } (k.blWaiting s)

/-- Hang an application in front of the waiting list. -/
def Kernel.einhaengen (k : Kernel) (a s : Nat) : Kernel :=
  { k with
    apNxtsem := Function.update k.apNxtsem a (k.blWaiting s)
    blWaiting := Function.update k.blWaiting s a
    apSemaph := Function.update k.apSemaph a s }

/-- `evs_s1`: an unused semaphore is taken at once. -/
def Kernel.evsS1 (k : Kernel) (a s : Nat) : Kernel :=
  { k with
    blApp := Function.update k.blApp s a
    blPd := if a = 0 then k.blPd else Function.update k.blPd s (k.apPd a) }

/-- `SEM_FREE`. -/
def evsFree (fuel : Nat) (k : Kernel) (a s : Nat) : Option (Kernel × Option Int) :=
  if k.blApp s ≠ a then some (k, some (-1))
  else (freeSemaphore fuel k s).map fun k => (k, some 0)

/-- `SEM_SET`, with a timeout unless `d1` is 0. No result means that the call
    is suspended. -/
def evsSet (k : Kernel) (a s d1 : Nat) : Kernel × Option Int :=
  if k.blApp s = 0 then (k.evsS1 a s, some 0)
  else if k.blApp s = a then (k, some (-1))
  else if d1 = 0 then
    ((k.einhaengen a s).applWait a (fun e => e = .sem) (.evsNotim s), none)
  else ((k.einhaengen a s).applWait a (fun _ => true) (.evsTim s), none)

/-- `SEM_CSET`. -/
def evsCset (k : Kernel) (a s : Nat) : Kernel × Option Int :=
  if k.blApp s = 0 then (k.evsS1 a s, some 0)
  else if k.blApp s = a then (k, some (-1))
  else (k, some 1)

/-- `evd_loop`: the semaphore before `s`, or nothing at the end of the list. -/
def evdLoop (next : Nat → Nat) (s : Nat) : Nat → Nat → Option (Option Nat)
  | 0, _ => none
  | fuel + 1, a1 =>
    if next a1 = 0 then some none
    else if next a1 = s then some (some a1)
    else evdLoop next s fuel (next a1)

/-- `SEM_DEL`. -/
def evsDel (fuel firstSem : Nat) (k : Kernel) (a s : Nat) : Option (Kernel × Option Int) :=
  if k.blApp s ≠ 0 ∧ k.blApp s ≠ a then some (k, some (-1))
  else
    match evdLoop k.blNext s fuel firstSem with
    | none => none
    | some none => some (k, some (-1))
    | some (some a1) =>
      let k := { k with blNext := Function.update k.blNext a1 (k.blNext s) }
      (destroySemaphore fuel k s).map fun k => (k, some 0)

/-- `_beg_update`: the counter is incremented before it is known whose it is,
    and decremented again for everybody but the owner. -/
def begUpdate (k : Kernel) (b a : Nat) : Kernel × Bool :=
  let cnt := (k.blCnt b + 1) % 2 ^ 16
  if k.blApp b = a then ({ k with blCnt := Function.update k.blCnt b cnt }, true)
  else if cnt = 1 then
    ({ k with
      blCnt := Function.update k.blCnt b cnt
      blApp := Function.update k.blApp b a
      blPd := Function.update k.blPd b (k.apPd a) }, true)
  else ({ k with blCnt := Function.update k.blCnt b ((cnt + 2 ^ 16 - 1) % 2 ^ 16) }, false)

/-- `end_update`, where a counter from 2^15 on is a negative one. -/
def endUpdate (fuel : Nat) (k : Kernel) (b : Nat) : Option (Kernel × Option Int) :=
  if k.blCnt b = 0 ∨ 2 ^ 15 ≤ k.blCnt b then some (k, some 0)
  else
    let k := { k with blCnt := Function.update k.blCnt b (k.blCnt b - 1) }
    if k.blCnt b ≠ 0 then some (k, some 1)
    else (freeSemaphore fuel k b).map fun k => (k, some 1)

/-- `wind_update` with `BEG_UPDATE`, or with `BEG_UPDATE|0x100` for check and
    set. -/
def windUpdate (k : Kernel) (b a : Nat) (cas : Bool) : Kernel × Option Int :=
  let r := begUpdate k b a
  if r.2 then (r.1, some 1)
  else if cas then (r.1, some 0)
  else ((r.1.einhaengen a b).applWait a (fun e => e = .sem) .wu, none)

def Kernel.evsTstdel (k : Kernel) (a : Nat) : Int := if k.apSemaph a ≠ 0 then 0 else -2

/-- What a suspended call does once it goes on, with what it returns. -/
def resume (k : Kernel) (a : Nat) : Kernel × Option Int :=
  let k' := { k with
    apRbits := Function.update k.apRbits a (fun _ => false)
    pc := Function.update k.pc a .user }
  match k.pc a with
  | .user => (k, none)
  | .evsTim _ => (k', some (if k.apHbits a .sem then k.evsTstdel a else 1))
  | .evsNotim _ => (k', some (k.evsTstdel a))
  | .wu => (k', some 1)

/-- `handle_tim` for one application whose time is up. -/
def handleTim (k : Kernel) (a : Nat) : Kernel :=
  if k.apRbits a .tim ∧ ¬ k.apHbits a .tim then k.eventHappened a .tim else k

end Aes

end MagiC
