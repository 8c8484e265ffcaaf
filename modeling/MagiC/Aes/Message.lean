import MagiC.Allg.Copy
import Mathlib.Logic.Function.Iterate

/-!
# The Message Buffer of an Application

`rw_ap_buf`, `appl_write` and `appl_read` of `aesevt.s`, and `grects_intersect`
and `grects_union` of `aesmain.s`.

Messages lie one behind the other in `ap_buf`, `ap_len` bytes of them. Whoever
writes a message puts it behind the last one. A message of one of five types is
then compared with the pending ones, which may get it instead: the search goes
from one to the next by the length that each message carries. An application
that finds its buffer empty waits, and the next one that writes a message reads
it for the one that waits.

The memory of the application structure is a function from addresses to bytes.
Addresses are counted from 32 KB in front of `ap_buf`, since offsets are signed
words. Each byte knows whether it came out of a message, which is a record for
the statements.

The search has no bound of its own and carries a fuel argument. Of the event
words only `EV_MSG` is there, and of the attached memory only whether its owner
could be changed.

## Main definitions

* `applWrite`, `applRead`: `appl_write` and `appl_read`.
-/

namespace MagiC

namespace Aes

namespace Msg

open Copy

/-- A byte, and whether it came out of a message. -/
structure Cell where
  byte : BitVec 8
  sent : Bool
  deriving DecidableEq

abbrev Mem := Nat → Cell

def apBuflen : Nat := 0x300

def apBuf : Nat := 2 ^ 15

def msgAt (d : BitVec 16) : Nat := (d + 0x8000).toNat

def wmRedraw : BitVec 16 := 20
def wmArrowed : BitVec 16 := 24
def wmVslid : BitVec 16 := 26
def wmOntop : BitVec 16 := 31

def word (m : Mem) (a : Nat) : BitVec 16 := (m a).byte ++ (m (a + 1)).byte

def wordSent (m : Mem) (a : Nat) : Bool := (m a).sent && (m (a + 1)).sent

def putWord (m : Mem) (a : Nat) (w : BitVec 16) (sent : Bool) : Mem :=
  Function.update (Function.update m a ⟨w.extractLsb' 8 8, sent⟩) (a + 1) ⟨w.extractLsb' 0 8, sent⟩

/-- One axis of `grects_union`: the left end and the width. -/
def unionSpan (x0 w0 x1 w1 : BitVec 16) : BitVec 16 × BitVec 16 :=
  let d0 := if x1.slt x0 then x1 else x0
  let d2 := if (x0 + w0).slt (x1 + w1) then x1 + w1 else x0 + w0
  (d0, d2 - d0)

/-- One axis of `grects_union` in memory. -/
def unionAxis (m : Mem) (a0 a1 : Nat) : Mem :=
  let span := unionSpan (word m a0) (word m (a0 + 4)) (word m a1) (word m (a1 + 4))
  let sent := wordSent m a0 && wordSent m (a0 + 4) && wordSent m a1 && wordSent m (a1 + 4)
  putWord (putWord m a1 span.1 sent) (a1 + 4) span.2 sent

/-- `grects_union`: join the rectangle at `a0` to the one at `a1`. -/
def grectsUnion (m : Mem) (a0 a1 : Nat) : Mem := unionAxis (unionAxis m a0 a1) (a0 + 2) (a1 + 2)

/-- One axis of `grects_intersect`: whether something is left. -/
def meetSpan (x0 w0 x1 w1 : BitVec 16) : Bool :=
  let d0 := if x1.slt x0 then x0 else x1
  let d2 := if (x0 + w0).slt (x1 + w1) then x0 + w0 else x1 + w1
  d0.slt d2

/-- The result of `grects_intersect`. The caller gives it a copy of the second
    rectangle and does not look at what becomes of it. -/
def grectsIntersect (m : Mem) (a0 a1 : Nat) : Bool :=
  meetSpan (word m a0) (word m (a0 + 4)) (word m a1) (word m (a1 + 4)) &&
    meetSpan (word m (a0 + 2)) (word m (a0 + 6)) (word m (a1 + 2)) (word m (a1 + 6))

/-- The part of an application structure that has to do with messages. -/
structure Parm where
  msgLen : BitVec 16
  buf : Mem

/-- The message buffer, the bits `EVB_MSG` of the event words, and the
    parameters of the call that waits. -/
structure Appl where
  apLen : BitVec 16
  mem : Mem
  rbits : Bool
  hbits : Bool
  evparm : Parm

/-- `rwap_l2`: from one message to the next, where a length of -1 does not
    count. -/
def nextMsg (m : Mem) (d6 : BitVec 16) : BitVec 16 :=
  if word m (msgAt d6 + 4) = 0xffff then d6 + 0x10 else d6 + (0x10 + word m (msgAt d6 + 4))

/-- What the search finds: a message to be overwritten, or the redraw messages
    of the same window. -/
inductive Found where
  | overwr (a4 : Nat)
  | redraws (d5 : List Nat)

/-- `scan_loop`, for the message at `a3`. -/
def scanLoop (m : Mem) (apLen : BitVec 16) (a3 : Nat) :
    Nat → BitVec 16 → List Nat → Option Found
  | 0, _, _ => none
  | fuel + 1, d6, d5 =>
    if d6 < apLen then
      if word m (msgAt d6) = word m a3 then
        if word m (msgAt d6) = wmRedraw then
          if word m (a3 + 6) = word m (msgAt d6 + 6) then
            if 2 ≤ d5.length then some (.redraws d5)
            else scanLoop m apLen a3 fuel (nextMsg m d6) (d5 ++ [msgAt d6])
          else scanLoop m apLen a3 fuel (nextMsg m d6) d5
        else some (.overwr (msgAt d6))
      else scanLoop m apLen a3 fuel (nextMsg m d6) d5
    else some (.redraws d5)

/-- `rab_overwr`: move longwords upwards. -/
def moveLongs : Nat → Nat → Nat → Mem → Mem
  | 0, _, _, m => m
  | n + 1, src, dst, m => moveLongs n (src + 4) (dst + 4) (moveBytes m 4 src dst m)

/-- `rwap_weiter`: whether the new message is joined to the only pending one. -/
def joins (nosmart : Bool) (m : Mem) (a3 a4 : Nat) : Bool :=
  nosmart || grectsIntersect m (a4 + 8) (a3 + 8)

/-- The bytes behind the message that is removed, as a longword. -/
def behind (apLen : BitVec 16) (e : Nat) : Nat := (msgAt apLen + 2 ^ 32 - (e + 0x10)) % 2 ^ 32

/-- What `rw_ap_buf` does with what it has found. -/
def rwapFound (nosmart : Bool) (ap : Appl) (msgLen : BitVec 16) : Found → Appl
  | .overwr a4 => { ap with mem := moveLongs 4 (msgAt ap.apLen) a4 ap.mem }
  | .redraws [] => { ap with apLen := ap.apLen + msgLen }
  | .redraws [d] =>
    if joins nosmart ap.mem (msgAt ap.apLen) d then
      { ap with mem := grectsUnion ap.mem (msgAt ap.apLen + 8) (d + 8) }
    else { ap with apLen := ap.apLen + msgLen }
  | .redraws (d :: e :: _) =>
    let mem := grectsUnion (grectsUnion ap.mem (msgAt ap.apLen + 8) (d + 8)) (e + 8) (d + 8)
    { ap with mem := vmemcpy e (e + 0x10) (behind ap.apLen e) mem, apLen := ap.apLen - 0x10 }

def append (ap : Appl) (msgLen : BitVec 16) (msg : Nat → BitVec 8) : Appl :=
  { ap with mem := moveBytes (fun k => ⟨msg k, true⟩) msgLen.toNat 0 (msgAt ap.apLen) ap.mem }

/-- Whether messages of a type are compared with the pending ones. -/
def scans (unique : Bool) (typ : BitVec 16) : Bool :=
  unique || typ = wmOntop || typ = wmRedraw || (wmArrowed ≤ typ && typ ≤ wmVslid)

/-- `rw_ap_buf` for writing. -/
def rwapWrite (fuel : Nat) (nosmart unique : Bool) (ap : Appl) (msgLen : BitVec 16)
    (msg : Nat → BitVec 8) : Option Appl :=
  let ap := append ap msgLen msg
  if scans unique (word ap.mem (msgAt ap.apLen)) then
    (scanLoop ap.mem ap.apLen (msgAt ap.apLen) fuel 0 []).map (rwapFound nosmart ap msgLen)
  else some { ap with apLen := ap.apLen + msgLen }

/-- `rwap_read`: `rw_ap_buf` for reading. -/
def rwapRead (ap : Appl) (p : Parm) : Appl × Parm :=
  let apLen := ap.apLen - p.msgLen
  ({ ap with
      apLen := apLen
      mem := if apLen = 0 then ap.mem else vmemcpy apBuf (msgAt p.msgLen) apLen.toNat ap.mem },
    { p with buf := moveBytes ap.mem p.msgLen.toNat apBuf 0 p.buf })

/-- Memory that goes with a message: its address, and whether the receiver is a
    process and `Mchgown` succeeds. -/
structure Atmem where
  adr : BitVec 32
  chgown : Bool

/-- `buf[6,7]` gets the address of the attached memory. -/
def attach (msg : Nat → BitVec 8) : Option Atmem → Nat → BitVec 8
  | none => msg
  | some m => fun k =>
    if 12 ≤ k ∧ k < 16 then m.adr.extractLsb' (8 * (15 - k)) 8 else msg k

/-- `appl_write` to an existing application: the application, what it has read,
    and the result. -/
def applWrite (fuel : Nat) (nosmart unique : Bool) (ap : Appl) (msgLen : BitVec 16)
    (msg : Nat → BitVec 8) (atmem : Option Atmem) : Option (Appl × Option Parm × Int) :=
  if BitVec.ofNat 16 apBuflen - ap.apLen < msgLen then some (ap, none, 0)
  else if (atmem.map Atmem.chgown).getD true = false then some (ap, none, -1)
  else
    (rwapWrite fuel nosmart unique ap msgLen (attach msg atmem)).map fun ap =>
      if ap.rbits && !ap.hbits then
        let r := rwapRead ap ap.evparm
        ({ r.1 with hbits := true, evparm := r.2 }, some r.2, 1)
      else (ap, none, 1)

/-- `appl_read`, up to `appl_wait` if it has to wait. -/
def applRead (ap : Appl) (p : Parm) : Appl × Option Parm :=
  if ap.apLen = 0 then ({ ap with rbits := true, hbits := false, evparm := p }, none)
  else ((rwapRead ap p).1, some (rwapRead ap p).2)

/-- What happens to the buffer: somebody writes, the application reads, or it
    goes on after waiting. -/
inductive Op where
  | write (nosmart unique : Bool) (msgLen : BitVec 16) (msg : Nat → BitVec 8)
      (atmem : Option Atmem)
  | read (p : Parm)
  | resume

/-- An application calls only when it is running, and runs again when its
    message has come. -/
def Enabled (ap : Appl) : Op → Prop
  | .write .. => True
  | .read _ => ap.rbits = false
  | .resume => ap.rbits = true ∧ ap.hbits = true

/-- One step, and what the application has read in it. -/
def step (fuel : Nat) (ap : Appl) : Op → Option (Appl × Option Parm)
  | .write nosmart unique msgLen msg atmem =>
    (applWrite fuel nosmart unique ap msgLen msg atmem).map (fun r => (r.1, r.2.1))
  | .read p => some (applRead ap p)
  | .resume => some ({ ap with rbits := false }, none)

end Msg

end Aes

end MagiC
