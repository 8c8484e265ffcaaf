import MagiC.Lib.Outcome
import MagiC.Lib.Sibling
import Mathlib.Logic.Function.Basic

/-!
# Object Trees

The routines that change the tree of the objects of a dialogue or a menu.

An object has the number of the next object and those of its first and last child. The
last child of an object has its parent as the next object. The parent itself is not kept.
It is found by going on to the next object until that is one whose last child is the
object just left.

An access that does not go to an object of the tree is a fault, and so is a loop that does
not end.

## Main definitions

* `parentob`, `predObjc`: The parent and the predecessor of an object.
-/

namespace MagiC

namespace Aes

namespace Obj

/-- What keeps a routine from returning. -/
inductive Fault where
  /-- Memory outside of the objects has been accessed. -/
  | outside
  /-- The routine goes on for ever. -/
  | endless
  deriving DecidableEq

/-- No object, as an unsigned number. -/
def NIL : Nat := 0xffff

/-- The objects of a tree. Their numbers are words with a sign. -/
structure Objs where
  size : Nat
  small : size ≤ 0x8000
  obNext : Nat → Nat
  obHead : Nat → Nat
  obTail : Nat → Nat

/-- A link of an object. -/
def Objs.rd (t : Objs) (f : Nat → Nat) (o : Nat) : Except Fault Nat :=
  if o < t.size then .ok (f o) else .error .outside

def Objs.setNext (t : Objs) (o v : Nat) : Except Fault Objs :=
  if o < t.size then .ok { t with obNext := Function.update t.obNext o v } else .error .outside

def Objs.setHead (t : Objs) (o v : Nat) : Except Fault Objs :=
  if o < t.size then .ok { t with obHead := Function.update t.obHead o v } else .error .outside

def Objs.setTail (t : Objs) (o v : Nat) : Except Fault Objs :=
  if o < t.size then .ok { t with obTail := Function.update t.obTail o v } else .error .outside

/-- The loop of `parentob`. -/
def parobLoop (t : Objs) : Nat → Nat → Except Fault Nat
  | 0, _ => .error .endless
  | n + 1, d1 => do
    let d0 ← t.rd t.obNext d1
    let tail ← t.rd t.obTail d0
    if tail = d1 then return d0
    parobLoop t n d0

def parentob (t : Objs) (startob : Nat) : Except Fault Nat := parobLoop t t.size startob

/-- The loop of `pred_objc`. -/
def prdoLoop (t : Objs) (objnr : Nat) : Nat → Nat → Except Fault Nat
  | 0, _ => .error .endless
  | n + 1, d0 => do
    let d2 ← t.rd t.obNext d0
    if d2 = objnr then return d0
    prdoLoop t objnr n d2

/-- The child in front of an object. -/
def predObjc (t : Objs) (parent objnr : Nat) : Except Fault Nat := do
  let d0 ← t.rd t.obHead parent
  if d0 = objnr then return NIL
  prdoLoop t objnr t.size d0

/-- Makes an object the last child. -/
def objcAdd (t : Objs) (parent child : Nat) : Except Fault Objs := do
  if parent = NIL then return t
  if child = NIL then return t
  let t ← t.setNext child parent
  let d2 ← t.rd t.obTail parent
  let t ← if d2 = NIL then t.setHead parent child else t.setNext d2 child
  t.setTail parent child

/-- Takes an object out of the list it is in. -/
def objcDelete (t : Objs) (objnr : Nat) : Except Fault Objs := do
  if objnr = 0 then return t
  let d4 ← t.rd t.obNext objnr
  let d5 ← parentob t objnr
  let head ← t.rd t.obHead d5
  let tail ← t.rd t.obTail d5
  if head = objnr then
    if tail = objnr then
      let t ← t.setTail d5 NIL
      t.setHead d5 NIL
    else t.setHead d5 d4
  else
    let d1 ← predObjc t d5 objnr
    let t ← t.setNext d1 d4
    if tail = objnr then t.setTail d5 d1 else return t

/-- The loop of `objc_order`. -/
def oborLoop (t : Objs) : Nat → Nat → Except Fault Nat
  | 0, d1 => .ok d1
  | n + 1, d1 => do
    let d1 ← t.rd t.obNext d1
    oborLoop t n d1

/-- `obor_l6`, where an object that has become the last child is entered as such. -/
def oborL6 (t : Objs) (d5 d6 : Nat) : Except Fault Objs := do
  let next ← t.rd t.obNext d6
  if next = d5 then t.setTail d5 d6 else return t

/-- `obor_l5`, where an object is put in behind another one. -/
def oborL5 (t : Objs) (d5 d6 d1 : Nat) : Except Fault Objs := do
  let next ← t.rd t.obNext d1
  let t ← t.setNext d6 next
  let t ← t.setNext d1 d6
  oborL6 t d5 d6

/-- Moves an object to another position in the list it is in. -/
def objcOrder (t : Objs) (objnr : Nat) (pos : Int) : Except Fault Objs := do
  if objnr = 0 then return t
  let d5 ← parentob t objnr
  let t ← objcDelete t objnr
  let d1 ← t.rd t.obHead d5
  if pos = 0 then
    let t ← t.setNext objnr d1
    let t ← t.setHead d5 objnr
    oborL6 t d5 objnr
  else if pos = -1 then
    let d1 ← t.rd t.obTail d5
    oborL5 t d5 objnr d1
  else
    let d1 ← oborLoop t (pos - 1).toNat d1
    oborL5 t d5 objnr d1

end Obj

end Aes

end MagiC
