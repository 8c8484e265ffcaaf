import Mathlib.Data.BitVec
import MagiC.Aes.Objects

/-!
# Scrolling Popup Menus

A popup menu with more entries than fit into it shows some of them. The others are taken out
of the child list of the box, and put back when the menu is done with. The first and the last
entry shown have arrows in the place of their texts if there are others before or behind them.

The texts are kept where the entries have them, so an arrow is copied over a text that has
been copied to the popup before. Something copied to a place too small for it is a fault.

## Main definitions

* `Menu`: The objects.
-/

namespace MagiC

namespace Aes

namespace Smn

open Obj

abbrev Byte := BitVec 8

abbrev Word := BitVec 16

-- States and flags of objects.
def SELECTED : Word := 0x0001
def NORMAL : Word := 0x0000
def NONE : Word := 0x0000
def LASTOB : Word := 0x0020

/-- The arrow up. -/
def smnUptext : List Byte := [32, 32, 1]

/-- The arrow down. -/
def smnDntext : List Byte := [32, 32, 2]

/-- The objects. The text of an entry has some room. -/
@[ext]
structure Menu where
  objs : Objs
  obFlags : Nat → Word
  obState : Nat → Word
  obY : Nat → Word
  obHeight : Nat → Word
  text : Nat → List Byte
  room : Nat → Nat

/-- A popup menu being shown. -/
structure Popup where
  dfltIstart : Nat
  items : Int
  currIstart : Nat
  root : Nat
  head : Nat
  tail : Nat
  lastob : Word
  shead : Nat
  shstate : Word
  shtext : List Byte
  stail : Nat
  ststate : Word
  sttext : List Byte

def word (i : Int) : Int := (BitVec.ofInt 16 i).toInt

/-- A link as a number with a sign. -/
def link (n : Nat) : Int := if n = NIL then -1 else n

/-- A loop that counts up. -/
def span (a b : Nat) : List Nat := List.range' a (b - a)

/-- How many entries there are if they are numbered one after the other. -/
def smnTritems (m : Menu) (root : Nat) : Int :=
  link (m.objs.obTail root) - link (m.objs.obHead root) + 1

def smnPunew (m : Menu) (root : Nat) (istart : Int) : Popup :=
  let head := m.objs.obHead root
  let tail := m.objs.obTail root
  let istart := (max (link head) (min istart (link tail))).toNat
  { dfltIstart := istart
    items := smnTritems m root
    currIstart := istart
    root := root
    head := head
    tail := tail
    lastob := m.obFlags tail
    shead := head
    shstate := m.obState head
    shtext := []
    stail := tail
    ststate := m.obState tail
    sttext := [] }

def vstrcpy (room : Nat) (s : List Byte) : Except Fault (List Byte) :=
  if s.length < room then .ok s else .error .outside

def insertUp (p : Popup) (m : Menu) : Except Fault (Popup × Menu) :=
  let p := { p with shstate := m.obState p.shead }
  if p.shead ≠ p.head then do
    let shtext ← vstrcpy 128 (m.text p.shead)
    let up ← vstrcpy (m.room p.shead) smnUptext
    return ({ p with shtext := shtext },
      { m with
        obState := Function.update m.obState p.shead NORMAL
        text := Function.update m.text p.shead up })
  else .ok (p, m)

def insertDn (p : Popup) (m : Menu) : Except Fault (Popup × Menu) :=
  let p := { p with ststate := m.obState p.stail }
  if p.stail ≠ p.tail then do
    let sttext ← vstrcpy 128 (m.text p.stail)
    let dn ← vstrcpy (m.room p.stail) smnDntext
    return ({ p with sttext := sttext },
      { m with
        obState := Function.update m.obState p.stail NORMAL
        obFlags := if p.lastob ≠ (0 : Word) then Function.update m.obFlags p.stail LASTOB
          else m.obFlags
        text := Function.update m.text p.stail dn })
  else .ok (p, m)

/-- The arrows are put in the place of texts. -/
def smnTrudinsert (p : Popup) (m : Menu) : Except Fault (Popup × Menu) := do
  let (p, m) ← insertUp p m
  insertDn p m

/-- The text that was in the place of the arrow up. -/
def deleteUp (p : Popup) (m : Menu) : Except Fault Menu :=
  if p.shead ≠ p.head then do
    let text ← vstrcpy (m.room p.shead) p.shtext
    return { m with
      text := Function.update m.text p.shead text
      obState := Function.update m.obState p.shead p.shstate }
  else .ok m

/-- The text that was in the place of the arrow down. -/
def deleteDn (p : Popup) (m : Menu) : Except Fault Menu :=
  if p.stail ≠ p.tail then do
    let text ← vstrcpy (m.room p.stail) p.sttext
    return { m with
      obFlags := Function.update m.obFlags p.stail NONE
      text := Function.update m.text p.stail text
      obState := Function.update m.obState p.stail p.ststate }
  else .ok m

/-- The texts are put back. -/
def smnTruddelete (p : Popup) (m : Menu) : Except Fault Menu := do
  let m ← deleteUp p m
  deleteDn p m

def unlink (m : Menu) (obj : Nat) : Except Fault Menu := do
  let objs ← objcDelete m.objs obj
  return { m with objs := objs }

def relink (root : Nat) (m : Menu) (obj : Nat) : Except Fault Menu := do
  let objs ← objcAdd m.objs root obj
  return { m with objs := objs }

/-- An entry is taken out of the box, which gets smaller. -/
def shrink (root : Nat) (m : Menu) (obj : Nat) : Except Fault Menu :=
  unlink { m with
    obHeight := Function.update m.obHeight root (m.obHeight root - m.obHeight obj) } obj

def newshead (height : Nat) (p : Popup) : Int :=
  let n := word ((word (p.dfltIstart - p.root + 1)).tdiv height + p.head)
  if p.head ≠ n then
    min ((p.dfltIstart : Int) - 1) (p.items - height + p.head)
  else n

/-- The entries from `a` to `b` are laid out from the top. -/
def layout (a b : Nat) (m : Menu) : Menu :=
  { m with
    obY := fun obj => if a ≤ obj ∧ obj ≤ b then BitVec.ofNat 16 (obj - a) * m.obHeight obj
      else m.obY obj }

/-- The entries from `shead` on are shown. -/
def choose (height : Nat) (p : Popup) (m : Menu) (shead : Nat) : Except Fault (Popup × Menu) := do
  let m ← (span p.head shead).foldlM (shrink p.root) m
  let m ← (span (shead + height) (p.tail + 1)).reverse.foldlM (shrink p.root)
    (layout shead p.tail m)
  let p := { p with shead := shead, stail := min p.tail (shead + height - 1) }
  let (p, m) ← smnTrudinsert p { m with
    obFlags := if p.lastob ≠ (0 : Word) then Function.update m.obFlags p.stail LASTOB
      else m.obFlags }
  return ({ p with currIstart := shead }, m)

/-- The entries that are shown are chosen. -/
def smnTrset (height : Nat) (p : Popup) (m : Menu) : Except Fault (Popup × Menu) :=
  let p := { p with items := smnTritems m p.root }
  if p.items ≤ (height : Int) then .ok (p, m) else
  let n := newshead height p
  if n < 0 then .error .outside else choose height p m n.toNat

/-- The entries that are linked to the box are exchanged. -/
def shift (p : Popup) (m : Menu) (w0c w04 : Nat) : Except Fault Menu :=
  if w0c < p.shead then do
    let m ← (span w0c p.shead).foldlM (relink p.root) m
    (span (w04 + 1) (p.stail + 1)).foldlM unlink m
  else do
    let m ← (span p.shead w0c).foldlM unlink m
    (span (p.stail + 1) (w04 + 1)).foldlM (relink p.root) m

/-- The entries that are shown are cleaned. -/
def clean (p : Popup) (m : Menu) : Menu :=
  { m with
    obState := fun i => if p.shead ≤ i ∧ i ≤ p.stail then m.obState i &&& ~~~SELECTED
      else m.obState i
    obY := fun i => if p.shead ≤ i ∧ i ≤ p.stail then
        BitVec.ofNat 16 (i - p.shead) * m.obHeight p.shead
      else m.obY i
    obFlags := fun i => if i = p.stail ∧ p.lastob ≠ (0 : Word) then LASTOB
      else if p.shead ≤ i ∧ i ≤ p.stail then NONE
      else m.obFlags i }

/-- Other entries are chosen. -/
def smnTrudchange (height : Nat) (p : Popup) (m : Menu) (w0c : Nat) :
    Except Fault (Popup × Menu) := do
  let w04 := w0c + height - 1
  let m ← smnTruddelete p m
  let m ← shift p m w0c w04
  let p := { p with shead := w0c, stail := w04 }
  let (p, m) ← smnTrudinsert p (clean p m)
  return ({ p with currIstart := w0c }, m)

/-- An entry that was shown is taken out of the box. -/
def hide (root : Nat) (m : Menu) (obj : Nat) : Except Fault Menu := do
  let m ← unlink m obj
  return { m with
    obHeight := Function.update m.obHeight root (m.obHeight root - m.obHeight obj) }

def putBack (bigHchar : Word) (p : Popup) (m : Menu) (obj : Nat) : Except Fault Menu := do
  let m ← relink p.root m obj
  return { m with
    obState := Function.update m.obState obj (m.obState obj &&& ~~~SELECTED)
    obHeight := Function.update m.obHeight p.root (m.obHeight p.root + bigHchar)
    obFlags := Function.update m.obFlags obj NONE
    obY := Function.update m.obY obj (BitVec.ofNat 16 (obj - p.head) * m.obHeight p.head) }

/-- All of the entries are shown again. -/
def smnTrreset (bigHchar : Word) (p : Popup) (m : Menu) : Except Fault Menu :=
  if p.items = smnTritems m p.root then
    .ok { m with
      obState := fun i => if p.head ≤ i ∧ i ≤ p.tail ∨ i = p.root then m.obState i &&& ~~~SELECTED
        else m.obState i }
  else do
    let m ← smnTruddelete p m
    let m ← (span p.shead (p.stail + 1)).foldlM (hide p.root) m
    let m ← (span p.head (p.tail + 1)).foldlM (putBack bigHchar p) m
    return if p.lastob ≠ (0 : Word)
      then { m with obFlags := Function.update m.obFlags p.tail LASTOB }
      else m

end Smn

end Aes

end MagiC
