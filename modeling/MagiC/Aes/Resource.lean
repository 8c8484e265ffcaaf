import Mathlib.Data.BitVec
import Mathlib.Tactic.Common
import MagiC.Lib.Memory

/-!
# Loading a Resource

A resource file refers to its parts by their distance from its beginning. Once it is in
memory `_rsc_init` goes through its tables and turns every such distance into an address.
The elements of the tables are looked for with `rsrc_gaddr`, which has a table of its own
of the kinds of things that can be asked for.

Nothing is at the address -1, which is how `rsrc_gaddr` says that it does not know a kind.
An access there is a fault, and so is a loop that does not end. Both give no result.

The colour icons of an extended file are set up elsewhere.

## Main definitions

* `relToAbsAdr`, `setAbsAdr`: A distance becomes an address.
-/

namespace MagiC

namespace Aes

namespace Rsc

open Memory

abbrev Byte := BitVec 8

abbrev Word := BitVec 16

abbrev Long := BitVec 32

abbrev Mem := Long → Byte

-- The header of a file.
def rsh_vrsn : Long := 0
def rsh_trindex : Long := 18
def rsh_nobs : Long := 20
def rsh_ntree : Long := 22
def rsh_nted : Long := 24
def rsh_nib : Long := 26
def rsh_rssize : Long := 34

-- The fields of an object.
def ob_type : Long := 6
def ob_spec : Long := 12
def ob_x : Long := 16

-- The fields of a text that can be edited.
def te_ptext : Word := 0
def te_ptmplt : Word := 4
def te_txtlen : Word := 24
def te_tmplen : Word := 26

-- Types of objects.
def G_BOX : Byte := 20
def G_IBOX : Byte := 25
def G_BOXCHAR : Byte := 27
def G_CICON : Byte := 33

/-- The fields of `global` that have to do with the resource. -/
structure Global where
  apPtree : Long
  apPmem : Long
  apLmem : Word

/-- The size of a character and the width of the screen. -/
structure Screen where
  bigWchar : Word
  bigHchar : Word
  scrW : Word

/-- A place in characters and pixels becomes one in pixels. The next one is for the other
    direction. -/
def rsrcObfixInt (sc : Screen) : Mem × Long × Bool → Mem × Long × Bool
  | (m, a0, d0) =>
    let d1 : Word := (m (a0 + 1)).setWidth 16
    let d1 := if d0 ∧ d1 = 80 then sc.scrW else
      d1 * (if d0 then sc.bigWchar else sc.bigHchar)
    (setWord m a0 (d1 + (m a0).signExtend 16), a0 + 2, !d0)

def rsrcObfix (sc : Screen) (m : Mem) (tree : Long) (objnr : Word) : Mem :=
  let x := (m, tree + objnr.signExtend 32 * 24 + ob_x, true)
  (rsrcObfixInt sc (rsrcObfixInt sc (rsrcObfixInt sc (rsrcObfixInt sc x)))).1

/-- How long the elements of the tables are. -/
def structLenTab : List Nat := [0, 24, 28, 34, 14, 4, 0, 0, 4, 4]

/-- What can be asked for: the table, and the field, or -1 if what the field refers to is
    asked for. -/
def rgTab : List (Nat × Int) :=
  [(1, 0), (2, 0), (3, 0), (4, 0), (5, -1), (8, -1), (1, 12), (2, 0), (2, 4), (2, 8), (3, 0),
    (3, 4), (3, 8), (4, 0), (5, 0), (8, 0)]

def rsrcGaddr (g : Global) (m : Mem) (type index : Word) : Long :=
  if type = 0 then getLong m (g.apPtree + (index <<< 2).signExtend 32) else
  match rgTab[(type - 1).toNat]? with
  | none => -1
  | some (typ, off) =>
    let table := (getWord m (g.apPmem + BitVec.ofNat 32 (2 * typ))).setWidth 32
    let a0 := g.apPmem + table + BitVec.ofNat 32 (index.toNat * structLenTab.getD typ 0)
    if off < 0 then getLong m a0 else a0 + BitVec.ofInt 32 off

/-- A distance becomes an address, and it is told whether it was one. -/
def relToAbsAdr (g : Global) (m : Mem) (a1 : Long) : Option (Mem × Bool) :=
  if a1 = -1 then none else
  if getLong m a1 = -1 then some (m, false) else
  some (setLong m a1 (getLong m a1 + g.apPmem), true)

def setAbsAdr (g : Global) (m : Mem) (stype index : Word) : Option (Mem × Bool) :=
  relToAbsAdr g m (rsrcGaddr g m stype index)

def str1 (m : Mem) : Nat → Long → Option Long
  | 0, _ => none
  | n + 1, a0 => if m a0 = 0 then some a0 else str1 m n (a0 + 1)

def strlen (m : Mem) (a0 : Long) : Option Long := (str1 m (2 ^ 32) a0).map (· - a0)

/-- What there is to do for a text: what is asked for, where the pointer is, and where the
    length is kept. -/
def tedinfoTab : List Word := [8, te_ptext, te_txtlen, 9, te_ptmplt, te_tmplen, 10, -1]

/-- The loop over the pointers of a text. Where there is no string the entry for the length
    is not passed over. -/
def ritLoop2 (g : Global) (a3 : Long) (d7 : Word) : List Word → Mem → Option Mem
  | d0 :: d1 :: rest, m => do
    let (m, valid) ← setAbsAdr g m d0 d7
    if d1.msb then return m
    if valid then
      match rest with
      | d1' :: rest => do
        let n ← strlen m (getLong m (a3 + d1.signExtend 32))
        ritLoop2 g a3 d7 rest (setWord m (a3 + d1'.signExtend 32) (n.setWidth 16 + 1))
      | [] => none
    else ritLoop2 g a3 d7 rest m
  | _, _ => none

def ritLoop (g : Global) (m : Mem) (d7 : Word) : Option Mem :=
  ritLoop2 g (rsrcGaddr g m 2 d7) d7 tedinfoTab m

/-- The numbers a loop counts down. The counter has a sign. -/
def countDown (n : Word) : List Word := ((List.range n.toInt.toNat).map (BitVec.ofNat 16)).reverse

/-- The passes over the icons, the images, the free strings and the free images. The first
    three have their number in common. -/
def riLoop (g : Global) : Nat → Word → Long → Mem → Option Mem
  | 0, _, _, m => some m
  | n + 1, d7, a3, m => do
    let m ← (countDown (getWord m a3)).foldlM
      (fun m d6 => (setAbsAdr g m d7 d6).map Prod.fst) m
    riLoop g n (d7 + 1) (if 13 < d7 + 1 then a3 + 2 else a3) m

/-- An object. Colour icons are taken from the table at `d4`. -/
def rsciLoopobj (g : Global) (sc : Screen) (d4 : Long) (m : Mem) (d7 : Word) : Option Mem :=
  let a3 := rsrcGaddr g m 1 d7
  let m := rsrcObfix sc m a3 0
  let d0 : Byte := (getWord m (a3 + ob_type)).setWidth 8
  if d0 = G_BOX ∨ d0 = G_IBOX ∨ d0 = G_BOXCHAR then some m else
  if d0 = G_CICON then
    let a0 := getLong m (a3 + ob_spec)
    let a0 := a0 + (a0.setWidth 16).signExtend 32
    let a0 := a0 + (a0.setWidth 16).signExtend 32
    some (setLong m (a3 + ob_spec) (getLong m (a0 + d4)))
  else (relToAbsAdr g m (a3 + ob_spec)).map Prod.fst

/-- The loop over the extensions. -/
def rsciExloop (g : Global) : Nat → Long → Mem → Option Mem
  | 0, _, _ => none
  | n + 1, a3, m =>
    if getLong m a3 = 0 then some m else do
      let (m, _) ← relToAbsAdr g m a3
      rsciExloop g n (a3 + 4) m

/-- How many colour icons there are, and what is behind their table. -/
def rsciCntci (m : Mem) : Nat → Long → Option (Long × Long)
  | 0, _ => none
  | n + 1, a1 =>
    if (getLong m a1).msb then some (0, a1 + 4) else
    (rsciCntci m n (a1 + 4)).map fun x => (x.1 + 1, x.2)

/-- The extensions of a file, and the table of the colour icons. -/
def rsciEx (initColicons : Mem → Long → Long → Long → Option Mem) (g : Global) (a4 : Long)
    (m : Mem) : Option (Mem × Long) :=
  if getWord m (a4 + rsh_vrsn) ≠ 4 then some (m, -1) else do
    let a3 := a4 + (getWord m (a4 + rsh_rssize)).setWidth 32
    let m ← rsciExloop g (2 ^ 30) (a3 + 4) m
    let d0 := getLong m (a3 + 4)
    if d0.toInt ≤ 0 then return (m, a3)
    let (n, a1) ← rsciCntci m (2 ^ 30) d0
    let m ← initColicons m d0 a1 n
    return (m, d0)

def rsciLooptree (g : Global) (m : Mem) (n : Word) : Option Mem :=
  (List.range n.toInt.toNat).foldlM
    (fun m k => (relToAbsAdr g m (g.apPtree + BitVec.ofNat 32 (4 * k))).map Prod.fst) m

/-- The initialisation of the resource at an address. -/
def rscInit (initColicons : Mem → Long → Long → Long → Option Mem) (sc : Screen) (a4 : Long)
    (m : Mem) : Option (Global × Mem) := do
  let g : Global :=
    { apPtree := (getWord m (a4 + rsh_trindex)).setWidth 32 + a4
      apPmem := a4
      apLmem := getWord m (a4 + rsh_rssize) }
  let m ← rsciLooptree g m (getWord m (a4 + rsh_ntree))
  let (m, d4) ← rsciEx initColicons g a4 m
  let m ← (countDown (getWord m (a4 + rsh_nted))).foldlM (ritLoop g) m
  let m ← riLoop g 6 11 (a4 + rsh_nib) m
  let m ← (countDown (getWord m (a4 + rsh_nobs))).foldlM (rsciLoopobj g sc d4) m
  return (g, m)

end Rsc

end Aes

end MagiC
