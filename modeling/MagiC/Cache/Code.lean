import Mathlib.Algebra.Group.Int.Defs
import Mathlib.Algebra.Group.Nat.Defs
import MagiC.Lib.Dlist

/-!
# The Sector Cache

Reading and writing sectors through the two buffer lists of the FAT file system,
as far as one task does it.

A buffer holds a sector of a drive, or nothing if its drive number is negative.
`read_sector` looks for the sector in a list and otherwise takes a free buffer or
the last one, which it writes back first if it has been changed. The buffer it
returns goes to the front of its list. `mrw_sectors` transfers sectors without
buffers, and gives up all buffers in their range before.

The links between the buffers are kept apart from what the buffers hold, and the
contents of a sector are a parameter. The BIOS takes a sector number as a word,
or as a longword if the word is -1. Its calls do not fail here. The semaphore of
a buffer is left out.

## Main definitions

* `mrwSectors`: `mrw_sectors`.
-/

namespace MagiC

namespace Cache

/-- The two lists, at `bufl` and `bufl+4`. -/
inductive Bufl where
  | fat
  | data
  deriving DecidableEq, Repr

/-- What a buffer holds: a sector of a drive, the number of a second sector that is
    a copy of it, or 0, and whether it has been changed. -/
structure Xbcb (α : Type) where
  drv : Int
  secno : Nat
  secno2 : Nat
  dirty : Bool
  data : α

/-- The buffers: the first one of each list, the links, the list each one belongs
    to, what they hold, and the sectors on the disks. -/
structure Buffers (α : Type) where
  bufl : Bufl → Nat
  next : Nat → Nat
  prev : Nat → Nat
  first : Nat → Bufl
  xb : Nat → Xbcb α
  disk : Int → Nat → α
  bufs : Nat

section

variable {α : Type}

/-- The sector number as a word, or -1. -/
def recnoOf (secno : Nat) : Nat := if secno / 2 ^ 16 = 0 then secno % 2 ^ 16 else 0xffff

/-- The sector that `Rwabs` means by a word and a longword. -/
def rwabsSector (recno lrecno : Nat) : Nat := if recno = 0xffff then lrecno else recno

def putSector (disk : Int → Nat → α) (drv : Int) (secno : Nat) (data : α) : Int → Nat → α :=
  fun d k => if d = drv ∧ k = secno then data else disk d k

/-- What a buffer holds is written to its sector, and to the copy, whose number is
    a word. -/
def writeBack (disk : Int → Nat → α) (b : Xbcb α) : Int → Nat → α :=
  let disk := putSector disk b.drv (rwabsSector (recnoOf b.secno) b.secno) b.data
  if b.secno2 = 0 then disk
  else putSector disk b.drv (rwabsSector (b.secno2 % 2 ^ 16) b.secno) b.data

/-- `write_sector`: write a buffer back if it has been changed. -/
def writeSector (s : Buffers α) (a : Nat) : Buffers α :=
  let b := s.xb a
  if b.dirty = false ∨ b.drv < 0 then s
  else { s with disk := writeBack s.disk b
                xb := Function.update s.xb a { b with dirty := false } }

/-- What the search for a sector yields: its buffer, or a free buffer, if there is
    one, and the last one. -/
inductive Search where
  | found (a : Nat)
  | fail (free last : Nat)
  deriving DecidableEq

def rsLoop (s : Buffers α) (drv : Int) (secno : Nat) : Nat → Nat → Nat → Nat → Option Search
  | 0, _, _, _ => none
  | fuel + 1, d2, free, last =>
    if d2 = 0 then some (.fail free last)
    else if (s.xb d2).drv < 0 then rsLoop s drv secno fuel (s.next d2) d2 d2
    else if (s.xb d2).drv = drv ∧ (s.xb d2).secno = secno then some (.found d2)
    else rsLoop s drv secno fuel (s.next d2) free d2

/-- `rs_read`: read a sector into a buffer. -/
def rsRead (s : Buffers α) (a : Nat) (drv : Int) (secno secno2 : Nat)
    (toWrite : Bool) : Buffers α :=
  let data := s.disk drv (rwabsSector (recnoOf secno) secno)
  { s with xb := Function.update s.xb a ⟨drv, secno, secno2, toWrite, data⟩ }

/-- The links of the list a buffer belongs to. -/
def linksOf (s : Buffers α) (a : Nat) : Dlist.Links := ⟨s.next, s.prev, s.bufl (s.first a)⟩

/-- `rs_return`: move a buffer to the front and mark it. -/
def rsReturn (s : Buffers α) (a : Nat) (toWrite : Bool) : Buffers α :=
  let ls := Dlist.toFront (linksOf s a) a
  { s with next := ls.next
           prev := ls.prev
           bufl := Function.update s.bufl (s.first a) ls.first
           xb := Function.update s.xb a { s.xb a with dirty := (s.xb a).dirty || toWrite } }

/-- `rs_again`: search the list, and write the last buffer back and search again if
    there is no other way. -/
def rsAgain (drv : Int) (secno secno2 : Nat) (list : Bufl) (toWrite : Bool) :
    Nat → Buffers α → Option (Buffers α × Nat)
  | 0, _ => none
  | again + 1, s =>
    match rsLoop s drv secno (s.bufs + 1) (s.bufl list) 0 0 with
    | none => none
    | some (.found a) => some (rsReturn s a toWrite, a)
    | some (.fail free last) =>
      if free ≠ 0 then some (rsReturn (rsRead s free drv secno secno2 toWrite) free toWrite, free)
      else if (s.xb last).dirty then
        rsAgain drv secno secno2 list toWrite again (writeSector s last)
      else some (rsReturn (rsRead s last drv secno secno2 toWrite) last toWrite, last)

/-- `read_sector`, with the buffer it returns. -/
def readSector (s : Buffers α) (drv : Int) (secno secno2 : Nat) (list : Bufl) (toWrite : Bool) :
    Option (Buffers α × Nat) :=
  rsAgain drv secno secno2 list toWrite (s.bufs + 1) s

/-- `mrw_loop`: give up the buffers in a range of sectors. A changed one is written
    back, and the list has to be searched again. -/
def mrwLoop (drv : Int) (secno fin : Nat) : Nat → Buffers α → Nat → Option (Buffers α × Bool)
  | 0, _, _ => none
  | fuel + 1, s, d2 =>
    if d2 = 0 then some (s, false)
    else if (s.xb d2).drv ≠ drv ∨ (s.xb d2).secno < secno ∨ fin ≤ (s.xb d2).secno then
      mrwLoop drv secno fin fuel s (s.next d2)
    else if (s.xb d2).dirty then some (writeSector s d2, true)
    else mrwLoop drv secno fin fuel
      { s with xb := Function.update s.xb d2 { s.xb d2 with drv := -1 } } (s.next d2)

def mrwAgain (drv : Int) (secno fin : Nat) (list : Bufl) : Nat → Buffers α → Option (Buffers α)
  | 0, _ => none
  | again + 1, s =>
    match mrwLoop drv secno fin (s.bufs + 1) s (s.bufl list) with
    | none => none
    | some (s, false) => some s
    | some (s, true) => mrwAgain drv secno fin list again s

/-- `mrw_sectors`: read a number of sectors, or write those of a buffer. The number
    is given to the BIOS as a word. -/
def mrwSectors (s : Buffers α) (drv : Int) (secno anzahl : Nat) (puffer : Option (Nat → α))
    (list : Bufl) : Option (Buffers α × List α) :=
  let fin := (secno + anzahl) % 2 ^ 32
  match mrwAgain drv secno fin list (s.bufs + 1) s with
  | none => none
  | some s =>
    let start := rwabsSector (recnoOf secno) secno
    let count := (fin - secno) % 2 ^ 16
    match puffer with
    | none => some (s, (List.range count).map fun i => s.disk drv (start + i))
    | some data =>
      some ({ s with disk := fun d k =>
                if d = drv ∧ start ≤ k ∧ k < start + count then data (k - start)
                else s.disk d k }, [])

/-- `sync_nxtbcb`: write back the changed buffers of a drive. -/
def syncLoop (drv : Int) : Nat → Buffers α → Nat → Option (Buffers α)
  | 0, _, _ => none
  | fuel + 1, s, d2 =>
    if d2 = 0 then some s
    else
      let s' := if (s.xb d2).drv = drv ∧ (s.xb d2).dirty = true then writeSector s d2 else s
      syncLoop drv fuel s' (s.next d2)

/-- `dfs_fat_sync`: both lists, the second one first. -/
def dfsFatSync (s : Buffers α) (drv : Int) : Option (Buffers α) :=
  match syncLoop drv (s.bufs + 1) s (s.bufl .data) with
  | none => none
  | some s => syncLoop drv (s.bufs + 1) s (s.bufl .fat)

end

end Cache

end MagiC
