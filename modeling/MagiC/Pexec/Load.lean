import Mathlib.Data.BitVec
import Mathlib.Tactic.Common
import MagiC.Lib.Memory

/-!
# Loading a Program

`pload` reads TEXT and DATA behind the basepage, goes through the relocation
bytes, which it reads into the memory behind the segments, and clears that memory.
The state is the memory and a record of the stretches that were written to by
reading, relocating or clearing. The fields of the basepage are longwords in
memory like everything else.

## Main definitions

* `ploadLoop`, `ploadLoop2`: The relocation bytes in memory, and those of the file.
-/

namespace MagiC

namespace Pexec

open Memory

abbrev Byte := BitVec 8

abbrev Long := BitVec 32

def E_OK : Int := 0
def ENSMEM : Int := -39
def ERANGE : Int := -64
def EPLFMT : Int := -66

def ph_sizeof : Nat := 28

def basepage : Long := 256

-- The fields of the basepage.
def p_lowtpa : Long := 0x00
def p_hitpa : Long := 0x04
def p_tbase : Long := 0x08
def p_tlen : Long := 0x0c
def p_dbase : Long := 0x10
def p_dlen : Long := 0x14
def p_bbase : Long := 0x18
def p_blen : Long := 0x1c
def p_mem : Long := 0x68

def MAGX : Long := 0x4d414758

/-- A program header. -/
structure Ph where
  tlen : Long
  dlen : Long
  blen : Long
  slen : Long
  flags : Long
  reloflag : BitVec 16

/-- The memory, and the stretches that were written to. -/
structure Load where
  mem : Long → Byte
  touched : List (Long × Nat)

def Load.long (m : Load) (a : Long) : Long := getLong m.mem a

/-- A field of the basepage is set. -/
def Load.poke (m : Load) (a v : Long) : Load := { m with mem := setLong m.mem a v }

def Load.read (m : Load) (a : Long) (l : List Byte) : Load :=
  { mem := write m.mem a l, touched := (a, l.length) :: m.touched }

def Load.fixup (m : Load) (a base : Long) : Load :=
  { mem := addLong m.mem a base, touched := (a, 4) :: m.touched }

def Load.clear (m : Load) (a : Long) (n : Nat) : Load :=
  { mem := fill m.mem a n 0, touched := (a, n) :: m.touched }

/-- The number of bytes that are read, which is negative where the number asked for is. -/
def fread (rest : List Byte) (count : Long) : Int := min count.toInt rest.length

theorem fread_le (rest : List Byte) (count : Long) : fread rest count ≤ rest.length :=
    min_le_right _ _

theorem fread_le_toInt (rest : List Byte) (count : Long) : fread rest count ≤ count.toInt :=
  min_le_left _ _

theorem toInt_eq_toNat {x : Long} (h : 0 ≤ x.toInt) : x.toInt = x.toNat := by
  have hcond := BitVec.toInt_eq_toNat_cond x
  split at hcond <;> omega

/-- What is left of a file behind a position, if there is such a position. -/
def fseek (file : List Byte) (pos : Long) : Option (List Byte) :=
  if pos.toInt < 0 ∨ (file.length : Int) < pos.toInt then none else some (file.drop pos.toNat)

/-- How the loop over the relocation bytes in memory ends. -/
inductive LoopEnd where
  | next (d6 : Long)
  | endrelo
  | eplfmt

/-- The loop over `d5` relocation bytes from `a2` on. -/
def ploadLoop (pd a5 : Long) : Nat → Long → Long → Load → LoopEnd × Load
  | 0, _, d6, m => (.next d6, m)
  | d5 + 1, a2, d6, m =>
    let b := m.mem a2
    if b = 0 then
      -- behind the end of the table there may be a limit for the heap
      if 9 ≤ d5 + 1 ∧ m.long (a2 + 1) = MAGX then (.endrelo, m.poke (pd + p_mem) (m.long (a2 + 5)))
      else (.endrelo, m)
    else if b = 1 then ploadLoop pd a5 d5 (a2 + 1) (d6 + 0xfe) m
    else
      -- the address is not compared with the ends of the segments here
      let d6 := d6 + b.setWidth 32
      if d6.getLsbD 0 then (.eplfmt, m)
      else ploadLoop pd a5 d5 (a2 + 1) d6 (m.fixup d6 a5)

/-- The loop over the relocation bytes of the file, of which `free` are read at a time. -/
def ploadLoop2 (pd a5 a3 free : Long) (rest : List Byte) (d6 : Long) (m : Load) : Int × Load :=
  if d6 < a5 ∨ a3 < d6 then (EPLFMT, m)
  else if free = 0 then (EPLFMT, m)
  else
    let n := fread rest free
    if n < 0 then (n, m)
    else
      match ploadLoop pd a5 n.toNat a3 d6 (m.read a3 (rest.take n.toNat)) with
      | (.next d6, m) =>
        if n = free.toInt then ploadLoop2 pd a5 a3 free (rest.drop n.toNat) d6 m else (E_OK, m)
      | (.endrelo, m) => (E_OK, m)
      | (.eplfmt, m) => (EPLFMT, m)
termination_by rest.length
decreasing_by
  have hle := fread_le rest free
  have hne : free.toInt ≠ 0 := fun hz => by
    have hfree : free = 0 := BitVec.eq_of_toInt_eq hz
    contradiction
  rw [List.length_drop]
  omega

/-- The first longword of the relocation bytes. -/
def firstLong (rest : List Byte) : Long := rest[0]! ++ rest[1]! ++ rest[2]! ++ rest[3]!

/-- TEXT and DATA are relocated. -/
def relocate (ph : Ph) (file : List Byte) (pd a5 a3 free : Long) (m : Load) : Int × Load :=
  if ph.reloflag ≠ 0 then (E_OK, m)
  else
    match fseek file (BitVec.ofNat 32 ph_sizeof + ph.slen + (a3 - a5)) with
    | none => (ERANGE, m)
    | some rest =>
      -- the first longword is read to the stack
      if fread rest 4 ≠ 4 then (EPLFMT, m)
      else
        if firstLong rest = 0 then (E_OK, m)
        else
          let d6 := a5 + firstLong rest
          if d6 < a5 ∨ a3 < d6 then (EPLFMT, m)
          else if d6.getLsbD 0 then (EPLFMT, m)
          else ploadLoop2 pd a5 a3 free (rest.drop 4) d6 (m.fixup d6 a5)

/-- What the limit of the heap leaves of the memory. -/
def limitHeap (pd free : Long) (m : Load) : Long × Load :=
  let limit := m.long (pd + p_mem)
  if limit = -1 then (free, m)
  else
    let d0 := m.long (pd + p_hitpa) - m.long (pd + p_lowtpa)
    let d2 := m.long (pd + p_tlen) + m.long (pd + p_dlen) + m.long (pd + p_blen) + basepage
    let d1 := limit - d0 + d2
    let m := m.poke (pd + p_mem) d1
    if 0 ≤ d1.toInt then (free, m)
    else
      let m := m.poke (pd + p_mem) 0
      (free + d1, m.poke (pd + p_hitpa) (m.long (pd + p_hitpa) + d1))

/-- The number of bytes that are cleared. -/
def clearLength (ph : Ph) (free : Long) : Nat :=
  if ph.flags.getLsbD 0 then ph.blen.toNat else free.toNat

/-- The end of the loader: The limit of the heap, and the memory is cleared. -/
def pldEndrelo (ph : Ph) (pd a3 free : Long) (m : Load) : Int × Load :=
  let (free, m) := limitHeap pd free m
  (E_OK, m.clear a3 (clearLength ph free))

/-- The fields of the basepage that describe the segments. -/
def setSegments (ph : Ph) (pd a5 : Long) (m : Load) : Load :=
  ((((((m.poke (pd + p_tbase) a5).poke (pd + p_tlen) ph.tlen).poke (pd + p_dbase)
    (a5 + ph.tlen)).poke (pd + p_dlen) ph.dlen).poke (pd + p_bbase)
    (a5 + ph.tlen + ph.dlen))).poke (pd + p_blen) ph.blen

/-- The length of TEXT and DATA. -/
def Ph.d3 (ph : Ph) : Long := ph.tlen + ph.dlen

/-- The memory behind TEXT and DATA. -/
def freeLength (ph : Ph) (pd : Long) (m : Load) : Long :=
  m.long (pd + p_hitpa) - m.long (pd + p_lowtpa) - basepage - ph.d3

/-- Loads a program. The file is open and its header has been read. -/
def pload (ph : Ph) (file : List Byte) (pd : Long) (m : Load) : Int × Load :=
  let free := freeLength ph pd m
  if free.toInt < ph.blen.toInt then (ENSMEM, m)
  else
    let a5 := pd + basepage
    let a3 := a5 + ph.d3
    let m := setSegments ph pd a5 m
    let rest := file.drop ph_sizeof
    let n := fread rest ph.d3
    if n < 0 then (n, m)
    else
      let m := m.read a5 (rest.take n.toNat)
      if n ≠ ph.d3.toInt then (EPLFMT, m)
      else
        match relocate ph file pd a5 a3 free m with
        | (e, m) => if e < 0 then (e, m) else pldEndrelo ph pd a3 free m

section

variable {pd a5 a3 free d6 : Long} {ph : Ph} {file rest : List Byte} {m : Load}

theorem fread_nonneg (rest : List Byte) (h : 0 ≤ free.toInt) : 0 ≤ fread rest free :=
  le_min h (Int.natCast_nonneg _)

theorem ploadLoop2_lot (hrange : a5 ≤ d6 ∧ d6 ≤ a3) (hfree : 0 < free.toInt) :
    ploadLoop2 pd a5 a3 free rest d6 m =
      match ploadLoop pd a5 (fread rest free).toNat a3 d6
        (m.read a3 (rest.take (fread rest free).toNat)) with
      | (.next d6, m) =>
        if fread rest free = free.toInt
        then ploadLoop2 pd a5 a3 free (rest.drop (fread rest free).toNat) d6 m else (E_OK, m)
      | (.endrelo, m) => (E_OK, m)
      | (.eplfmt, m) => (EPLFMT, m) := by
  have hne : free ≠ 0 := by
    intro hz
    rw [hz] at hfree
    exact absurd hfree (by decide)
  rw [ploadLoop2, if_neg (not_or.mpr ⟨BitVec.not_lt.mpr hrange.1, BitVec.not_lt.mpr hrange.2⟩),
    if_neg hne]
  simp only [if_neg (Int.not_lt.mpr (fread_nonneg rest hfree.le))]

theorem relocate_table (rest : List Byte) (hflag : ph.reloflag = 0)
    (hseek : fseek file (BitVec.ofNat 32 ph_sizeof + ph.slen + (a3 - a5)) = some rest)
    (hread : 4 ≤ rest.length) (hfirst : firstLong rest ≠ 0)
    (hrange : a5 ≤ a5 + firstLong rest ∧ a5 + firstLong rest ≤ a3)
    (heven : (a5 + firstLong rest).getLsbD 0 = false) :
    relocate ph file pd a5 a3 free m =
      ploadLoop2 pd a5 a3 free (rest.drop 4) (a5 + firstLong rest)
        (m.fixup (a5 + firstLong rest) a5) := by
  have hfour : fread rest 4 = 4 := min_eq_left (Int.ofNat_le.mpr hread)
  unfold relocate
  rw [if_neg (not_not.mpr hflag), hseek]
  dsimp only
  rw [if_neg (not_not.mpr hfour), if_neg hfirst,
    if_neg (not_or.mpr ⟨BitVec.not_lt.mpr hrange.1, BitVec.not_lt.mpr hrange.2⟩), heven]
  rfl

theorem pload_text (hmem : ph.blen.toInt ≤ (freeLength ph pd m).toInt) (hd3 : 0 ≤ ph.d3.toInt)
    (hread : fread (file.drop ph_sizeof) ph.d3 = ph.d3.toInt) :
    pload ph file pd m =
      match relocate ph file pd (pd + basepage) (pd + basepage + ph.d3) (freeLength ph pd m)
        ((setSegments ph pd (pd + basepage) m).read (pd + basepage)
          ((file.drop ph_sizeof).take ph.d3.toInt.toNat)) with
      | (e, m') =>
        if e < 0 then (e, m')
        else pldEndrelo ph pd (pd + basepage + ph.d3) (freeLength ph pd m) m' := by
  unfold pload
  dsimp only
  rw [if_neg (Int.not_lt.mpr hmem), hread, if_neg (Int.not_lt.mpr hd3), if_neg (not_not.mpr rfl)]

end

end Pexec

end MagiC
