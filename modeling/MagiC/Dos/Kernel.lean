import MagiC.Lib.Census
import Mathlib.Data.BitVec
import Mathlib.Data.Fintype.Prod
import Mathlib.Data.List.FinRange

/-!
# The Tables of the DOS Kernel

Processes with their handles and default paths, the file descriptors, the
directory descriptors and the drives, from `magidos.s`, `kernel.inc` and
`basepage.inc`.

Descriptors are known by their address, processes by their slot in `procx`. The
counters of files and of path handles are words and bytes as in the source, so
that they wrap where the source's do. The counter of a directory is a number.

A process is modelled with what the routines on handles and default paths read.
The file system drivers keep their own data.

## Main definitions

* `isdefault`: The search for a path handle.
-/

namespace MagiC

namespace Dos

abbrev N_PROCS : Nat := 256

/-- Handles from here on belong to the program. -/
def MIN_OPEN : Int := 6

/-- The first number that is no handle. -/
def MAX_OPEN : Int := 32

def MIN_FHANDLE : Int := -4

/-- Number of entries in a handle table. -/
abbrev HANDLES : Nat := 36

abbrev NUM_DRIVES : Nat := 32

/-- Number of devices that are always open. -/
abbrev N_DEVS : Nat := 4

/-- Number of path handles, the unused first one included. -/
def N_STDPATHS : Nat := 40

instance : NeZero N_PROCS := ⟨by decide⟩

instance : NeZero HANDLES := ⟨by decide⟩

instance : NeZero NUM_DRIVES := ⟨by decide⟩

instance : NeZero N_DEVS := ⟨by decide⟩

/-- The drive on which the other ones are directories. -/
def DRIVE_U : Nat := 20

theorem DRIVE_U_lt : DRIVE_U < NUM_DRIVES := by decide

def E_CHNG : Int := -14
def EFILNF : Int := -33
def EPTHNF : Int := -34
def ENHNDL : Int := -35
def EACCDN : Int := -36
def EIHNDL : Int := -37
def ENSMEM : Int := -39
def EDRIVE : Int := -46
def ENSAME : Int := -48
def ELOCKED : Int := -58
def ELOOP : Int := -80
def ELINK : Int := -300

/-- The counter of a device that is never closed. -/
def DEVICE : BitVec 16 := 0xFFFF

/-- A slot of `procx`. -/
abbrev Slot := Fin N_PROCS

/-- An entry of a handle table, by its process. -/
abbrev Cell := Slot × Fin HANDLES

/-- An entry of a handle table: a file descriptor, and a word whose lowest bit
says that a new process does not inherit it. -/
structure Fh where
  fd : Option Nat
  flag : BitVec 16

/-- A file descriptor. -/
structure Fd where
  dmd : Option Nat
  refcnt : BitVec 16
  noinherit : Bool
  dev : Nat
  /-- Not yet closed for the last time. -/
  opened : Bool

/-- A directory descriptor. -/
structure Dd where
  dmd : Nat
  refcnt : Int
  /-- Given back to the file system. -/
  freed : Bool

/-- A drive. -/
structure Dmd where
  xfs : Nat
  drive : Fin NUM_DRIVES
  root : Nat

/-- A process. -/
structure Pd where
  /-- The process calls from the MiNT domain. -/
  mint : Bool
  defdrv : Nat
  /-- Path handles: 0 is the root, below is an invalid path. -/
  drvx : Fin NUM_DRIVES → Int
  parent : Option Slot
  /-- The main thread. -/
  app : Option Nat
  /-- Started in parallel, so the parent is not valid. -/
  prg : Bool
  /-- Created by `Pfork`. -/
  fork : Bool
  handle : Fin HANDLES → Fh

/-- The tables. -/
structure Kernel where
  procx : Slot → Option Pd
  fd : Nat → Fd
  dd : Nat → Dd
  dmd : Nat → Dmd
  pathx : Nat → Option Nat
  pathcntx : Nat → BitVec 8
  dmdx : Fin NUM_DRIVES → Option Nat
  dlockx : Fin NUM_DRIVES → Option Slot
  devFds : Fin N_DEVS → Nat
  actAppl : Option Nat
  /-- The table of applications, when the AES is there. -/
  appls : List (Option Nat)
  apPd : Nat → Option Slot
  /-- The calls of `dev_close` so far: the driver and the descriptor. -/
  closes : List (Nat × Nat)

/-- An entry without a file. -/
def Fh.empty : Fh := ⟨none, 0⟩

section

variable (k : Kernel)

/-- What a handle table holds. -/
def entry (c : Cell) : Option Nat :=
  match k.procx c.1 with
  | some pd => (pd.handle c.2).fd
  | none => none

/-- The word beside it. -/
def flagOf (c : Cell) : BitVec 16 :=
  match k.procx c.1 with
  | some pd => (pd.handle c.2).flag
  | none => 0

def onPd (p : Slot) (f : Pd → Pd) : Kernel :=
  { k with procx := Function.update k.procx p ((k.procx p).map f) }

def setEntry (c : Cell) (v : Option Nat) : Kernel :=
  onPd k c.1 fun pd =>
    { pd with handle := Function.update pd.handle c.2 ⟨v, (pd.handle c.2).flag⟩ }

def setFlag (c : Cell) (w : BitVec 16) : Kernel :=
  onPd k c.1 fun pd =>
    { pd with handle := Function.update pd.handle c.2 ⟨(pd.handle c.2).fd, w⟩ }

def onFd (f : Nat) (g : Fd → Fd) : Kernel :=
  { k with fd := Function.update k.fd f (g (k.fd f)) }

def onDd (d : Nat) (g : Dd → Dd) : Kernel :=
  { k with dd := Function.update k.dd d (g (k.dd d)) }

/-- A reference more, for everything but a device. -/
def countFd (f : Nat) : Kernel :=
  if (k.fd f).refcnt = DEVICE then k
  else onFd k f fun x => { x with refcnt := x.refcnt + 1 }

/-- A reference less, for everything but a device, and with the last one the
descriptor is given back. One without references is given back as it is. -/
def dropFd (f : Nat) : Kernel :=
  if (k.fd f).refcnt = DEVICE then k
  else if (k.fd f).refcnt = 0 then onFd k f fun x => { x with opened := false }
  else onFd k f fun x =>
    { x with refcnt := x.refcnt - 1, opened := x.opened && decide (x.refcnt - 1 ≠ 0) }

/-- The file driver is called to close a descriptor. -/
def devClose (f : Nat) : Kernel :=
  { dropFd k f with closes := k.closes ++ [((k.fd f).dev, f)] }

/-- A directory is counted once more. -/
def lockDd (d : Nat) : Kernel :=
  onDd k d fun x => { x with refcnt := x.refcnt + 1 }

/-- The file system answers with a directory, which it has counted. One that
was not in use may be a new one. -/
def grantDd (d m : Nat) : Kernel :=
  onDd k d fun x =>
    { dmd := if x.refcnt = 0 then m else x.dmd, refcnt := x.refcnt + 1, freed := false }

/-- The file system gives a directory back. -/
def freeDd (d : Nat) : Kernel :=
  onDd k d fun x => { x with freed := true }

/-- A directory is counted once less, and with the last reference it is given
back. -/
def unlockDd (d : Nat) : Kernel :=
  let k := onDd k d fun x => { x with refcnt := x.refcnt - 1 }
  if (k.dd d).refcnt = 0 then freeDd k d else k

/-- The path handles that are searched. -/
def pathHandles : List Nat := List.range' 1 (N_STDPATHS - 1)

/-- The path handle of a directory, or an unused one when there is no
directory. -/
def isdefault (d : Option Nat) : Option Nat :=
  pathHandles.find? fun h => if k.pathcntx h = 0 then d.isNone else k.pathx h = d

/-- The path handle of a process for a drive. -/
def drvxOf (p : Slot) (d : Fin NUM_DRIVES) : Int :=
  match k.procx p with
  | some pd => pd.drvx d
  | none => 0

def setDrvx (p : Slot) (d : Fin NUM_DRIVES) (h : Int) : Kernel :=
  onPd k p fun pd => { pd with drvx := Function.update pd.drvx d h }

end

section

variable {k : Kernel} {c : Cell} {f d : Nat}

@[simp] theorem setEntry_fd (v : Option Nat) : (setEntry k c v).fd = k.fd := rfl

@[simp]
theorem onFd_self (g : Fd → Fd) : (onFd k f g).fd f = g (k.fd f) :=
  Function.update_self f _ _

theorem onFd_other {e : Nat} (h : e ≠ f) (g : Fd → Fd) : (onFd k f g).fd e = k.fd e :=
  Function.update_of_ne h _ _

theorem uses_small : Census.uses (entry k) (some f) ≤ 9216 := by
  have h := Census.uses_le (entry k) (some f)
  have hcard : Fintype.card Cell = 9216 := by
    rw [Fintype.card_prod, Fintype.card_fin, Fintype.card_fin]
    rfl
  omega

theorem procx_of_entry (h : entry k c = some f) : ∃ pd, k.procx c.1 = some pd := by
  unfold entry at h
  cases hp : k.procx c.1 with
  | none =>
    rw [hp] at h
    cases h
  | some pd => exact ⟨pd, rfl⟩

theorem entry_setEntry {pd : Pd} (hp : k.procx c.1 = some pd) (v : Option Nat) :
    entry (setEntry k c v) = Function.update (entry k) c v := by
  funext e
  unfold entry setEntry onPd
  by_cases hc : e = c
  · rw [hc, Function.update_self, hp]
    simp
  · rw [Function.update_of_ne hc]
    by_cases he : e.1 = c.1
    · have hne : e.2 ≠ c.2 := fun h => hc (Prod.ext he h)
      simp [he, hp, Function.update_of_ne hne]
    · simp [Function.update_of_ne he]

@[simp]
theorem flagOf_setEntry (v : Option Nat) : flagOf (setEntry k c v) = flagOf k := by
  funext e
  unfold flagOf setEntry onPd
  by_cases he : e.1 = c.1
  · cases hp : k.procx c.1 with
    | none => simp [he, hp]
    | some pd =>
      by_cases hi : e.2 = c.2
      · simp [he, hp, hi]
      · simp [he, hp, Function.update_of_ne hi]
  · simp [Function.update_of_ne he]

/-- The word beside an entry is not the entry. -/
@[simp]
theorem entry_setFlag (w : BitVec 16) : entry (setFlag k c w) = entry k := by
  funext e
  unfold entry setFlag onPd
  by_cases he : e.1 = c.1
  · cases hp : k.procx c.1 with
    | none => simp [he, hp]
    | some pd =>
      by_cases hi : e.2 = c.2
      · simp [he, hp, hi]
      · simp [he, hp, Function.update_of_ne hi]
  · simp [Function.update_of_ne he]

@[simp] theorem entry_countFd : entry (countFd k f) = entry k := by
  unfold countFd
  split <;> rfl

@[simp] theorem entry_devClose : entry (devClose k f) = entry k := by
  unfold devClose dropFd
  split
  · rfl
  · split <;> rfl

@[simp] theorem flagOf_devClose : flagOf (devClose k f) = flagOf k := by
  unfold devClose dropFd
  split
  · rfl
  · split <;> rfl

@[simp] theorem onPd_fd (p : Slot) (g : Pd → Pd) : (onPd k p g).fd = k.fd := rfl

theorem entry_onPd (p : Slot) {g : Pd → Pd} (h : ∀ pd, (g pd).handle = pd.handle) :
    entry (onPd k p g) = entry k := by
  funext e
  unfold entry onPd
  by_cases he : e.1 = p
  · cases hp : k.procx p with
    | none => simp [he, hp]
    | some pd => simp [he, hp, h]
  · simp [Function.update_of_ne he]

/-- A path handle is not in the handle table. -/
@[simp]
theorem entry_setDrvx (p : Slot) (d : Fin NUM_DRIVES) (h : Int) :
    entry (setDrvx k p d h) = entry k :=
  entry_onPd p fun _ => rfl

theorem drvxOf_onPd (p : Slot) {g : Pd → Pd} (h : ∀ pd, (g pd).drvx = pd.drvx) :
    drvxOf (onPd k p g) = drvxOf k := by
  funext q e
  unfold drvxOf onPd
  by_cases hq : q = p
  · cases hp : k.procx p with
    | none => simp [hq, hp]
    | some pd => simp [hq, hp, h]
  · simp [Function.update_of_ne hq]

theorem drvxOf_setDrvx {p : Slot} {pd : Pd} (hp : k.procx p = some pd) (d : Fin NUM_DRIVES)
    (h : Int) (q : Slot) (e : Fin NUM_DRIVES) :
    drvxOf (setDrvx k p d h) q e = if q = p ∧ e = d then h else drvxOf k q e := by
  unfold drvxOf setDrvx onPd
  by_cases hq : q = p
  · rw [hq]
    simp only [Function.update_self, hp, Option.map_some, true_and]
    by_cases he : e = d
    · rw [if_pos he, he, Function.update_self]
    · rw [if_neg he, Function.update_of_ne he]
  · simp only [hq, false_and, if_false, Function.update_of_ne hq]

theorem onPd_procx {q : Slot} {pd : Pd} (hq : k.procx q = some pd) (p : Slot) (g : Pd → Pd) :
    ∃ pd', (onPd k p g).procx q = some pd' := by
  unfold onPd
  by_cases he : q = p
  · rw [← he]
    exact ⟨g pd, by simp [hq]⟩
  · exact ⟨pd, by simp [Function.update_of_ne he, hq]⟩

theorem foldl_keeps {α β : Type} {step : Kernel → α → Kernel} (view : Kernel → β)
    (h : ∀ k a, view (step k a) = view k) (l : List α) (k : Kernel) :
    view (l.foldl step k) = view k := by
  induction l generalizing k with
  | nil => rfl
  | cons a l ih => rw [List.foldl_cons, ih, h]

end

/-- One process, with one file open on the drive in slot 2. -/
def oneFile (i : Fin HANDLES) : Kernel where
  procx := fun p => if p = 0 then some
    { mint := false, defdrv := 2, drvx := fun _ => 0, parent := none, app := none, prg := false,
      fork := false, handle := fun j => ⟨if j = i then some 1 else none, 0⟩ } else none
  fd := fun f => ⟨some 1, if f = 1 then 1 else 0, false, 5, true⟩
  dd := fun _ => ⟨1, 0, false⟩
  dmd := fun _ => ⟨1, 2, 1⟩
  pathx := fun _ => none
  pathcntx := fun _ => 0
  dmdx := fun d => if d = 2 then some 1 else none
  dlockx := fun _ => none
  devFds := fun _ => 0
  actAppl := none
  appls := []
  apPd := fun _ => none
  closes := []

theorem entry_oneFile (i : Fin HANDLES) (c : Cell) :
    entry (oneFile i) c = if c = (0, i) then some 1 else none := by
  unfold entry oneFile
  by_cases hp : c.1 = 0
  · by_cases hi : c.2 = i
    · have hc : c = (0, i) := Prod.ext hp hi
      simp [hc]
    · have hc : c ≠ (0, i) := fun hc => hi (congrArg Prod.snd hc)
      simp [hp, hi, hc]
  · have hc : c ≠ (0, i) := fun hc => hp (congrArg Prod.fst hc)
    simp [hp, hc]

theorem entry_oneFile_self (i : Fin HANDLES) : entry (oneFile i) (0, i) = some 1 := by
  rw [entry_oneFile, if_pos rfl]

theorem entry_oneFile_some {i : Fin HANDLES} {c : Cell} {f : Nat}
    (h : entry (oneFile i) c = some f) : c = (0, i) ∧ f = 1 := by
  rw [entry_oneFile] at h
  by_cases hc : c = (0, i)
  · rw [if_pos hc] at h
    exact ⟨hc, (Option.some.inj h).symm⟩
  · rw [if_neg hc] at h
    cases h

end Dos

end MagiC
