import Mathlib.Logic.Function.Basic

/-!
# File Descriptors of the DOS File System

The routines of `xfs_vdos.s` that make, link and free file descriptors.

A file or directory has a prototype, which lies on the list of children of the
prototype of its directory, and a clone for every further time it is open. The
clones lie on a list that starts in the prototype, and every descriptor refers
to its prototype through `fd_multi1`. A descriptor is open while it has an
owner. The prototypes of directories stay when nobody has them open, until the
memory is needed.

A routine fails for good where the code halts the system: an element is missing
on the list it is to be taken off, or there is no block of internal memory left.
The loops over lists carry a fuel argument, one more than there are blocks.

What the drives and the device drivers answer is an argument, as are the results
of searching a directory. Of the entries of a directory only the main ones are
there. The names in the descriptors are left out.

## Main definitions

* `dxfsFopen`: `_dxfs_fopen`.
-/

namespace MagiC

namespace Xfs

def EACCDN : Int := -36

/-- `E_CHNG`, the disk has been changed. -/
def ECHNG : Int := -14

def EDRIVE : Int := -46

/-- `ENSAME`, not on the same drive. -/
def ENSAME : Int := -48

def EFILNF : Int := -33

def RPERM : BitVec 16 := 1

def WPERM : BitVec 16 := 2

def RDENY : BitVec 16 := 16

def WDENY : BitVec 16 := 32

/-- A file descriptor: its drive, the reference count, the mode it was opened
    with, the directory bit of `fd_attr`, the owner, the links, the position of
    its main entry in the directory, the block of its long name and the first
    cluster. -/
structure Fd where
  dmd : Nat
  refcnt : Int
  mode : BitVec 16
  subdir : Bool
  owner : Nat
  parent : Nat
  children : Nat
  next : Nat
  multi : Nat
  multi1 : Nat
  dirpos : Nat
  longname : Nat
  stcl : Nat

def Fd.zero : Fd where
  dmd := 0
  refcnt := 0
  mode := 0
  subdir := false
  owner := 0
  parent := 0
  children := 0
  next := 0
  multi := 0
  multi1 := 0
  dirpos := 0
  longname := 0
  stcl := 0

/-- What a block of the internal memory is used for. -/
inductive Use where
  | free
  | fd
  | name
  deriving DecidableEq

/-- A main entry of a directory: whether it is a directory and may not be
    written, and its first cluster. -/
structure Entry where
  subdir : Bool
  readonly : Bool
  stcl : Nat
  deriving DecidableEq

/-- The internal memory, with the list `imbx` of its blocks, the root of each
    drive of `dmdx`, and the entries of the directories by drive, first cluster
    and position. -/
structure State where
  fd : Nat → Fd
  use : Nat → Use
  imbx : List Nat
  dmdx : List Nat
  dirs : Nat → Nat → Nat → Option Entry

/-- Where a routine does not return: the system halts because an element is not
    on its list or there is no block left, or a loop goes on for ever. -/
inductive Fault where
  | notListed
  | noBlock
  | hang
  deriving DecidableEq

namespace State

variable (h : State)

/-- A field of a descriptor is stored. -/
def upd (a : Nat) (f : Fd → Fd) : State :=
  { h with fd := Function.update h.fd a (f (h.fd a)) }

def setUse (a : Nat) (u : Use) : State :=
  { h with use := Function.update h.use a u }

/-- The entries of a directory are stored. -/
def setDir (dmd stcl : Nat) (e : Nat → Option Entry) : State :=
  { h with dirs := Function.update h.dirs dmd (Function.update (h.dirs dmd) stcl e) }

/-- The entries of the directory a descriptor is open for. -/
def entries (a : Nat) : Nat → Option Entry :=
  h.dirs (h.fd a).dmd (h.fd (h.fd a).multi1).stcl

/-- How often a loop over a list may turn. -/
def turns : Nat :=
  h.imbx.length + 1

def intMfree (a : Nat) : State :=
  h.setUse a .free

def freeBlock : Option Nat :=
  h.imbx.find? fun a => h.use a = .free

/-- A block is taken and cleared. -/
def claim (a : Nat) (u : Use) : State :=
  (h.setUse a u).upd a fun _ => Fd.zero

end State

/-- `unlist_loop`: the block whose link leads to `a0`, or nothing if the link
    the list hangs on does. `a1` is the block `d1` was read from. -/
def unlist (h : State) (offs : Fd → Nat) (a0 : Nat) :
    Nat → Option Nat → Nat → Except Fault (Option Nat)
  | 0, _, _ => .error .hang
  | n + 1, a1, d1 =>
    if d1 = 0 then .error .notListed
    else if d1 = a0 then .ok a1
    else unlist h offs a0 n (some d1) (offs (h.fd d1))

/-- A clone is taken off the list of its prototype. -/
def unlistMulti (h : State) (a0 : Nat) : Except Fault State := do
  let a1 := (h.fd a0).multi1
  let p ← unlist h Fd.multi a0 h.turns (some a1) (h.fd a1).multi
  return h.upd (p.getD a1) fun f => { f with multi := (h.fd a0).multi }

/-- A prototype is taken off the list of the children of its parent. -/
def unlistNext (h : State) (a0 : Nat) : Except Fault State := do
  let a1 := (h.fd a0).parent
  let p ← unlist h Fd.next a0 h.turns none (h.fd a1).children
  match p with
  | none => return h.upd a1 fun f => { f with children := (h.fd a0).next }
  | some p => return h.upd p fun f => { f with next := (h.fd a0).next }

/-- `dfcl_amproto`. -/
def freeProto (h : State) (a0 : Nat) : Except Fault State :=
  if (h.fd a0).multi ≠ 0 then
    .ok (h.upd a0 fun f => { f with owner := 0 })
  else do
    let h ← unlistNext h a0
    let d0 := (h.fd a0).longname
    let h := if d0 = 0 then h else h.intMfree d0
    return h.intMfree a0

def freeFd (h : State) (a0 : Nat) : Except Fault State :=
  let a1 := (h.fd a0).multi1
  if a1 = a0 then freeProto h a0
  else do
    let h ← unlistMulti h a0
    if (h.fd a1).subdir ∨ (h.fd a1).owner ≠ 0 ∨ (h.fd a1).refcnt ≠ 0 then
      return h.intMfree a0
    else freeProto (h.intMfree a0) a1

def freeCloneFd (h : State) (a0 : Nat) : Except Fault State := do
  let h ← unlistMulti h a0
  return h.intMfree a0

/-- `_collect_DD`: free the first directory nobody uses, and say which. -/
def collectDd (h : State) : Nat → Nat → Except Fault (State × Nat)
  | 0, _ => .error .hang
  | n + 1, a5 => do
    let f := h.fd a5
    let d0 ←
      if f.children ≠ 0 then collectDd h n f.children
      else if f.subdir ∧ f.parent ≠ 0 ∧ f.refcnt = 0 ∧ f.owner = 0 ∧ f.multi = 0 then do
        let h ← freeFd h a5
        pure (h, a5)
      else pure (h, 0)
    if d0.2 ≠ 0 then return d0
    else if (d0.1.fd a5).next = 0 then return d0
    else collectDd d0.1 n (d0.1.fd a5).next

def dxfsGarbcoll (h : State) (root : Nat) : Except Fault (State × Nat) :=
  if root = 0 then .ok (h, 0) else collectDd h h.turns root

/-- `collect_IMB`. The loop ends behind the first drive, since it goes on only
    while the address is at the end of the table or behind it. -/
def collectImb (h : State) : Except Fault (State × Nat) :=
  dxfsGarbcoll h (h.dmdx.headD 0)

def intMalloc (h : State) (u : Use) : Except Fault (State × Nat) :=
  match h.freeBlock with
  | some a => .ok (h.claim a u, a)
  | none => do
    let (h, d0) ← collectImb h
    match if d0 = 0 then none else h.freeBlock with
    | some a => .ok (h.claim a u, a)
    | none => .error .noBlock

/-- The test of `_opf_tst`: an open descriptor denies what is wanted. -/
def refuses (fdMode d0 : BitVec 16) : Bool :=
  !fdMode.getLsbD 6 &&
    ((fdMode.setWidth 8).rotateRight 4 &&& d0.setWidth 8 &&& 3#8) != 0#8

/-- `_opf_loop`: the prototype of the last descriptor from `a0` on, or nothing if one of
    them refuses. -/
def opfLoop (h : State) (d0 : BitVec 16) : Nat → Nat → Except Fault (Option Nat)
  | 0, _ => .error .hang
  | n + 1, a0 =>
    if refuses (h.fd a0).mode d0 then .ok none
    else if (h.fd a0).multi = 0 then .ok (some (h.fd a0).multi1)
    else opfLoop h d0 n (h.fd a0).multi

/-- `opd_a0`: the descriptor is opened, and freed again if the driver answers
    with an error. -/
def opdA0 (h : State) (pd a0 : Nat) (d0 : BitVec 16) (opened : Int) :
    Except Fault (State × Except Int Nat) :=
  let h := h.upd a0 fun f => { f with mode := d0, owner := pd }
  if opened < 0 then do
    let h ← freeFd h a0
    return (h, .error opened)
  else .ok (h, .ok a0)

/-- `reopen_FD`: open the file of the prototype `a0` for the process `pd`. -/
def reopenFd (h : State) (pd a0 : Nat) (d0 : BitVec 16) (opened : Int) :
    Except Fault (State × Except Int Nat) :=
  if (h.fd a0).owner = 0 ∧ (h.fd a0).multi = 0 then opdA0 h pd a0 d0 opened
  else do
    let first := if (h.fd a0).owner ≠ 0 then a0 else (h.fd a0).multi
    match ← opfLoop h d0 h.turns first with
    | none => return (h, .error EACCDN)
    | some a1 =>
      if (h.fd a1).owner = 0 then opdA0 h pd a1 d0 opened
      else do
        -- the prototype is in use
        let (h, a) ← intMalloc h .fd
        let h := h.upd a fun f =>
          { f with multi1 := a1, multi := (h.fd a1).multi, dmd := (h.fd a1).dmd }
        let h := h.upd a1 fun f => { f with multi := a }
        opdA0 h pd a d0 opened

/-- `close_DD`, where `d0` is the answer of the driver, 0 if there was nothing
    to write. -/
def closeDd (h : State) (a0 : Nat) (d0 : Int) : Except Fault (State × Int) :=
  if d0 = ECHNG ∨ d0 = EDRIVE then .ok (h, d0)
  else if (h.fd a0).multi1 = a0 then .ok (h.upd a0 fun f => { f with owner := 0 }, d0)
  else do
    let h ← freeCloneFd h a0
    return (h, d0)

/-- `fio_loop` and `gDD_childloop`: the descriptor with a position, on the list
    of children from `a0` on. -/
def childAt (h : State) (d0 : Nat) : Nat → Nat → Except Fault (Option Nat)
  | 0, _ => .error .hang
  | n + 1, a0 =>
    if a0 = 0 then .ok none
    else if (h.fd a0).dirpos = d0 then .ok (some a0)
    else childAt h d0 n (h.fd a0).next

def fileIsOpen (h : State) (a0 d0 : Nat) : Except Fault (Option Nat) :=
  childAt h d0 h.turns (h.fd (h.fd a0).multi1).children

/-- The block of a long name is allocated while the reference count protects
    the descriptor. -/
def nameBlock (h : State) (a0 : Nat) : Except Fault State := do
  let h := h.upd a0 fun f => { f with refcnt := f.refcnt + 1 }
  let (h, d0) ← intMalloc h .name
  return h.upd a0 fun f => { f with refcnt := f.refcnt - 1, longname := d0 }

/-- `DIR2protoFD`: a prototype for the entry `e` at the position `d5` of the
    directory `a4`, where `made` is the answer of `dfs_dir2FD`. -/
def dir2protoFd (h : State) (a4 d5 : Nat) (e : Entry) (long : Bool) (made : Int) :
    Except Fault (State × Except Int Nat) := do
  let (h, a3) ← intMalloc h .fd
  let a0 := (h.fd a4).multi1
  if made < 0 then return (h.intMfree a3, .error made)
  else
    let h := h.upd a3 fun f =>
      { f with dirpos := d5, parent := a0, dmd := (h.fd a0).dmd, subdir := e.subdir,
               stcl := e.stcl, next := (h.fd a0).children, multi1 := a3 }
    let h := h.upd a0 fun f => { f with children := a3 }
    if e.subdir ∧ long then do
      let h ← nameBlock h a3
      return (h, .ok a3)
    else return (h, .ok a3)

def getDd (h : State) (a0 d0 : Nat) (e : Entry) (long : Bool) (made : Int) :
    Except Fault (State × Except Int Nat) := do
  match ← fileIsOpen h a0 d0 with
  | some a => return (h, .ok a)
  | none => dir2protoFd h a0 d0 e long made

/-- What `fflush` meets in the directory: the answers when it is opened, written
    and closed. -/
structure FlushIo where
  opened : Int
  wrote : Int
  closed : Int

/-- `fflush`. There is nothing to do if the file has not been changed. Opening the
    directory is tried once; between two tries others run. -/
def fflush (h : State) (pd a0 : Nat) (changed : Option FlushIo) : Except Fault (State × Int) :=
  let a5 := (h.fd a0).multi1
  match changed with
  | none => .ok (h, 0)
  | some io =>
    if (h.fd a5).parent = 0 then .ok (h, 0)
    else do
      let (h, r) ← reopenFd h pd (h.fd a5).parent RPERM io.opened
      match r with
      | .error e => return (h, e)
      | .ok a4 =>
        if io.wrote = ECHNG ∨ io.wrote = EDRIVE then return (h, io.wrote)
        else do
          let (h, _) ← closeDd h a4 io.closed
          return (h, io.wrote)

/-- `dosdev_close`, where `closed` is the answer of the driver. -/
def dosdevClose (h : State) (pd a5 : Nat) (changed : Option FlushIo) (closed : Int) :
    Except Fault (State × Int) :=
  if (h.fd a5).refcnt = 0 then do
    let h ← freeFd h a5
    return (h, 0)
  else do
    let (h, d7) ← fflush h pd a5 changed
    let d7 := if closed < 0 then closed else d7
    if (h.fd a5).refcnt < 0 then return (h, d7)
    else
      let h := h.upd a5 fun f => { f with refcnt := f.refcnt - 1 }
      if (h.fd a5).refcnt ≠ 0 then return (h, d7)
      else do
        let h ← freeFd h a5
        return (h, d7)

/-- What `_dxfs_fopen` meets: the answers when the directory is opened and closed,
    when the descriptor is filled in and when the file is opened, and the result of
    finding or creating the entry, with its position. -/
structure FopenIo where
  openedDir : Int
  entry : Except Int (Nat × Entry)
  long : Bool
  made : Int
  opened : Int
  closedDir : Int

/-- `fop_open`: open the file with the entry `e` at the position `d5` of `a4`. -/
def fopOpen (h : State) (pd a4 d5 : Nat) (e : Entry) (d7 : BitVec 16) (io : FopenIo) :
    Except Fault (State × Except Int Nat) := do
  match ← fileIsOpen h a4 d5 with
  | some a =>
    let (h, r) ← reopenFd h pd a d7 io.opened
    match r with
    | .error c => return (h, .error c)
    | .ok a3 => return (h.upd a3 fun f => { f with refcnt := 1 }, .ok a3)
  | none =>
    let (h, r) ← dir2protoFd h a4 d5 e io.long io.made
    match r with
    | .error c => return (h, .error c)
    | .ok a3 =>
      let h := h.upd a3 fun f => { f with owner := pd, mode := d7 }
      if io.opened ≠ 0 then do
        let h ← freeFd h a3
        return (h, .error io.opened)
      else return (h.upd a3 fun f => { f with refcnt := 1 }, .ok a3)

/-- A call has failed because the disk is not there any more. -/
def diskGone (r : Except Int Nat) : Bool :=
  match r with
  | .error c => c = ECHNG ∨ c = EDRIVE
  | .ok _ => false

/-- `_dxfs_fopen` without `Dcntl`: open the directory `d` with the mode `d2`, then a file
    of it with the mode `d7`. -/
def dxfsFopen (h : State) (pd d : Nat) (d2 d7 : BitVec 16) (io : FopenIo) :
    Except Fault (State × Except Int Nat) := do
  let (h, r) ← reopenFd h pd d d2 io.openedDir
  match r with
  | .error c => return (h, .error c)
  | .ok a4 =>
    let (h, r) ←
      match io.entry with
      | .error c => pure (h, .error c)
      | .ok (d5, e) =>
        -- the entry exists, or has just been created
        let h := h.setDir (h.fd a4).dmd (h.fd (h.fd a4).multi1).stcl
          (Function.update (h.entries a4) d5 (some e))
        fopOpen h pd a4 d5 e d7 io
    if diskGone r then return (h, r)
    else do
      let (h, d0) ← closeDd h a4 io.closedDir
      if d0 = 0 then return (h, r)
      else if d0 = ECHNG ∨ d0 = EDRIVE then return (h, .error d0)
      else match r with
        | .error c => return (h, .error c)
        | .ok a3 => do
          let h ← freeFd h a3
          return (h, .error d0)

/-- What `dxfs_frename` meets, in the order of the calls: the directories are opened, the name is
    tested, the old name and the new one are searched for, the new one is written, `..` is
    corrected, the old one is deleted, and the directories are closed. -/
structure FrenameIo where
  openedOld : Int
  openedNew : Int
  closedEarly : Int
  nameOk : Bool
  old : Except Int (Nat × Nat)
  mint : Bool
  rewind : Int
  new : Except Int Nat
  place : Except Int (Nat × Nat)
  long : Bool
  seek : Int
  wrote : Int
  made : Int
  openedSub : Int
  dots : Int
  closedSub : Int
  deleted : Int
  closedOld : Int
  closedNew : Int

/-- `fren_testparloop`: whether one of the directories from `a0` upwards is the entry at
    `d3` of `a4`. -/
def testParLoop (h : State) (a4 d3 : Nat) : Nat → Nat → Except Fault Bool
  | 0, _ => .error .hang
  | n + 1, a0 =>
    let d0 := (h.fd a0).parent
    if d0 = 0 then .ok false
    else if a4 = d0 ∧ (h.fd a0).dirpos = d3 then .ok true
    else testParLoop h a4 d3 n d0

/-- A name is written over the entries from `first` to `main`. -/
def writeRun (e : Nat → Option Entry) (first main : Nat) (new : Entry) (p : Nat) :
    Option Entry :=
  if p = main then some new else if first ≤ p ∧ p < main then none else e p

/-- The entries from `first` to `last` are deleted. -/
def eraseRun (e : Nat → Option Entry) (first last p : Nat) : Option Entry :=
  if first ≤ p ∧ p ≤ last then none else e p

/-- `fren_del`: the entries of the old name, from `d1` to `d3`, that the new one from `d0`
    to `d5` has not overwritten. -/
def toDelete (same : Bool) (d1 d3 d0 d5 : Nat) : Option (Nat × Nat) :=
  if !same ∨ d5 < d1 ∨ d3 < d0 then some (d1, d3)
  else if d1 < d0 then if d0 - 32 < d1 then none else some (d1, d0 - 32)
  else if d3 < d5 + 32 then none
  else some (d5 + 32, d3)

/-- The descriptor of the renamed file goes to its new directory. -/
def reparent (h : State) (a0 a5 d5 : Nat) (long : Bool) : Except Fault State := do
  let h ← unlistNext h a0
  let a1 := (h.fd a5).multi1
  let h := h.upd a0 fun f => { f with next := (h.fd a1).children }
  let h := h.upd a1 fun f => { f with children := a0 }
  let h := h.upd a0 fun f => { f with dirpos := d5, parent := a5 }
  if !(h.fd a0).subdir then return h
  else if long then
    if (h.fd a0).longname ≠ 0 then return h else nameBlock h a0
  else
    let d0 := (h.fd a0).longname
    if d0 = 0 then return h
    else return (h.upd a0 fun f => { f with longname := 0 }).intMfree d0

/-- The `..` of a directory that has moved is corrected. The answer is a code to return
    with at once, if there is one. -/
def correctDots (h : State) (pd a5 d5 : Nat) (e : Entry) (io : FrenameIo) :
    Except Fault (State × Option Int) := do
  let (h, r) ← getDd h a5 d5 e io.long io.made
  let (h, r) ←
    match r with
    | .error c => pure (h, .error c)
    | .ok a => reopenFd h pd a (RPERM ||| WPERM ||| WDENY) io.openedSub
  match r with
  | .error c => return (h, if c = ECHNG ∨ c = EDRIVE then some c else none)
  | .ok a6 =>
    if io.dots = ECHNG ∨ io.dots = EDRIVE then return (h, some io.dots)
    else do
      let (h, d0) ← closeDd h a6 io.closedSub
      return (h, if d0 = ECHNG ∨ d0 = EDRIVE then some d0 else none)

/-- From the search for the old name to the deletion of its entries. The answer is the
    code that `fren_ende` gets, or a code to return with at once. -/
def frenameOpen (h : State) (pd a4 a5 : Nat) (io : FrenameIo) :
    Except Fault (State × Except Int Int) := do
  if !io.nameOk then return (h, .ok EACCDN)
  else match io.old with
  | .error c => return (h, .ok c)
  | .ok (d1, d3) =>
    match h.entries a4 d3 with
    | none => return (h, .ok EFILNF)
    | some e =>
      if e.readonly ∧ !io.mint then return (h, .ok EACCDN)
      else do
        let below ←
          if e.subdir then testParLoop h a4 d3 h.turns (h.fd a5).multi1
          else pure false
        if below then return (h, .ok EACCDN)
        else if io.rewind < 0 then return (h, .ok io.rewind)
        else
          let clash : Option Int :=
            match io.new with
            | .ok d => if a4 = a5 ∧ d = d3 then none else some EACCDN
            | .error c => if c = EFILNF then none else some c
          match clash, io.place with
          | some c, _ => return (h, .ok c)
          | none, .error c => return (h, .ok c)
          | none, .ok (first, d5) =>
            if io.seek < 0 then return (h, .ok io.seek)
            else if io.wrote < 0 then return (h, .ok io.wrote)
            else do
              let h := h.setDir (h.fd a5).dmd (h.fd (h.fd a5).multi1).stcl
                (writeRun (h.entries a5) first d5 e)
              let h ←
                match ← fileIsOpen h a4 d3 with
                | some a0 => reparent h a0 a5 d5 io.long
                | none => pure h
              let (h, stop) ←
                if e.subdir ∧ a4 ≠ a5 then correctDots h pd a5 d5 e io
                else pure (h, none)
              match stop, toDelete (a4 = a5) d1 d3 first d5 with
              | some c, _ => return (h, .error c)
              | none, none => return (h, .ok 0)
              | none, some (d1, d3) =>
                if io.deleted < 0 then return (h, .ok io.deleted)
                else
                  let h := h.setDir (h.fd a4).dmd (h.fd (h.fd a4).multi1).stcl
                    (eraseRun (h.entries a4) d1 d3)
                  return (h, .ok io.deleted)

/-- `fren_ende`: the directories are closed, unless the disk has been changed. -/
def frenEnde (h : State) (a4 a5 : Nat) (d0 : Int) (io : FrenameIo) :
    Except Fault (State × Int) :=
  if d0 = ECHNG ∨ d0 = EDRIVE then .ok (h, d0)
  else do
    let (h, d4) ← if a4 = a5 then .ok (h, 0) else closeDd h a4 io.closedOld
    if d4 = ECHNG ∨ d4 = EDRIVE then return (h, d4)
    else do
      let (h, _) ← closeDd h a5 io.closedNew
      return (h, d0)

/-- `dxfs_frename`: rename a file of the directory `olddir`, to one of `newdir`. -/
def dxfsFrename (h : State) (pd olddir newdir : Nat) (io : FrenameIo) :
    Except Fault (State × Int) :=
  if (h.fd olddir).dmd ≠ (h.fd newdir).dmd then .ok (h, ENSAME)
  else do
    let mode := RPERM ||| WPERM ||| WDENY
    let (h, r) ← reopenFd h pd olddir mode io.openedOld
    match r with
    | .error c => return (h, c)
    | .ok a4 => do
      let (h, r) ←
        if olddir = newdir then pure (h, .ok a4)
        else reopenFd h pd newdir mode io.openedNew
      match r with
      | .error c =>
        if c = ECHNG ∨ c = EDRIVE then return (h, c)
        else do
          let (h, d0) ← closeDd h a4 io.closedEarly
          return (h, d0)
      | .ok a5 => do
        let (h, r) ← frenameOpen h pd a4 a5 io
        match r with
        | .error c => return (h, c)
        | .ok d0 => frenEnde h a4 a5 d0 io

end Xfs

end MagiC
