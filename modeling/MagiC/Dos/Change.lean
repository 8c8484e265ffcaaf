import MagiC.Dos.Call

/-!
# Deleted Directories and Changed Disks

What the kernel gives up when a directory is deleted that is a default path,
when a disk has been changed, and when a drive is locked, from `magidos.s`, and
what a process takes over from its parent and gives back when it ends.

`free_files` takes the driver of a descriptor from the entry of the handle table
and not from the descriptor. What it finds there is the longword eight bytes
behind the entry: the second half of the next entry's pointer, and the word
beside it. When this is not the driver the processor goes on somewhere else,
which is a fault here.

## Main definitions

* `dlock`, `diskchange`: Locking a drive, and the change of a disk.
-/

namespace MagiC

namespace Dos

section

variable (k : Kernel)

def onDrvx (p : Slot) (drive : Nat) (f : Int → Int) : Kernel :=
  if h : drive < NUM_DRIVES then setDrvx k p ⟨drive, h⟩ (f (drvxOf k p ⟨drive, h⟩)) else k

/-- A path handle that is not valid any more. For `drv = some d` the disk in
drive `d` has been changed: such a handle becomes the root, and on this drive a
handle that was invalid before as well. Otherwise it becomes invalid. -/
def fspHandle (drv : Option Nat) (drive : Nat) (h : Int) : Int :=
  if h = 0 then h
  else if h < 0 then (if drv = some drive then 0 else h)
  else if k.pathcntx h.toNat ≠ 0 then h
  else if drv.isSome then 0 else -1

/-- The loop over the drives. It is left when the number of the next drive, a
word, is below the number of drives. -/
def fspLoop2 (drv : Option Nat) (p : Slot) (k : Kernel) (d1 : Nat) : Kernel :=
  let k := onDrvx k p d1 (fspHandle k drv d1)
  if NUM_DRIVES ≤ d1 + 1 ∧ d1 + 1 < 2 ^ 16 then fspLoop2 drv p k (d1 + 1) else k
termination_by 2 ^ 16 - d1

/-- The processes that are walked through: a process of the main thread, and its
parents as long as it has not been started in parallel. -/
def fspChain (main : Option Nat) : (fuel : Nat) → Option Slot → List Slot
  | 0, _ => []
  | _, none => []
  | fuel + 1, some p =>
    match k.procx p with
    | none => []
    | some pd =>
      if pd.app.isSome ∧ pd.app ≠ main then []
      else p :: if pd.prg then [] else fspChain main fuel pd.parent

/-- The path handles of a process and of its parents. -/
def freeStdpaths (drv : Option Nat) (main : Option Nat) (p : Option Slot) : Kernel :=
  (fspChain k main N_PROCS p).foldl (fun k p => fspLoop2 drv p k 0) k

/-- A path handle whose directory is on the drive, or when there is no drive one
without a directory, is given up. -/
def freePath (dmd : Option Nat) (h : Nat) : Kernel :=
  if k.pathcntx h = 0 then k
  else
    match dmd, k.pathx h with
    | none, none => { k with pathcntx := Function.update k.pathcntx h 0 }
    | none, some _ => k
    | some _, none => k
    | some m, some d =>
      if (k.dd d).dmd ≠ m then k
      else
        let k' := onDd k d fun x => { x with refcnt := x.refcnt - (k.pathcntx h).toNat }
        let k' := if (k'.dd d).refcnt = 0 then freeDd k' d else k'
        { k' with pathx := Function.update k'.pathx h none,
                  pathcntx := Function.update k'.pathcntx h 0 }

/-- The drive of a disk that has been changed. -/
def changedDrive (dmd : Option Nat) : Option Nat := dmd.map fun m => ((k.dmd m).drive : Nat)

/-- `free_pathx`: first the path handles, then the processes, the one that calls
with its parents and those of the other applications. -/
def freePathx (act : Slot) (dmd : Option Nat) : Kernel :=
  let drv := changedDrive k dmd
  let k := pathHandles.foldl (fun k h => freePath k dmd h) k
  let k := freeStdpaths k drv k.actAppl (some act)
  k.appls.foldl (fun k a =>
    match a with
    | none => k
    | some a => if k.actAppl = some a then k else freeStdpaths k drv (some a) (k.apPd a)) k

/-- What the file system says about an entry of a directory. -/
inductive Ftype
  | dir
  | symlink
  | other
  | missing (e : Int)

/-- What the file system answers when a directory is deleted: the type of the
entry, and the result of the deletion. -/
structure DdeleteAnswer where
  type : Ftype
  result : Int

/-- A directory that is not in use any more but by this call, and as a default
path, is deleted. -/
def ddeleteDir (k : Kernel) (act : Slot) (d : Nat) (result : Int) : Kernel × Int :=
  let h := isdefault k (some d)
  let used : BitVec 8 := match h with
    | some h => k.pathcntx h
    | none => 0
  if ((used + 1).toNat : Int) < (k.dd d).refcnt then (k, EACCDN)
  else if result < 0 then (k, result)
  else
    match h with
    | none => (k, result)
    | some h =>
      let c := k.pathcntx h
      let k := { k with pathx := Function.update k.pathx h none }
      let k := onDd k d fun x =>
        let r := x.refcnt - c.toNat
        { x with refcnt := if 0 < r then r else 1 }
      (freePathx k act none, 0)

/-- `D_Ddelete`, for a path without a backslash at its end. -/
def ddelete (x : Xfs) (fuel : Nat) (act : Slot) (ans : Nat → DdeleteAnswer) :
    (tries : Nat) → Kernel → (n : Nat) → (path : List Char) → Option (Kernel × Nat × Int)
  | 0, _, _, _ => none
  | tries + 1, k, n, path =>
    let again (r : Kernel × Nat × Int) :=
      if r.2.2 = E_CHNG then ddelete x fuel act ans tries r.1 r.2.1 path else some r
    match pathToDD x fuel act 5 k n path none with
    | none => none
    | some (k, n, .error e) => again (k, n, e)
    | some (k, n, .ok a) =>
      let stop (k : Kernel) (d : Nat) (e : Int) := again (condUnlockDd k e d, n + 1, e)
      match (ans n).type with
      | .missing e => stop k a.dir e
      | .other => stop k a.dir EACCDN
      | .symlink => stop k a.dir (ans n).result
      | .dir =>
        match x.path2DD n with
        | .dd (some d) m _ =>
          let k := unlockDd (grantDd k d m) a.dir
          let r := ddeleteDir k act d (ans n).result
          stop r.1 d r.2
        | .dd none _ _ => stop k a.dir 0
        | .link d m _ _ => stop (grantDd k d m) a.dir ELINK
        | .parent _ => stop k a.dir ELINK
        | .err e => stop k a.dir e

/-- The processor goes on where no routine of the kernel is. -/
inductive Stray
  | stray

/-- The entries that are gone through: of every process the first ones of its
table, as many as there are handles from zero on less four. -/
def walked : List Cell :=
  (List.finRange N_PROCS).flatMap fun p =>
    ((List.finRange HANDLES).take (MAX_OPEN + MIN_FHANDLE).toNat).map fun i => (p, i)

/-- `for_all_files`: a routine is called for every entry that holds a file, until
it gives something else than zero. -/
def forAllFiles (proc : Kernel → Cell → Nat → Except Stray (Kernel × Int)) :
    List Cell → Kernel → Except Stray (Kernel × Int)
  | [], k => .ok (k, 0)
  | c :: cs, k =>
    match entry k c with
    | none => forAllFiles proc cs k
    | some f =>
      match proc k c f with
      | .error e => .error e
      | .ok (k, d0) => if d0 ≠ 0 then .ok (k, d0) else forAllFiles proc cs k

/-- A file on the drive. -/
def chkOfl (dmd : Nat) (k : Kernel) (_ : Cell) (f : Nat) : Except Stray (Kernel × Int) :=
  .ok (k, if (k.fd f).dmd = some dmd then EACCDN else 0)

def chkOfls (dmd : Nat) : Except Stray (Kernel × Int) := forAllFiles (chkOfl dmd) walked k

/-- The longword eight bytes behind an entry. -/
def behind (c : Cell) : Nat :=
  if h : (c.2 : Nat) + 1 < HANDLES then
    ((entry k (c.1, ⟨c.2 + 1, h⟩)).getD 0 % 2 ^ 16) * 2 ^ 16
      + (flagOf k (c.1, ⟨c.2 + 1, h⟩)).toNat
  else 0

/-- The file driver is called, through the longword behind the entry. -/
def closeBehind (k : Kernel) (c : Cell) (f : Nat) : Except Stray (Kernel × Int) :=
  if behind k c = (k.fd f).dev then .ok (devClose k f, 0) else .error .stray

/-- A file on the drive is given up: the entry is cleared, the reference
counted, and with the last one the file is closed. -/
def freeFile (dmd : Nat) (k : Kernel) (c : Cell) (f : Nat) : Except Stray (Kernel × Int) :=
  if (k.fd f).dmd ≠ some dmd then .ok (k, 0)
  else
    let k := setEntry k c none
    if (k.fd f).refcnt = DEVICE then closeBehind k c f
    else if (k.fd f).refcnt = 0 then .ok (k, 0)
    else
      let k := onFd k f fun x => { x with refcnt := x.refcnt - 1 }
      if (k.fd f).refcnt ≠ 0 then .ok (k, 0) else closeBehind k c f

def freeFiles (dmd : Nat) : Except Stray (Kernel × Int) := forAllFiles (freeFile dmd) walked k

def setDlock (drv : Fin NUM_DRIVES) (p : Option Slot) : Kernel :=
  { k with dlockx := Function.update k.dlockx drv p }

def dropDrive (drv : Fin NUM_DRIVES) : Kernel :=
  { k with dmdx := Function.update k.dmdx drv none }

/-- `_dlock`: a drive is locked, when no file is open on it and the file system
lets go of it, which is `drvClose`. -/
def dlock (act : Slot) (drv : Fin NUM_DRIVES) (drvClose : Int) : Except Stray (Kernel × Int) :=
  if (k.dlockx drv).isSome then .ok (k, EACCDN)
  else
    let k := setDlock k drv (some act)
    match k.dmdx drv with
    | none => .ok (k, 0)
    | some m =>
      match chkOfls k m with
      | .error e => .error e
      | .ok (k, d0) =>
        if d0 < 0 then .ok (setDlock k drv none, d0)
        else if drvClose < 0 then .ok (setDlock k drv none, drvClose)
        else .ok (dropDrive (freePathx k act (some m)) drv, 0)

/-- A default path is handed on: one that is not valid becomes the root. -/
def inheritPath (parent child : Slot) (d : Fin NUM_DRIVES) : Kernel :=
  let h := drvxOf k parent d
  if h ≤ 0 then setDrvx k child d 0
  else
    let k := setDrvx k child d h
    let k := { k with pathcntx := Function.update k.pathcntx h.toNat (k.pathcntx h.toNat + 1) }
    match k.pathx h.toNat with
    | some dd => lockDd k dd
    | none => k

/-- The loop of `init_pd` over the drives, from the last one down. -/
def initPaths (parent child : Slot) : Kernel :=
  (List.finRange NUM_DRIVES).reverse.foldl (fun k d => inheritPath k parent child d) k

/-- `init_pd` for a process in a free slot, which `create_basepage` has given
empty tables: files, default paths and the default drive are taken over. -/
def initPd (parent child : Slot) (pd : Pd) : Kernel :=
  let pd := { pd with drvx := fun _ => 0, handle := fun _ => Fh.empty }
  let k := { k with procx := Function.update k.procx child (some pd) }
  let k := initPaths (initHandles k parent child) parent child
  onPd k child fun pd => { pd with defdrv := defdrvOf k parent }

/-- A default path of a process that ends. -/
def killPath (p : Slot) (d : Fin NUM_DRIVES) : Kernel :=
  let h := drvxOf k p d
  if h ≤ 0 then k
  else if k.pathcntx h.toNat = 0 then k
  else dropPath k h.toNat

/-- The loop of `PDkill` over the drives, from the last one down. -/
def killPaths (p : Slot) : Kernel :=
  (List.finRange NUM_DRIVES).reverse.foldl (fun k d => killPath k p d) k

/-- The children of a process that ends have no parent any more. -/
def adjustParents (p : Slot) : Kernel :=
  { k with procx := fun c => (k.procx c).map fun pd =>
      if pd.parent = some p then { pd with parent := none } else pd }

/-- `PDkill`: the children are orphans, the files are closed, the default paths
given back, and the process is gone. -/
def pdKill (p : Slot) : Kernel :=
  let k := killPaths (killHandles (adjustParents k p) p) p
  { k with procx := Function.update k.procx p none }

end

section

variable {k : Kernel} {p : Slot} {drive : Fin NUM_DRIVES} {drv main dmd : Option Nat} {d1 h : Nat}

theorem fspLoop2_zero : fspLoop2 drv p k 0 = onDrvx k p 0 (fspHandle k drv 0) := by
  have hn : NUM_DRIVES = 32 := rfl
  rw [fspLoop2, if_neg (by omega)]

@[simp] theorem entry_setDlock (q : Option Slot) : entry (setDlock k drive q) = entry k := rfl

@[simp] theorem setDlock_dmdx (q : Option Slot) : (setDlock k drive q).dmdx = k.dmdx := rfl

@[simp] theorem entry_dropDrive : entry (dropDrive k drive) = entry k := rfl

@[simp]
theorem entry_onDrvx (g : Int → Int) : entry (onDrvx k p d1 g) = entry k := by
  unfold onDrvx
  split
  · exact entry_setDrvx _ _ _
  · rfl

@[simp]
theorem entry_freeStdpaths (q : Option Slot) : entry (freeStdpaths k drv main q) = entry k := by
  unfold freeStdpaths
  refine foldl_keeps entry (fun k p => ?_) _ _
  rw [fspLoop2_zero, entry_onDrvx]

@[simp]
theorem entry_freePath : entry (freePath k dmd h) = entry k := by
  unfold freePath
  split
  · rfl
  · split
    · rfl
    · rfl
    · rfl
    · split
      · rfl
      · simp only
        split <;> rfl

/-- Giving up default paths closes no file. -/
@[simp]
theorem entry_freePathx (act : Slot) : entry (freePathx k act dmd) = entry k := by
  unfold freePathx
  simp only
  rw [foldl_keeps entry, entry_freeStdpaths, foldl_keeps entry fun k h => entry_freePath]
  intro k a
  split
  · rfl
  · split
    · rfl
    · exact entry_freeStdpaths _

end

end Dos

end MagiC
