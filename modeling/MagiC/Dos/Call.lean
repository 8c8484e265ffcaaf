import MagiC.Dos.Handle
import MagiC.Dos.Path

/-!
# Calls with a Path

The calls of the kernel that take a path, find its directory with `path_to_DD`
and hand the rest over to the file system, from `magidos.s`: `_Fopen`, `Fxfunct`,
`D_Frename`, `Dxfunc` and `D_Dsetpath`.

A directory that a call has found is locked until the call is done with it. A
symbolic link that the file system gives back is followed by another search,
which starts in the directory of the link. After a change of the disk a call
starts again without such a directory, with the text of the last link if it has
followed one.

`none` says that the call is not at its end after as many searches as are given
to it.

## Main definitions

* `dropPath`, `storePath`: A path handle gets a user less, a user more.
-/

namespace MagiC

namespace Dos

section

variable (x : Xfs) (fuel : Nat) (act : Slot)

/-- A directory is unlocked unless the disk has been changed. -/
def condUnlockDd (k : Kernel) (e : Int) (d : Nat) : Kernel :=
  if e = E_CHNG ∨ e = EDRIVE then k else unlockDd k d

/-- The directory that the last link was found in is unlocked. -/
def unlockReldir (k : Kernel) (reldir : Option Nat) : Kernel :=
  match reldir with
  | some d => unlockDd k d
  | none => k

/-- The file system has counted the descriptor it answers with. -/
def opened (k : Kernel) (f : Nat) (new : Fd) : Kernel :=
  if (k.fd f).opened then countFd k f
  else onFd k f fun _ =>
    { new with refcnt := if new.refcnt = DEVICE then DEVICE else 1, opened := true }

/-- A text of a link that is followed. -/
def linkValid (len : Nat) : Bool := decide (len ≠ 0) && decide (len ≤ 256)

/-- How opening a file ends: with a descriptor, or with an error and the path
that was looked for last. -/
inductive FopEnd
  | ok (f : Nat)
  | err (e : Int) (last : List Char)

/-- Opening, with `links` searches to go. -/
def fopAgain : (links : Nat) → Kernel → (n : Nat) → (path : List Char) → (reldir : Option Nat) →
    Option (Kernel × Nat × FopEnd)
  | links, k, n, path, reldir =>
    match pathToDD x fuel act 5 k n path reldir with
    | none => none
    | some (k, n, r) =>
      let k := unlockReldir k reldir
      match r with
      | .error e => some (k, n, .err e path)
      | .ok d =>
        match x.fopen n with
        | .fd f new => some (unlockDd (opened k f new) d.dir, n + 1, .ok f)
        | .err e => some (condUnlockDd k e d.dir, n + 1, .err e path)
        | .link len text =>
          match linkValid len, links with
          | true, links + 1 => fopAgain links k (n + 1) text (some d.dir)
          | _, _ => some (k, n + 1, .err ELOOP path)

/-- Opening, again after each change of the disk. -/
def fopTagain : (tries : Nat) → Kernel → (n : Nat) → (path : List Char) →
    Option (Kernel × Nat × FopEnd)
  | 0, _, _, _ => none
  | tries + 1, k, n, path =>
    match fopAgain x fuel act 7 k n path none with
    | some (k, n, .err e last) =>
      if e = E_CHNG then fopTagain tries k n last else some (k, n, .err e last)
    | r => r

/-- `_Fopen`: the handle is taken before the file is opened, with the device
that holds nothing. -/
def fopen (k : Kernel) (n : Nat) (path : List Char) : Option (Kernel × Int) :=
  match newHdl k act with
  | none => some (k, ENHNDL)
  | some (k, i) =>
    match fopTagain x fuel act fuel (setEntry k (act, i) (some (k.devFds 0))) n path with
    | none => none
    | some (k, _, .ok f) => some (setEntry k (act, i) (some f), hdlOf i)
    | some (k, _, .err e _) => some (setEntry k (act, i) none, e)

/-- A call on a file, with `links` searches to go. `sfirst` is the search for a
first file, which follows a link by a call of its own. The last component is the
path that was looked for last. -/
def fxfAgain (sfirst : Option (Kernel → Nat → List Char → Option (Kernel × Nat × Int))) :
    (links : Nat) → Kernel → (n : Nat) → (path : List Char) → (reldir : Option Nat) →
    Option ((Kernel × Nat × Int) × List Char)
  | links, k, n, path, reldir =>
    match pathToDD x fuel act 5 k n path reldir with
    | none => none
    | some (k, n, r) =>
      let k := unlockReldir k reldir
      match r with
      | .error e => some ((k, n, e), path)
      | .ok d =>
        match x.call n, sfirst with
        | .val v, _ => some ((condUnlockDd k v d.dir, n + 1, v), path)
        | .link none, _ => some ((condUnlockDd k 0 d.dir, n + 1, 0), path)
        | .link (some (_, text)), some follow =>
          match follow k (n + 1) text with
          | none => none
          | some (k, n, _) => some ((condUnlockDd k 0 d.dir, n, 0), path)
        | .link (some (len, text)), none =>
          match decide (len ≤ 256), links with
          | true, links + 1 => fxfAgain sfirst links k (n + 1) text (some d.dir)
          | _, _ => some ((condUnlockDd k ELOOP d.dir, n + 1, ELOOP), path)

/-- A call on a file, again after each change of the disk. -/
def fxfTagain (sfirst : Option (Kernel → Nat → List Char → Option (Kernel × Nat × Int))) :
    (tries : Nat) → Kernel → (n : Nat) → (path : List Char) → Option (Kernel × Nat × Int)
  | 0, _, _, _ => none
  | tries + 1, k, n, path =>
    match fxfAgain x fuel act sfirst 7 k n path none with
    | some ((k, n, e), last) =>
      if e = E_CHNG then fxfTagain sfirst tries k n last else some (k, n, e)
    | none => none

def fxfunct (sfirst : Bool) (k : Kernel) (n : Nat) (path : List Char) :
    Option (Kernel × Nat × Int) :=
  fxfTagain x fuel act (if sfirst then some (fxfTagain x fuel act none fuel) else none)
    fuel k n path

/-- `D_Frename` and `D_Flink`: both names, one after the other. -/
def frename : (tries : Nat) → Kernel → (n : Nat) → (alt neu : List Char) →
    Option (Kernel × Nat × Int)
  | 0, _, _, _, _ => none
  | tries + 1, k, n, alt, neu =>
    let again (r : Kernel × Nat × Int) :=
      if r.2.2 = E_CHNG then frename tries r.1 r.2.1 alt neu else some r
    match pathToDD x fuel act 5 k n alt none with
    | none => none
    | some (k, n, .error e) => again (k, n, e)
    | some (k, n, .ok a) =>
      match pathToDD x fuel act 5 k n neu none with
      | none => none
      | some (k, n, .error e) => again (unlockDd k a.dir, n, e)
      | some (k, n, .ok b) =>
        if (k.dmd (k.dd a.dir).dmd).xfs = (k.dmd (k.dd b.dir).dmd).xfs then
          match x.call n with
          | .val v => again (unlockDd (unlockDd k b.dir) a.dir, n + 1, v)
          | .link _ => again (unlockDd (unlockDd k b.dir) a.dir, n + 1, ELINK)
        else again (unlockDd (unlockDd k b.dir) a.dir, n, ENSAME)

/-- `Dxfunc`, as it is called: not to delete a directory, so that the default
paths do not matter. -/
def dxfunc : (tries : Nat) → Kernel → (n : Nat) → (path : List Char) →
    Option (Kernel × Nat × Int)
  | 0, _, _, _ => none
  | tries + 1, k, n, path =>
    let again (r : Kernel × Nat × Int) :=
      if r.2.2 = E_CHNG then dxfunc tries r.1 r.2.1 path else some r
    match pathToDD x fuel act 5 k n path none with
    | none => none
    | some (k, n, .error e) => again (k, n, e)
    | some (k, n, .ok d) =>
      match x.call n with
      | .val v => again (condUnlockDd k v d.dir, n + 1, v)
      | .link _ => again (condUnlockDd k ELINK d.dir, n + 1, ELINK)

/-- A path handle gets a user less, and its directory a reference less. -/
def dropPath (k : Kernel) (h : Nat) : Kernel :=
  unlockReldir { k with pathcntx := Function.update k.pathcntx h (k.pathcntx h - 1) } (k.pathx h)

/-- The path handle a process had for a drive, if it had one, gets a user
less. -/
def dropOld (k : Kernel) (d : Fin NUM_DRIVES) : Kernel :=
  let h := drvxOf k act d
  if h ≤ 0 then k else dropPath k h.toNat

/-- A directory is stored under a path handle, which gets a user more. -/
def storePath (k : Kernel) (h d : Nat) : Kernel :=
  { k with pathcntx := Function.update k.pathcntx h (k.pathcntx h + 1),
           pathx := Function.update k.pathx h (some d) }

/-- The default drive changes with a path that leads to another drive. -/
def changeDefdrv (k : Kernel) (given : Nat) (d : Fin NUM_DRIVES) : Kernel :=
  if (d : Nat) = given then k
  else onPd k act fun pd => if pd.defdrv = given then { pd with defdrv := d } else pd

/-- The drive whose default path is set: on drive U it stays there. -/
def setDrive (k : Kernel) (given : Nat) (d : Nat) : Fin NUM_DRIVES :=
  if given = DRIVE_U then ⟨DRIVE_U, DRIVE_U_lt⟩ else (k.dmd (k.dd d).dmd).drive

/-- The directory is the root of the drive that was given. -/
def isRoot (k : Kernel) (given d : Nat) : Bool :=
  let m := k.dmd (k.dd d).dmd
  decide ((m.drive : Nat) = given) && decide (m.root = d)

/-- The directory that was found becomes the default path. -/
def setPath (k : Kernel) (given d : Nat) : Kernel × Int :=
  let drive := setDrive k given d
  if isRoot k given d then
    (setDrvx (dropOld act (unlockDd k d) drive) act drive 0, 0)
  else
    match (isdefault k (some d)).orElse fun _ => isdefault k none with
    | none => (k, ENSMEM)
    | some h =>
      (setDrvx (changeDefdrv act (storePath (dropOld act k drive) h d) given drive) act drive h, 0)

def dsetpath : (tries : Nat) → Kernel → (n : Nat) → (path : List Char) →
    Option (Kernel × Nat × Int)
  | 0, _, _, _ => none
  | tries + 1, k, n, path =>
    match pathToDD x fuel act 5 k n path none with
    | none => none
    | some (k, n, .error e) => if e = E_CHNG then dsetpath tries k n path else some (k, n, e)
    | some (k, n, .ok d) =>
      let r := setPath act k d.drive d.dir
      some (r.1, n, r.2)

end

end Dos

end MagiC
