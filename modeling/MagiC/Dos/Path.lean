import MagiC.Dos.Kernel

/-!
# From a Path to a Directory

`path_to_DD` of `magidos.s`, which finds the directory of a path and locks it.

The file system walks along the path and gives the path back to the kernel at a
symbolic link, which is followed by a call of the same routine, and at the
parent of a root, which is the root of drive U. What the file system drivers
answer is a parameter: the answers of a sequence of calls, in the order in which
the calls are made. The directory an answer names is counted once more by the
driver. `none` says that the loop is not at its end after as many turns as are
given to it.

## Main definitions

* `pthddLoop`: The walk along the path.
-/

namespace MagiC

namespace Dos

/-- What the file system answers to a path. -/
inductive Path2DD
  /-- The directory, its drive, and the rest of the path. -/
  | dd (d : Option Nat) (dmd : Nat) (rest : List Char)
  /-- A symbolic link in a directory, its drive, the text of the link, and the
  rest of the path. -/
  | link (d : Nat) (dmd : Nat) (text : List Char) (rest : List Char)
  /-- The parent of a root, and the rest of the path. -/
  | parent (rest : List Char)
  | err (e : Int)

/-- What the file system answers when a file is opened. -/
inductive Fopen
  /-- The file descriptor: one that is open already, or a new one as given. -/
  | fd (f : Nat) (new : Fd)
  /-- A symbolic link, the length of its text and the text. -/
  | link (len : Nat) (text : List Char)
  | err (e : Int)

/-- What the file system answers to another call. -/
inductive Answer
  | val (v : Int)
  /-- A symbolic link, the length of its text and the text. -/
  | link (text : Option (Nat × List Char))

/-- What the file systems answer, call by call: to a path, to a drive that is
asked for (its address, its driver and its root when it is new), to a file that
is opened, and to other calls. -/
structure Xfs where
  path2DD : Nat → Path2DD
  drvOpen : Nat → Except Int (Nat × Nat × Nat)
  fopen : Nat → Fopen
  call : Nat → Answer

/-- The drive a letter or a digit stands for; no drive has number 255. -/
def driveFromLetter (c : Char) : Nat :=
  let c := c.toUpper
  if c.toNat < '1'.toNat then 255
  else if c.toNat ≤ '6'.toNat then c.toNat - '1'.toNat + 26
  else if c.toNat < 'A'.toNat then 255
  else if 'Z'.toNat < c.toNat then 255
  else c.toNat - 'A'.toNat

/-- The names of the devices are paths on drive U. -/
def deviceName (path : List Char) : List Char :=
  match path with
  | [a, b, c, ':'] =>
    match [a.toUpper, b.toUpper, c.toUpper] with
    | ['C', 'O', 'N'] => "U:\\DEV\\CON".toList
    | ['A', 'U', 'X'] => "U:\\DEV\\AUX".toList
    | ['P', 'R', 'N'] => "U:\\DEV\\PRN".toList
    | ['N', 'U', 'L'] => "U:\\DEV\\NULL".toList
    | _ => path
  | _ => path

section

variable (x : Xfs)

/-- The drive is asked for. A drive that is not there is mounted. -/
def chkdrv (k : Kernel) (n drive : Nat) : Kernel × Except Int Nat :=
  if h : drive < NUM_DRIVES then
    let d : Fin NUM_DRIVES := ⟨drive, h⟩
    if (k.dlockx d).isSome then (k, .error ELOCKED)
    else
      match k.dmdx d, x.drvOpen n with
      | some m, .ok _ => (k, .ok m)
      | some _, .error e => (k, .error e)
      | none, .ok (m, xfs, root) =>
        ({ k with dmd := Function.update k.dmd m ⟨xfs, d, root⟩,
                  dmdx := Function.update k.dmdx d (some m) }, .ok m)
      | none, .error _ => (k, .error EDRIVE)
  else (k, .error EDRIVE)

/-- Where the walk starts: the drive, the directory and the rest of the path. -/
structure Start where
  drive : Nat
  dir : Nat
  rest : List Char

/-- The path handle of a process for a drive, when there is such a drive. -/
def drvxAt (k : Kernel) (p : Slot) (drive : Nat) : Int :=
  if h : drive < NUM_DRIVES then drvxOf k p ⟨drive, h⟩ else 0

/-- The default drive of a process. -/
def defdrvOf (k : Kernel) (p : Slot) : Nat :=
  match k.procx p with
  | some pd => pd.defdrv
  | none => 0

/-- The start on a drive: its root, or for a relative path the default path of
the process. -/
def startDrive (k : Kernel) (p : Slot) (n drive : Nat) (rest : List Char) :
    Kernel × Except Int Start :=
  match chkdrv x k n drive with
  | (k, .error e) => (k, .error e)
  | (k, .ok m) =>
    match rest with
    | '\\' :: rest => (k, .ok ⟨drive, (k.dmd m).root, rest⟩)
    | rest =>
      let h := drvxAt k p drive
      if h = 0 then (k, .ok ⟨drive, (k.dmd m).root, rest⟩)
      else if h < 0 then (k, .error EPTHNF)
      else (k, .ok ⟨drive, (k.pathx h.toNat).getD 0, rest⟩)

/-- Where the walk starts: on the drive the path names, in the directory of the
link, or on the default drive. -/
def startDd (k : Kernel) (p : Slot) (n : Nat) (path : List Char) (reldir : Option Nat) :
    Kernel × Except Int Start :=
  match deviceName path, reldir with
  | c :: ':' :: rest, _ => startDrive x k p n (driveFromLetter c) rest
  | path, some a =>
    let m := (k.dd a).dmd
    match path with
    | '\\' :: rest => (k, .ok ⟨(k.dmd m).drive, (k.dmd m).root, rest⟩)
    | rest => (k, .ok ⟨(k.dmd m).drive, a, rest⟩)
  | path, none => startDrive x k p n (defdrvOf k p) path

/-- The directory of a path, with the name that is left and the drive, or an
error. -/
structure Found where
  dir : Nat
  fname : List Char
  drive : Nat

/-- The end of a walk that failed: a file that is missing is a path that is
missing. -/
def pthddErr (e : Int) : Int := if e = EFILNF then EPTHNF else e

/-- The directory that was searched is given back, when it was locked. -/
def unlockIf (k : Kernel) (locked : Bool) (d : Nat) : Kernel :=
  if locked then unlockDd k d else k

/-- The driver has counted the directory it answers with. -/
def answered (k : Kernel) (a : Path2DD) : Kernel :=
  match a with
  | .dd (some d) m _ => grantDd k d m
  | .link d m _ _ => grantDd k d m
  | _ => k

/-- The walk along the path. `follow` finds the directory of a link. -/
def pthddLoop (follow : Kernel → Nat → List Char → Nat → Option (Kernel × Nat × Except Int Found))
    (drive : Nat) :
    (fuel : Nat) → Kernel → (n : Nat) → (dir : Nat) → (rest : List Char) → (locked : Bool) →
      Option (Kernel × Nat × Except Int Found)
  | 0, _, _, _, _, _ => none
  | fuel + 1, k, n, dir, _, locked =>
    let a := x.path2DD n
    let k := unlockIf (answered k a) locked dir
    match a with
    | .dd (some d) _ rest => some (k, n + 1, .ok ⟨d, rest, drive⟩)
    | .dd none _ _ => some (k, n + 1, .error EPTHNF)
    | .err e => some (k, n + 1, .error (pthddErr e))
    | .parent rest =>
      if drive = DRIVE_U then
        match k.dmdx ⟨DRIVE_U, DRIVE_U_lt⟩ with
        | some m => pthddLoop follow drive fuel k (n + 1) (k.dmd m).root rest false
        | none => some (k, n + 1, .error EPTHNF)
      else some (k, n + 1, .error EPTHNF)
    | .link dir _ text rest =>
      match follow k (n + 1) text dir with
      | none => none
      | some (k, n, r) =>
        let k := unlockDd k dir
        match r with
        | .error _ => some (k, n, .error EPTHNF)
        | .ok f => pthddLoop follow drive fuel k n f.dir rest true

/-- The directory of a path, which is locked. `depth` counts the links that may
still be nested, `n` the calls of the file system so far, and `p` is the process
that calls. Every walk has `fuel` turns. -/
def pathToDD (fuel : Nat) (p : Slot) : (depth : Nat) → Kernel → (n : Nat) → (path : List Char) →
    (reldir : Option Nat) → Option (Kernel × Nat × Except Int Found)
  | 0, k, n, _, _ => some (k, n, .error ELOOP)
  | depth + 1, k, n, path, reldir =>
    match startDd x k p n path reldir with
    | (k, .error e) => some (k, n + 1, .error (pthddErr e))
    | (k, .ok s) =>
      pthddLoop x (fun k n text dir => pathToDD fuel p depth k n text (some dir)) s.drive
        fuel (lockDd k s.dir) (n + 1) s.dir s.rest true

end

end Dos

end MagiC
