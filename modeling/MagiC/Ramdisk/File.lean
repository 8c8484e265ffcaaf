import MagiC.Ramdisk.Code

/-!
# The Contents of Files

`ramdisk_close`, `ramdisk_read`, `ramdisk_write` and `ramdisk_seek`.

A file is a list of blocks of 4096 bytes. The block in which a transfer starts
is looked for with `pos + DEFAULTFILE < fd_fpos`, so a position between two
blocks belongs to the end of the first one and the first round of the transfer
moves no byte. A copy that would not stay inside of the data of one block is a
fault.

All numbers are 32 bit, also the sum of the position and the number of bytes.

## Main definitions

* `read`, `write`, `seek`, `close`: The functions of the device driver.
-/

namespace MagiC

namespace Ramdisk

def defaultfile : Int := 4096

def long32 (x : Int) : Int := Int.bmod x (2 ^ 32)

def getBlock (files : Nat → Option Fileblock) (a : Nat) : Except Fault Fileblock :=
  if a = 0 then .error .dangling
  else
    match files a with
    | none => .error .dangling
    | some b => .ok b

/-- `de_faddr` of a file. -/
def Faddr.address : Faddr → Nat
  | .mem a => a
  | _ => 0

def checkFd (s : Ram) (fd : Nat) : Except Fault (Option Ret) :=
  if (s.fd fd).dmd = false then .ok (some .edrive)
  else do
    let e ← ddEntry s fd
    .ok (if e.xattr.fmt = .file then none else some .efilnf)

def close (s : Ram) (fd : Nat) : Except Fault (Reply × Ram) := do
  let c ← checkFd s fd
  match c with
  | some r => .ok (.failed r, s)
  | none =>
    let f := s.fd fd
    let refcnt := if f.refcnt ≠ 0 then word16 (f.refcnt - 1) else 0
    let file := if refcnt = 0 then none else f.file
    .ok (.done 0,
      { s with fd := Function.update s.fd fd { f with refcnt := refcnt, file := file } })

/-- The block where reading begins, and its position. -/
def readWalk (files : Nat → Option Fileblock) : Nat → Nat → Int → Int → Except Fault (Nat × Int)
  | 0, _, _, _ => .error .endless
  | fuel + 1, a, pos, fpos =>
    if long32 (pos + defaultfile) < fpos then do
      let b ← getBlock files a
      readWalk files fuel b.next (long32 (pos + defaultfile)) fpos
    else .ok (a, pos)

/-- Bytes of a block, from `pos` on. -/
def copyOut (b : Fileblock) (pos len : Int) : Except Fault (List (BitVec 8)) :=
  if len < 0 ∨ pos < 0 ∨ defaultfile < pos + len then .error .outside
  else .ok ((List.range len.toNat).map fun i => b.data (pos.toNat + i))

/-- The loop of `read`, with what it has copied. -/
def readLoop (files : Nat → Option Fileblock) :
    Nat → Nat → Int → Int → Int → List (BitVec 8) → Except Fault (List (BitVec 8))
  | 0, _, _, _, _, _ => .error .endless
  | fuel + 1, a, pos, count, readable, out =>
    if 0 < count then do
      let len := if count < readable then count else readable
      let b ← getBlock files a
      let bytes ← copyOut b pos len
      readLoop files fuel b.next 0 (count - len) defaultfile (out ++ bytes)
    else .ok out

/-- The number of bytes and the bytes. -/
def read (s : Ram) (fd : Nat) (count : Int) : Except Fault (Reply × List (BitVec 8) × Ram) := do
  let c ← checkFd s fd
  match c with
  | some r => .ok (.failed r, [], s)
  | none => do
    let f := s.fd fd
    if f.mode.rperm = false ∧ f.mode.exec = false then .ok (.failed .eaccdn, [], s)
    else do
      let e ← ddEntry s fd
      let count := if e.xattr.size < long32 (f.fpos + count) then long32 (e.xattr.size - f.fpos)
        else count
      let (a, pos) ← readWalk s.files (f.fpos.toNat + 1) e.faddr.address 0 f.fpos
      let pos := f.fpos - pos
      let out ← readLoop s.files (count.toNat + 2) a pos count (defaultfile - pos) []
      .ok (.done out.length, out, { s with
        fd := Function.update s.fd fd { f with fpos := long32 (f.fpos + out.length) } })

/-- The block where writing begins, the last block, and the position of the
    first. -/
def writeWalk (files : Nat → Option Fileblock) :
    Nat → Nat → Nat → Nat → Int → Int → Except Fault (Nat × Nat × Int)
  | 0, _, _, _, _, _ => .error .endless
  | fuel + 1, j, a, add, pos, fpos =>
    if j = 0 then .ok (a, add, pos)
    else do
      let b ← getBlock files j
      if long32 (pos + defaultfile) < fpos then
        writeWalk files fuel b.next b.next j (long32 (pos + defaultfile)) fpos
      else writeWalk files fuel b.next a j pos fpos

/-- More blocks at the end of a file, until there are enough or there is no
    memory: how many bytes fit now. -/
def extend (env : Env) (k : Kmalloc) :
    Nat → Ram → Entry → Nat → Int → Except Fault (Int × Ram)
  | 0, s, _, _, maxcount => .ok (maxcount, s)
  | n + 1, s, p, add, maxcount =>
    match k s with
    | none => .ok (maxcount, s)
    | some m => do
      let e ← getEntry s p
      let s ← setEntry s p { e with xattr := { e.xattr with blocks := e.xattr.blocks + 1 } }
      let b ← getBlock s.files add
      let files := Function.update s.files add (some { b with next := m })
      let files := Function.update files m (some ⟨env.junk m, 0⟩)
      extend env k n { s with files := files } p m (long32 (maxcount + defaultfile))

/-- Blocks for what is to be written: how many bytes of that fit. -/
def makeRoom (env : Env) (k : Kmalloc) (s : Ram) (p : Entry) (e : Dirent) (add : Nat)
    (fpos count : Int) : Except Fault (Int × Ram) :=
  let maxcount := long32 (e.xattr.blocks * defaultfile)
  if maxcount < long32 (fpos + count) then do
    let blocks := Int.tdiv (long32 (fpos + count + defaultfile - 1)) defaultfile
    let (maxcount, s) ← extend env k (blocks - e.xattr.blocks).toNat s p add maxcount
    .ok (if maxcount < long32 (fpos + count) then long32 (maxcount - fpos) else count, s)
  else .ok (count, s)

/-- Bytes in a block, from `pos` on. `buf` has the bytes from `i` on. -/
def copyIn (b : Fileblock) (pos len : Int) (buf : Nat → BitVec 8) (i : Nat) :
    Except Fault Fileblock :=
  if len < 0 ∨ pos < 0 ∨ defaultfile < pos + len then .error .outside
  else .ok { b with data := fun x =>
    if pos.toNat ≤ x ∧ x < pos.toNat + len.toNat then buf (i + (x - pos.toNat)) else b.data x }

/-- The loop of `write`. -/
def writeLoop (buf : Nat → BitVec 8) :
    Nat → (Nat → Option Fileblock) → Nat → Int → Int → Int → Nat →
    Except Fault ((Nat → Option Fileblock) × Nat)
  | 0, _, _, _, _, _, _ => .error .endless
  | fuel + 1, files, a, pos, count, writeable, written =>
    if 0 < count then do
      let len := if count < writeable then count else writeable
      let b ← getBlock files a
      let b ← copyIn b pos len buf written
      writeLoop buf fuel (Function.update files a (some b)) b.next 0 (count - len) defaultfile
        (written + len.toNat)
    else .ok (files, written)

def write (env : Env) (k : Kmalloc) (s : Ram) (fd : Nat) (count : Int) (buf : Nat → BitVec 8) :
    Except Fault (Reply × Ram) := do
  let c ← checkFd s fd
  match c with
  | some r => .ok (.failed r, s)
  | none => do
    let f := s.fd fd
    if f.mode.wperm = false then .ok (.failed .eaccdn, s)
    else do
      let p ← fileOf s fd
      let e ← getEntry s p
      let first := e.faddr.address
      let (a, add, pos) ← writeWalk s.files (e.xattr.blocks + 2) first first 0 0 f.fpos
      let (count, s) ← makeRoom env k s p e add f.fpos count
      let pos := f.fpos - pos
      let (files, written) ← writeLoop buf (count.toNat + 2) s.files a pos count
        (defaultfile - pos) 0
      let fpos := long32 (f.fpos + written)
      let s := { s with files := files, fd := Function.update s.fd fd { f with fpos := fpos } }
      let e ← getEntry s p
      let size := if e.xattr.size < fpos then fpos else e.xattr.size
      let s ← setEntry s p { e with
        xattr := { e.xattr with size := size, attr := e.xattr.attr ||| faChanged } }
      .ok (.done written, s)

def seek (s : Ram) (fd : Nat) (offset : Int) (mode : Int) : Except Fault (Reply × Ram) := do
  let c ← checkFd s fd
  match c with
  | some r => .ok (.failed r, s)
  | none => do
    let f := s.fd fd
    let e ← ddEntry s fd
    let base := if mode = 0 then some 0 else if mode = 1 then some f.fpos
      else if mode = 2 then some e.xattr.size else none
    match base with
    | none => .ok (.done f.fpos, s)
    | some base =>
      let pos := long32 (base + offset)
      if pos < 0 ∨ e.xattr.size < pos then .ok (.failed .erange, s)
      else .ok (.done pos, { s with fd := Function.update s.fd fd { f with fpos := pos } })

end Ramdisk

end MagiC
