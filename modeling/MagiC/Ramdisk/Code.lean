import Mathlib.Algebra.Group.Int.Defs
import Mathlib.Algebra.Group.Nat.Defs
import Mathlib.Logic.Function.Basic
import Mathlib.Tactic.Common

/-!
# The Ramdisk Filesystem

Directories and descriptors of `ramdisk.c` and `ramutil.c`.

A directory is a table of entries. The first two are `.` and `..`, an entry
whose `de_faddr` is `NULL` is free. `new_file` enlarges a table that is full: it
gets memory for one more block of entries, copies the old table there and frees
it.

Memory is what `Kmalloc` gave: tables, file blocks and links, by their address.
A pointer to an entry is `&root_de`, or a table and an index. Using a table that
is not allocated or an entry that is outside of its table is a fault. `Kmalloc`
is a parameter, as is the answer of `Pdomain`.

Of `XATTR` the fields are there that something reads. Times are left out.

## Main definitions

* `drvOpen`: The ramdisk at the beginning.
-/

namespace MagiC

namespace Ramdisk

/-- A name without its zero byte. -/
abbrev Name := List (BitVec 8)

def dot : Name := [0x2e]
def dotdot : Name := [0x2e, 0x2e]

def ramMaxfname : Nat := 32
def rootsize : Nat := 100
def defaultdir : Nat := 32
def maxFd : Nat := 200

/-- A pointer to a directory entry. -/
inductive Entry where
  | root
  | slot (table index : Nat)
  deriving DecidableEq

/-- `de_faddr`: `NULL`, `&root_de` or a block of memory. -/
inductive Faddr where
  | null
  | root
  | mem (a : Nat)
  deriving DecidableEq

/-- The type of an entry. -/
inductive Fmt where
  | none
  | file
  | dir
  | link
  deriving DecidableEq

def sIfmt : BitVec 16 := 0xf000
def sIfreg : BitVec 16 := 0x8000
def sIfdir : BitVec 16 := 0x4000
def sIflnk : BitVec 16 := 0xe000
/-- `S_IWUSR | S_IWGRP | S_IWOTH`. -/
def sIwall : BitVec 16 := 0x92
def sIwusr : BitVec 16 := 0x80
def sIxusr : BitVec 16 := 0x40

def faRdonly : BitVec 16 := 1
def faDir : BitVec 16 := 0x10
def faChanged : BitVec 16 := 0x20

structure Xattr where
  mode : BitVec 16
  attr : BitVec 16
  ino : Faddr
  size : Int
  blocks : Nat
  deriving DecidableEq

/-- `is_file`, `is_dir` and `is_link`. -/
def Xattr.fmt (x : Xattr) : Fmt :=
  if x.mode &&& sIfmt = sIfreg then .file
  else if x.mode &&& sIfmt = sIfdir then .dir
  else if x.mode &&& sIfmt = sIflnk then .link
  else .none

/-- `waccess`. -/
def Xattr.wusr (x : Xattr) : Bool := x.mode &&& sIwusr ≠ 0

/-- `xaccess`. -/
def Xattr.xusr (x : Xattr) : Bool := x.mode &&& sIxusr ≠ 0

structure Dirent where
  fname : Name
  faddr : Faddr
  maxnr : Int
  xattr : Xattr
  deriving DecidableEq

/-- An entry of cleared memory. -/
def cleared : Dirent := ⟨[], .null, 0, ⟨0, 0, .null, 0, 0⟩⟩

structure Fileblock where
  data : Nat → BitVec 8
  next : Nat

/-- The modes of `fopen`. -/
structure Omode where
  rperm : Bool
  wperm : Bool
  exec : Bool
  creat : Bool
  trunc : Bool
  excl : Bool

/-- `RAMDISK_FD`, without what is only passed on. `dmd` says whether `fd_dmd` is
    that of the ramdisk. -/
structure Fd where
  dmd : Bool
  refcnt : Int
  mode : Omode
  fpos : Int
  file : Option Entry
  isParent : Int
  parent : Option Nat

def Omode.none : Omode := ⟨false, false, false, false, false, false⟩

def clearedFd : Fd := ⟨false, 0, Omode.none, 0, Option.none, 0, Option.none⟩

structure Ram where
  tables : Nat → Option (List Dirent)
  files : Nat → Option Fileblock
  links : Nat → Option Name
  rootDe : Dirent
  fd : Nat → Fd

/-- Memory that is not there, an entry outside of its table, or a loop that
    does not end. -/
inductive Fault where
  | dangling
  | outside
  | endless
  deriving DecidableEq

/-- The answer of `Pdomain`. -/
inductive Domain where
  | einvfn
  | tos
  | mint
  deriving DecidableEq

/-- `Kmalloc`, in some state. -/
abbrev Kmalloc := Ram → Option Nat

/-- What the functions ask for: the domain of the process, and the setting
    `eight_bit`. `junk` is what new memory holds. -/
structure Env where
  domain : Domain
  eightBit : Bool
  junk : Nat → Nat → BitVec 8

inductive Ret where
  | eok
  | handle (fd : Nat)
  | einvfn
  | eaccdn
  | efilnf
  | epthnf
  | ensmem
  | edrive
  | elink
  | erange
  deriving DecidableEq

/-- A result that is a number, or an error. -/
inductive Reply where
  | failed (r : Ret)
  | done (n : Int)
  deriving DecidableEq

def Reply.isFailed : Reply → Bool
  | .failed _ => true
  | .done _ => false

/-! ## Names -/

def strlwr (n : Name) : Name := n.map fun c => if 0x41 ≤ c ∧ c ≤ 0x5a then c + 0x20 else c

def toupper (c : BitVec 8) : BitVec 8 := if 0x61 ≤ c ∧ c ≤ 0x7a then c - 0x20 else c

def isalnum (c : BitVec 8) : Bool :=
  (0x30 ≤ c ∧ c ≤ 0x39) ∨ (0x41 ≤ c ∧ c ≤ 0x5a) ∨ (0x61 ≤ c ∧ c ≤ 0x7a)

/-- Characters that `tostrunc` leaves, besides letters and digits. -/
def tosChars : Name :=
  [0x5f, 0x21, 0x40, 0x23, 0x24, 0x25, 0x5e, 0x26, 0x28, 0x29, 0x2b, 0x2d, 0x3d, 0x7e, 0x60, 0x3b,
    0x27, 0x22, 0x2c, 0x3c, 0x3e, 0x7c, 0x5b, 0x5d, 0x7b, 0x7d]

def tosChar (c : BitVec 8) : BitVec 8 :=
  if c ∈ tosChars ∨ isalnum c = true then toupper c else 0x58

/-- The last dot, unless it is the first or the last character. -/
def lastdot (src : Name) : Option Nat :=
  match src.reverse.findIdx? (· = 0x2e) with
  | none => none
  | some k =>
    if k = 0 then none
    else if k + 1 = src.length then none
    else some (src.length - 1 - k)

/-- `tostrunc` without wildcards. -/
def tostrunc (src : Name) : Name :=
  if src = dot ∨ src = dotdot then src
  else
    let head := fun c => if c = (0x2e : BitVec 8) then 0x2c else tosChar c
    match lastdot src with
    | none => (src.take 8).map head
    | some k => ((src.take k).take 8).map head ++ 0x2e :: ((src.drop (k + 1)).take 3).map tosChar

def checkName (env : Env) (name : Name) : Bool :=
  !name.isEmpty && name.all fun c =>
    0x20 ≤ c ∧ (env.eightBit = true ∨ c ≤ 0x7f) ∧ c ≠ 0x5c ∧ c ≠ 0x2f

/-! ## Memory -/

def getTable (s : Ram) : Faddr → Except Fault (Nat × List Dirent)
  | .mem t =>
    match s.tables t with
    | none => .error .dangling
    | some es => .ok (t, es)
  | _ => .error .dangling

def getEntry (s : Ram) : Entry → Except Fault Dirent
  | .root => .ok s.rootDe
  | .slot t i =>
    match s.tables t with
    | none => .error .dangling
    | some es =>
      match es[i]? with
      | none => .error .outside
      | some e => .ok e

def setEntry (s : Ram) (p : Entry) (e : Dirent) : Except Fault Ram :=
  match p with
  | .root => .ok { s with rootDe := e }
  | .slot t i =>
    match s.tables t with
    | none => .error .dangling
    | some es =>
      if i < es.length then
        .ok { s with tables := Function.update s.tables t (some (es.set i e)) }
      else .error .outside

/-- The first entry from `spos` on, below `max`, with some property. -/
def scan (es : List Dirent) (spos : Nat) (max : Int) (p : Dirent → Bool) :
    Except Fault (Option Nat) :=
  match ((es.take max.toNat).drop spos).findIdx? p with
  | some k => .ok (some (spos + k))
  | none => if es.length < max.toNat then .error .outside else .ok none

/-- `fd_file` of a descriptor, which is not `NULL`. -/
def fileOf (s : Ram) (dd : Nat) : Except Fault Entry :=
  match (s.fd dd).file with
  | none => .error .dangling
  | some p => .ok p

/-- The entry a descriptor belongs to. -/
def ddEntry (s : Ram) (dd : Nat) : Except Fault Dirent := do
  let p ← fileOf s dd
  getEntry s p

def checkDd (s : Ram) (dd : Nat) : Except Fault (Option Ret) :=
  if (s.fd dd).dmd = false then .ok (some .edrive)
  else do
    let e ← ddEntry s dd
    .ok (if e.xattr.fmt = .dir then none else some .epthnf)

/-- The bytes of a name that fit into an entry. -/
def fitName (name : Name) : Name := name.take ramMaxfname

/-- Whether a name is looked for to be used, or because there must be none. -/
inductive SOrE where
  | search
  | exist
  deriving DecidableEq

def named (name : Name) (e : Dirent) : Bool := e.faddr ≠ .null ∧ name = e.fname

/-- `findfile`. `maybeDir` says whether an empty name is the directory. -/
def findfile (env : Env) (s : Ram) (dd : Nat) (pathname : Name) (spos : Nat) (mode : SOrE)
    (maybeDir : Bool) : Except Fault (Option Entry) := do
  let d ← ddEntry s dd
  if d.xattr.fmt ≠ .dir then .ok none
  else if pathname = [] ∧ maybeDir = true then (fileOf s dd).map some
  else if d.xattr.xusr = false then .ok none
  else do
    let temp := fitName pathname
    let (t, es) ← getTable s d.faddr
    let dir ← getEntry s (.slot t 0)
    let max := dir.maxnr
    let exact ← (if env.domain ≠ .tos ∨ mode = .search then scan es spos max (named temp)
      else .ok none)
    match exact with
    | some i => .ok (some (.slot t i))
    | none =>
      if env.domain = .mint ∨ env.domain = .einvfn ∧ mode = .exist then .ok none
      else do
        let lower ← (if env.domain = .tos then scan es spos max (named (strlwr temp))
          else .ok none)
        match lower with
        | some i => .ok (some (.slot t i))
        | none =>
          if env.domain = .tos ∧ mode = .exist then .ok none
          else do
            let tos := tostrunc pathname
            let i ← scan es spos max fun e => e.faddr ≠ .null ∧ tos = tostrunc e.fname
            .ok (i.map (.slot t))

def findfd (s : Ram) (fname : Option Entry) : Option Nat × Ram :=
  match (if fname = none then none
    else (List.range maxFd).find? fun i => (s.fd i).file = fname) with
  | some i => (some i, s)
  | none =>
    match (List.range maxFd).find? fun i => (s.fd i).file = none with
    | some i => (some i, { s with fd := Function.update s.fd i clearedFd })
    | none => (none, s)

def word16 (x : Int) : Int := Int.bmod x (2 ^ 16)

/-- `Krealloc` for tables, lengths in entries. -/
def krealloc (es : List Dirent) (old new : Nat) : Except Fault (List Dirent) :=
  if es.length < old then .error .outside
  else .ok (es.take (min old new) ++ List.replicate (new - old) cleared)

/-- The name that a new entry gets. -/
def entryName (env : Env) (name : Name) : Name :=
  if env.domain = .tos then strlwr (fitName name) else fitName name

/-- A table that is full gets one more block, at `m`. -/
def enlarge (s : Ram) (curr : Nat) (t : Nat) (es : List Dirent) (m : Nat) :
    Except Fault Ram := do
  let dir0 ← getEntry s (.slot t 0)
  let new ← krealloc es (dir0.xattr.blocks * defaultdir) ((dir0.xattr.blocks + 1) * defaultdir)
  let s := { s with
    tables := Function.update (Function.update s.tables m (some new)) t none }
  let d0 ← getEntry s (.slot m 0)
  let d0 := { d0 with
    maxnr := word16 (d0.maxnr + defaultdir)
    xattr := { d0.xattr with blocks := d0.xattr.blocks + 1, ino := .mem m }
    faddr := .mem m }
  let s ← setEntry s (.slot m 0) d0
  let p ← fileOf s curr
  let d ← getEntry s p
  setEntry s p { d with
    maxnr := d0.maxnr
    xattr := { d.xattr with blocks := d0.xattr.blocks, ino := .mem m }
    faddr := .mem m }

/-- `new_file`: the new entry, which is still free. -/
def newFile (env : Env) (k : Kmalloc) (s : Ram) (curr : Nat) (name : Name) :
    Except Fault (Option Entry × Ram) :=
  if checkName env name = false then .ok (none, s)
  else do
    let d ← ddEntry s curr
    if d.xattr.wusr = false ∨ d.xattr.xusr = false then .ok (none, s)
    else do
      let (t, es) ← getTable s d.faddr
      let dir ← getEntry s (.slot t 0)
      let free ← scan es 2 dir.maxnr fun e => e.faddr = .null
      let i := free.getD (max 2 dir.maxnr.toNat)
      let e := { cleared with fname := entryName env name }
      if (i : Int) = dir.maxnr then
        match k s with
        | none => .ok (none, s)
        | some m => do
          let s ← enlarge s curr t es m
          let s ← setEntry s (.slot m i) e
          .ok (some (.slot m i), s)
      else do
        let s ← setEntry s (.slot t i) e
        .ok (some (.slot t i), s)

/-- An entry that is a directory gets new attributes in its `..`. The table
    `gone` has been freed before, what is written there is lost. -/
def touchSub (x : Xattr) (t : Nat) (gone : Option Nat) (s : Ram) (i : Nat) : Except Fault Ram := do
  let e ← getEntry s (.slot t i)
  if e.faddr ≠ .null ∧ e.xattr.fmt = .dir then
    if gone.map Faddr.mem = some e.faddr then .ok s
    else do
      let (u, _) ← getTable s e.faddr
      let d ← getEntry s (.slot u 1)
      setEntry s (.slot u 1) { d with xattr := x }
  else .ok s

/-- The end of `work_entry`: attributes of the directory with the entry `q` are
    written wherever they are. -/
def copyXattr (gone : Option Nat) (s : Ram) (q : Entry) (x : Xattr) : Except Fault Ram := do
  let d ← getEntry s q
  let s ← setEntry s q { d with xattr := x }
  let (t, _) ← getTable s d.faddr
  let d0 ← getEntry s (.slot t 0)
  let s ← setEntry s (.slot t 0) { d0 with xattr := x }
  (List.range' 2 (d0.maxnr.toNat - 2)).foldlM (touchSub x t gone) s

/-- `work_entry`. `follow` says whether `symlink` is not `NULL`. -/
def workEntry (env : Env) (gone : Option Nat) (s : Ram) (dd : Nat) (name : Name)
    (follow writeflag : Bool) (action : Option (Dirent → Reply × Dirent)) :
    Except Fault (Reply × Ram) := do
  let c ← checkDd s dd
  match c with
  | some r => .ok (.failed (if action.isNone then .einvfn else r), s)
  | none => do
    let found ← findfile env s dd name 0 .search true
    match found with
    | none => .ok (.failed (if action.isNone then .einvfn else .efilnf), s)
    | some p => do
      let e ← getEntry s p
      if e.xattr.fmt = .link ∧ follow = true then .ok (.failed .elink, s)
      else
        match action with
        | none => .ok (.failed .einvfn, s)
        | some action => do
          let d ← ddEntry s dd
          if writeflag = true ∧ d.faddr ≠ e.faddr ∧ d.xattr.wusr = false then
            .ok (.failed .eaccdn, s)
          else do
            let (ret, e) := action e
            let s ← setEntry s p e
            if ret.isFailed = true ∨ writeflag = false then .ok (ret, s)
            else if e.xattr.fmt ≠ .dir then .ok (ret, s)
            else do
              let q ← (if e.fname = dot then fileOf s dd else .ok p)
              let d ← getEntry s q
              if d.fname = dotdot then
                match (s.fd dd).parent with
                | none => .ok (ret, s)
                | some j => do
                  let q ← fileOf s j
                  let s ← copyXattr gone s q e.xattr
                  .ok (ret, s)
              else do
                let s ← copyXattr gone s q e.xattr
                .ok (ret, s)

def setAmtime (e : Dirent) : Reply × Dirent := (.done 0, e)

/-- The call of `work_entry` when a directory changes. -/
def workDot (env : Env) (gone : Option Nat) (s : Ram) (dd : Nat) : Except Fault Ram := do
  let (_, s) ← workEntry env gone s dd dot false true (some setAmtime)
  .ok s

/-! ## Files -/

/-- Free the blocks of a file, from one on. -/
def freeChain : Nat → Nat → (Nat → Option Fileblock) → Except Fault (Nat → Option Fileblock)
  | 0, _, _ => .error .endless
  | fuel + 1, a, files =>
    if a = 0 then .ok files
    else
      match files a with
      | none => .error .dangling
      | some b => freeChain fuel b.next (Function.update files a none)

/-- `O_TRUNC`: only the first block is left. -/
def truncate (s : Ram) (p : Entry) : Except Fault Ram := do
  let e ← getEntry s p
  match e.faddr with
  | .mem a =>
    match s.files a with
    | none => .error .dangling
    | some b => do
      let files ← freeChain (e.xattr.blocks + 1) b.next
        (Function.update s.files a (some { b with next := 0 }))
      setEntry { s with files := files } p
        { e with xattr := { e.xattr with
            size := 0
            blocks := 1
            attr := e.xattr.attr ||| faChanged } }
  | _ => .error .dangling

/-- The new descriptor of `fopen`. -/
def openFd (s : Ram) (dd new : Nat) (omode : Omode) (found : Entry) : Ret × Ram :=
  (.handle new, { s with
    fd := Function.update s.fd new
      { s.fd new with
        dmd := true
        refcnt := 1
        mode := omode
        fpos := 0
        file := some found
        parent := some dd } })

/-- A new file in a new entry. -/
def makeFile (env : Env) (s : Ram) (dd new : Nat) (name : Name) (omode : Omode) (attrib : BitVec 16)
    (xext : Name → Bool) (k1 k2 : Kmalloc) : Except Fault (Ret × Ram) :=
  if name = dot ∨ name = dotdot then .ok (.eaccdn, s)
  else do
    let (found, s) ← newFile env k1 s dd name
    match found with
    | none => .ok (.eaccdn, s)
    | some p =>
      match k2 s with
      | none => .ok (.ensmem, s)
      | some a => do
        let s := { s with files := Function.update s.files a (some ⟨env.junk a, 0⟩) }
        let s ← workDot env none s dd
        let e ← getEntry s p
        let rdonly := attrib &&& faRdonly ≠ 0
        let mode := sIfreg ||| if omode.exec || xext name then 0x1ff else 0x1b6
        let mode := if rdonly then mode &&& ~~~sIwall else mode
        let attr := if rdonly then faRdonly ||| faChanged else faChanged
        let s ← setEntry s p { e with
          faddr := .mem a
          xattr :=
            { e.xattr with mode := mode, attr := attr, ino := .mem a, size := 0, blocks := 1 } }
        .ok (openFd s dd new omode p)

/-- `fopen`. `xext` is `has_xext`. -/
def fopen (env : Env) (s : Ram) (dd : Nat) (name : Name) (omode : Omode) (attrib : BitVec 16)
    (xext : Name → Bool) (k1 k2 : Kmalloc) : Except Fault (Ret × Ram) := do
  let c ← checkDd s dd
  match c with
  | some r => .ok (r, s)
  | none => do
    let d ← ddEntry s dd
    if d.xattr.xusr = false then .ok (.eaccdn, s)
    else if (omode.creat || omode.trunc) && !omode.wperm then .ok (.eaccdn, s)
    else do
      let mode := if omode.wperm && omode.creat && omode.trunc then SOrE.exist else .search
      let found ← findfile env s dd name 2 mode false
      match found with
      | some p => do
        let e ← getEntry s p
        if e.xattr.fmt = .link then .ok (.elink, s)
        else if e.xattr.fmt = .dir then .ok (.efilnf, s)
        else if omode.wperm && !e.xattr.wusr then .ok (.eaccdn, s)
        else if omode.creat && omode.excl then .ok (.eaccdn, s)
        else
          match findfd s (some p) with
          | (none, s) => .ok (.ensmem, s)
          | (some new, s) =>
            if (s.fd new).parent ≠ none then .ok (.eaccdn, s)
            else do
              let s ← (if omode.trunc then truncate s p else .ok s)
              .ok (openFd s dd new omode p)
      | none =>
        match findfd s none with
        | (none, s) => .ok (.ensmem, s)
        | (some new, s) =>
          if (s.fd new).parent ≠ none then .ok (.eaccdn, s)
          else if omode.creat = false then .ok (.efilnf, s)
          else makeFile env s dd new name omode attrib xext k1 k2

/-! ## The root directory -/

/-- `prepare_dir` for the root directory. -/
def prepareRoot (t : Nat) (maxentries : Nat) : List Dirent :=
  ⟨dot, .mem t, maxentries, ⟨sIfdir ||| 0x1ff, faDir, .mem t, 0, 0⟩⟩ ::
    ⟨dotdot, .root, 0, ⟨sIfdir ||| 0x1ff, faDir, .root, 0, 1⟩⟩ ::
    List.replicate (maxentries - 2) cleared

/-- The state after `ramdisk_drv_open`, with the root directory at `r`. -/
def drvOpen (r : Nat) : Ram where
  tables := Function.update (fun _ => none) r (some (prepareRoot r rootsize))
  files := fun _ => none
  links := fun _ => none
  rootDe := ⟨[], .mem r, 0, ⟨sIfdir ||| 0x1ff, faDir, .root, 0, 1⟩⟩
  fd := Function.update (fun _ => clearedFd) 0
    { clearedFd with dmd := true, refcnt := 1, file := some .root }

end Ramdisk

end MagiC
