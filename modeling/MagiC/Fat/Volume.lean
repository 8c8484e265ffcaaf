import MagiC.Fat.Table

/-!
# Allocating and Freeing Clusters

The routines that change the chains of a volume.

`f_extend` moves a file to its next cluster and takes a free one at the end of
its chain, `Fshrink` cuts a file off at its position, and `dosf_delete` frees the
chain of a file that has been removed from its directory. `dosfs_dfree` counts
the free clusters. The count and the cluster where the next search begins are kept
in the DMD.

A file that is opened more than once has a descriptor for each time, all of which
refer to the first one. That one alone has the length and the first cluster.

No sector of the FAT fails to be read here. The info sector and the date are
left out.

## Main definitions

* `dosfDelete`: `dosf_delete`.
-/

namespace MagiC

namespace Fat

/-- A mounted drive: the number of the last cluster plus 1, and the sizes of
    sectors and clusters with their logarithms and masks. -/
structure Drive extends Dmd where
  numcl : Nat
  recsiz : Nat
  clsiz : Nat
  clsizb : Nat
  lclsiz : Nat
  mclsiz : Nat
  lclsizb : Nat

/-- A file descriptor: the first one of the same file, the current cluster and its
    sector, the offset in it, the position and whether the file may be written. In the
    first one also the first cluster, the length, and whether these have changed. -/
structure Fd where
  multi1 : Nat
  stcl : Nat
  len : Nat
  dirch : Bool
  ccl : Nat
  csec : Nat
  clpos : Nat
  fpos : Nat
  wperm : Bool

/-- A volume. The number of free clusters is -1 if it is not known. -/
structure Volume where
  fat : Sectors
  nfree : Int
  firstFree : Nat
  fds : Nat → Fd

def EACCDN : Int := -36

/-- `_df16_loop` and `_df32_loop`: count free entries, `d7` of them to go. -/
def dfLoop (d : Drive) (fat : Sectors) : Nat → Nat → Nat → Nat → Nat
  | 0, d4, _, _ => d4
  | d7 + 1, d4, d6, a0 =>
    let d4 := if freeAt d.toDmd fat d6 a0 then d4 + 1 else d4
    let a0 := a0 + entrySize d.ftype
    if a0 < d.recsiz then dfLoop d fat d7 d4 d6 a0 else dfLoop d fat d7 d4 (d6 + 1) 0

/-- `_dfree16_32`: the number of free clusters below `maxcl`. -/
def dfree16_32 (d : Drive) (fat : Sectors) (maxcl : Nat) : Nat :=
  dfLoop d fat (maxcl - 2) 0 0 (2 * entrySize d.ftype)

/-- `dfr_loop`: the same, entry by entry. -/
def dfrLoop (d : Drive) (fat : Sectors) : Nat → Nat → Nat → Nat
  | 0, _, d5 => d5
  | n + 1, d7, d5 => dfrLoop d fat n (d7 + 1) (if readFat d.toDmd fat d7 = 0 then d5 + 1 else d5)

/-- `dosfs_dfree`, with the number of free clusters it returns. -/
def dosfsDfree (d : Drive) (v : Volume) : Volume × Int :=
  if 0 ≤ v.nfree then (v, v.nfree)
  else
    let d5 : Nat := match d.ftype with
      | .fat12 => dfrLoop d v.fat (d.numcl - 2) 2 0
      | .fat16 | .fat32 => dfree16_32 d v.fat d.numcl
    ({ v with nfree := d5 }, d5)

/-- `_nc16_loop`: look for a free entry, with `d7` to go, from cluster `d4` on, whose
    entry is at `a2` in sector `d6`. -/
def ncLoop (d : Drive) (fat : Sectors) : Nat → Nat → Nat → Nat → Option (Nat × Nat × Nat)
  | 0, _, _, _ => none
  | d7 + 1, d4, d6, a2 =>
    if freeAt d.toDmd fat d6 a2 then some (d4, d6, a2)
    else if d.numcl ≤ d4 + 1 then ncLoop d fat d7 2 0 (2 * entrySize d.ftype)
    else if a2 + entrySize d.ftype < d.recsiz then
      ncLoop d fat d7 (d4 + 1) d6 (a2 + entrySize d.ftype)
    else ncLoop d fat d7 (d4 + 1) (d6 + 1) 0

/-- `_newcl16_32`: find a free cluster from `firstcl` on, and mark it. -/
def newcl16_32 (d : Drive) (fat : Sectors) (firstcl : Nat) : Option (Nat × Sectors) :=
  let d0 := if d.numcl ≤ firstcl then 0 else firstcl
  let found :=
    if d0 < 2 then ncLoop d fat (d.numcl - 2) 2 0 (2 * entrySize d.ftype)
    else
      let d6 := byteOffset d.ftype d0
      ncLoop d fat (d.numcl - 2) d0 (d6 >>> d.lrecsiz) (d6 % 2 ^ 16 &&& d.mrecsiz)
  match found with
  | none => none
  | some (d4, d6, a2) => some (d4, markAt d.toDmd fat d6 a2)

/-- `fex_srchloop`: find a free cluster of a twelve bit FAT, with `d7` tries. -/
def fexSrchloop (d : Drive) (fat : Sectors) : Nat → Nat → Option Nat
  | 0, _ => none
  | d7 + 1, d5 =>
    if readFat d.toDmd fat d5 = 0 then some d5
    else fexSrchloop d fat d7 (if d5 + 1 < d.numcl then d5 + 1 else 2)

/-- Reserve a cluster for a file whose last one is `d6`, or the error. -/
def fexReserve (d : Drive) (v : Volume) (d6 : Nat) : Volume × Except Int Nat :=
  match d.ftype with
  | .fat12 =>
    match fexSrchloop d v.fat (d.numcl - 2) (if d6 < 2 then 2 else d6) with
    | none => (v, .error (-1))
    | some d5 => ({ v with fat := writeFat d.toDmd v.fat d5 EOF }, .ok d5)
  | .fat16 | .fat32 =>
    match newcl16_32 d v.fat (((if d6 = 0 then v.firstFree else d6) + 1) % 2 ^ 32) with
    | none => ({ v with firstFree := 0 }, .error 0xffff)
    | some (d0, fat) => ({ v with fat := fat, firstFree := d0 }, .ok d0)

def Volume.setFd (v : Volume) (id : Nat) (fd : Fd) : Volume :=
  { v with fds := Function.update v.fds id fd }

/-- `subq.l #1`, and -1 stays -1. -/
def countDown (nfree : Int) : Int := if nfree + 1 = 0 then nfree else nfree - 1

/-- `fex_found`: count the cluster, and link it to the last one or to the file. -/
def fexFound (d : Drive) (v : Volume) (proto d6 d5 : Nat) : Volume :=
  let v := { v with nfree := countDown v.nfree }
  if d6 = 0 then v.setFd proto { v.fds proto with stcl := d5, dirch := true }
  else { v with fat := writeFat d.toDmd v.fat d6 d5 }

/-- `fex_seeknxt`: set the position fields to the beginning of a cluster. -/
def fexSeeknxt (d : Drive) (v : Volume) (id d5 : Nat) : Volume :=
  v.setFd id { v.fds id with ccl := d5, csec := d5 * 2 ^ d.lclsiz % 2 ^ 32, clpos := 0 }

/-- The cluster behind the current one of a file, or its first one, or the end. -/
def fexNext (d : Drive) (v : Volume) (id : Nat) : Nat :=
  let stcl := (v.fds (v.fds id).multi1).stcl
  if (v.fds id).ccl ≠ 0 then readFat d.toDmd v.fat (v.fds id).ccl
  else if stcl ≠ 0 then stcl else EOF

/-- `f_extend`, with the value it returns. -/
def fExtend (d : Drive) (v : Volume) (id : Nat) (writeflag : Bool) : Volume × Int :=
  let d6 := (v.fds id).ccl
  let d5 := fexNext d v id
  if d5 ≠ EOF then (fexSeeknxt d v id d5, 0)
  else if writeflag = false then (v, if d6 = 0 then 0 else -1)
  else
    match fexReserve d v d6 with
    | (v', .error e) => (v', e)
    | (v', .ok d5) => (fexSeeknxt d (fexFound d v' (v.fds id).multi1 d6 d5) id d5, 0)

/-- Whether the loops that free a chain go on with a cluster. -/
def goesOn (ftype : FatType) (d7 : Nat) : Bool :=
  d7 ≠ 0 && match ftype with
    | .fat32 => d7 < 0xffffff0
    | .fat12 | .fat16 => d7 % 2 ^ 16 < 0xfff0

/-- `addq.l #1`, and -1 stays -1. -/
def countUp (nfree : Int) : Int := if nfree + 1 = 0 then -1 else nfree + 1

/-- `fsh_clear`: free the clusters from `d7` on. -/
def fshClear (d : Drive) : Nat → Volume → Nat → Option Volume
  | 0, _, _ => none
  | fuel + 1, v, d7 =>
    let v := { v with firstFree := EOF, nfree := countUp v.nfree }
    if goesOn d.ftype d7 then
      fshClear d fuel { v with fat := writeFat d.toDmd v.fat d7 0 } (readFat d.toDmd v.fat d7)
    else some v

/-- `fsh_end1`: the file ends at its position. -/
def fshEnd (v : Volume) (id : Nat) : Volume :=
  let fd := v.fds id
  v.setFd id { fd with len := fd.fpos, stcl := if fd.fpos = 0 then 0 else fd.stcl, dirch := true }

/-- `Fshrink`, with the value it returns. -/
def fshrink (d : Drive) (v : Volume) (id : Nat) : Option (Volume × Int) :=
  let fd := v.fds id
  if (v.fds fd.multi1).len ≤ fd.fpos then some (v, 0)
  else if fd.multi1 ≠ id ∨ fd.wperm = false then some (v, EACCDN)
  else if fd.ccl = EOF then some (v, -1)
  else
    let d7 := if fd.ccl = 0 then fd.stcl else readFat d.toDmd v.fat fd.ccl
    let v := if fd.ccl = 0 then v else { v with fat := writeFat d.toDmd v.fat fd.ccl EOF }
    match fshClear d d.numcl v d7 with
    | none => none
    | some v => some (fshEnd v id, 0)

/-- `_fdel_clear`: free the clusters from `d7` on. -/
def fdelClear (d : Drive) : Nat → Volume → Nat → Option Volume
  | 0, _, _ => none
  | fuel + 1, v, d7 =>
    if goesOn d.ftype d7 then
      let v' := { v with fat := writeFat d.toDmd v.fat d7 0, firstFree := EOF
                         nfree := countUp v.nfree }
      fdelClear d fuel v' (readFat d.toDmd v.fat d7)
    else some v

/-- `dosf_delete`: free the chain of a directory entry. -/
def dosfDelete (d : Drive) (v : Volume) (stcl : Nat) : Option Volume :=
  if stcl = 0 then some v else fdelClear d d.numcl v stcl

end Fat

end MagiC
