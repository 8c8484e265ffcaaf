import MagiC.Malloc.Mcb

/-!
# The Memory Manager's Routines

The routines of `malloc.s` that hand out, take back and resize blocks, written
as the code computes them: each reads and stores header longwords of a memory.

A routine returns `none` where the code leaves it for good, which is the jump to
`mem_err` on a broken magic. The searches walk the MCB chain without a bound of
their own, so they carry a fuel argument, the size of the region they walk.

Longwords are unsigned. Sizes come from the caller, so rounding a size up to a
longword is taken modulo `2 ^ 32`, as is stepping back from a data address to
its MCB.

## Main definitions

* `mxfree`: Freeing a block and melting it with its neighbours.
-/

namespace MagiC

namespace Malloc

def EIMBA : Int := -40

def EGSBF : Int := -67

/-- What the allocator reads and writes of a process: its memory limit
    `p_mem`, and the entries of `pr_memlist`, if `p_procdata` and that list
    are there. -/
structure Pd where
  pMem : Nat
  memlist : Option (List Nat)

/-- The allocator's state: memory, the sixteen list heads of `mem_root` with
    the recorded ends behind them, the processes by address, the running
    process, the address of `ur_pd`, and the TOS bit of `config_status`. -/
structure Heap where
  mem : Mem
  root : Nat → Nat
  memEnd : Nat → Nat
  pds : Nat → Pd
  actPd : Nat
  urPd : Nat
  tosMode : Bool

/-- Number of list heads in `mem_root`. -/
def nblocks : Nat := 16

/-- The length of a list's region, which bounds the number of its MCBs. -/
def Heap.extent (h : Heap) (list : Nat) : Nat := h.memEnd list - h.root list

def Heap.setPd (h : Heap) (pd : Nat) (p : Pd) : Heap :=
  { h with pds := fun i => if i = pd then p else h.pds i }

def negative (v : Nat) : Bool := decide (2 ^ 31 ≤ v)

/-- Round a size up to a longword. -/
def roundUp (size : Nat) : Nat := (size + 3) % 2 ^ 32 / 4 * 4

/-- `nolimit`, bit 13 of the mode word. -/
def nolimit (mode : Nat) : Bool := mode.testBit 13

/-- `dontfree`, bit 14 of the mode word. -/
def dontfree (mode : Nat) : Bool := mode.testBit 14

/-- `_mal_loop`: the first free block of at least `amount` bytes from `a` on,
    or nothing at the end of the chain. -/
def malLoop (m : Mem) (amount : Nat) : Nat → Nat → Option (Option Nat)
  | 0, _ => none
  | fuel + 1, a =>
    if m (a + mcbOwner) = 0 ∧ amount ≤ m (a + mcbLen) then some (some a)
    else if m a = KROM then some none
    else if m a = ANDR then malLoop m amount fuel (a + mcbData + m (a + mcbLen))
    else none

/-- `_mal_found`: give the block at `a` to `pd`, splitting off the rest when
    it is more than an MCB long. -/
def malFound (m : Mem) (amount pd a : Nat) : Mem :=
  let d1 := m a
  let d2 := m (a + mcbLen)
  let m := m.put (a + mcbOwner) pd
  if d2 - amount ≤ mcbData then m
  else
    let d2 := d2 - amount - mcbData
    let m := (m.put a ANDR).put (a + mcbLen) amount
    let a2 := a + mcbData + amount
    let m := (((m.put a2 d1).put (a2 + mcbLen) d2).put (a2 + mcbOwner) 0).put (a2 + mcbPrev) a
    if d1 = ANDR then m.put (a2 + mcbData + d2 + mcbPrev) a2 else m

/-- Take `n` bytes off a process's limit, if it has one, not going below
    zero. -/
def Heap.charge (h : Heap) (pd n : Nat) : Heap :=
  if negative (h.pds pd).pMem then h
  else h.setPd pd { h.pds pd with pMem := (h.pds pd).pMem - n }

/-- `_malloc`: first fit in one list, the MCB found or zero. -/
def malloc (h : Heap) (amount : Nat) (limitflag : Bool) (list pd : Nat) : Option (Heap × Nat) :=
  if h.root list = 0 then some (h, 0)
  else if limitflag ∧ (h.pds pd).pMem < amount then some (h, 0)
  else
    match malLoop h.mem amount (h.extent list) (h.root list) with
    | none => none
    | some none => some (h, 0)
    | some (some a) =>
      let h := { h with mem := malFound h.mem amount pd a }
      some (if limitflag then h.charge pd (mcbData + h.mem (a + mcbLen)) else h, a)

/-- `_mll_loop`: the last free block of at least `amount` bytes, `best` being
    the last one seen so far, or zero. -/
def mllLoop (m : Mem) (amount : Nat) : Nat → Nat → Nat → Option Nat
  | 0, _, _ => none
  | fuel + 1, best, a =>
    let best := if m (a + mcbOwner) = 0 ∧ amount ≤ m (a + mcbLen) then a else best
    if m a = KROM then some best
    else if m a = ANDR then mllLoop m amount fuel best (a + mcbData + m (a + mcbLen))
    else none

/-- `_mll_found`: give the end of the block at `a` to `urPd`, or all of it
    when the rest would be no more than an MCB long. -/
def mllFound (m : Mem) (amount urPd a : Nat) : Mem × Nat :=
  let d2 := m (a + mcbLen)
  if d2 - amount ≤ mcbData then (m.put (a + mcbOwner) urPd, a)
  else
    let d2 := d2 - amount - mcbData
    let m := m.put (a + mcbLen) d2
    let a1 := a + mcbData + d2
    let m := (m.put a1 (m a)).put a ANDR
    let m := (m.put (a1 + mcbLen) amount).put (a1 + mcbPrev) a
    let m := if m a1 = ANDR then m.put (a1 + mcbData + amount + mcbPrev) a1 else m
    (m.put (a1 + mcbOwner) urPd, a1)

/-- `_malloc_last`: last fit in one list, without a limit. -/
def mallocLast (h : Heap) (amount list : Nat) : Option (Heap × Nat) :=
  if h.root list = 0 then some (h, 0)
  else
    match mllLoop h.mem amount (h.extent list) 0 (h.root list) with
    | none => none
    | some a =>
      if a = 0 then some (h, 0)
      else
        let r := mllFound h.mem amount h.urPd a
        some ({ h with mem := r.1 }, r.2)

/-- `mavl_loop`: the largest free block from `a` on, and `best` at least. -/
def mavlLoop (m : Mem) : Nat → Nat → Nat → Option Nat
  | 0, _, _ => none
  | fuel + 1, best, a =>
    let best := if m (a + mcbOwner) = 0 ∧ best < m (a + mcbLen) then m (a + mcbLen) else best
    if m a = ANDR then mavlLoop m fuel best (a + mcbData + m (a + mcbLen))
    else if m a = KROM then some best
    else none

/-- `_Memavail`: the largest free block of one list. -/
def memavail (h : Heap) (list : Nat) : Option Nat :=
  if h.root list = 0 then some 0 else mavlLoop h.mem (h.extent list) 0 (h.root list)

/-- `mxavail_tt`: the largest free block of the lists behind the second. -/
def mxavailTt (h : Heap) : Nat → Nat → Nat → Option Nat
  | 0, _, _ => none
  | fuel + 1, best, list =>
    if h.root list = 0 then some best
    else
      match memavail h list with
      | none => none
      | some n => mxavailTt h fuel (if n < best then best else n) (list + 1)

/-- `Memxavail`: the largest block `Mxalloc` could hand out in this mode. -/
def memxavail (h : Heap) (mode pd : Nat) : Option Nat := do
  let n ←
    if mode % 4 = 0 then memavail h 0
    else if mode % 4 = 1 then mxavailTt h nblocks 0 2
    else do
      let tt ← mxavailTt h nblocks 0 2
      let st ← memavail h 0
      pure (if st < tt then tt else st)
  pure (if nolimit mode ∨ n ≤ (h.pds pd).pMem then n else (h.pds pd).pMem)

/-- `_Malloc`: `_malloc` with the limit and the protection the mode word asks
    for, the data address or zero. -/
def mallocMode (h : Heap) (amount mode list pd : Nat) : Option (Heap × Nat) :=
  match malloc h amount (!nolimit mode) list pd with
  | none => none
  | some (h, a) =>
    if a = 0 then some (h, 0)
    else if dontfree mode then
      some ({ h with mem := h.mem.put (a + mcbOwner) (h.mem (a + mcbOwner) ||| 2 ^ 31) },
        a + mcbData)
    else some (h, a + mcbData)

/-- `mxalloc_tt`: first fit over the lists from `list` on. -/
def mxallocTt (h : Heap) (amount mode pd : Nat) : Nat → Nat → Option (Heap × Nat)
  | 0, _ => none
  | fuel + 1, list =>
    if h.root list = 0 then some (h, 0)
    else
      match mallocMode h amount mode list pd with
      | none => none
      | some (h', a) =>
        if a = 0 then mxallocTt h' amount mode pd fuel (list + 1) else some (h', a)

/-- `Mxalloc`: the data address of a new block, or zero; for the size `-1`
    the largest size to be had. -/
def mxalloc (h : Heap) (size mode pd : Nat) : Option (Heap × Nat) :=
  if size = 2 ^ 32 - 1 then (memxavail h mode pd).map (fun n => (h, n))
  else
    let amount := roundUp size
    if mode % 4 = 0 then mallocMode h amount mode 0 pd
    else if mode % 4 = 1 then mxallocTt h amount mode pd nblocks 2
    else if mode % 4 = 2 then
      match mallocMode h amount mode 0 pd with
      | none => none
      | some (h', a) => if a = 0 then mxallocTt h' amount mode pd nblocks 2 else some (h', a)
    else
      match mxallocTt h amount mode pd nblocks 2 with
      | none => none
      | some (h', a) => if a = 0 then mallocMode h' amount mode 0 pd else some (h', a)

/-- `melt_mcbs`: melt the free block at `a0` into the one at `a1` before
    it. -/
def meltMcbs (m : Mem) (a0 a1 : Nat) : Option Mem :=
  let d1 := m a0
  let m := m.put a0 0
  let d2 := mcbData + m (a0 + mcbLen)
  if d1 = KROM then
    some ((m.put a1 d1).put (a1 + mcbLen) (m (a1 + mcbLen) + d2))
  else if d1 = ANDR then
    let m := m.put (a0 + d2 + mcbPrev) a1
    some ((m.put a1 d1).put (a1 + mcbLen) (m (a1 + mcbLen) + d2))
  else none

/-- The MCB of a data address. -/
def mcbOf (memblk : Nat) : Nat := (memblk + 2 ^ 32 - mcbData) % 2 ^ 32

/-- `mfree_nxtlist`: whether some list from `list` on holds the address `a`.
    The search ends at the first empty list head, and passes over negative
    ones. -/
def inNextList (h : Heap) (a : Nat) : Nat → Nat → Bool
  | 0, _ => false
  | fuel + 1, list =>
    if h.root list = 0 then false
    else if negative (h.root list) then inNextList h a fuel (list + 1)
    else if h.root list ≤ a ∧ a < h.memEnd list then true
    else inNextList h a fuel (list + 1)

/-- `mfree_listloop`: whether some list holds the address `a`. The head of the
    first list is not tested. -/
def inLists (h : Heap) (a : Nat) : Bool :=
  if h.root 0 ≤ a ∧ a < h.memEnd 0 then true else inNextList h a (nblocks - 1) 1

/-- `mfree_shm_loop`: take the first entry `memblk` out of a process's list of
    shared blocks. -/
def shmRemove (memblk : Nat) : List Nat → Option (List Nat)
  | [] => none
  | e :: es => if e = memblk then some (0 :: es) else (shmRemove memblk es).map (e :: ·)

/-- Give `n` bytes back to a process's limit, stopping at the largest
    longword. -/
def Heap.refund (h : Heap) (pd n : Nat) : Heap :=
  h.setPd pd { h.pds pd with pMem := min ((h.pds pd).pMem + n) (2 ^ 32 - 1) }

/-- `mfree_no_ovl`: melt the freed block at `a0` into its predecessor, if that
    is free, and go on with whichever block it is part of now. -/
def mfreePrev (m : Mem) (a0 : Nat) : Option (Mem × Nat) :=
  let a1 := m (a0 + mcbPrev)
  if a1 ≠ 0 ∧ m (a1 + mcbOwner) = 0 then (meltMcbs m a0 a1).map (fun m => (m, a1))
  else some (m, a0)

/-- `mfree_no_prev`: melt the successor `a2`, if there is one and it is free,
    into the block at `a0`. -/
def mfreeNext (m : Mem) (a0 a2 : Nat) : Option Mem :=
  if a2 ≠ 0 ∧ m (a2 + mcbOwner) = 0 then meltMcbs m a2 a0 else some m

/-- `mfree_no_shm`: free the block at `a0` for good. -/
def mfreeBlock (h : Heap) (a0 pd : Nat) : Option (Heap × Int) :=
  let d1 := h.mem a0
  let d2 := h.mem (a0 + mcbLen)
  if d1 ≠ KROM ∧ d1 ≠ ANDR then some (h, EIMBA)
  else
    let a2 := if d1 = KROM then 0 else a0 + mcbData + d2
    if h.mem (a0 + mcbOwner) = 0 then some (h, EIMBA)
    else
      let h := { h with mem := h.mem.put (a0 + mcbOwner) 0 }
      let h := if pd = 0 then h else h.refund pd (mcbData + d2)
      match mfreePrev h.mem a0 with
      | none => none
      | some (m, a0) => (mfreeNext m a0 a2).map (fun m => ({ h with mem := m }, 0))

/-- `mfree_free`: a shared block only loses one reference, unless it was the
    last. -/
def mfreeFree (h : Heap) (a0 pd : Nat) : Option (Heap × Int) :=
  if pd ≠ 0 ∧ h.mem (a0 + mcbOwner) < 0x1000 then
    match (h.pds pd).memlist with
    | none => some (h, EIMBA)
    | some list =>
      match shmRemove (a0 + mcbData) list with
      | none => some (h, EIMBA)
      | some list' =>
        let refs := (h.mem (a0 + mcbOwner) + (2 ^ 32 - 1)) % 2 ^ 32
        let h := h.setPd pd { h.pds pd with memlist := some list' }
        let h := { h with mem := h.mem.put (a0 + mcbOwner) refs }
        if refs ≠ 0 then some (h, 0)
        else mfreeBlock { h with mem := h.mem.put (a0 + mcbOwner) pd } a0 pd
  else mfreeBlock h a0 pd

/-- `Mxfree`: free the block with data address `memblk` for the process `pd`,
    or for none when `pd` is zero. -/
def mxfree (h : Heap) (memblk pd : Nat) : Option (Heap × Int) :=
  if memblk % 4 ≠ 0 then some (h, EIMBA)
  else
    let a0 := mcbOf memblk
    if inLists h a0 then mfreeFree h a0 pd
    else if a0 = 1 then some (h, 0)
    else some (h, EIMBA)

/-- `msh_shrink`: cut the block at `a6` down to `d7` bytes when more than an
    MCB would be left, make an allocated block of the rest, and free that. -/
def mshShrink (h : Heap) (a6 a5 d7 pd : Nat) : Option (Heap × Int) :=
  let d2 := h.mem (a6 + mcbLen)
  if d2 - d7 ≤ mcbData then some (h, 0)
  else
    let d2 := d2 - d7 - mcbData
    let a0 := a6 + mcbData + d7
    let m := if a5 = 0 then h.mem else h.mem.put (a5 + mcbPrev) a0
    let m := (m.put a0 (m a6)).put a6 ANDR
    let m := (m.put (a6 + mcbLen) d7).put (a0 + mcbLen) d2
    let m := (m.put (a0 + mcbOwner) h.actPd).put (a0 + mcbPrev) a6
    mxfree { h with mem := m } (a0 + mcbData) pd

/-- `Mxshrink`: give the block with data address `memblk` the size `size`;
    size zero frees it, size `-1` only asks for the largest one possible. -/
def mxshrink (h : Heap) (memblk size pd : Nat) : Option (Heap × Int) :=
  if size = 0 then mxfree h memblk pd
  else
    let a6 := mcbOf memblk
    let d1 := h.mem a6
    let d2 := h.mem (a6 + mcbLen)
    if 0xff000000 < a6 then some (h, EIMBA)
    else if h.mem (a6 + mcbOwner) = 0 then some (h, EIMBA)
    else if d1 ≠ KROM ∧ d1 ≠ ANDR then none
    else
      let a5 := if d1 = KROM then 0 else a6 + mcbData + d2
      let d6 := if d1 = ANDR ∧ h.mem (a5 + mcbOwner) = 0 then d2 + mcbData + h.mem (a5 + mcbLen)
        else d2
      if size = 2 ^ 32 - 1 then
        some (h, if pd ≠ 0 ∧ !negative (h.pds pd).pMem then (d2 : Int) else (d6 : Int))
      else
        let d7 := roundUp size
        if d7 = d2 then some (h, 0)
        else if d7 < d2 then mshShrink h a6 a5 d7 pd
        else if h.tosMode then some (h, EGSBF)
        else if d6 < d7 then some (h, EGSBF)
        else if pd ≠ 0 ∧ !negative (h.pds pd).pMem then some (h, EGSBF)
        else
          match meltMcbs h.mem a5 a6 with
          | none => none
          | some m => mshShrink { h with mem := m } a6 a5 d7 pd

end Malloc

end MagiC
