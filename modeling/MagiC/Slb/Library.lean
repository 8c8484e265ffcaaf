import Mathlib.Logic.Function.Basic
import Mathlib.Data.List.Basic

/-!
# Shared Libraries

Libraries that are loaded when the first process opens them and removed when the last one
closes them.

A library is a process of its own. Its function for the beginning is called as this process,
and it may open other libraries. Removing a library ends its process, which closes what that
has opened. So the routines call themselves, and what they have to go on with is kept on a
stack. A step goes on with the routine on top of the stack as far as the next call.

The list of the libraries is kept as a list. A library with no memory any more that is looked
at is what must not happen, and the machine stops there.

## Main definitions

* `openLib`, `slbclose`, `slbfree`: A library is opened, closed and removed.
-/

namespace MagiC

namespace Slb

/-- So many processes use a library. -/
def NPDL : Nat := 64

/-- The beginning of the text of a library. -/
def SLB_MAGIC : Nat := 0x70004afc

abbrev Name := List (BitVec 8)

/-- The header of a library. -/
structure Header where
  slbMagic : Nat
  slbName : Name
  slbVersion : Nat

/-- A loaded library. Its header is behind the basepage of its process. -/
structure Lslb where
  lslbSlb : Nat
  lslbRefcnt : Nat
  lslbPdtab : List Nat

/-- What a routine has to go on with. -/
inductive Frame where
  /-- `slb_close_all` for the process, and the library it has come to. -/
  | closing (pd a6 : Nat)
  /-- `PDkill` frees the memory of the process when its libraries have been closed. -/
  | dying (pd : Nat)
  /-- `Slbopen` waits for a library to be initialised. -/
  | initing (pd lslb bp : Nat)
  deriving DecidableEq

/-- The state. A block of memory has an owner. -/
structure State where
  lslbList : List Nat
  lslbs : Nat → Option Lslb
  slbs : Nat → Header
  blocks : List (Nat × Nat)
  stack : List Frame
  /-- A library that has been released has been accessed. -/
  gone : Bool

/-- What comes of loading a file: its basepage, the data and the environment of the process, and
    memory for the library. The last two may be missing. -/
inductive Load where
  | error
  | loaded (bp procdata env lslb : Nat) (slb : Header)

/-- What may be called. The results are those of the functions of the library. -/
inductive Label where
  | slbopen (pd : Nat) (name : Name) (minVer : Nat) (load : Load) (opened : Int)
  | inited (result opened : Int)
  /-- No handle stands for all libraries. -/
  | slbclose (pd : Nat) (handle : Option Nat)
  | pterm (pd : Nat)
  /-- The routine on top of the stack goes on. -/
  | goOn

/-- The entry of a process in a table, and the first free entry. -/
def lslbPdsearch (tab : List Nat) (pd : Nat) : Option Nat × Option Nat :=
  (tab.findIdx? fun e => decide (e ≠ 0 ∧ e = pd), tab.findIdx? fun e => decide (e = 0))

/-- The library behind another one. -/
def lslbNext : List Nat → Nat → Nat
  | [], _ => 0
  | x :: xs, l => if x = l then xs.headD 0 else lslbNext xs l

def State.mxfree (s : State) (a : Nat) : State :=
  { s with blocks := s.blocks.filter fun b => decide (b.1 ≠ a) }

/-- All memory of a process is freed. -/
def State.pfree (s : State) (pd : Nat) : State :=
  { s with
    blocks := s.blocks.filter fun b => decide (b.2 ≠ pd)
    lslbs := fun l => if (l, pd) ∈ s.blocks then none else s.lslbs l }

def State.pdkill (s : State) (pd : Nat) : State :=
  { s with stack := .closing pd (s.lslbList.headD 0) :: .dying pd :: s.stack }

/-- A library is taken out of the list and released, and its process is removed. -/
def State.slbfree (s : State) (l : Nat) : State :=
  if l ∈ s.lslbList then
    match s.lslbs l with
    | none => { s with gone := true }
    | some r =>
      ({ s with
        lslbList := s.lslbList.erase l
        lslbs := Function.update s.lslbs l none }.mxfree l).pdkill r.lslbSlb
  else s

/-- A library that is in the list is opened. -/
def State.openLib (s : State) (pd l : Nat) (opened : Int) : State :=
  match s.lslbs l with
  | none => { s with gone := true }
  | some r =>
    match lslbPdsearch r.lslbPdtab pd with
    | (some _, _) => s
    | (none, none) => s
    | (none, some i) =>
      if opened < 0 then
        if r.lslbRefcnt = 0 then s.slbfree l else s
      else { s with
        lslbs := Function.update s.lslbs l (some { r with
          lslbPdtab := r.lslbPdtab.set i pd
          lslbRefcnt := r.lslbRefcnt + 1 }) }

def State.slbclose (s : State) (l pd : Nat) : State :=
  match s.lslbs l with
  | none => { s with gone := true }
  | some r =>
    match (lslbPdsearch r.lslbPdtab pd).1 with
    | none => s
    | some i =>
      let r' := { r with lslbPdtab := r.lslbPdtab.set i 0, lslbRefcnt := r.lslbRefcnt - 1 }
      let s' := { s with lslbs := Function.update s.lslbs l (some r') }
      if r'.lslbRefcnt = 0 then s'.slbfree l else s'

/-- What comes of the search for a loaded library. -/
inductive Found where
  | none
  | tooOld
  | lib (l : Nat)
  | gone

section

variable (stricmp : Name → Name → Bool)

def State.lookup (s : State) (name : Name) (minVer : Nat) : List Nat → Found
  | [] => .none
  | l :: ls =>
    match s.lslbs l with
    | none => .gone
    | some r =>
      if stricmp (s.slbs r.lslbSlb).slbName name then
        if minVer ≤ (s.slbs r.lslbSlb).slbVersion then .lib l else .tooOld
      else s.lookup name minVer ls

/-- Memory that is in use is not given out. -/
def State.Unused (s : State) (a : Nat) : Prop := a ≠ 0 ∧ ∀ b ∈ s.blocks, b.1 ≠ a

instance (s : State) (a : Nat) : Decidable (s.Unused a) := by
  unfold State.Unused
  infer_instance

/-- The memory of a file that has been loaded. -/
def Fresh (s : State) (bp procdata env lslb : Nat) : Prop :=
  s.Unused bp ∧ s.Unused procdata ∧ (env = 0 ∨ s.Unused env) ∧ (lslb = 0 ∨ s.Unused lslb) ∧
    bp ≠ procdata ∧ bp ≠ env ∧ bp ≠ lslb ∧ procdata ≠ env ∧ procdata ≠ lslb ∧
    (env = lslb → env = 0)

instance (s : State) (bp procdata env lslb : Nat) : Decidable (Fresh s bp procdata env lslb) := by
  unfold Fresh
  infer_instance

/-- The blocks a file is loaded to. -/
def blocksOf (bp procdata env pd : Nat) : List (Nat × Nat) :=
  [(bp, pd), (procdata, pd)] ++ if env = 0 then [] else [(env, pd)]

/-- A file that is no library is taken out of the memory again. -/
def State.sboFree (s : State) (bp env : Nat) : State := (s.mxfree env).mxfree bp

/-- A file has been loaded. The library, if it is one, is initialised next. -/
def State.init (s : State) (pd minVer bp procdata env lslb : Nat) (slb : Header) : State :=
  if slb.slbMagic ≠ SLB_MAGIC ∨ slb.slbVersion < minVer then
    { s with blocks := blocksOf bp procdata env pd ++ s.blocks }.sboFree bp env
  else if lslb = 0 then
    { s with blocks := blocksOf bp procdata env bp ++ s.blocks }.sboFree bp env
  else { s with
    blocks := (lslb, bp) :: blocksOf bp procdata env bp ++ s.blocks
    slbs := Function.update s.slbs bp slb
    stack := .initing pd lslb bp :: s.stack }

/-- Who may call. A library opens others while it is initialised. -/
def State.MayOpen (s : State) (pd : Nat) : Prop :=
  match s.stack with
  | [] => True
  | .initing _ _ bp :: _ => bp = pd
  | _ => False

instance (s : State) (pd : Nat) : Decidable (s.MayOpen pd) := by
  unfold State.MayOpen
  split
  · infer_instance
  · infer_instance
  · infer_instance

def State.slbopen (s : State) (pd : Nat) (name : Name) (minVer : Nat) (load : Load) (opened : Int) :
    Option State :=
  match s.lookup stricmp name minVer s.lslbList with
  | .gone => some { s with gone := true }
  | .tooOld => some s
  | .lib l => some (s.openLib pd l opened)
  | .none =>
    match load with
    | .error => some s
    | .loaded bp procdata env lslb slb =>
      if Fresh s bp procdata env lslb then some (s.init pd minVer bp procdata env lslb slb)
      else none

def State.inited (s : State) (result opened : Int) : Option State :=
  match s.stack with
  | .initing pd l bp :: rest =>
    let s := { s with stack := rest }
    some <| if result < 0 then (s.mxfree l).pdkill bp
      else { s with
        lslbList := l :: s.lslbList
        lslbs := Function.update s.lslbs l (some ⟨bp, 0, List.replicate NPDL 0⟩) }.openLib pd l
          opened
  | _ => none

/-- The routine on top of the stack goes on. -/
def State.goOn (s : State) : Option State :=
  match s.stack with
  | .closing pd a6 :: rest =>
    if a6 = 0 then some { s with stack := rest }
    else
      match s.lslbs a6 with
      | none => some { s with gone := true }
      | some _ =>
        some ({ s with stack := .closing pd (lslbNext s.lslbList a6) :: rest }.slbclose a6 pd)
  | .dying pd :: rest => some ({ s with stack := rest }.pfree pd)
  | _ => none

/-- A process that is not that of a library. -/
def State.User (s : State) (pd : Nat) : Prop :=
  ∀ l ∈ s.lslbList, (s.lslbs l).all fun r => decide (r.lslbSlb ≠ pd)

instance (s : State) (pd : Nat) : Decidable (s.User pd) := by
  unfold State.User
  infer_instance

/-- A step of the machine, if there is one. -/
def step (s : State) : Label → Option State
  | .slbopen pd name minVer load opened =>
    if s.gone ∨ pd = 0 ∨ ¬ s.MayOpen pd then none
    else s.slbopen stricmp pd name minVer load opened
  | .inited result opened => if s.gone then none else s.inited result opened
  | .slbclose pd handle =>
    if s.gone ∨ pd = 0 ∨ s.stack ≠ [] then none
    else
      match handle with
      | none => some { s with stack := [.closing pd (s.lslbList.headD 0)] }
      | some l => some (s.slbclose l pd)
  | .pterm pd =>
    if s.gone ∨ pd = 0 ∨ s.stack ≠ [] ∨ ¬ s.User pd then none else some (s.pdkill pd)
  | .goOn => if s.gone then none else s.goOn

end

/-- No library is loaded. -/
def State.start : State := ⟨[], fun _ => none, fun _ => ⟨0, [], 0⟩, [], [], false⟩

end Slb

end MagiC
