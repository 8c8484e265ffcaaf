import MagiC.Dos.Kernel

/-!
# Handles

The calls that change a handle table, from `magidos.s`: duplicating, redirecting
and closing a handle, handing a table on to a new process, and closing what a
process has open when it ends.

A call gives what the source leaves in `d0`: a handle, no error, or an error.

## Main definitions

* `initHandles`: A new process inherits handles.
-/

namespace MagiC

namespace Dos

/-- The place of a handle in the table. -/
def slotOf (hdl : Int) : Option (Fin HANDLES) :=
  if h : MIN_FHANDLE ≤ hdl ∧ hdl < MAX_OPEN then
    some ⟨(hdl - MIN_FHANDLE).toNat, by
      have hmin : MIN_FHANDLE = -4 := rfl
      have hmax : MAX_OPEN = 32 := rfl
      have hall : HANDLES = 36 := rfl
      omega⟩
  else none

/-- The handle that belongs to a place in the table. -/
def hdlOf (i : Fin HANDLES) : Int := (i : Int) + MIN_FHANDLE

section

variable (k : Kernel) (act : Slot)

/-- The place and the file descriptor of a handle, when it is valid and
something is open there. -/
def hdlToFD (hdl : Int) : Option (Fin HANDLES × Nat) :=
  match slotOf hdl with
  | none => none
  | some i => (entry k (act, i)).map fun f => (i, f)

/-- The first free handle from a place on. Handles of programs are not
inherited. -/
def newHdlFrom (i : Fin HANDLES) : Option (Kernel × Fin HANDLES) :=
  match (List.finRange HANDLES).find? fun j =>
      decide (i ≤ j) && decide (entry k (act, j) = none) with
  | none => none
  | some j => if MIN_OPEN ≤ hdlOf j then some (setFlag k (act, j) 1, j) else some (k, j)

/-- The first free handle of those that belong to the program. -/
def newHdl : Option (Kernel × Fin HANDLES) :=
  newHdlFrom k act ⟨10, by decide⟩

def fdup (hdl : Int) : Kernel × Int :=
  match hdlToFD k act hdl with
  | none => (k, EIHNDL)
  | some (_, f) =>
    match newHdl k act with
    | none => (k, ENHNDL)
    | some (k, i) => (countFd (setEntry k (act, i) (some f)) f, hdlOf i)

/-- `Fcntl` with the command `F_DUPFD`: the first free handle from another one
on. -/
def fcntlDup (hdl least : Int) : Kernel × Int :=
  match hdlToFD k act hdl with
  | none => (k, EIHNDL)
  | some (_, f) =>
    if least < MAX_OPEN - 1 then
      match slotOf least with
      | none => (k, EIHNDL)
      | some j =>
        match newHdlFrom k act j with
        | none => (k, ENHNDL)
        | some (k, i) => (countFd (setEntry k (act, i) (some f)) f, hdlOf i)
    else (k, EIHNDL)

/-- `Fcntl` with the command `F_SETFD`. -/
def fcntlSetfd (hdl : Int) (w : BitVec 16) : Kernel × Int :=
  match hdlToFD k act hdl with
  | none => (k, EIHNDL)
  | some (i, _) => (setFlag k (act, i) w, 0)

/-- `Fforce`: what is open under the first handle is closed, and the handle
gets what is open under the second one. -/
def fforce (stdhdl nstdhdl : Int) : Kernel × Int :=
  match hdlToFD k act nstdhdl with
  | none => (k, EIHNDL)
  | some (_, f) =>
    match hdlToFD k act stdhdl with
    | none => (k, EIHNDL)
    | some (i, g) => (countFd (setEntry (devClose k g) (act, i) (some f)) f, 0)

/-- The device a standard handle goes back to. -/
def defHdl (i : Nat) : Int :=
  match i with
  | 2 => -2
  | 3 => -3
  | _ => -1

/-- The process calls from the MiNT domain. -/
def isMint : Bool :=
  match k.procx act with
  | some pd => pd.mint
  | none => false

/-- The descriptor a closed handle gets: nothing, or outside of the MiNT domain
for a standard handle what is open under the handle of its device. That a device
handle is never empty is taken for granted: `Fclose` would count at address 0. -/
def closed (hdl : Int) : Option Nat :=
  if MIN_OPEN ≤ hdl ∨ isMint k act then none
  else
    match slotOf (defHdl hdl.toNat) with
    | none => none
    | some j => entry k (act, j)

/-- A reference more, when there is a descriptor. -/
def countOpt (f : Option Nat) : Kernel :=
  match f with
  | some f => countFd k f
  | none => k

/-- `Fclose`: devices are not closed. The file driver counts the reference. -/
def fclose (hdl : Int) : Kernel × Int :=
  if hdl < 0 then (k, EIHNDL)
  else
    match hdlToFD k act hdl with
    | none => (k, EIHNDL)
    | some (i, f) =>
      let v := closed k act hdl
      (devClose (setEntry (countOpt k v) (act, i) v) f, 0)

/-- One entry of a table is handed on, if it may be. -/
def inherit (parent child : Slot) (i : Fin HANDLES) : Kernel :=
  match k.procx child, entry k (parent, i) with
  | some pd, some f =>
    if (k.fd f).noinherit then k
    else if !pd.fork && (flagOf k (parent, i)).getLsbD 0 then k
    else
      let k := setEntry (countFd k f) (child, i) (some f)
      setFlag k (child, i) (flagOf k (parent, i))
  | _, _ => k

/-- The loop of `init_pd` over the handles. -/
def initHandles (parent child : Slot) : Kernel :=
  (List.finRange HANDLES).foldl (fun k i => inherit k parent child i) k

/-- One handle of a process that ends. -/
def killHandle (p : Slot) (i : Fin HANDLES) : Kernel :=
  match entry k (p, i) with
  | none => k
  | some f => devClose (setEntry k (p, i) none) f

/-- The loop of `PDkill` over the handles. -/
def killHandles (p : Slot) : Kernel :=
  (List.finRange HANDLES).foldl (fun k i => killHandle k p i) k

end

end Dos

end MagiC
