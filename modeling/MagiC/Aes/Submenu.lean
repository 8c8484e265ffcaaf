import MagiC.Aes.Popup
import MagiC.Lib.Partial

/-!
# Popup Menus with Submenus

A popup menu is shown until an entry is chosen. An entry may have another popup menu, which is
shown as long as the mouse does not leave the entry or is in that menu. Then the same routine
shows that menu, and it comes back when the mouse has left it.

The routine is one loop with jumps between its parts. A part is a function from the variables
to the next part and the variables. What comes from outside is read from a sequence: the
events, the mouse, the memory and the copies of the screen. Which object is at a position and
where an object is on the screen can be anything.

The menu records are linked in a list, with the null pointer 0. What happens to them is written
down in a log, which nothing reads.

## Main definitions

* `smnPunew`, `smnPudelete`: Menu records are created and deleted.
-/

namespace MagiC

namespace Aes

namespace Smn

namespace Sub

open Obj Partial

-- Events.
def MU_BUTTON : Word := 0x0002
def MU_M1 : Word := 0x0004
def MU_M2 : Word := 0x0008
def MU_TIMER : Word := 0x0020

-- Types, states and flags of objects.
def G_STRING : Word := 28
def DISABLED : Word := 0x0008
def SUBMENU : Word := 2048

/-- The object all others belong to. -/
def ROOT : Nat := 0

def NULL : Nat := 0

/-- A rectangle. -/
structure Grect where
  gX : Word
  gY : Word
  gW : Word
  gH : Word
  deriving DecidableEq

def imin (a b : Word) : Word := if a.toInt < b.toInt then a else b

def imax (a b : Word) : Word := if b.toInt < a.toInt then a else b

def xyInGrect (x y : Word) (g : Grect) : Prop :=
  g.gX.toInt ≤ x.toInt ∧ g.gY.toInt ≤ y.toInt ∧ x.toInt < (g.gX + g.gW).toInt ∧
    y.toInt < (g.gY + g.gH).toInt

instance (x y : Word) (g : Grect) : Decidable (xyInGrect x y g) := by
  unfold xyInGrect
  infer_instance

/-- The mouse. -/
structure Evnt where
  x : Word
  y : Word
  bstate : Word
  kstate : Word

/-- Object trees, with all that is read of the objects of a menu. -/
structure Tree extends Menu where
  obX : Nat → Word
  obWidth : Nat → Word
  obType : Nat → Word

/-- A menu that belongs to entries of others. -/
structure AttachS where
  atTree : Nat
  atRoot : Nat
  atStart : Int
  atScroll : Word
  atCount : Word

/-- A popup menu being shown. -/
structure PopupS extends Popup where
  puTree : Nat
  puRect : Grect
  /-- There is a copy of the screen. -/
  puScrbuf : Bool
  puParent : Nat
  puScroll : Word

/-- What is known of an entry that has been chosen. -/
structure MENU where
  mnTree : Nat
  mnMenu : Int
  mnItem : Int
  mnScroll : Word
  mnKeystate : Word

/-- What has happened. -/
inductive Act where
  /-- A menu record has been created, and one has been deleted. -/
  | opened (p : Nat)
  | freed (p : Nat)
  /-- The screen has been saved, restored, or its copy has been given up. -/
  | saved (p : Nat)
  | restored (p : Nat)
  | dropped (p : Nat)
  /-- The mouse has been found over an object of a menu. -/
  | found (tree root obj : Nat)
  /-- An entry with that state has been chosen. -/
  | chosen (tree root obj : Nat) (state : Word)
  deriving DecidableEq

/-- What the routines change. -/
structure World where
  clock : Nat
  trees : Nat → Tree
  pops : Nat → PopupS
  puChild : Nat → Nat
  popList : Nat
  live : List Nat
  result : MENU
  log : List Act

/-- What the routines do not change. -/
structure Env where
  events : Nat → Word × Evnt
  memory : Nat → Option Nat
  scrgSav : Nat → Bool
  objcFind : Tree → Nat → Word → Word → Option Nat
  objToG : Tree → Nat → Grect
  apAttached : Option (Nat → AttachS)
  bigWchar : Word
  bigHchar : Word
  deskG : Grect
  height : Nat
  drag : Int

/-- The menu bar and its rectangle, if the popup menu hangs on it. -/
abbrev Mgr := Option (Nat × Grect)

abbrev M := StateT World (Except Fault)

section

variable (env : Env)

/-- The next of the things that come from outside. -/
def tick : M Nat := do
  let w ← get
  set { w with clock := w.clock + 1 }
  return w.clock

def note (a : Act) : M Unit := modify fun w => { w with log := w.log ++ [a] }

def evntMulti : M (Word × Evnt) := do
  let t ← tick
  return env.events t

def grafMkstate : M Evnt := do
  let t ← tick
  return (env.events t).2

/-- Memory that is not in use is given out, or none. -/
def smalloc : M Nat := do
  let t ← tick
  let w ← get
  match env.memory t with
  | none => return NULL
  | some p =>
    if p = NULL ∨ p ∈ w.live then return NULL
    else do
      set { w with live := p :: w.live }
      return p

def smfree (p : Nat) : M Unit := do
  let w ← get
  if p ∈ w.live then set { w with live := w.live.erase p } else throw .outside

def waitUntilMbuttonsReleased : Nat → M Unit
  | 0 => throw .endless
  | n + 1 => do
    let e ← grafMkstate env
    if e.bstate = 0 then return () else waitUntilMbuttonsReleased n

/-- Something is done with a menu and its objects. -/
def onTree (p : Nat) (f : Popup → Menu → Except Fault (Popup × Menu)) : M Unit := do
  let w ← get
  let q := w.pops p
  let t := w.trees q.puTree
  let r ← lift (f q.toPopup t.toMenu)
  set { w with
    pops := Function.update w.pops p { q with toPopup := r.1 }
    trees := Function.update w.trees q.puTree { t with toMenu := r.2 } }

/-- Something is changed in a menu record. -/
def onPopup (p : Nat) (f : PopupS → PopupS) : M Unit :=
  modify fun w => { w with pops := Function.update w.pops p (f (w.pops p)) }

/-- Something is changed in an object tree. -/
def onObjects (tree : Nat) (f : Tree → Tree) : M Unit :=
  modify fun w => { w with trees := Function.update w.trees tree (f (w.trees tree)) }

/-- The menu record at the end of the list. -/
def lastPopup (child : Nat → Nat) : Nat → Nat → Except Fault Nat
  | 0, _ => .error .endless
  | n + 1, p => if child p = NULL then .ok p else lastPopup child n (child p)

/-- A menu record is put at the end of the list. -/
def linkPopup (p : Nat) : M Unit := do
  let w ← get
  if w.popList = NULL then
    set { w with popList := p, puChild := Function.update w.puChild p NULL }
  else do
    let last ← lift (lastPopup w.puChild w.live.length w.popList)
    set { w with
      puChild := Function.update (Function.update w.puChild last p) p NULL }

def newPopup (t : Tree) (tree root : Nat) (istart : Int) : PopupS :=
  { Smn.smnPunew t.toMenu root istart with
    puTree := tree
    puRect := ⟨t.obX root, t.obY root, t.obWidth root, t.obHeight root⟩
    puScrbuf := false
    puParent := NULL
    puScroll := 0 }

def smnPunew (tree root : Nat) (istart : Int) : M Nat := do
  let p ← smalloc env
  if p = NULL then return NULL
  else do
    linkPopup p
    modify fun w => { w with
      pops := Function.update w.pops p (newPopup (w.trees tree) tree root istart) }
    note (.opened p)
    return p

/-- The menu record before another one. -/
def parentPopup (child : Nat → Nat) (p : Nat) : Nat → Nat → Except Fault Nat
  | 0, _ => .error .endless
  | n + 1, q =>
    if q = NULL then .error .outside
    else if child q = p then .ok q
    else parentPopup child p n (child q)

/-- A menu record is taken out of the list. -/
def unlinkPopup (p : Nat) : M Unit := do
  let w ← get
  if p = w.popList then set { w with popList := w.puChild p }
  else do
    let q ← lift (parentPopup w.puChild p (w.live.length + 1) w.popList)
    set { w with puChild := Function.update w.puChild q (w.puChild p) }

/-- The copy of the screen is given up. -/
def dropScrbuf (p : Nat) : M Unit := do
  let w ← get
  if (w.pops p).puScrbuf then do
    onPopup p fun q => { q with puScrbuf := false }
    note (.dropped p)
  else return ()

def smnPudelete (p : Nat) : M Unit := do
  onTree p fun q m => do
    let m ← smnTrreset env.bigHchar q m
    return (q, m)
  dropScrbuf p
  unlinkPopup p
  smfree p
  note (.freed p)

def savescr (p : Nat) : M Bool := do
  let t ← tick
  if env.scrgSav t then do
    onPopup p fun q => { q with puScrbuf := true }
    note (.saved p)
    return true
  else return false

def restorescr (p : Nat) : M Bool := do
  let w ← get
  if (w.pops p).puScrbuf then do
    onPopup p fun q => { q with puScrbuf := false }
    note (.restored p)
    return true
  else return false

def smnSavescr (p : Nat) (restore : Bool) : M Bool :=
  if restore then restorescr p else savescr env p

-- The loops of `smnTrxy`.
def raise (lim step : Word) : Nat → Word → Except Fault Word
  | 0, _ => .error .endless
  | n + 1, pos => if pos.toInt < lim.toInt then raise lim step n (pos + step) else .ok pos

def lower (lim step height : Word) : Nat → Word → Except Fault Word
  | 0, _ => .error .endless
  | n + 1, pos =>
    if lim.toInt < (pos + height - 1).toInt then lower lim step height n (pos - step) else .ok pos

def alignX (n : Nat) (width : Word) (rect : Grect) (xpos : Word) : Except Fault Word := do
  let right := env.deskG.gX + env.deskG.gW - env.bigWchar.sdiv 2 - 1
  let xpos := if right.toInt < (xpos + width - 1).toInt then rect.gX - width else xpos
  let xpos ← raise env.bigWchar env.bigWchar n xpos
  return ((xpos + 7).sdiv 8) <<< 3

def alignY (n : Nat) (q : Popup) (m : Menu) (ypos : Word) : Except Fault Word := do
  let ypos := if 0 < q.currIstart ∧ q.currIstart ≠ q.root then ypos - m.obY q.currIstart else ypos
  let ypos ← raise env.deskG.gY env.bigHchar n ypos
  lower (env.deskG.gY + env.deskG.gH - env.bigHchar.sdiv 2 - 1) env.bigHchar (m.obHeight q.root) n
    ypos

/-- The position of the box. -/
def moveBox (t : Tree) (root : Nat) (x y : Word) : Tree :=
  { t with obX := Function.update t.obX root x, obY := Function.update t.obY root y }

def smnTrxy (n p : Nat) (xpos ypos : Word) (rect : Grect) (alignx : Bool) : M Unit := do
  let w ← get
  let q := w.pops p
  let t := w.trees q.puTree
  let xpos ← lift (if alignx then alignX env n (t.obWidth q.root) rect xpos else .ok xpos)
  let ypos ← lift (alignY env n q.toPopup t.toMenu ypos)
  onPopup p fun q => { q with puRect := { q.puRect with gX := xpos, gY := ypos } }
  onObjects q.puTree fun t => moveBox t q.root xpos ypos

def fill (p : Nat) (scroll : Word) : M Unit :=
  if scroll ≠ 0 then onTree p (smnTrset env.height) else return ()

/-- A menu gets its entries and its place, and the screen behind it is saved. -/
def arrange (n p : Nat) (scroll x y : Word) (rect : Grect) (alignx : Bool) : M Bool := do
  onPopup p fun q => { q with puScroll := scroll }
  fill env p scroll
  smnTrxy env n p x y rect alignx
  smnSavescr env p false

/-- The menu that an entry has. -/
def mnAtGet (t : Tree) (obj : Nat) : Option AttachS :=
  if t.obType obj &&& 0xff = G_STRING ∧ t.obFlags obj &&& SUBMENU ≠ 0 then
    let id := (t.obType obj >>> 8).toNat
    if 128 ≤ id ∧ id < 192 then
      match env.apAttached with
      | none => none
      | some attached => if (attached (id - 128)).atCount ≠ 0 then some (attached (id - 128))
        else none
    else none
  else none

/-- The menu of an entry is shown next to it. -/
def openAt (n : Nat) (pat : AttachS) (rect : Grect) : M Nat := do
  let x := ((rect.gX + rect.gW - 1 - env.bigWchar + 7).sdiv 8) <<< 3
  let p ← smnPunew env pat.atTree pat.atRoot pat.atStart
  if p = NULL then return NULL
  else do
    onObjects pat.atTree fun t => moveBox t pat.atRoot x rect.gY
    let ok ← arrange env n p pat.atScroll x rect.gY rect true
    if ok then return p
    else do
      smnPudelete env p
      return NULL

def smnPuopen (n tree : Nat) (item : Option Nat) : M Nat := do
  let w ← get
  match item with
  | none => return NULL
  | some item =>
    if (w.trees tree).obType item &&& 0xff = G_STRING then
      match mnAtGet env (w.trees tree) item with
      | none => return NULL
      | some pat => openAt env n pat (env.objToG (w.trees tree) item)
    else return NULL

def smnPuclose (p : Nat) : M Unit :=
  if p = NULL then return ()
  else do
    let _ ← smnSavescr env p true
    smnPudelete env p

/-- Whether an entry has a menu that can be shown. The depth of the menus is not looked at: its
    function is named there without being called, and the address of a function is not null. -/
def smnIsattach (t : Tree) (iobj popchild : Nat) : Bool :=
  decide (popchild = NULL) && decide (t.obState iobj &&& DISABLED = 0) &&
    (mnAtGet env t iobj).isSome

/-- Whether an object is an arrow. -/
def smnIsupdn (t : Tree) (q : Popup) : Option Nat → Bool
  | none => false
  | some item =>
    decide (t.obType item &&& 0xff = G_STRING) &&
      if item = q.shead then decide (t.text item = smnUptext)
      else if item = q.stail then decide (t.text item = smnDntext)
      else false

/-- The state of an object that is not disabled gets or loses a bit. -/
def menuModify (t : Tree) (objnr : Nat) (statemask : Word) (active : Bool) : Tree :=
  if t.obState objnr &&& DISABLED ≠ 0 then t
  else { t with
    obState := Function.update t.obState objnr
      (if active then t.obState objnr ||| statemask else t.obState objnr &&& ~~~statemask) }

def smnIselect (tree : Nat) (obj ignobj : Option Nat) (addit : Bool) : M Unit :=
  match obj with
  | none => return ()
  | some o =>
    if obj = ignobj then return () else onObjects tree fun t => menuModify t o SELECTED addit

/-- The object the mouse was over before is deselected. -/
def deselect (tree : Nat) (lastmobj mobj : Option Nat) (desel : Bool) : M Unit :=
  if desel then smnIselect tree lastmobj mobj false else return ()

/-- The object of a menu that the mouse is over, if it is not the box. -/
def smnObfind (p : Nat) (e : Evnt) : M (Option Nat) := do
  let w ← get
  match env.objcFind (w.trees (w.pops p).puTree) (w.pops p).root e.x e.y with
  | none => return none
  | some o =>
    if o = ROOT ∨ o = (w.pops p).root then return none
    else do
      note (.found (w.pops p).puTree (w.pops p).root o)
      return some o

/-- The local variables of `smnDopopup`. -/
structure Vars where
  events : Word := 0
  reqmstate : Word := 0
  which : Word := 0
  mkb : Evnt := ⟨0, 0, 0, 0⟩
  mobj : Option Nat := none
  lastmobj : Option Nat := none
  popobj : Option Nat := none
  popchild : Nat := NULL
  openpop : Bool := false
  popisopen : Bool := false
  quit : Bool := false
  popres : Int := -1
  poprect : Grect := ⟨0, 0, 0, 0⟩
  dragrect : Grect := ⟨0, 0, 0, 0⟩
  dragtime : Int := 0
  dragx : Word := 0
  dragy : Word := 0

/-- The parts of `smnDopopup`. -/
inductive Label where
  | start | wait | enter | uvw | xyz | button | timer | next | finish
  deriving DecidableEq

/-- No menu is about to be shown, and the mouse is not on its way to one. -/
def Vars.idle (v : Vars) : Vars :=
  { v with openpop := false, popisopen := false, events := MU_M1 ||| MU_BUTTON }

/-- The mouse is not over an object of the menu. -/
def Vars.outside (mgr : Mgr) (q : PopupS) (v : Vars) : Vars :=
  if q.puParent ≠ NULL ∨ mgr.isSome then { v with events := MU_M2 ||| MU_M1 ||| MU_BUTTON }
  else { v with events := MU_M1 ||| MU_BUTTON }

/-- It is seen whether the object has a menu. -/
def askSubmenu (t : Tree) (obj : Nat) (v : Vars) : Vars :=
  if !v.openpop && smnIsattach env t obj v.popchild then
    { v with
      events := MU_TIMER ||| MU_M1 ||| MU_BUTTON
      openpop := true
      popisopen := false
      popobj := v.mobj }
  else { v with events := MU_M1 ||| MU_BUTTON }

/-- The mouse is over an object of the menu. -/
def overObject (p obj : Nat) (v : Vars) : M Vars := do
  let w ← get
  let tree := (w.pops p).puTree
  if smnIsupdn (w.trees tree) (w.pops p).toPopup v.mobj then do
    smnIselect tree v.mobj v.lastmobj false
    return { v with events := MU_M1 ||| MU_BUTTON }
  else do
    smnIselect tree v.mobj v.lastmobj true
    let w ← get
    return askSubmenu env (w.trees tree) obj v

/-- The object the mouse was over is deselected, and the one it is over is selected. -/
def smnEvobject (mgr : Mgr) (p : Nat) (desel : Bool) (v : Vars) : M Vars := do
  let w ← get
  deselect (w.pops p).puTree v.lastmobj v.mobj desel
  let w ← get
  match v.mobj with
  | none => return v.outside mgr (w.pops p)
  | some obj => overObject env p obj v

def smnIsmstate (v : Vars) : M (Bool × Vars) := do
  let e ← grafMkstate env
  return (decide (v.reqmstate = 0 ↔ e.bstate = 0), { v with mkb := e })

/-- A scrolled menu has another arrow, which is not selected. -/
def freshArrow (was : Bool) (up : Bool) (q : Popup) (t : Tree) : Tree :=
  if up then
    if !was ∧ q.stail ≠ q.tail then
      { t with obState := Function.update t.obState q.stail NORMAL } else t
  else
    if !was ∧ q.shead ≠ q.head then
      { t with obState := Function.update t.obState q.shead NORMAL } else t

/-- The menu is scrolled by one entry. -/
def scrollBy (p : Nat) (obj : Option Nat) : M Unit := do
  let w ← get
  let q := w.pops p
  let wasUparrow := decide (q.shead ≠ q.head)
  let wasDnarrow := decide (q.stail ≠ q.tail)
  let up := wasUparrow && decide (some q.shead = obj)
  let dn := wasDnarrow && decide (some q.stail = obj)
  let curr : Int := q.currIstart - (if up then 1 else 0) + (if dn then 1 else 0)
  let offs := if dn then -env.bigHchar else if up then env.bigHchar else 0
  if curr < 0 then throw .outside
  else if offs = 0 then onPopup p fun q => { q with currIstart := curr.toNat }
  else do
    onTree p fun q m => smnTrudchange env.height q m curr.toNat
    let w ← get
    onObjects q.puTree (if 0 < offs.toInt then freshArrow wasDnarrow true (w.pops p).toPopup
      else freshArrow wasUparrow false (w.pops p).toPopup)

/-- The mouse has left the arrow. -/
def leftArrow (n : Nat) (which : Word) : M Unit :=
  if which &&& MU_M1 ≠ 0 then waitUntilMbuttonsReleased env n else return ()

/-- The menu is scrolled as long as the mouse button is pressed. -/
def smnDoupdn (p : Nat) : Nat → Option Nat → M Unit
  | 0, _ => throw .endless
  | n + 1, obj => do
    scrollBy env p obj
    let r ← evntMulti env
    leftArrow env n r.1
    if r.1 &&& (MU_BUTTON ||| MU_M1) ≠ 0 then return ()
    else if r.1 &&& MU_TIMER ≠ 0 then do
      let w ← get
      let o := env.objcFind (w.trees (w.pops p).puTree) (w.pops p).root r.2.x r.2.y
      smnDoupdn p n (if o = some ROOT ∨ o = some (w.pops p).root then none else o)
    else smnDoupdn p n obj

/-- The rectangle around a menu and the mouse, from one of their sides. -/
def dragSide (pos size m : Word) : Word × Word :=
  if m.toInt ≤ pos.toInt then (imin m pos, pos + size - 1 - imin m pos + 1)
  else (pos, imax (m - pos) size + 1)

/-- The rectangle around a menu and the mouse. -/
def smnDragmin (mx my : Word) (poprect : Grect) : Grect :=
  let x := dragSide poprect.gX poprect.gW mx
  let y := dragSide poprect.gY poprect.gH my
  ⟨x.1, y.1, x.2, y.2⟩

/-- The menu of the entry is taken off the screen. -/
def dropChild (v : Vars) : M Vars := do
  smnPuclose env v.popchild
  return { v with popchild := NULL }

def closeChild (v : Vars) : M Vars :=
  if v.popchild = NULL then return v
  else do
    let v ← dropChild env v
    return { v with openpop := false, popisopen := false }

def start (mgr : Mgr) (p : Nat) (v : Vars) : M (Label × Vars) := do
  let w ← get
  let e ← grafMkstate env
  let mobj ← smnObfind env p e
  let v ← smnEvobject env mgr p false { v with
    events := MU_M1 ||| MU_BUTTON
    dragrect := (w.pops p).puRect
    mkb := e
    reqmstate := if mgr.isSome ∧ e.bstate &&& 1 ≠ 0 then 0 else 1
    mobj := mobj }
  return (.wait, v)

/-- The mouse moves while the menu of an entry is shown. -/
def dragged (v : Vars) : Vars :=
  if v.events ≠ MU_TIMER ||| MU_M2 ||| MU_M1 ||| MU_BUTTON then
    let v := { v with
      events := MU_TIMER ||| MU_M2 ||| MU_M1 ||| MU_BUTTON
      dragtime := 0
      dragrect := smnDragmin v.mkb.x v.mkb.y v.poprect
      dragx := v.mkb.x
      dragy := v.mkb.y
      popobj := v.lastmobj }
    if xyInGrect v.mkb.x v.mkb.y v.dragrect then v else { v.idle with lastmobj := v.popobj }
  else if xyInGrect v.mkb.x v.mkb.y v.dragrect then
    { v with dragrect := smnDragmin v.mkb.x v.mkb.y v.poprect }
  else { v.idle with lastmobj := v.popobj }

/-- The mouse has left an entry or come to the box. -/
def left (mgr : Mgr) (p : Nat) (v : Vars) : M Vars := do
  let v := if v.openpop then v.idle else v
  let v := if v.popisopen then dragged v else v
  if v.popisopen then return v
  else do
    let v ← closeChild env v
    let v ← smnEvobject env mgr p true v
    return if (v.which &&& MU_TIMER ≠ 0 ∨ v.which &&& MU_M2 ≠ 0) ∧ v.openpop then
      { v with which := 0 } else v

/-- Where to go if the mouse has come to the menu of an entry or has been moved. -/
def moved (v : Vars) : M (Label × Vars) := do
  let r ← smnIsmstate env v
  let v := r.2
  return if r.1 then (.xyz, v)
    else if v.openpop ∨ v.popisopen then
      if v.popchild ≠ NULL ∧ xyInGrect v.mkb.x v.mkb.y v.poprect then (.enter, v.idle)
      else (.button, v.idle)
    else (.uvw, v)

-- The conditions of the first two parts of the loop.
def whenM1 (mgr : Mgr) (p : Nat) (v : Vars) : M Vars :=
  if v.quit = false ∧ v.which &&& MU_M1 ≠ 0 then left env mgr p v else return v

def whenM2 (v : Vars) : M (Label × Vars) :=
  if v.quit = false ∧ v.which &&& MU_M2 ≠ 0 then moved env v else return (.button, v)

/-- The top of the loop. -/
def wait (mgr : Mgr) (p : Nat) (v : Vars) : M (Label × Vars) := do
  modify fun w => { w with result := { w.result with mnKeystate := 0 } }
  let r ← evntMulti env
  let mobj ← smnObfind env p r.2
  let v ← whenM1 env mgr p { v with which := r.1, mkb := r.2, lastmobj := v.mobj, mobj := mobj }
  whenM2 env v

/-- Whether the mouse is over a menu further up. -/
def overParent (x y : Word) (pops : Nat → PopupS) : Nat → Nat → Except Fault Bool
  | 0, _ => .error .endless
  | n + 1, parent =>
    if parent = NULL then .ok false
    else if xyInGrect x y (pops parent).puRect then .ok true
    else overParent x y pops n (pops parent).puParent

/-- What a menu of an entry has come back with. -/
def cameBack (p : Nat) (popres : Int) (v : Vars) : M Vars :=
  if popres ≠ -2 then
    return { v with popres := popres, mobj := none, quit := true, which := 0 }
  else do
    let e ← grafMkstate env
    let mobj ← smnObfind env p e
    return { v with popres := popres, mkb := e, mobj := mobj }

/-- What is done when the menu of an entry has come back. -/
def back (n : Nat) (mgr : Mgr) (p : Nat) (popres : Int) (v : Vars) : M Vars := do
  let v ← cameBack env p popres v
  let v ← dropChild env v
  if v.quit then return v
  else if v.mobj = none then do
    let w ← get
    let above ← lift (overParent v.mkb.x v.mkb.y w.pops n (w.pops p).puParent)
    return if above then { v with quit := true, popres := -2, which := 0 } else v
  else smnEvobject env mgr p true v

/-- The menus further up are looked at one after the other. -/
def parents : Nat → Nat → Vars → M (Label × Vars)
  | 0, _, _ => throw .endless
  | n + 1, parent, v =>
    if parent = NULL then return (.button, v)
    else do
      let r ← smnIsmstate env v
      let v := r.2
      let w ← get
      if r.1 then return (.xyz, v)
      else if xyInGrect v.mkb.x v.mkb.y (w.pops parent).puRect then do
        let v ← dropChild env v
        return (.button, { v with
          quit := true
          popres := -2
          which := 0
          events := MU_M1 ||| MU_BUTTON })
      else parents n (w.pops parent).puParent v

/-- The mouse has been moved, and it is not over the menu bar. -/
def elsewhere (n p : Nat) (v : Vars) : M (Label × Vars) := do
  let r ← smnIsmstate env v
  let w ← get
  if r.1 then return (.xyz, r.2) else parents env n (w.pops p).puParent r.2

/-- The mouse has been moved. -/
def uvw (n : Nat) (mgr : Mgr) (p : Nat) (v : Vars) : M (Label × Vars) := do
  let w ← get
  match mgr with
  | none => elsewhere env n p v
  | some (bar, rect) =>
    if xyInGrect v.mkb.x v.mkb.y rect then
      match env.objcFind (w.trees bar) 2 v.mkb.x v.mkb.y with
      | some title =>
        if (w.trees bar).obState title ≠ 0 then
          return (.next, { v with events := MU_M2 ||| MU_M1 ||| MU_BUTTON })
        else do
          let v ← dropChild env v
          return (.finish, { v with
            openpop := false, popisopen := false, quit := true, popres := -1 })
      | none => do
        let v ← dropChild env v
        return (.finish, { v with
          openpop := false, popisopen := false, quit := true, popres := -1 })
    else elsewhere env n p v

/-- An arrow has been clicked at. -/
def clickedArrow (n : Nat) (mgr : Mgr) (p : Nat) (v : Vars) : M (Label × Vars) := do
  smnDoupdn env p n v.mobj
  let e ← grafMkstate env
  let mobj ← smnObfind env p e
  let v ← smnEvobject env mgr p false { v with mkb := e, mobj := mobj, lastmobj := none }
  return if v.mobj = none then (.uvw, { v with which := 0 }) else (.timer, v)

/-- Anything else has been clicked at. -/
def clickedEntry (p : Nat) (v : Vars) : M (Label × Vars) := do
  let v ← closeChild env v
  modify fun w => { w with result :=
    { mnTree := (w.pops p).puTree
      mnMenu := (w.pops p).root
      mnItem := match v.mobj with
        | none => -1
        | some o => o
      mnScroll := (w.pops p).puScroll
      mnKeystate := v.mkb.kstate } }
  return (.finish, { v with popres := if v.mobj = none then -1 else 0 })

/-- The mouse button has been pressed or released. -/
def xyz (n : Nat) (mgr : Mgr) (p : Nat) (v : Vars) : M (Label × Vars) := do
  let v := if v.openpop ∨ v.popisopen then
    { v.idle with mobj := if v.popisopen then v.popobj else v.mobj } else v
  let w ← get
  if smnIsupdn (w.trees (w.pops p).puTree) (w.pops p).toPopup v.mobj then
    clickedArrow env n mgr p v
  else clickedEntry env p v

def button (v : Vars) : M (Label × Vars) := do
  if v.quit then return (.timer, v)
  else if v.which &&& MU_BUTTON ≠ 0 then return (.xyz, { v with reqmstate := 1 })
  else do
    let r ← smnIsmstate env v
    return if r.1 then (.xyz, { r.2 with reqmstate := 1 }) else (.timer, r.2)

/-- The mouse has stayed long enough over an entry with a menu. -/
def expired (n p : Nat) (v : Vars) : M Vars := do
  let v := v.idle
  if v.popobj = v.mobj then do
    let w ← get
    let c ← smnPuopen env n (w.pops p).puTree v.mobj
    let w ← get
    return if c = NULL then { v with popchild := c }
      else { v with
        popchild := c
        popisopen := true
        poprect := (w.pops c).puRect
        popobj := v.mobj
        events := MU_M2 ||| MU_M1 ||| MU_BUTTON }
  else return { v with popobj := none }

/-- The mouse does not go on to the menu of the entry. -/
def stopped (mgr : Mgr) (p : Nat) (v : Vars) : M Vars := do
  let v ← closeChild env { v.idle with lastmobj := v.popobj }
  smnEvobject env mgr p true v

/-- Whether the mouse still moves, and not straight up or down. -/
def Vars.moves (v : Vars) : Prop :=
  ¬ (v.mkb.x = v.dragx ∧ v.mkb.y = v.dragy) ∧
    ¬ ((v.mkb.x = v.dragx ∨ (v.dragx - 4).toInt ≤ v.mkb.x.toInt ∧
      v.mkb.x.toInt ≤ (v.dragx + 4).toInt) ∧ v.mkb.y ≠ v.dragy)

instance (v : Vars) : Decidable v.moves := by
  unfold Vars.moves
  infer_instance

def timer (n : Nat) (mgr : Mgr) (p : Nat) (v : Vars) : M (Label × Vars) := do
  if v.quit ∨ v.which &&& MU_TIMER = 0 then return (.next, v)
  else if v.openpop then do
    let v ← expired env n p v
    return (.next, v)
  else if v.popisopen then do
    let v' := { v with dragtime := v.dragtime + 150 }
    if v'.dragtime < env.drag then do
      let v'' := { v' with dragx := v.mkb.x, dragy := v.mkb.y }
      if v.moves then return (.next, v'')
      else do
        let v ← stopped env mgr p v''
        return (.next, v)
    else do
      let v ← stopped env mgr p v'
      return (.next, v)
  else return (.next, v)

def part (n : Nat) (mgr : Mgr) (p : Nat) (v : Vars) : Label → M (Label × Vars)
  | .start => start env mgr p v
  | .wait => wait env mgr p v
  | .uvw => uvw env n mgr p v
  | .xyz => xyz env n mgr p v
  | .button => button env v
  | .timer => timer env n mgr p v
  | .next => return (if v.quit then .finish else .wait, v)
  | .enter => return (.enter, v)
  | .finish => return (.finish, v)

def finish (p : Nat) (v : Vars) : M Int := do
  let w ← get
  match v.mobj with
  | none => return v.popres
  | some o =>
    if (w.pops p).root ≠ o ∧ v.popres ≠ -1 ∧ v.popres ≠ -2 then
      let state := (w.trees (w.pops p).puTree).obState o
      if state &&& DISABLED = 0 then do
        note (.chosen (w.pops p).puTree (w.pops p).root o state)
        return o
      else return -1
    else return v.popres

/-- The entry whose menu is entered is the one that is selected. -/
def Vars.entered (t : Tree) (v : Vars) : Vars :=
  match v.popobj with
  | none => v
  | some o =>
    if 0 < o ∧ t.obState o &&& SELECTED ≠ 0 then { v with lastmobj := v.popobj } else v

/-- The menu of the entry is entered. -/
def enter (p : Nat) (v : Vars) : M Vars := do
  onPopup v.popchild fun q => { q with puParent := p }
  let w ← get
  return v.entered (w.trees (w.pops p).puTree)

/-- `smnDopopup` from one of its parts on. -/
def smnDopopup (mgr : Mgr) : Nat → Nat → Label → Vars → M Int
  | 0, _, _, _ => throw .endless
  | n + 1, p, .enter, v => do
    let v ← enter p v
    let popres ← smnDopopup mgr n v.popchild .start {}
    let v ← back env n mgr p popres v
    smnDopopup mgr n p .button v
  | _ + 1, p, .finish, v => finish p v
  | n + 1, p, l, v => do
    let r ← part env n mgr p v l
    smnDopopup mgr n p r.1 r.2

/-- A menu is shown, if the screen behind it has been saved. -/
def showPopup (n p : Nat) (ok : Bool) : M Int :=
  if ok then do
    let popres ← smnDopopup env none n p .start {}
    let _ ← smnSavescr env p true
    return popres
  else return -2

/-- A menu record that has been created is shown and deleted. -/
def runPopup (n p : Nat) (xpos ypos scroll : Word) : M Int :=
  if p = NULL then return -1
  else do
    let ok ← arrange env n p scroll xpos ypos ⟨0, 0, 0, 0⟩ false
    let popres ← showPopup env n p ok
    smnPudelete env p
    return popres

/-- The popup menu that does not hang on the menu bar. -/
def userPopup (n : Nat) (xpos ypos : Word) (mdesc : MENU) : M Int := do
  waitUntilMbuttonsReleased env n
  let root ← lift (if mdesc.mnMenu < 0 then .error .outside else .ok mdesc.mnMenu.toNat)
  let p ← smnPunew env mdesc.mnTree root mdesc.mnItem
  let popres ← runPopup env n p xpos ypos mdesc.mnScroll
  waitUntilMbuttonsReleased env n
  return popres

/-- The menu of the menu bar, or the popup menu of a program. -/
def anyPopup (n : Nat) (xpos ypos : Word) (mdesc : MENU) (mgrpopup : Nat) : Mgr → M Int
  | none => userPopup env n xpos ypos mdesc
  | mgr => smnDopopup env mgr n mgrpopup .start {}

def smnPopup (n : Nat) (xpos ypos : Word) (mdesc : MENU) (mgr : Mgr) (mgrpopup : Nat) : M Int := do
  let popres ← anyPopup env n xpos ypos mdesc mgrpopup mgr
  if popres < 0 then do
    modify fun w => { w with result :=
      { w.result with mnTree := NULL, mnMenu := -1, mnItem := -1, mnScroll := 0 } }
    return if mgr.isSome ∧ popres = -1 then 1 else 0
  else return 1

end

end Sub

end Smn

end Aes

end MagiC
