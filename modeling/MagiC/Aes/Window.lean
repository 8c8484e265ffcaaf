import MagiC.Aes.Merge
import MagiC.Lib.Shared

/-!
# Rectangle Lists of Windows

`alloc_wgrect`, `calc_wgrect_overlaps`, `calc_wind_overlaps`,
`set_wind_wgrect`, `wgfree`, `build_new_wgs` and `get_visb_wg` of `aeswin.s`.

`whdlx` has the handles of the open windows, the topmost first and the desktop
last. A handle with bit 15 set is that of a frozen window, which is not on the
screen. Each window has a list of rectangles, `w_wg`. `build_new_wgs` frees the
lists and goes from the desktop upwards. A window gets one rectangle with its
outline, and each rectangle of each window below it is cut up into what lies
above, to the left, to the right and below the outline. The pieces take the
place of the rectangle in the list that is being walked.

The rectangles come from `wg_freelist`, and the system stops if there are none
left. Lists are cells and links as in `Shared`. The walks have no bound of their
own and carry a fuel argument.

## Main definitions

* `calcWgrectOverlaps`, `calcWindOverlaps`, `setWindWgrect`, `buildNewWgs`: The
  routines of the same names.
-/

namespace MagiC

namespace Aes

namespace Win

open Chains Msg

/-- Where a list of rectangles starts: `wg_freelist`, or `w_wg` of a window. -/
inductive Root where
  | freelist
  | wg (whdl : BitVec 16)
  deriving DecidableEq

/-- The rectangles of a window that stay as they are. -/
structure Window where
  wCurr : Grect
  wOverall : Grect
  wWork : Grect

structure Screen where
  nwindows : BitVec 16
  windx : BitVec 16 → Option Window
  whdlx : List (BitVec 16)
  link : Cell Root Nat → Nat
  grect : Nat → Grect
  covered : BitVec 16 → Bool
  nextwg : BitVec 16 → Nat

/-- Why there is no result: `fatal_w1`, or the bound of a walk. -/
inductive Stop where
  | fatal
  | fuel
  deriving DecidableEq

def whdlToWnd (s : Screen) (whdl : BitVec 16) : Option Window :=
  if whdl < s.nwindows then s.windx whdl else none

def allocWgrect (s : Screen) : Except Stop (Nat × Screen) :=
  let d0 := s.link (.head .freelist)
  if d0 = 0 then .error .fatal
  else .ok (d0, { s with link := Function.update s.link (.head .freelist) (s.link (.elem d0)) })

/-- `__cwo`: a piece beside the cutter, given its left edge and width. -/
def cwo (cutter wg : Grect) (x w : BitVec 16) : Grect :=
  let y := if wg.y.sle cutter.y then cutter.y else wg.y
  let bottom := if (cutter.y + cutter.h).sle (wg.y + wg.h) then cutter.y + cutter.h
    else wg.y + wg.h
  ⟨x, y, w, bottom - y⟩

def oben (cutter wg : Grect) : Option Grect :=
  if cutter.y.sle wg.y then none else some ⟨wg.x, wg.y, wg.w, cutter.y - wg.y⟩

def links (cutter wg : Grect) : Option Grect :=
  if cutter.x.sle wg.x then none else some (cwo cutter wg wg.x (cutter.x - wg.x))

def rechts (cutter wg : Grect) : Option Grect :=
  if (wg.x + wg.w - cutter.x).sle cutter.w then none
  else some (cwo cutter wg (cutter.x + cutter.w) (wg.x + wg.w - cutter.x - cutter.w))

def unten (cutter wg : Grect) : Option Grect :=
  if (wg.y + wg.h - cutter.y).sle cutter.h then none
  else some ⟨wg.x, cutter.y + cutter.h, wg.w, wg.y + wg.h - cutter.y - cutter.h⟩

/-- Whether one of the two lies beside, above or below the other. -/
def apart (cutter wg : Grect) : Bool :=
  (wg.x + wg.w).sle cutter.x || (cutter.x + cutter.w).sle wg.x ||
    (wg.y + wg.h).sle cutter.y || (cutter.y + cutter.h).sle wg.y

/-- If there is a piece on one side, a new `WGRECT` for it between `prev_wg`
    and `wg`, which becomes the new `prev_wg`. -/
def piece (side : Grect → Grect → Option Grect) (cutter wg : Nat) (r : Cell Root Nat × Screen) :
    Except Stop (Cell Root Nat × Screen) :=
  match side (r.2.grect cutter) (r.2.grect wg) with
  | none => .ok r
  | some g =>
    (allocWgrect r.2).map fun (a0, s) =>
      (.elem a0, { s with
        link := Function.update (Function.update s.link r.1 a0) (.elem a0) wg
        grect := Function.update s.grect a0 g })

/-- `wg` is taken out behind `prev_wg` and freed. -/
def dropWg (wg : Nat) (r : Cell Root Nat × Screen) : Screen :=
  { r.2 with link := push (Function.update r.2.link r.1 (r.2.link (.elem wg))) .freelist wg }

/-- The new predecessor, if `wg` was cut up. -/
def calcWgrectOverlaps (cutter wg : Nat) (prevWg : Cell Root Nat) (s : Screen) :
    Except Stop (Option (Cell Root Nat) × Screen) :=
  if apart (s.grect cutter) (s.grect wg) then .ok (none, s)
  else do
    let r ← piece oben cutter wg (prevWg, s)
    let r ← piece links cutter wg r
    let r ← piece rechts cutter wg r
    let r ← piece unten cutter wg r
    .ok (some r.1, dropWg wg r)

/-- `cwio_next`, for the list behind `a3`. -/
def cwioNext (whdl : BitVec 16) (cutter : Nat) :
    Nat → Cell Root Nat → Screen → Except Stop Screen
  | 0, _, _ => .error .fuel
  | fuel + 1, a3, s =>
    let a4 := s.link a3
    if a4 = 0 then .ok s
    else do
      let r ← calcWgrectOverlaps cutter a4 a3 s
      match r with
      | (none, s) => cwioNext whdl cutter fuel (.elem a4) s
      | (some a3, s) =>
        cwioNext whdl cutter fuel a3 { s with covered := Function.update s.covered whdl true }

def calcWindOverlaps (fuel : Nat) (whdl : BitVec 16) (cutter : Nat) (s : Screen) :
    Except Stop Screen :=
  match whdlToWnd s whdl with
  | none => .ok s
  | some _ => cwioNext whdl cutter fuel (.head (.wg whdl)) s

/-- `swg_calcloop`, down to the desktop. -/
def swgCalcloop (fuel cutter : Nat) : List (BitVec 16) → Screen → Except Stop Screen
  | [], s => .ok s
  | whdl :: wlist, s => do
    let s ← (if whdl.msb then .ok s else calcWindOverlaps fuel whdl cutter s)
    if whdl = 0 then .ok s else swgCalcloop fuel cutter wlist s

/-- `wlist` has the windows below, and the window itself first. -/
def setWindWgrect (fuel : Nat) (whdl : BitVec 16) (wlist : List (BitVec 16)) (s : Screen) :
    Except Stop Screen :=
  match whdlToWnd s whdl with
  | none => .ok s
  | some w =>
    if w.wCurr.w = 0 then .ok s
    else if w.wCurr.h = 0 then .ok s
    else do
      let (a0, s) ← allocWgrect s
      let s := { s with
        link := Function.update (Function.update s.link (.head (.wg whdl)) a0) (.elem a0) 0
        grect := Function.update s.grect a0 w.wOverall }
      if whdl = 0 then .ok s else swgCalcloop fuel a0 wlist.tail s

/-- The list of a window goes in front of `wg_freelist`. -/
def wgfree (fuel : Nat) (whdl : BitVec 16) (s : Screen) : Except Stop Screen :=
  let d0 := s.link (.head (.wg whdl))
  if d0 = 0 then .ok s
  else
    match findEnd s.link 0 fuel (.elem d0) with
    | none => .error .fuel
    | some a1 =>
      .ok { s with
        link := Function.update (Function.update (Function.update s.link a1
          (s.link (.head .freelist))) (.head .freelist) d0) (.head (.wg whdl)) 0 }

/-- `bnw_trmloop`: the handles before `a5`, and those from there on. -/
def bnwTrmloop (pre : List (BitVec 16)) : List (BitVec 16) → List (BitVec 16)
  | [] => pre
  | d2 :: rest =>
    if d2.msb then bnwTrmloop (pre ++ [d2]) rest
    else if d2 = 0 then pre ++ d2 :: rest
    else d2 :: pre ++ rest

/-- If the topmost window is frozen, the first one that is not comes to the
    top. -/
def trim : List (BitVec 16) → List (BitVec 16)
  | [] => []
  | d0 :: rest => if d0.msb then bnwTrmloop [d0] rest else d0 :: rest

/-- `bnw_wgfreeloop`. The code clears the bit also if there is no window, at a
    low address. -/
def bnwWgfreeloop (fuel : Nat) : List (BitVec 16) → Screen → Except Stop Screen
  | [], s => .ok s
  | d0 :: rest, s => do
    let whdl := d0 &&& 0x7fff
    let s ← (match whdlToWnd s whdl with
      | none => .ok s
      | some _ => (wgfree fuel whdl s).map fun s =>
        { s with covered := Function.update s.covered whdl false })
    if d0 = 0 then .ok s else bnwWgfreeloop fuel rest s

/-- `bnw_swgloop`, from the desktop upwards. -/
def bnwSwgloop (fuel : Nat) : List (BitVec 16) → Screen → Except Stop Screen
  | [], s => .ok s
  | d0 :: rest, s => do
    let s ← bnwSwgloop fuel rest s
    if d0.msb then .ok s else setWindWgrect fuel d0 (d0 :: rest) s

def buildNewWgs (fuel : Nat) (s : Screen) : Except Stop Screen := do
  let whdlx := trim s.whdlx
  let s ← bnwWgfreeloop fuel whdlx { s with whdlx := whdlx }
  bnwSwgloop fuel whdlx s

/-- One axis of `grects_intersect`: the left end and the width. -/
def meetAxis (x0 w0 x1 w1 : BitVec 16) : BitVec 16 × BitVec 16 :=
  let d0 := if x1.slt x0 then x0 else x1
  let d2 := if (x0 + w0).slt (x1 + w1) then x0 + w0 else x1 + w1
  (d0, d2 - d0)

/-- What `grects_intersect` makes of `dst`, and its result. -/
def meet (src dst : Grect) : Grect × Bool :=
  let x := meetAxis src.x src.w dst.x dst.w
  let y := meetAxis src.y src.h dst.y dst.h
  (⟨x.1, y.1, x.2, y.2⟩, meetSpan src.x src.w dst.x dst.w && meetSpan src.y src.h dst.y dst.h)

/-- `get_visb_wg`: the result, and `w_nextwg`. -/
def getVisbWg (s : Screen) (work : Grect) : Nat → Nat → Grect → Nat → Except Stop (Grect × Nat)
  | 0, _, _, _ => .error .fuel
  | fuel + 1, wg, ret, next =>
    if wg = 0 then .ok ({ ret with w := 0, h := 0 }, next)
    else
      let r := meet work (s.grect wg)
      let wg := s.link (.elem wg)
      if r.2 then .ok (r.1, wg) else getVisbWg s work fuel wg r.1 wg

/-- `get_visb_wg` for a window, from a rectangle on. -/
def visb (fuel : Nat) (whdl : BitVec 16) (w : Window) (wg : Nat) (ret : Grect) (s : Screen) :
    Except Stop (Grect × Screen) :=
  (getVisbWg s w.wWork fuel wg ret (s.nextwg whdl)).map fun (ret, next) =>
    (ret, { s with nextwg := Function.update s.nextwg whdl next })

/-- `WF_FIRSTXYWH`. -/
def wfFirst (fuel : Nat) (whdl : BitVec 16) (w : Window) (ret : Grect) (s : Screen) :
    Except Stop (Grect × Screen) :=
  visb fuel whdl w (s.link (.head (.wg whdl))) ret s

/-- `WF_NEXTXYWH`. -/
def wfNext (fuel : Nat) (whdl : BitVec 16) (w : Window) (ret : Grect) (s : Screen) :
    Except Stop (Grect × Screen) :=
  visb fuel whdl w (s.nextwg whdl) ret s

end Win

end Aes

end MagiC
