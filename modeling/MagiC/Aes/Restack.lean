import Mathlib.Data.BitVec
import Mathlib.Data.List.Nodup
import Mathlib.Tactic.Common

/-!
# Restacking Windows

`wind_set` with `WF_TOP`, `WF_BOTTOM`, `WF_STACK`, `WF_TOPALL` and `WF_BOTTOMALL`, and
`wind_rearrange` of `aeswin.s`.

`whdlx` has the handles of the open windows, the topmost first, then 0 for the desktop. A
window is moved by taking it out and putting it in again at a position. `WF_STACK` looks for
the position of another window and asks for the next one. But that position is the one before
the window is taken out. If the window comes from above the other one, everything below it
has moved up by one, and the window ends up one position too low. Only at the end of the list
the position is corrected.

What is drawn and who becomes active is left out. A walk that does not find the desktop would read
what is behind `whdlx`. There it has no result.

## Main definitions

* `Clear`: No window is frozen or hidden.

## Theorems

* `windSet_iff`: When the windows are in the order that is asked for.
-/

namespace MagiC

namespace Aes

namespace Restack

abbrev Hdl := BitVec 16

def MAX_NWIND : Nat := 64

def NAPPS : Nat := 126

/-- The application a window belongs to, its upper edge, and whether it is open. -/
structure Wnd where
  owner : Nat
  gy : BitVec 16
  opened : Bool

/-- The list of windows, and the delayed actions: the window that is waited for, the one that
goes to the back, and whether it is too late. -/
structure Stack where
  whdlx : List Hdl
  nwindows : Nat
  windx : Hdl → Option Wnd
  scrH : BitVec 16
  applx : Nat → Bool
  bdropThdl : Hdl
  bdropHdl : Hdl
  bdropLate : Bool
  topallThdl : Hdl
  topallLate : Bool

def whdlToWnd (s : Stack) (h : Hdl) : Option Wnd :=
  if h.toNat < s.nwindows then s.windx h else none

/-- `wind_stack_getpos`, from position `d1` on. -/
def wstposLoop (d0 : Hdl) : List Hdl → (d1 : Nat) → Option (Option Nat)
  | [], _ => none
  | h :: l, d1 =>
    if d0 = h then some (some d1) else if h = 0 then some none else wstposLoop d0 l (d1 + 1)

/-- `_wcl_loop`: the position of a window. -/
def wclLoop (whdl : Hdl) : List Hdl → Option Nat
  | [] => none
  | h :: l => if h = 0 then none else if h = whdl then some 0 else (wclLoop whdl l).map (· + 1)

/-- `_wind_close`: the entries behind a window move up, and the last one stays. -/
def windClose (whdl : Hdl) (l : List Hdl) : Option (List Hdl) :=
  (wclLoop whdl l).map fun i => l.eraseIdx i ++ l.getLast?.toList

/-- `_wind_to_stackpos`: the entries from a position on move down. -/
def windToStackpos (nwindows : Nat) (whdl : Hdl) (pos : Nat) (l : List Hdl) : List Hdl :=
  l.take pos ++ whdl :: ((l.drop pos).take (nwindows - 1 - pos) ++ l.drop nwindows)

/-- `wrear_loop1`: the position of the desktop and that of a window. -/
def wrearLoop1 (d7 : Hdl) : List Hdl → (d0 : Nat) → (d5 : Option Nat) → Option (Nat × Option Nat)
  | [], _, _ => none
  | h :: l, d0, d5 =>
    let d5 := if h = d7 then some d0 else d5
    if h = 0 then some (d0, d5) else wrearLoop1 d7 l (d0 + 1) d5

/-- `rearr_whloop`: the position of the next window that is not hidden. -/
def rearrWhloop (s : Stack) (d4 : Nat) : List Hdl → (d1 : Nat) → Option Nat
  | [], _ => none
  | h :: l, d1 =>
    if d4 < d1 then none
    else if h.msb then rearrWhloop s d4 l (d1 + 1)
    else if h = 0 then none
    else
      match whdlToWnd s h with
      | none => rearrWhloop s d4 l (d1 + 1)
      | some w => if s.scrH ≤ w.gy then rearrWhloop s d4 l (d1 + 1) else some d1

/-- `rearr_hloop2`: the window at a position comes behind the topmost one, and those in
between move down. -/
def rearrHloop2 (k : Nat) (l : List Hdl) : List Hdl :=
  l.take 1 ++ (l.drop k).take 1 ++ ((l.drop 1).take (k - 1) ++ l.drop (k + 1))

/-- `wind_rearrange`. The position is a word. -/
def windRearrange (s : Stack) (d7 : Hdl) (newpos : Nat) : Option Stack :=
  if d7 = 0 then some s
  else
    match wrearLoop1 d7 s.whdlx 0 none with
    | none => none
    | some (_, none) => some s
    | some (d0, some d5) =>
      let d4 := if newpos < d0 then newpos else d0 - 1
      let move (l : List Hdl) :=
        (windClose d7 l).map fun l => { s with whdlx := windToStackpos s.nwindows d7 d4 l }
      if d4 = d5 then some s
      else if d5 < d4 ∧ d5 = 0 then
        match rearrWhloop s d4 (s.whdlx.drop 1) 1 with
        | none => some s
        | some k => move (rearrHloop2 k s.whdlx)
      else move s.whdlx

/-- `get_next_window`: the window of an application below another one, the topmost one, or
the last one. -/
def getNextWindow (s : Stack) (ap : Nat) : (d2 : Hdl) → List Hdl → (ret : Hdl) → Option Hdl
  | _, [], _ => none
  | d2, h :: l, ret =>
    if h = 0 then some ret
    else if h.msb then getNextWindow s ap d2 l ret
    else if d2 ≠ 0 ∧ d2.msb = false then
      if d2 = h then getNextWindow s ap 0 l ret else getNextWindow s ap d2 l ret
    else
      match whdlToWnd s h with
      | none => getNextWindow s ap d2 l ret
      | some w =>
        if w.owner ≠ ap then getNextWindow s ap d2 l ret
        else if d2.msb then getNextWindow s ap d2 l h
        else some h

/-- `ws_topall_loop`, with the number of windows that have been moved and the last one. -/
def topallLoop (ap : Nat) : (fuel : Nat) → Stack → (n : Nat) → (last : Hdl) → Option Stack
  | 0, _, _, _ => none
  | fuel + 1, s, n, last =>
    match getNextWindow s ap last s.whdlx 0 with
    | none => none
    | some d0 =>
      if d0 = 0 then some s
      else
        match whdlToWnd s d0 with
        | none => some s
        | some _ => (windRearrange s d0 n).bind fun s => topallLoop ap fuel s (n + 1) d0

/-- `wsba_loop1`: the position of the desktop. -/
def wsbaLoop1 : List Hdl → Option Nat
  | [] => none
  | h :: l => if h = 0 then some 0 else (wsbaLoop1 l).map (· + 1)

/-- `wsba_loop2`, from a position upwards, with the position a window goes to. -/
def wsbaLoop2 (ap : Nat) : (a2 : Nat) → (d6 : Nat) → Stack → Option Stack
  | 0, _, s => some s
  | a2 + 1, d6, s =>
    let d0 := s.whdlx.getD a2 0
    if d0.msb then wsbaLoop2 ap a2 d6 s
    else
      match whdlToWnd s d0 with
      | none => wsbaLoop2 ap a2 d6 s
      | some w =>
        if w.owner ≠ ap then wsbaLoop2 ap a2 d6 s
        else if d6 = 0 ∧ s.whdlx.getD 0 0 = d0 then wsbaLoop2 ap a2 (d6 - 1) s
        else (windRearrange s d0 d6).bind (wsbaLoop2 ap a2 (d6 - 1))

def wsTopallD6 (fuel : Nat) (s : Stack) (ap : Nat) : Option (Stack × Bool) :=
  (topallLoop ap fuel s 0 0).map fun s => (s, true)

def wsTopall (fuel : Nat) (s : Stack) (ap : Nat) : Option (Stack × Bool) :=
  if NAPPS ≤ ap ∨ s.applx ap = false then some (s, false) else wsTopallD6 fuel s ap

def wsBottomall (s : Stack) (ap : Nat) : Option (Stack × Bool) :=
  (wsbaLoop1 s.whdlx).bind fun n => (wsbaLoop2 ap n (n - 1) s).map fun s => (s, true)

def wsBack (s : Stack) (d7 : Hdl) (w : Wnd) : Option (Stack × Bool) :=
  if w.opened = false then some (s, false)
  else (windRearrange s d7 0xffff).map fun s => (s, true)

/-- `ws_top`. A delayed action for this window is done instead, if it is not too late. -/
def wsTop (fuel : Nat) (s : Stack) (d7 : Hdl) (w : Wnd) : Option (Stack × Bool) :=
  if w.opened = false then some (s, false)
  else if d7 = s.bdropThdl ∧ s.bdropLate = false then
    (windRearrange { s with bdropThdl := 0 } s.bdropHdl 0xffff).map fun s => (s, true)
  else
    let s := { s with bdropThdl := 0 }
    let late := s.topallLate
    if d7 = s.topallThdl ∧ late = false then wsTopallD6 fuel { s with topallThdl := 0 } w.owner
    else (windRearrange { s with topallThdl := 0 } d7 0).map fun s => (s, true)

def wsStack (fuel : Nat) (s : Stack) (d7 : Hdl) (w : Wnd) (above : Hdl) : Option (Stack × Bool) :=
  if above = 0 then wsBack s d7 w
  else if above.msb then wsTop fuel s d7 w
  else
    match wstposLoop above s.whdlx 0 with
    | none => none
    | some none => some (s, false)
    | some (some d0) => (windRearrange s d7 (d0 + 1)).map fun s => (s, true)

/-- What is asked for. -/
inductive Call where
  | top (whdl : Hdl)
  | bottom (whdl : Hdl)
  | stack (whdl above : Hdl)
  | topall (whdl : Hdl) (ap : Nat)
  | bottomall (whdl : Hdl) (ap : Nat)

def Call.whdl : Call → Hdl
  | .top whdl | .bottom whdl | .stack whdl _ | .topall whdl _ | .bottomall whdl _ => whdl

def windSet (fuel : Nat) (s : Stack) (c : Call) : Option (Stack × Bool) :=
  match whdlToWnd s c.whdl with
  | none => some (s, false)
  | some w =>
    match c with
    | .top whdl => wsTop fuel s whdl w
    | .bottom whdl => wsBack s whdl w
    | .stack whdl above => wsStack fuel s whdl w above
    | .topall _ ap => wsTopall fuel s ap
    | .bottomall _ ap => wsBottomall s ap

/-- The open windows, as `whdlx` holds them: each once, and the desktop behind them within
the number of windows. -/
structure Holds (s : Stack) (S : List Hdl) : Prop where
  eq : ∃ g, s.whdlx = S ++ 0 :: g
  length : s.whdlx.length = MAX_NWIND
  fits : S.length < s.nwindows
  max : s.nwindows ≤ MAX_NWIND
  nodup : S.Nodup
  nonzero : 0 ∉ S

/-- The windows are open, and none is frozen or hidden. -/
def Clear (s : Stack) (S : List Hdl) : Prop :=
  ∀ h ∈ S, h.msb = false ∧ ∃ w, whdlToWnd s h = some w ∧ w.opened = true ∧ ¬ s.scrH ≤ w.gy

def Own (s : Stack) (ap : Nat) (h : Hdl) : Prop := (whdlToWnd s h).map Wnd.owner = some ap

instance (s : Stack) (ap : Nat) (h : Hdl) : Decidable (Own s ap h) :=
  inferInstanceAs (Decidable (_ = _))

/-- A window is at a position, and the others keep their order. -/
def placed (S : List Hdl) (d7 : Hdl) (pos : Nat) : List Hdl :=
  (S.erase d7).take pos ++ d7 :: (S.erase d7).drop pos

def wanted (s : Stack) (S : List Hdl) : Call → List Hdl
  | .top whdl => whdl :: S.erase whdl
  | .bottom whdl => S.erase whdl ++ [whdl]
  | .stack whdl above => placed S whdl ((S.erase whdl).idxOf above + 1)
  | .topall _ ap => S.filter (Own s ap) ++ S.filter (¬ Own s ap ·)
  | .bottomall _ ap => S.filter (¬ Own s ap ·) ++ S.filter (Own s ap)

/-- The windows are open, no delayed action is waiting for the window, and the application
exists. -/
def Legal (s : Stack) (S : List Hdl) : Call → Prop
  | .top whdl => whdl ∈ S ∧ (whdl = s.bdropThdl → s.bdropLate = true) ∧
      (whdl = s.topallThdl → s.topallLate = true)
  | .bottom whdl => whdl ∈ S
  | .stack whdl above => whdl ∈ S ∧ above ∈ S ∧ above ≠ whdl
  | .topall whdl ap => (∃ w, whdlToWnd s whdl = some w) ∧ ap < NAPPS ∧ s.applx ap = true
  | .bottomall whdl _ => ∃ w, whdlToWnd s whdl = some w

/-- A window that goes below another one comes from below it, or the other one is the last. -/
def Below (S : List Hdl) : Call → Prop
  | .stack whdl above => S.idxOf above < S.idxOf whdl ∨ S.getLast? = some above
  | _ => True

/-- The order that comes out. -/
def reached (s : Stack) (S : List Hdl) : Call → List Hdl
  | .stack whdl above => placed S whdl (S.idxOf above + 1)
  | c => wanted s S c

section

variable {s : Stack} {S p q g l : List Hdl} {d7 h : Hdl} {d0 d4 k n : Nat} {d5 : Option Nat}

theorem wrearLoop1_skip (h7 : d7 ∉ p) (h0 : 0 ∉ p) :
    wrearLoop1 d7 (p ++ l) k d5 = wrearLoop1 d7 l (k + p.length) d5 := by
  induction p generalizing k with
  | nil => rfl
  | cons h p ih =>
    rw [List.cons_append, wrearLoop1, if_neg (List.ne_of_not_mem_cons h7).symm,
      if_neg (List.ne_of_not_mem_cons h0).symm, ih (List.not_mem_of_not_mem_cons h7)
        (List.not_mem_of_not_mem_cons h0), List.length_cons]
    congr 1
    omega

theorem wrearLoop1_spec (hp : d7 ∉ p) (hq : d7 ∉ q) (h7 : d7 ≠ 0) (h0 : 0 ∉ p ++ d7 :: q) :
    wrearLoop1 d7 ((p ++ d7 :: q) ++ 0 :: g) 0 none =
      some (p.length + 1 + q.length, some p.length) := by
  have hp0 : 0 ∉ p := fun h => h0 (List.mem_append_left _ h)
  have hq0 : 0 ∉ q := fun h => h0 (List.mem_append_right p (List.mem_cons_of_mem d7 h))
  rw [List.append_assoc, wrearLoop1_skip hp hp0, List.cons_append, wrearLoop1, if_pos rfl,
    if_neg h7, wrearLoop1_skip hq hq0, wrearLoop1, if_neg h7.symm, if_pos rfl, Nat.zero_add]

theorem wclLoop_spec (hp : d7 ∉ p) (h0 : 0 ∉ p) (h7 : d7 ≠ 0) :
    wclLoop d7 (p ++ d7 :: l) = some p.length := by
  induction p with
  | nil => exact (if_neg h7).trans (if_pos rfl)
  | cons h p ih =>
    rw [List.cons_append, wclLoop, if_neg (List.ne_of_not_mem_cons h0).symm,
      if_neg (List.ne_of_not_mem_cons hp).symm, ih (List.not_mem_of_not_mem_cons hp)
        (List.not_mem_of_not_mem_cons h0)]
    rfl

theorem windClose_spec (hp : d7 ∉ p) (h0 : 0 ∉ p) (h7 : d7 ≠ 0) :
    ∃ x, windClose d7 (p ++ d7 :: l) = some (p ++ l ++ [x]) := by
  obtain ⟨x, hx⟩ : ∃ x, (p ++ d7 :: l).getLast? = some x := by
    rcases hlast : (p ++ d7 :: l).getLast? with _ | x
    · rw [List.getLast?_eq_none_iff] at hlast
      exact absurd hlast (List.append_ne_nil_of_right_ne_nil p (List.cons_ne_nil d7 l))
    · exact ⟨x, rfl⟩
  refine ⟨x, ?_⟩
  unfold windClose
  rw [wclLoop_spec hp h0 h7, hx, Option.map_some, List.eraseIdx_append_of_length_le (Nat.le_refl _),
    Nat.sub_self]
  rfl

theorem windToStackpos_spec {r : List Hdl} (d7 : Hdl) (hl : l = r ++ 0 :: g) (hn : r.length + 1 < n)
    (hlen : n ≤ l.length) (hk : k ≤ r.length) :
    (∃ g', windToStackpos n d7 k l = (r.take k ++ d7 :: r.drop k) ++ 0 :: g') ∧
      (windToStackpos n d7 k l).length = l.length := by
  constructor
  · refine ⟨g.take (n - 1 - k - (r.length - k) - 1) ++ l.drop n, ?_⟩
    have hmid : (l.drop k).take (n - 1 - k) =
        r.drop k ++ 0 :: g.take (n - 1 - k - (r.length - k) - 1) := by
      rw [hl, List.drop_append_of_le_length hk, List.take_append, List.length_drop,
        List.take_of_length_le (by rw [List.length_drop]; omega)]
      obtain ⟨j, hj⟩ : ∃ j, n - 1 - k - (r.length - k) = j + 1 := ⟨n - r.length - 2, by omega⟩
      rw [hj, List.take_succ_cons, Nat.add_sub_cancel]
    unfold windToStackpos
    rw [hmid, hl, List.take_append_of_le_length hk]
    simp only [List.append_assoc, List.cons_append]
  · have hkl : k ≤ l.length := by omega
    unfold windToStackpos
    rw [List.length_append, List.length_cons, List.length_append, List.length_take,
      List.length_take, List.length_drop, List.length_drop]
    omega

theorem Holds.mem_ne_zero (hs : Holds s S) (h7 : d7 ∈ S) : d7 ≠ 0 :=
  fun h => hs.nonzero (h ▸ h7)

theorem placed_perm (h7 : d7 ∈ S) : (placed S d7 k).Perm S :=
  (List.perm_middle.trans (List.Perm.of_eq (congrArg (d7 :: ·) (List.take_append_drop k _)))).trans
    (List.perm_cons_erase h7).symm

theorem Holds.of_perm (hs : Holds s S) (hp : p.Perm S) (hl : ∃ g, l = p ++ 0 :: g)
    (hlen : l.length = s.whdlx.length) : Holds { s with whdlx := l } p where
  eq := hl
  length := hlen.trans hs.length
  fits := hp.length_eq ▸ hs.fits
  max := hs.max
  nodup := hp.nodup_iff.2 hs.nodup
  nonzero h := hs.nonzero (hp.mem_iff.1 h)

theorem rearrHloop2_one (a b : Hdl) : rearrHloop2 1 (a :: b :: l) = a :: b :: l := rfl

theorem rearrWhloop_spec (hs : Holds s (d7 :: h :: q)) (hc : Clear s (d7 :: h :: q)) (hd : 0 < d4) :
    rearrWhloop s d4 (h :: l) 1 = some 1 := by
  have hmem : h ∈ d7 :: h :: q := List.mem_cons_of_mem _ List.mem_cons_self
  obtain ⟨hmsb, w, hw, -, hgy⟩ := hc h hmem
  rw [rearrWhloop, if_neg (Nat.not_lt.2 hd), hmsb, if_neg Bool.false_ne_true,
    if_neg (hs.mem_ne_zero hmem), hw]
  exact if_neg hgy

/-- A window is moved to a position. The others keep their order. -/
theorem windRearrange_spec (newpos : Nat) (hs : Holds s S) (hc : Clear s S) (h7 : d7 ∈ S) :
    ∃ l, windRearrange s d7 newpos = some { s with whdlx := l } ∧
      Holds { s with whdlx := l } (placed S d7 newpos) := by
  obtain ⟨p, q, rfl⟩ := List.append_of_mem h7
  obtain ⟨g, hg⟩ := hs.eq
  have h0 : 0 ∉ p ++ d7 :: q := hs.nonzero
  have hd := List.nodup_middle.1 hs.nodup
  have hpq : d7 ∉ p ++ q := (List.nodup_cons.1 hd).1
  have hp : d7 ∉ p := fun h => hpq (List.mem_append_left q h)
  have hq : d7 ∉ q := fun h => hpq (List.mem_append_right p h)
  have hp0 : 0 ∉ p := fun h => h0 (List.mem_append_left _ h)
  have hne := hs.mem_ne_zero h7
  have herase : (p ++ d7 :: q).erase d7 = p ++ q := by
    rw [List.erase_append_right _ hp, List.erase_cons_head]
  have hfits := hs.fits
  have hlen := hs.length
  have hmax := hs.max
  simp only [List.length_append, List.length_cons] at hfits
  -- The position is cut off at the last one.
  obtain ⟨d4, hd4, hle, hplaced⟩ : ∃ d4,
      (if newpos < p.length + 1 + q.length then newpos else p.length + 1 + q.length - 1) = d4 ∧
      d4 ≤ (p ++ q).length ∧ placed (p ++ d7 :: q) d7 newpos = placed (p ++ d7 :: q) d7 d4 := by
    have hlpq : (p ++ q).length = p.length + q.length := List.length_append
    by_cases hnew : newpos < p.length + 1 + q.length
    · exact ⟨newpos, if_pos hnew, by omega, rfl⟩
    · refine ⟨_, if_neg hnew, by omega, ?_⟩
      unfold placed
      rw [herase, List.take_of_length_le (by omega), List.drop_of_length_le (by omega),
        List.take_of_length_le (by omega), List.drop_of_length_le (by omega)]
  -- Taking the window out and putting it in again.
  have hmove : ∃ l, (windClose d7 s.whdlx).map
        (fun l => { s with whdlx := windToStackpos s.nwindows d7 d4 l }) =
        some { s with whdlx := l } ∧
      Holds { s with whdlx := l } (placed (p ++ d7 :: q) d7 newpos) := by
    obtain ⟨x, hx⟩ := windClose_spec (l := q ++ 0 :: g) hp hp0 hne
    have hwhole : s.whdlx = p ++ d7 :: (q ++ 0 :: g) := by
      rw [hg, List.append_assoc, List.cons_append]
    have hlx : (p ++ (q ++ 0 :: g) ++ [x]).length = s.whdlx.length := by
      rw [hwhole]
      simp only [List.length_append, List.length_cons, List.length_nil]
      omega
    have hspec := windToStackpos_spec (l := p ++ (q ++ 0 :: g) ++ [x]) (r := p ++ q)
      (g := g ++ [x]) (n := s.nwindows) (k := d4) d7
      (by simp only [List.append_assoc, List.cons_append])
      (by rw [List.length_append]; omega) (by rw [hlx, hlen]; exact hmax) hle
    refine ⟨_, by rw [hwhole, hx]; rfl, hs.of_perm (placed_perm h7) ?_ (hspec.2.trans hlx)⟩
    obtain ⟨g', hg'⟩ := hspec.1
    exact ⟨g', by rw [hplaced, placed, herase]; exact hg'⟩
  have hloop : wrearLoop1 d7 s.whdlx 0 none = some (p.length + 1 + q.length, some p.length) := by
    rw [hg]
    exact wrearLoop1_spec hp hq hne h0
  unfold windRearrange
  rw [if_neg hne, hloop]
  simp only [hd4]
  by_cases heq : d4 = p.length
  · -- The window is there already.
    rw [if_pos heq]
    refine ⟨s.whdlx, rfl, ?_⟩
    have hsame : placed (p ++ d7 :: q) d7 newpos = p ++ d7 :: q := by
      rw [hplaced, placed, herase, heq, List.take_left, List.drop_left]
    rw [hsame]
    exact hs
  rw [if_neg heq]
  by_cases htop : p.length < d4 ∧ p.length = 0
  · -- The topmost window goes down, and the one below it becomes the topmost one.
    rw [if_pos htop]
    obtain rfl : p = [] := List.length_eq_zero_iff.1 htop.2
    rcases q with _ | ⟨h, q⟩
    · exact absurd (Nat.lt_of_lt_of_le htop.1 hle) (Nat.lt_irrefl 0)
    have hwhole : s.whdlx = d7 :: h :: (q ++ 0 :: g) := hg
    have hk : rearrWhloop s d4 (s.whdlx.drop 1) 1 = some 1 := by
      rw [hwhole]
      exact rearrWhloop_spec hs hc htop.1
    rw [hk]
    simp only [hwhole, rearrHloop2_one]
    rw [hwhole] at hmove
    exact hmove
  · rw [if_neg htop]
    exact hmove

theorem getNextWindow_skip {ap : Nat} (hc : Clear s p) (h0 : 0 ∉ p) (h7 : d7 ∉ p) (hz : d7 ≠ 0)
    (hm : d7.msb = false) :
    getNextWindow s ap d7 (p ++ d7 :: l) 0 = getNextWindow s ap 0 l 0 := by
  induction p with
  | nil =>
    rw [List.nil_append, getNextWindow, if_neg hz, hm, if_neg Bool.false_ne_true,
      if_pos ⟨hz, rfl⟩, if_pos rfl]
  | cons h p ih =>
    rw [List.cons_append, getNextWindow, if_neg (List.ne_of_not_mem_cons h0).symm,
      (hc h List.mem_cons_self).1, if_neg Bool.false_ne_true, if_pos ⟨hz, hm⟩,
      if_neg (List.ne_of_not_mem_cons h7)]
    exact ih (fun k hk => hc k (List.mem_cons_of_mem h hk)) (List.not_mem_of_not_mem_cons h0)
      (List.not_mem_of_not_mem_cons h7)

theorem getNextWindow_pass {ap : Nat} (hc : Clear s p) (h0 : 0 ∉ p) (ho : ∀ h ∈ p, ¬ Own s ap h) :
    getNextWindow s ap 0 (p ++ l) 0 = getNextWindow s ap 0 l 0 := by
  induction p with
  | nil => rfl
  | cons h p ih =>
    obtain ⟨hm, w, hw, -⟩ := hc h List.mem_cons_self
    have hown : w.owner ≠ ap := by
      intro hap
      apply ho h List.mem_cons_self
      unfold Own
      rw [hw, ← hap]
      rfl
    rw [List.cons_append, getNextWindow, if_neg (List.ne_of_not_mem_cons h0).symm, hm,
      if_neg Bool.false_ne_true, if_neg (fun h => h.1 rfl), hw]
    simp only [if_pos hown]
    exact ih (fun k hk => hc k (List.mem_cons_of_mem h hk)) (List.not_mem_of_not_mem_cons h0)
      (fun k hk => ho k (List.mem_cons_of_mem h hk))

theorem getNextWindow_own {ap : Nat} (hm : h.msb = false) (hz : h ≠ 0) (ho : Own s ap h) :
    getNextWindow s ap 0 (h :: l) 0 = some h := by
  obtain ⟨w, hw, hap⟩ := Option.map_eq_some_iff.1 ho
  rw [getNextWindow, if_neg hz, hm, if_neg Bool.false_ne_true, if_neg (fun h => h.1 rfl), hw]
  exact (if_neg (not_not_intro hap)).trans (if_neg Bool.false_ne_true)

theorem getNextWindow_done {ap : Nat} {done : List Hdl} {last : Hdl} (hc : Clear s done)
    (h0 : 0 ∉ done) (hd : done.Nodup) (hlast : done.getLast?.getD 0 = last) :
    getNextWindow s ap last (done ++ l) 0 = getNextWindow s ap 0 l 0 := by
  rcases List.eq_nil_or_concat done with rfl | ⟨p, h, rfl⟩
  · obtain rfl : 0 = last := hlast
    rfl
  · rw [List.concat_eq_append] at *
    obtain rfl : h = last := by
      rw [List.getLast?_append] at hlast
      exact hlast
    have hmem : h ∈ p ++ [h] := List.mem_append_right p List.mem_cons_self
    rw [List.append_assoc]
    apply getNextWindow_skip (fun k hk => hc k (List.mem_append_left _ hk))
      (fun h => h0 (List.mem_append_left _ h)) _ (fun h => h0 (h ▸ hmem)) (hc h hmem).1
    intro hp
    exact (List.nodup_append.1 hd).2.2 h hp h List.mem_cons_self rfl

theorem getNextWindow_left {ap : Nat} {P b₁ b₂ : List Hdl} {last : Hdl}
    (hs : Holds s (P.filter (Own s ap) ++ P.filter (¬ Own s ap ·) ++ (b₁ ++ b₂)))
    (hc : Clear s (P.filter (Own s ap) ++ P.filter (¬ Own s ap ·) ++ (b₁ ++ b₂)))
    (ho : ∀ h ∈ b₁, ¬ Own s ap h) (hlast : (P.filter (Own s ap)).getLast?.getD 0 = last) :
    ∃ g, getNextWindow s ap last s.whdlx 0 = getNextWindow s ap 0 (b₂ ++ 0 :: g) 0 := by
  obtain ⟨g, hg⟩ := hs.eq
  have hshape : s.whdlx = P.filter (Own s ap) ++
      ((P.filter (¬ Own s ap ·) ++ b₁) ++ (b₂ ++ 0 :: g)) := by
    rw [hg]
    simp only [List.append_assoc]
  have hmem : ∀ h ∈ P.filter (¬ Own s ap ·) ++ b₁,
      h ∈ P.filter (Own s ap) ++ P.filter (¬ Own s ap ·) ++ (b₁ ++ b₂) := by
    intro h hh
    rcases List.mem_append.1 hh with hh | hh
    · exact List.mem_append_left _ (List.mem_append_right _ hh)
    · exact List.mem_append_right _ (List.mem_append_left _ hh)
  have hdone : ∀ h ∈ P.filter (Own s ap),
      h ∈ P.filter (Own s ap) ++ P.filter (¬ Own s ap ·) ++ (b₁ ++ b₂) :=
    fun h hh => List.mem_append_left _ (List.mem_append_left _ hh)
  have hnd : (P.filter (Own s ap)).Nodup :=
    (List.nodup_append.1 (List.nodup_append.1 hs.nodup).1).1
  refine ⟨g, ?_⟩
  rw [hshape, getNextWindow_done (fun h hh => hc h (hdone h hh))
      (fun hh => hs.nonzero (hdone 0 hh)) hnd hlast,
    getNextWindow_pass (fun h hh => hc h (hmem h hh)) (fun hh => hs.nonzero (hmem 0 hh))]
  intro h hh
  rcases List.mem_append.1 hh with hh | hh
  · exact of_decide_eq_true (List.mem_filter.1 hh).2
  · exact ho h hh

theorem filter_own {ap : Nat} (ho : Own s ap h) :
    (h :: q).filter (Own s ap) = h :: q.filter (Own s ap) ∧
      (h :: q).filter (¬ Own s ap ·) = q.filter (¬ Own s ap ·) := by
  constructor
  · exact List.filter_cons_of_pos (decide_eq_true ho)
  · exact List.filter_cons_of_neg fun hd => (of_decide_eq_true hd : ¬ Own s ap h) ho

theorem filter_other {ap : Nat} (ho : ¬ Own s ap h) :
    (h :: q).filter (Own s ap) = q.filter (Own s ap) ∧
      (h :: q).filter (¬ Own s ap ·) = h :: q.filter (¬ Own s ap ·) := by
  constructor
  · exact List.filter_cons_of_neg fun hd => ho (of_decide_eq_true hd)
  · exact List.filter_cons_of_pos (decide_eq_true ho)

theorem filter_others {ap : Nat} (ho : ∀ h ∈ p, ¬ Own s ap h) :
    p.filter (Own s ap) = [] ∧ p.filter (¬ Own s ap ·) = p := by
  constructor
  · exact List.filter_eq_nil_iff.2 fun k hk hd => ho k hk (of_decide_eq_true hd)
  · exact List.filter_eq_self.2 fun k hk => decide_eq_true (ho k hk)

theorem placed_next {ap : Nat} {P b₁ b₂ : List Hdl} (ho : ∀ h ∈ b₁, ¬ Own s ap h)
    (hown : Own s ap h)
    (hd : (P.filter (Own s ap) ++ P.filter (¬ Own s ap ·) ++ (b₁ ++ h :: b₂)).Nodup) :
    (P ++ (b₁ ++ [h])).filter (Own s ap) = P.filter (Own s ap) ++ [h] ∧
      placed (P.filter (Own s ap) ++ P.filter (¬ Own s ap ·) ++ (b₁ ++ h :: b₂)) h
          (P.filter (Own s ap)).length =
        (P ++ (b₁ ++ [h])).filter (Own s ap) ++ (P ++ (b₁ ++ [h])).filter (¬ Own s ap ·) ++
          b₂ := by
  obtain ⟨hb₁, hb₁'⟩ := filter_others ho
  obtain ⟨hcons, hcons'⟩ := filter_own (q := []) hown
  have hmine : (P ++ (b₁ ++ [h])).filter (Own s ap) = P.filter (Own s ap) ++ [h] := by
    rw [List.filter_append, List.filter_append, hb₁, List.nil_append, hcons, List.filter_nil]
  have hothers : (P ++ (b₁ ++ [h])).filter (¬ Own s ap ·) = P.filter (¬ Own s ap ·) ++ b₁ := by
    rw [List.filter_append, List.filter_append, hb₁', hcons', List.filter_nil, List.append_nil]
  -- It is taken out from below, so the windows above it are where they were.
  have hnot : h ∉ P.filter (Own s ap) ++ P.filter (¬ Own s ap ·) ++ b₁ := by
    rw [← List.append_assoc] at hd
    exact fun hh => (List.nodup_cons.1 (List.nodup_middle.1 hd)).1 (List.mem_append_left _ hh)
  refine ⟨hmine, ?_⟩
  rw [hmine, hothers, placed, ← List.append_assoc, List.erase_append_right _ hnot,
    List.erase_cons_head]
  simp only [List.append_assoc, List.take_left, List.drop_left, List.cons_append, List.nil_append]

/-- The windows of an application come to the top, one after the other. -/
theorem topallLoop_spec (ap : Nat) {fuel : Nat} {P b : List Hdl} {last : Hdl}
    (hs : Holds s (P.filter (Own s ap) ++ P.filter (¬ Own s ap ·) ++ b))
    (hc : Clear s (P.filter (Own s ap) ++ P.filter (¬ Own s ap ·) ++ b))
    (hfuel : b.length < fuel) (hlast : (P.filter (Own s ap)).getLast?.getD 0 = last) :
    ∃ l, topallLoop ap fuel s (P.filter (Own s ap)).length last = some { s with whdlx := l } ∧
      Holds { s with whdlx := l }
        ((P ++ b).filter (Own s ap) ++ (P ++ b).filter (¬ Own s ap ·)) := by
  -- Each round moves one window, so the induction is on the rounds.
  induction fuel generalizing s P b last with
  | zero => exact absurd hfuel (Nat.not_lt_zero _)
  | succ fuel ih =>
    rw [topallLoop]
    rcases hfind : b.find? (Own s ap) with _ | h
    · -- No window is left.
      have ho : ∀ h ∈ b, ¬ Own s ap h := fun h hh hown =>
        List.find?_eq_none.1 hfind h hh (decide_eq_true hown)
      have hb := List.append_nil b
      rw [← hb] at hs hc
      obtain ⟨g, hg⟩ := getNextWindow_left hs hc ho hlast
      have hend : getNextWindow s ap 0 ([] ++ 0 :: g) 0 = some 0 := rfl
      rw [hg, hend]
      refine ⟨s.whdlx, rfl, ?_⟩
      obtain ⟨hown, hother⟩ := filter_others ho
      rw [List.filter_append, List.filter_append, hown, hother, List.append_nil,
        ← List.append_assoc]
      rw [hb] at hs
      exact hs
    · -- The next one comes behind those that have been moved.
      obtain ⟨hown, b₁, b₂, rfl, hb₁⟩ := List.find?_eq_some_iff_append.1 hfind
      have hown : Own s ap h := of_decide_eq_true hown
      have ho : ∀ k ∈ b₁, ¬ Own s ap k := by
        intro k hk hd
        have hneg := hb₁ k hk
        rw [decide_eq_true hd] at hneg
        cases hneg
      have hin : h ∈ P.filter (Own s ap) ++ P.filter (¬ Own s ap ·) ++ (b₁ ++ h :: b₂) :=
        List.mem_append_right _ (List.mem_append_right _ List.mem_cons_self)
      obtain ⟨hm, w, hw, -⟩ := hc h hin
      obtain ⟨g, hg⟩ := getNextWindow_left hs hc ho hlast
      obtain ⟨l, hmove, hs'⟩ :=
        windRearrange_spec (P.filter (Own s ap)).length hs hc hin
      obtain ⟨hmine, hplaced⟩ := placed_next ho hown hs.nodup
      rw [hg, List.cons_append, getNextWindow_own hm (hs.mem_ne_zero hin) hown]
      simp only [if_neg (hs.mem_ne_zero hin), hw, hmove, Option.bind_some]
      have hc' : Clear { s with whdlx := l }
          ((P ++ (b₁ ++ [h])).filter (Own s ap) ++ (P ++ (b₁ ++ [h])).filter (¬ Own s ap ·) ++
            b₂) := fun k hk => hc k ((placed_perm hin).mem_iff.1 (hplaced ▸ hk))
      have hrest : b₂.length < fuel := by
        simp only [List.length_append, List.length_cons] at hfuel
        omega
      have hlast' : ((P ++ (b₁ ++ [h])).filter (Own s ap)).getLast?.getD 0 = h := by
        rw [hmine, List.getLast?_append]
        rfl
      rw [hplaced] at hs'
      obtain ⟨l', hloop, hend⟩ := ih (s := { s with whdlx := l }) hs' hc' hrest hlast'
      have hn : (P.filter (Own s ap)).length + 1 =
          ((P ++ (b₁ ++ [h])).filter (Own s ap)).length := by
        rw [hmine, List.length_append, List.length_cons, List.length_nil]
      have hall : P ++ (b₁ ++ h :: b₂) = P ++ (b₁ ++ [h]) ++ b₂ := by
        simp only [List.append_assoc, List.cons_append, List.nil_append]
      rw [hn, hall]
      exact ⟨l', hloop, hend⟩

theorem wsbaLoop1_spec (h0 : 0 ∉ p) : wsbaLoop1 (p ++ 0 :: g) = some p.length := by
  induction p with
  | nil => rfl
  | cons h p ih =>
    rw [List.cons_append, wsbaLoop1, if_neg (List.ne_of_not_mem_cons h0).symm,
      ih (List.not_mem_of_not_mem_cons h0)]
    rfl

/-- The windows of an application go to the bottom, the lowest one first. The windows `q` from
the position on have been split. -/
theorem wsbaLoop2_spec (ap : Nat)
    (hs : Holds s (p ++ q.filter (¬ Own s ap ·) ++ q.filter (Own s ap)))
    (hc : Clear s (p ++ q.filter (¬ Own s ap ·) ++ q.filter (Own s ap))) :
    ∃ l, wsbaLoop2 ap p.length (p.length + (q.filter (¬ Own s ap ·)).length - 1) s =
        some { s with whdlx := l } ∧
      Holds { s with whdlx := l }
        ((p ++ q).filter (¬ Own s ap ·) ++ (p ++ q).filter (Own s ap)) := by
  -- The windows above are taken from below.
  induction p using List.reverseRecOn generalizing s q with
  | nil => exact ⟨s.whdlx, rfl, hs⟩
  | append_singleton p h ih =>
    have hin : h ∈ p ++ [h] ++ q.filter (¬ Own s ap ·) ++ q.filter (Own s ap) :=
      List.mem_append_left _ (List.mem_append_left _ (List.mem_append_right _ List.mem_cons_self))
    obtain ⟨hm, w, hw, -⟩ := hc h hin
    obtain ⟨g, hg⟩ := hs.eq
    have hget : s.whdlx.getD p.length 0 = h := by
      have hshape : s.whdlx =
          p ++ h :: (q.filter (¬ Own s ap ·) ++ q.filter (Own s ap) ++ 0 :: g) := by
        rw [hg]
        simp only [List.append_assoc, List.cons_append, List.nil_append]
      rw [hshape, List.getD_eq_getElem?_getD, List.getElem?_append_right (Nat.le_refl _),
        Nat.sub_self]
      rfl
    have hall : p ++ [h] ++ q = p ++ h :: q := by
      rw [List.append_assoc, List.cons_append, List.nil_append]
    have hd6 : (p ++ [h]).length + (q.filter (¬ Own s ap ·)).length - 1 =
        p.length + (q.filter (¬ Own s ap ·)).length := by
      rw [List.length_append, List.length_cons, List.length_nil]
      omega
    have hlen : (p ++ [h]).length = p.length + 1 := by
      rw [List.length_append, List.length_cons, List.length_nil]
    rw [hd6, hlen, wsbaLoop2]
    simp only [hget, hm, Bool.false_eq_true, if_false, hw]
    by_cases hown : w.owner = ap
    · have hown' : Own s ap h := by
        unfold Own
        rw [hw, ← hown]
        rfl
      obtain ⟨hmine, hothers⟩ := filter_own (q := q) hown'
      rw [if_neg (not_not_intro hown)]
      by_cases hfirst : p.length + (q.filter (¬ Own s ap ·)).length = 0 ∧ s.whdlx.getD 0 0 = h
      · -- It is on top, and there is no other.
        rw [if_pos hfirst]
        obtain ⟨hp, hq⟩ : p.length = 0 ∧ (q.filter (¬ Own s ap ·)).length = 0 := by omega
        obtain rfl : p = [] := List.length_eq_zero_iff.1 hp
        have hq := List.length_eq_zero_iff.1 hq
        refine ⟨s.whdlx, rfl, ?_⟩
        rw [hall, List.nil_append, hmine, hothers, hq]
        rw [hq] at hs
        exact hs
      · rw [if_neg hfirst]
        obtain ⟨l, hmove, hs'⟩ := windRearrange_spec
          (p.length + (q.filter (¬ Own s ap ·)).length) hs hc hin
        have hplaced : placed (p ++ [h] ++ q.filter (¬ Own s ap ·) ++ q.filter (Own s ap)) h
            (p.length + (q.filter (¬ Own s ap ·)).length) =
            p ++ (h :: q).filter (¬ Own s ap ·) ++ (h :: q).filter (Own s ap) := by
          have hd := hs.nodup
          have hshape : p ++ [h] ++ q.filter (¬ Own s ap ·) ++ q.filter (Own s ap) =
              p ++ h :: (q.filter (¬ Own s ap ·) ++ q.filter (Own s ap)) := by
            simp only [List.append_assoc, List.cons_append, List.nil_append]
          rw [hshape] at hd ⊢
          have hnot : h ∉ p := fun hh =>
            (List.nodup_cons.1 (List.nodup_middle.1 hd)).1 (List.mem_append_left _ hh)
          rw [hmine, hothers, placed, List.erase_append_right _ hnot, List.erase_cons_head,
            ← List.append_assoc, ← List.length_append, List.take_left, List.drop_left]
        have hc' : Clear { s with whdlx := l }
            (p ++ (h :: q).filter (¬ Own s ap ·) ++ (h :: q).filter (Own s ap)) :=
          fun k hk => hc k ((placed_perm hin).mem_iff.1 (hplaced ▸ hk))
        rw [hplaced] at hs'
        obtain ⟨l', hloop, hend⟩ := ih (s := { s with whdlx := l }) hs' hc'
        have hothers' : (q.filter (¬ Own s ap ·)).length =
            ((h :: q).filter (¬ Own s ap ·)).length := by rw [hothers]
        rw [hmove, Option.bind_some, hall, hothers']
        exact ⟨l', hloop, hend⟩
    · -- A window of another application stays.
      have hown' : ¬ Own s ap h := by
        unfold Own
        rw [hw]
        exact fun ho => hown (Option.some.inj ho)
      obtain ⟨hmine, hothers⟩ := filter_other (q := q) hown'
      rw [if_pos hown]
      have hshape : p ++ [h] ++ q.filter (¬ Own s ap ·) ++ q.filter (Own s ap) =
          p ++ (h :: q).filter (¬ Own s ap ·) ++ (h :: q).filter (Own s ap) := by
        rw [hmine, hothers]
        simp only [List.append_assoc, List.cons_append, List.nil_append]
      rw [hshape] at hs hc
      obtain ⟨l, hloop, hend⟩ := ih hs hc
      have hn : p.length + ((h :: q).filter (¬ Own s ap ·)).length - 1 =
          p.length + (q.filter (¬ Own s ap ·)).length := by
        rw [hothers, List.length_cons]
        omega
      rw [hn] at hloop
      rw [hall]
      exact ⟨l, hloop, hend⟩

theorem Holds.unique (hp : Holds s p) (hq : Holds s q) : p = q := by
  have hbefore : ∀ {r g : List Hdl}, 0 ∉ r → (r ++ 0 :: g).takeWhile (· ≠ 0) = r := by
    intro r g h0
    rw [List.takeWhile_append_of_pos, List.takeWhile_cons_of_neg, List.append_nil]
    · exact fun hd => of_decide_eq_true hd rfl
    · exact fun h hh => decide_eq_true fun hz => h0 (hz ▸ hh)
  obtain ⟨g, hg⟩ := hp.eq
  obtain ⟨g', hg'⟩ := hq.eq
  rw [← hbefore (g := g) hp.nonzero, ← hg, hg', hbefore hq.nonzero]

theorem wstposLoop_spec {above : Hdl} (ha : above ∈ S) (h0 : 0 ∉ S) :
    wstposLoop above (S ++ 0 :: g) k = some (some (k + S.idxOf above)) := by
  induction S generalizing k with
  | nil => cases ha
  | cons h S ih =>
    rw [List.cons_append, wstposLoop]
    by_cases heq : above = h
    · rw [if_pos heq, heq, List.idxOf_cons_self, Nat.add_zero]
    · rw [if_neg heq, if_neg (List.ne_of_not_mem_cons h0).symm,
        ih (List.mem_of_ne_of_mem heq ha) (List.not_mem_of_not_mem_cons h0),
        List.idxOf_cons_ne _ (Ne.symm heq)]
      congr 2
      omega

/-- The position in the old list is the right one when the window comes from below the other
one. Otherwise it is one too far, and that is seen unless the list ends there. -/
theorem wsStack_iff {above : Hdl} (hd : S.Nodup) (h7 : d7 ∈ S) (ha : above ∈ S)
    (hne : above ≠ d7) :
    placed S d7 (S.idxOf above + 1) = placed S d7 ((S.erase d7).idxOf above + 1) ↔
      S.idxOf above < S.idxOf d7 ∨ S.getLast? = some above := by
  obtain ⟨p, q, rfl⟩ := List.append_of_mem h7
  obtain ⟨hpq, hd⟩ := List.nodup_cons.1 (List.nodup_middle.1 hd)
  have hp : d7 ∉ p := fun h => hpq (List.mem_append_left q h)
  have herase : (p ++ d7 :: q).erase d7 = p ++ q := by
    rw [List.erase_append_right _ hp, List.erase_cons_head]
  have h7pos : (p ++ d7 :: q).idxOf d7 = p.length := by
    rw [List.idxOf_append_of_notMem hp, List.idxOf_cons_self, Nat.add_zero]
  rw [herase, h7pos]
  rcases List.mem_append.1 ha with hap | haq
  · -- It comes from below.
    rw [List.idxOf_append_of_mem hap, List.idxOf_append_of_mem hap]
    exact iff_of_true rfl (Or.inl (List.idxOf_lt_length_of_mem hap))
  have haq : above ∈ q := List.mem_of_ne_of_mem hne haq
  obtain ⟨a, b, rfl⟩ := List.append_of_mem haq
  rw [← List.append_assoc] at hd
  obtain ⟨hab, -⟩ := List.nodup_cons.1 (List.nodup_middle.1 hd)
  have hap : above ∉ p := fun h => hab (List.mem_append_left _ (List.mem_append_left _ h))
  have haa : above ∉ a := fun h => hab (List.mem_append_left _ (List.mem_append_right _ h))
  have hbb : above ∉ b := fun h => hab (List.mem_append_right _ h)
  have hold : (p ++ d7 :: (a ++ above :: b)).idxOf above = p.length + a.length + 1 := by
    rw [List.idxOf_append_of_notMem hap, List.idxOf_cons_ne _ hne.symm,
      List.idxOf_append_of_notMem haa, List.idxOf_cons_self]
    omega
  have hnew : (p ++ (a ++ above :: b)).idxOf above = p.length + a.length := by
    rw [List.idxOf_append_of_notMem hap, List.idxOf_append_of_notMem haa, List.idxOf_cons_self]
    omega
  have hleft : ∀ j, placed (p ++ d7 :: (a ++ above :: b)) d7 (p.length + a.length + j) =
      p ++ (a ++ ((above :: b).take j ++ d7 :: (above :: b).drop j)) := by
    intro j
    rw [placed, herase, Nat.add_assoc, List.take_length_add_append, List.take_length_add_append,
      List.drop_length_add_append, List.drop_length_add_append]
    simp only [List.append_assoc]
  have hlast : (p ++ d7 :: (a ++ above :: b)).getLast? = (above :: b).getLast? := by
    have hshape : p ++ d7 :: (a ++ above :: b) = (p ++ d7 :: a) ++ above :: b := by
      rw [List.append_assoc, List.cons_append]
    rw [hshape, List.getLast?_append_of_ne_nil _ (List.cons_ne_nil _ _)]
  rw [hold, hnew, Nat.add_assoc _ 1 1, hleft, hleft, hlast]
  have hnot : ¬ p.length + a.length + 1 < p.length := by omega
  rw [or_iff_right hnot]
  rcases b with _ | ⟨c, b⟩
  · exact iff_of_true rfl rfl
  · -- The window below the other one has slipped in between.
    have hcd : c ≠ d7 := by
      rintro rfl
      exact hpq (List.mem_append_right p
        (List.mem_append_right a (List.mem_cons_of_mem _ List.mem_cons_self)))
    apply iff_of_false
    · intro h
      have h := (List.cons.inj (List.append_cancel_left (List.append_cancel_left h))).2
      exact hcd (List.cons.inj h).1
    · intro h
      rw [List.getLast?_cons_cons] at h
      exact hbb (List.mem_of_getLast? h)

theorem placed_end (h7 : d7 ∈ S) (hk : S.length ≤ k + 1) : placed S d7 k = S.erase d7 ++ [d7] := by
  have hlen := List.length_erase_of_mem h7
  rw [placed, List.take_of_length_le (by omega), List.drop_of_length_le (by omega)]

end

section

variable {s : Stack} {S : List Hdl} {fuel : Nat} {c : Call}

theorem filter_perm (ap : Nat) :
    (S.filter (Own s ap) ++ S.filter (¬ Own s ap ·)).Perm S := by
  have h := List.filter_append_perm (fun h => decide (Own s ap h)) S
  simpa only [decide_not] using h

theorem wanted_perm (hl : Legal s S c) : (wanted s S c).Perm S := by
  cases c with
  | top whdl => exact (List.perm_cons_erase hl.1).symm
  | bottom whdl => exact List.perm_append_comm.trans (List.perm_cons_erase hl).symm
  | stack whdl above => exact placed_perm hl.1
  | topall whdl ap => exact filter_perm ap
  | bottomall whdl ap => exact List.perm_append_comm.trans (filter_perm ap)

theorem reached_perm (hl : Legal s S c) : (reached s S c).Perm S := by
  cases c with
  | stack whdl above => exact placed_perm hl.1
  | top whdl => exact wanted_perm hl
  | bottom whdl => exact wanted_perm hl
  | topall whdl ap => exact wanted_perm hl
  | bottomall whdl ap => exact wanted_perm hl

theorem windSet_reaches (hs : Holds s S) (hc : Clear s S) (hl : Legal s S c)
    (hf : S.length < fuel) :
    ∃ s', windSet fuel s c = some (s', true) ∧ Holds s' (reached s S c) := by
  have hsmall : S.length ≤ 0xffff + 1 := by
    have hfits := hs.fits
    have hmax := hs.max
    unfold MAX_NWIND at hmax
    omega
  cases c with
  | top whdl =>
    obtain ⟨h7, hbdrop, htopall⟩ := hl
    obtain ⟨hm, w, hw, hopen, -⟩ := hc whdl h7
    obtain ⟨l, hmove, hs'⟩ := windRearrange_spec 0
      (s := { s with bdropThdl := 0, topallThdl := 0 }) ⟨hs.eq, hs.length, hs.fits, hs.max,
        hs.nodup, hs.nonzero⟩ hc h7
    refine ⟨_, ?_, hs'⟩
    have hno : ¬ (whdl = s.bdropThdl ∧ s.bdropLate = false) := fun h =>
      Bool.false_ne_true (h.2.symm.trans (hbdrop h.1))
    have hno' : ¬ (whdl = s.topallThdl ∧ s.topallLate = false) := fun h =>
      Bool.false_ne_true (h.2.symm.trans (htopall h.1))
    unfold windSet wsTop
    simp only [Call.whdl, hw, hopen, Bool.true_eq_false, if_false, if_neg hno, if_neg hno', hmove,
      Option.map_some]
  | bottom whdl =>
    obtain ⟨hm, w, hw, hopen, -⟩ := hc whdl hl
    obtain ⟨l, hmove, hs'⟩ := windRearrange_spec 0xffff hs hc hl
    rw [placed_end hl hsmall] at hs'
    refine ⟨_, ?_, hs'⟩
    unfold windSet wsBack
    simp only [Call.whdl, hw, hopen, Bool.true_eq_false, if_false, hmove, Option.map_some]
  | stack whdl above =>
    obtain ⟨h7, ha, hne⟩ := hl
    obtain ⟨hm, w, hw, -⟩ := hc whdl h7
    obtain ⟨g, hg⟩ := hs.eq
    obtain ⟨l, hmove, hs'⟩ := windRearrange_spec (S.idxOf above + 1) hs hc h7
    refine ⟨_, ?_, hs'⟩
    have hpos : wstposLoop above s.whdlx 0 = some (some (S.idxOf above)) := by
      rw [hg, wstposLoop_spec ha hs.nonzero, Nat.zero_add]
    unfold windSet wsStack
    simp only [Call.whdl, hw, if_neg (hs.mem_ne_zero ha), (hc above ha).1, Bool.false_eq_true,
      if_false, hpos, hmove, Option.map_some]
  | topall whdl ap =>
    obtain ⟨⟨w, hw⟩, hap, happl⟩ := hl
    obtain ⟨l, hloop, hs'⟩ := topallLoop_spec ap (P := []) (b := S) hs hc hf rfl
    refine ⟨_, ?_, hs'⟩
    have hok : ¬ (NAPPS ≤ ap ∨ s.applx ap = false) := by
      rintro (h | h)
      · omega
      · exact Bool.false_ne_true (h.symm.trans happl)
    have hloop' : topallLoop ap fuel s 0 0 = some { s with whdlx := l } := hloop
    unfold windSet wsTopall wsTopallD6
    simp only [Call.whdl, hw, if_neg hok, hloop', Option.map_some]
  | bottomall whdl ap =>
    obtain ⟨w, hw⟩ := hl
    obtain ⟨g, hg⟩ := hs.eq
    have hS : S ++ ([] : List Hdl).filter (¬ Own s ap ·) ++
        ([] : List Hdl).filter (Own s ap) = S := by
      rw [List.filter_nil, List.filter_nil, List.append_nil, List.append_nil]
    obtain ⟨l, hloop, hs'⟩ := wsbaLoop2_spec ap (p := S) (q := []) (hS.symm ▸ hs)
      (hS.symm ▸ hc)
    rw [List.append_nil] at hs'
    refine ⟨_, ?_, hs'⟩
    have hn : wsbaLoop1 s.whdlx = some S.length := by
      rw [hg]
      exact wsbaLoop1_spec hs.nonzero
    unfold windSet wsBottomall
    simp only [Call.whdl, hw, hn, Option.bind_some]
    exact congrArg (Option.map _) hloop

/-- The list stays a list of the same windows. They are in the order that is asked for, except
when a window goes below another one from above. -/
theorem windSet_iff (hs : Holds s S) (hc : Clear s S) (hl : Legal s S c) (hf : S.length < fuel) :
    (∃ s' S', windSet fuel s c = some (s', true) ∧ Holds s' S' ∧ S'.Perm S) ∧
      ((∃ s', windSet fuel s c = some (s', true) ∧ Holds s' (wanted s S c) ∧
        (wanted s S c).Perm S) ↔ Below S c) := by
  obtain ⟨s', hset, hs'⟩ := windSet_reaches hs hc hl hf
  refine ⟨⟨s', reached s S c, hset, hs', reached_perm hl⟩, ?_⟩
  have hiff : reached s S c = wanted s S c ↔ Below S c := by
    cases c with
    | stack whdl above => exact wsStack_iff hs.nodup hl.1 hl.2.1 hl.2.2
    | top whdl => exact iff_of_true rfl trivial
    | bottom whdl => exact iff_of_true rfl trivial
    | topall whdl ap => exact iff_of_true rfl trivial
    | bottomall whdl ap => exact iff_of_true rfl trivial
  constructor
  · rintro ⟨s₂, hset₂, hs₂, -⟩
    obtain rfl : s' = s₂ := congrArg Prod.fst (Option.some.inj (hset.symm.trans hset₂))
    exact hiff.1 (hs'.unique hs₂)
  · intro hbelow
    exact ⟨s', hset, hiff.2 hbelow ▸ hs', wanted_perm hl⟩

end

/-- Three open windows, the first of them on top. -/
def three : Stack where
  whdlx := [1, 2, 3, 0] ++ List.replicate 60 0
  nwindows := 10
  windx h := if h = 0 then none else some ⟨0, 20, true⟩
  scrH := 400
  applx ap := ap = 0
  bdropThdl := 0
  bdropHdl := 0
  bdropLate := false
  topallThdl := 0
  topallLate := false

theorem three_holds : Holds three [1, 2, 3] where
  eq := ⟨List.replicate 60 0, rfl⟩
  length := rfl
  fits := by decide
  max := by decide
  nodup := by decide
  nonzero := by decide

theorem three_clear : Clear three [1, 2, 3] := by
  intro h hh
  simp only [List.mem_cons, List.not_mem_nil, or_false] at hh
  rcases hh with rfl | rfl | rfl
  · exact ⟨rfl, _, rfl, rfl, by decide⟩
  · exact ⟨rfl, _, rfl, rfl, by decide⟩
  · exact ⟨rfl, _, rfl, rfl, by decide⟩

theorem windSet_iff_top :
    (∃ s' S', windSet 4 three (.top 3) = some (s', true) ∧ Holds s' S' ∧ S'.Perm [1, 2, 3]) ∧
      ((∃ s', windSet 4 three (.top 3) = some (s', true) ∧
        Holds s' (wanted three [1, 2, 3] (.top 3)) ∧
        (wanted three [1, 2, 3] (.top 3)).Perm [1, 2, 3]) ↔ Below [1, 2, 3] (.top 3)) :=
  windSet_iff three_holds three_clear ⟨by decide, by decide, by decide⟩ (by decide)

/-- Window 1 is to go below window 2, and it goes below window 3. -/
theorem windSet_misplaces :
    Holds three [1, 2, 3] ∧ Clear three [1, 2, 3] ∧ Legal three [1, 2, 3] (.stack 1 2) ∧
      wanted three [1, 2, 3] (.stack 1 2) = [2, 1, 3] ∧
      ∃ s', windSet 4 three (.stack 1 2) = some (s', true) ∧ Holds s' [2, 3, 1] := by
  have hlegal : Legal three [1, 2, 3] (.stack 1 2) := ⟨by decide, by decide, by decide⟩
  refine ⟨three_holds, three_clear, hlegal, by decide, ?_⟩
  exact windSet_reaches (c := .stack 1 2) three_holds three_clear hlegal (by decide)

end Restack

end Aes

end MagiC
