import Mathlib.Data.BitVec
import Mathlib.Tactic.Common

/-!
# Lines of an Edit Field

The routines that find the lines of a text and scroll through them.

A text is the bytes in front of its terminator, and a pointer into it is an index.
A line ends with CR or LF, or with both in any order, or with the end of the text.
With automatic wrapping it ends as well where the next word would be too wide, and
then nothing stands between it and the next line.

Widths and the length a search for a width returns are 16 bits wide. What a routine
gives is therefore optional: it gives nothing where it does not return, or where a
length that has wrapped would lead out of the line.

## Main definitions

* `getNextEol`, `getPrevEol`, `getNumberOfLines`: Lines.
-/

namespace MagiC

namespace Edit

abbrev Byte := BitVec 8

def TAB : Byte := 9
def LF : Byte := 10
def CR : Byte := 13

/-- CR or LF. -/
def isEol (c : Byte) : Bool := c == CR || c == LF

/-- A visible line, or no line. -/
structure XedLi where
  line : Option Nat
  len : Nat
  lextra : Nat
  deriving DecidableEq

/-- The edit field. `vqtExtent` is the width of a string in a proportional font. -/
structure XEDITINFO where
  buf : List Byte
  noZero : (0 : Byte) ∉ buf
  yscroll : Int
  autowrap : Int
  maxLinew : Int
  tabwidth : Int
  mono : Bool
  charW : Int
  leff : Nat
  lines : List XedLi
  vqtExtent : List Byte → Int

/-- The number of entries in the table. -/
def XEDITINFO.lvis (xi : XEDITINFO) : Nat := xi.lines.length

def XEDITINFO.currTlen (xi : XEDITINFO) : Nat := xi.buf.length

/-- What is read at a position. Behind the text it is the terminator. -/
def ch (buf : List Byte) (i : Nat) : Byte := buf.getD i 0

/-- A value in a 16-bit register. -/
def word (i : Int) : Int := (BitVec.ofInt 16 i).toInt

/-- The first line end from `s` on. -/
def memchr2 (buf : List Byte) (s : Nat) : Option Nat :=
  ((buf.drop s).findIdx? isEol).map (s + ·)

/-- The loop of `extent` over the parts that are separated by tabs. -/
def extentFrom (xi : XEDITINFO) (s : List Byte) (offs : Int) : Option Int :=
  if hs : s = [] then some offs
  else
    let t := if xi.tabwidth = 0 then s else s.takeWhile (· ≠ TAB)
    let slen := word t.length
    let offs := word (offs + if xi.mono then slen * xi.charW else xi.vqtExtent t)
    if t.length = s.length then
      -- no tab; a length that has wrapped leads back to the left
      if slen = s.length then some offs else none
    else
      let offs := word (offs + 1)
      let rest := offs.tmod xi.tabwidth
      let offs := if rest ≠ 0 then word (offs + (xi.tabwidth - rest)) else offs
      if word (slen + 1) = t.length + 1 then extentFrom xi (s.drop (t.length + 1)) offs
      else none
termination_by s.length
decreasing_by
  rw [List.length_drop]
  have : s.length ≠ 0 := fun h => hs (List.length_eq_zero_iff.mp h)
  omega

/-- The width of a string in pixels. -/
def extent (xi : XEDITINFO) (s : List Byte) : Option Int := extentFrom xi s 0

/-- The loop of `pixpos_to_npos`. -/
def bisect (xi : XEDITINFO) (line : List Byte) (x : Int) (lenU lenO : Nat) : Option Nat :=
  if lenU < lenO then
    if lenO - lenU = 1 then
      match extent xi (line.take lenO) with
      | none => none
      | some ix => some (if ix ≤ x then lenO else lenU)
    else
      match extent xi (line.take ((lenU + lenO) / 2)) with
      | none => none
      | some ix =>
        if ix < x then bisect xi line x ((lenU + lenO) / 2) lenO
        else bisect xi line x lenU ((lenU + lenO) / 2)
  else some lenU
termination_by lenO - lenU

/-- The number of characters that fit. -/
def pixposToNpos (xi : XEDITINFO) (line : List Byte) (lenO : Nat) (x : Int) : Option Int :=
  (bisect xi line x 0 lenO).map fun len : Nat => word len

/-- The end of a word, to the left of `i`. -/
def wordEnd (line : List Byte) : Nat → Nat
  | 0 => 0
  | i + 1 => if ch line (i + 1) = 0x20 ∨ ch line (i + 1) = 0x2d then i + 1 else wordEnd line i

/-- What `get_next_eol` gives. -/
structure Eol where
  len : Nat
  lextra : Nat
  eot : Bool
  deriving DecidableEq

/-- The line end without wrapping. -/
def hardEol (buf : List Byte) (s : Nat) : Eol :=
  match memchr2 buf s with
  | some eol =>
    let c := ch buf (eol + 1)
    let two := eol < buf.length - 1 ∧ isEol c ∧ c ≠ ch buf eol
    ⟨eol - s, if two then 2 else 1, false⟩
  | none => ⟨buf.length - s, 0, true⟩

/-- The length of the line that begins at `s`. -/
def getNextEol (xi : XEDITINFO) (s : Nat) : Option Eol :=
  let e := hardEol xi.buf s
  if xi.autowrap ≠ 0 then
    let line := xi.buf.drop s
    match pixposToNpos xi line e.len xi.autowrap with
    | none => none
    | some lmax =>
      if (e.len : Int) > lmax then
        -- a length that has wrapped leads back to the left
        if lmax < 0 then none
        else
          let eol := wordEnd line (lmax.toNat - 1)
          some ⟨if eol > 0 then eol + 1 else lmax.toNat, 0, false⟩
      else some e
  else some e

/-- A line of the text. -/
structure Line where
  line : Nat
  len : Nat
  lextra : Nat
  deriving DecidableEq

/-- The entry of a line. -/
def Line.entry (l : Line) : XedLi := ⟨some l.line, l.len, l.lextra⟩

def Line.next (l : Line) : Nat := l.line + l.len + l.lextra

/-- The search for a hard return to the left. -/
def hardReturn (buf : List Byte) : Nat → Nat
  | 0 => 0
  | t + 1 => if isEol (ch buf (t + 1)) then t + 1 else hardReturn buf t

/-- The part of a wrapped line that ends at `s`. The same call again does not return. -/
def prevPart (xi : XEDITINFO) (s t : Nat) : Option Nat :=
  match getNextEol xi t with
  | none => none
  | some e =>
    if e.eot = false ∧ t + e.len + e.lextra < s then
      if e.len + e.lextra = 0 then none else prevPart xi s (t + e.len + e.lextra)
    else some t
termination_by s - t
decreasing_by omega

/-- Where the end of the line in front of `s` begins. -/
def endBefore (buf : List Byte) (s : Nat) : Nat :=
  if isEol (ch buf (s - 1)) then
    let sol := s - 1
    if sol > 0 then
      if isEol (ch buf (sol - 1)) ∧ ch buf (s - 1) ≠ ch buf (sol - 1) then sol - 1 else sol
    else sol
  else s

/-- Where the line whose end begins at `sol` has its first character. -/
def startBefore (buf : List Byte) (sol : Nat) : Nat :=
  -- with `sol` at the beginning of the text, `t` points in front of it
  if sol = 0 then 0
  else
    let t := hardReturn buf (sol - 1)
    if t > 0 then t + 1 else t

/-- The line in front of `s`. -/
def getPrevEol (xi : XEDITINFO) (s : Nat) : Option (Option Line) :=
  if s = 0 then some none
  else
    let sol := endBefore xi.buf s
    let t := startBefore xi.buf sol
    match if xi.autowrap ≠ 0 then prevPart xi s t else some t with
    | none => none
    | some t => if sol < t then none else some (some ⟨t, sol - t, s - sol⟩)

theorem lt_of_getNextEol {xi : XEDITINFO} {s : Nat} {e : Eol} (h : getNextEol xi s = some e)
    (he : e.eot = false) : s < xi.buf.length := by
  have hard : s ≥ xi.buf.length → hardEol xi.buf s = ⟨0, 0, true⟩ := by
    intro hs
    simp [hardEol, memchr2, List.drop_eq_nil_of_le hs, Nat.sub_eq_zero_of_le hs]
  by_contra hs
  rw [not_lt] at hs
  simp only [getNextEol, hard hs] at h
  split at h
  · have hb : pixposToNpos xi (xi.buf.drop s) 0 xi.autowrap = some 0 := by
      rw [pixposToNpos, bisect]
      rfl
    simp only [hb] at h
    simp only [Nat.cast_zero, gt_iff_lt, lt_self_iff_false, if_false, Option.some.injEq] at h
    simp [← h] at he
  · simp only [Option.some.injEq] at h
    simp [← h] at he

/-- The loop of `get_number_of_lines`. The same call again does not return. -/
def countLines (xi : XEDITINFO) (s i : Nat) (maxLinew : Int) : Option (Nat × Int) :=
  match _h : getNextEol xi s with
  | none => none
  | some e =>
    match if xi.autowrap ≠ 0 then extent xi ((xi.buf.drop s).take e.len) else some maxLinew with
    | none => none
    | some linew =>
      let maxLinew := if linew > maxLinew then linew else maxLinew
      if e.eot = true then some (i + 1, maxLinew)
      else if e.len + e.lextra = 0 then none
      else countLines xi (s + e.len + e.lextra) (i + 1) maxLinew
termination_by xi.buf.length - s
decreasing_by
  have := lt_of_getNextEol _h (by simpa using ‹¬ e.eot = true›)
  omega

/-- The number of lines, and the greatest width. -/
def getNumberOfLines (xi : XEDITINFO) : Option (Nat × Int) := countLines xi 0 0 xi.maxLinew

/-- The loop of `init_lines`, with the number of lines found. -/
def initLinesFrom (xi : XEDITINFO) : List XedLi → Nat → Bool → Option (List XedLi × Nat)
  | [], _, _ => some ([], 0)
  | li :: lis, s, true =>
    (initLinesFrom xi lis s true).map fun r => ({ li with line := none } :: r.1, r.2)
  | _ :: lis, s, false =>
    match getNextEol xi s with
    | none => none
    | some e =>
      (initLinesFrom xi lis (s + e.len + e.lextra) e.eot).map fun r =>
        (⟨some s, e.len, e.lextra⟩ :: r.1, r.2 + 1)

/-- The table from its first line on. -/
def initLines (xi : XEDITINFO) : Option XEDITINFO :=
  match xi.lines with
  | [] => some { xi with leff := 0 }
  | li :: _ =>
    match li.line with
    | none => none
    | some s =>
      (initLinesFrom xi xi.lines s false).map fun r => { xi with lines := r.1, leff := r.2 }

/-- The lines of the table move up, and one comes in at the bottom. -/
def XEDITINFO.shiftUp (xi : XEDITINFO) (li : XedLi) : XEDITINFO :=
  { xi with lines := xi.lines.tail ++ [li] }

/-- The lines of the table move down, and one comes in at the top. -/
def XEDITINFO.shiftDown (xi : XEDITINFO) (li : XedLi) : XEDITINFO :=
  { xi with
    lines := li :: xi.lines.dropLast
    leff := if xi.leff < xi.lvis then xi.leff + 1 else xi.leff }

/-- The loop of `scroll_up`, with the lines that are left to scroll. -/
def scrollUpLoop : Nat → XEDITINFO → Option (XEDITINFO × Nat)
  | 0, xi => some (xi, 0)
  | m + 1, xi =>
    if xi.leff < xi.lvis then some (xi, m + 1)
    else
      match xi.lines.getLast? with
      | none => none
      | some li =>
        match li.line with
        | none => none
        | some l =>
          if li.lextra = 0 ∧ l + li.len ≥ xi.currTlen then some (xi, m + 1)
          else
            let s := l + li.len + li.lextra
            match getNextEol xi s with
            | none => none
            | some e => scrollUpLoop m (xi.shiftUp ⟨some s, e.len, e.lextra⟩)

/-- Scrolls the text up, and gives the number of lines. -/
def scrollUp (xi : XEDITINFO) (n : Nat) : Option (XEDITINFO × Nat) :=
  (scrollUpLoop n xi).map fun r =>
    ({ r.1 with yscroll := r.1.yscroll + (n - r.2 : Nat) }, n - r.2)

/-- The loop of `scroll_down`, with the lines that are left to scroll. -/
def scrollDownLoop : Nat → XEDITINFO → Option (XEDITINFO × Nat)
  | 0, xi => some (xi, 0)
  | m + 1, xi =>
    match xi.lines.head? with
    | none => none
    | some li =>
      match li.line with
      | none => none
      | some l =>
        match getPrevEol xi l with
        | none => none
        | some none => some (xi, m + 1)
        | some (some p) => scrollDownLoop m (xi.shiftDown p.entry)

/-- Scrolls the text down, and gives the number of lines. -/
def scrollDown (xi : XEDITINFO) (n : Nat) : Option (XEDITINFO × Nat) :=
  (scrollDownLoop n xi).map fun r =>
    ({ r.1 with yscroll := r.1.yscroll - (n - r.2 : Nat) }, n - r.2)

end Edit

end MagiC
