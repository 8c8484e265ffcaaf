import Mathlib.Data.UInt
import MagiC.Lib.Terminated
import MagiC.Vfat.Ffree

/-!
# Editing a Text Field

`_objc_edit`, which puts the cursor into a field and does what a key says.

The text of the field is copied from the memory of the user to the stack and back at every
call. A text that begins with `@` is taken for an empty one. A field may accept certain
characters only. A character that is not accepted is looked for in the template, and the cursor
then jumps behind it, so that a date may be typed with its dots.

The memory is a function from the distances from the beginning of the text. What is on the
stack before the text is copied there is anything. The cursor is a number with a sign. The
number of a place in the template is a word, and goes round.

Drawing is left out.

## Main definitions

* `control`: What the keys of `objc_tab` do.
-/

namespace MagiC

namespace Aes

namespace Edit

open Terminated

open Vfat (toupper)

abbrev Byte := UInt8

abbrev Mem := Int → Byte

def bytes (s : String) : List Byte := s.toList.map fun c => UInt8.ofNat c.toNat

/-- Room for a text on the stack. -/
def PTEXTLEN : Nat := 258

/-- A field. A field that scrolls has a visible length. The template has a place for every
    character of the text. -/
structure Tedinfo where
  tePtmplt : List Byte
  tePvalid : List Byte
  teTxtlen : Nat
  xteVislen : Option Nat
  /-- What is in memory in front of the template. -/
  front : Nat → Byte
  txtlen_ge : 2 ≤ teTxtlen
  txtlen_le : teTxtlen ≤ 256
  pvalid_ne : tePvalid ≠ []
  pvalid_le : tePvalid.length ≤ 256
  places : teTxtlen - 1 ≤ tePtmplt.count 0x5f

/-- The text and the cursor of the user, whether typing overwrites, and `SCRAP.TXT`. -/
structure State where
  tePtext : Mem
  didx : Int
  inpOvwrmode : Bool
  scrap : List Byte

/-- `match`: whether a character is among others. Two dots stand for what is between. -/
def isMatch (c : Byte) : List Byte → Bool
  | [] => false
  | d :: 0x2e :: 0x2e :: u :: valids => (decide (d ≤ c) && decide (c ≤ u)) || isMatch c valids
  | d :: valids => decide (c = d) || isMatch c valids

def valid_9 : List Byte := bytes "0..9"

def valid_A : List Byte :=
  bytes "A..Z " ++ [0x80, 0x8e, 0x8f, 0x90, 0x92, 0x99, 0x9a, 0xa5, 0xb5, 0xb2, 0xc1, 0xb6, 0xb7,
    0xb8, 0x9e, 0xc2] ++ bytes ".." ++ [0xdc]

def valid_N : List Byte := bytes "0..9" ++ valid_A

def valid_P : List Byte := bytes "0..9a..zA..Z\\?*:._" ++ [0x80] ++ bytes ".." ++ [0xff]

def valid_p : List Byte := bytes "0..9a..zA..Z\\:_" ++ [0x80] ++ bytes ".." ++ [0xff]

def valid_F : List Byte := bytes "a..z0..9A..Z-:?*_" ++ [0x80] ++ bytes ".." ++ [0xff]

def valid_f : List Byte := bytes "a..z0..9A..Z-_:" ++ [0x80] ++ bytes ".." ++ [0xff]

def valid_a : List Byte := bytes "a..zA..Z " ++ [0x80] ++ bytes ".." ++ [0xff]

def valid_n : List Byte := bytes "0..9a..zA..Z " ++ [0x80] ++ bytes ".." ++ [0xff]

def valid_m : List Byte := bytes " ..&(..9;..[].." ++ [0xff]

/-- `masks` and `valid_s`: the masks, what is valid for them, and whether it is changed to
    capital letters. -/
def masks : List (Byte × List Byte × Bool) :=
  [(0x39, valid_9, true), (0x41, valid_A, true), (0x4e, valid_N, true), (0x50, valid_P, true),
    (0x70, valid_p, true), (0x46, valid_F, true), (0x66, valid_f, true), (0x61, valid_a, false),
    (0x6e, valid_n, false), (0x6d, valid_m, false)]

/-- Whether a character is accepted by a mask, and the character, which may have changed. -/
def isValid (c mask : Byte) : Bool × Byte :=
  if mask = 0x58 then (true, c)
  else if mask = 0x78 then (true, toupper c)
  else
    match masks.lookup mask with
    | none => (false, c)
    | some (valids, upper) =>
      let c := if upper then toupper c else c
      (isMatch c valids, c)

def separator_s : List Byte := bytes " !../:..?[\\]{|}~" ++ [0xf6, 0xf7, 0xf8, 0xf9, 0xfa]

def cIsSep (c : Byte) : Bool := isMatch c separator_s

/-- A place for so many characters, and the template from there. -/
def txttL1 : List Byte → Int → Int → Int × List Byte
  | [], _, d0 => (d0, [])
  | c :: cs, d1, d0 =>
    if 0 < d1 then txttL1 cs (if c = 0x5f then d1 - 1 else d1) (d0 + 1) else (d0, c :: cs)

/-- The next place for a character. -/
def txttL4 : List Byte → Int → Option Int
  | [], _ => none
  | c :: cs, d0 => if c = 0x5f then some d0 else txttL4 cs (d0 + 1)

/-- Behind the last place for a character. The template is read from its end. -/
def txttL6 : List Byte → Int → Int
  | [], d0 => d0
  | c :: cs, d0 => if c = 0x5f then d0 else txttL6 cs (d0 - 1)

/-- Where a place of the text is in the template. -/
def txtposToTmpltpos (ted : Tedinfo) (pos : Int) : Int :=
  let r := txttL1 ted.tePtmplt pos 0
  (txttL4 r.2 r.1).getD (txttL6 ted.tePtmplt.reverse ted.tePtmplt.length)

/-- The template and what is in front of it, from a place. -/
def Tedinfo.tmplt (ted : Tedinfo) (d3 : Int) : List Byte :=
  ((List.range (-d3).toNat).map ted.front).reverse ++ ted.tePtmplt.drop d3.toNat

/-- The place of a character in the template, counted by what may be typed in. -/
def srchTmpltC (c : Byte) : List Byte → Int → Int
  | [], a => a
  | x :: xs, a =>
    if x = 0 ∨ x = c then a
    else srchTmpltC c xs (if x = 0x5f then (a + 1).bmod (2 ^ 16) else a)

/-- The mask of a place. The last one is repeated. -/
def Tedinfo.currPvalid (ted : Tedinfo) (pos : Int) : Byte :=
  (ted.tePvalid ++ List.replicate (ted.teTxtlen - ted.tePvalid.length)
    (ted.tePvalid.getLast ted.pvalid_ne)).getD pos.toNat 0

/-- The text is moved to make room. -/
def inscLoop (m : Mem) (pos : Int) : Nat → Mem × Int
  | 0 => (m, 0)
  | d1 + 1 =>
    if pos < d1 + 1 then inscLoop (Function.update m (d1 + 1) (m d1)) pos d1 else (m, d1 + 1)

def insertChar (txt : Mem) (c : Byte) (pos : Int) (maxlen : Nat) : Mem :=
  let d0 := strlen PTEXTLEN txt + 1
  let r := inscLoop txt pos (strlen PTEXTLEN txt)
  let m := Function.update r.1 r.2 c
  if maxlen ≤ d0 then Function.update m (maxlen - 1) 0 else Function.update m d0 0

def fillmem (m : Mem) (a : Int) (count : Nat) (c : Byte) : Mem :=
  fun i => if a ≤ i ∧ i < a + count then c else m i

/-- The text on the stack, the cursor in the text and in the template. -/
structure Ed where
  curr : Mem
  didx : Int
  d3 : Int

/-- The cursor is to the right of the last character the field may have. -/
def Ed.atBorder (e : Ed) (ted : Tedinfo) : Prop := (ted.teTxtlen : Int) - 2 < e.didx

instance (e : Ed) (ted : Tedinfo) : Decidable (e.atBorder ted) := by
  unfold Ed.atBorder
  infer_instance

/-- A character that is accepted is put into the text. -/
def Ed.put (e : Ed) (ted : Tedinfo) (ovwr : Bool) (c : Byte) : Ed :=
  { e with
    curr := if ovwr ∧ e.curr e.didx ≠ 0 then Function.update e.curr e.didx c
      else insertChar e.curr c e.didx ted.teTxtlen
    didx := e.didx + 1 }

/-- A character that is not accepted is looked for in the template. -/
def Ed.jump (e : Ed) (ted : Tedinfo) (c : Byte) : Ed :=
  let d0 := srchTmpltC c (ted.tmplt e.d3) e.didx
  if (ted.teTxtlen : Int) - 2 ≤ d0 then e
  else { e with
    curr := Function.update
      (fillmem e.curr e.didx ((d0 - e.didx) % 2 ^ 16).toNat 0x20) d0 0
    didx := d0 }

def inputChar (ted : Tedinfo) (ovwr : Bool) (key : Byte) (e : Ed) : Ed :=
  if key = 0 then e
  else
    let l := if e.atBorder ted then { e with didx := e.didx - 1, d3 := e.d3 - 1 } else e
    let v := isValid key (ted.currPvalid l.didx)
    if v.1 then l.put ted ovwr v.2 else e.jump ted v.2

/-- The keys of `objc_tab`. -/
inductive Control where
  | escape
  | backspace
  | curleft
  | ganzlinks
  | wordleft
  | curright
  | ganzrechts
  | wordright
  | delete
  | delToEol
  | insMode
  | ovwrMode
  | edCut
  | edCopy
  | edPaste
  deriving DecidableEq

def objcTab : List (UInt16 × Control) :=
  [(0x011b, .escape), (0x4737, .escape), (0x0e08, .backspace), (0x4b00, .curleft),
    (0x4b34, .ganzlinks), (0x7300, .wordleft), (0x4d00, .curright), (0x4d36, .ganzrechts),
    (0x7400, .wordright), (0x4700, .ganzlinks), (0x3700, .ganzrechts), (0x537f, .delete),
    (0x531f, .delToEol), (0x5200, .insMode), (0x5230, .ovwrMode), (0x2d18, .edCut),
    (0x2e03, .edCopy), (0x2f16, .edPaste)]

/-- The text behind a character is moved onto it. -/
def dlcLoop (m : Mem) : Nat → Int → Mem
  | 0, _ => m
  | f + 1, a =>
    let m' := Function.update m a (m (a + 1))
    if m (a + 1) = 0 then m' else dlcLoop m' f (a + 1)

def Ed.del (e : Ed) : Ed :=
  if e.curr e.didx = 0 then e else { e with curr := dlcLoop e.curr PTEXTLEN e.didx }

/-- To the left, over separators. The cursor goes on to the first other character. -/
def wlLoop (m : Mem) : Nat → Nat
  | 0 => 0
  | x + 1 => if cIsSep (m x) then wlLoop m x else x

/-- To the left, over what does not separate. -/
def wlLoop2 (m : Mem) : Nat → Nat
  | 0 => 0
  | x + 1 => if cIsSep (m x) then x + 1 else wlLoop2 m x

/-- To the right, over what does not separate. -/
def wrLoop (m : Mem) (len : Nat) : Nat → Int → Int
  | 0, x => x
  | f + 1, x => if cIsSep (m x) then x else if x + 1 ≤ len then wrLoop m len f (x + 1) else x

/-- To the right, over separators. The length is compared with what `match` has returned. -/
def wrLoop2 (m : Mem) (len : Nat) : Nat → Int → Int
  | 0, x => x
  | f + 1, x => if cIsSep (m x) then if 1 ≤ len then wrLoop2 m len f (x + 1) else x else x

def Ed.goto (e : Ed) (x : Int) : Ed := { e with didx := x }

/-- What is read from the clipboard. The end byte is behind the last one of the 256. -/
def scrpPst (scrap : List Byte) : List Byte :=
  (scrap.take 256).takeWhile fun c => decide (c ≠ 0)

/-- What a key of `objc_tab` does to the text and the cursor. -/
def control (ted : Tedinfo) (ovwr : Bool) (scrap : List Byte) (e : Ed) : Control → Ed
  | .escape => { e with curr := Function.update e.curr 0 0, didx := 0 }
  | .backspace => if e.didx ≤ 0 then e else (e.goto (e.didx - 1)).del
  | .curleft => if e.didx ≤ 0 then e else e.goto (e.didx - 1)
  | .ganzlinks => e.goto 0
  | .wordleft => e.goto (wlLoop2 e.curr (wlLoop e.curr e.didx.toNat))
  | .curright => if (strlen PTEXTLEN e.curr : Int) ≤ e.didx then e else e.goto (e.didx + 1)
  | .ganzrechts => e.goto (strlen PTEXTLEN e.curr)
  | .wordright =>
    let len := strlen PTEXTLEN e.curr
    e.goto (wrLoop2 e.curr len PTEXTLEN (wrLoop e.curr len PTEXTLEN e.didx))
  | .delete => if e.atBorder ted then e else e.del
  | .delToEol =>
    if e.curr e.didx = 0 then e else { e with curr := Function.update e.curr e.didx 0 }
  | .insMode => e
  | .ovwrMode => e
  | .edCut =>
    if strlen PTEXTLEN e.curr = 0 then e
    else { e with curr := Function.update e.curr 0 0, didx := 0 }
  | .edCopy => e
  | .edPaste => (scrpPst scrap).foldl (fun e c => inputChar ted ovwr c e) e

/-- The mode of typing after a key. -/
def ovwrAfter (ovwr : Bool) : Control → Bool
  | .insMode => false
  | .ovwrMode => true
  | _ => ovwr

/-- The clipboard after a key. -/
def scrapAfter (curr : Mem) (scrap : List Byte) : Control → List Byte
  | .edCut => if strlen PTEXTLEN curr = 0 then scrap else cstr PTEXTLEN curr
  | .edCopy => if strlen PTEXTLEN curr = 0 then scrap else cstr PTEXTLEN curr
  | _ => scrap

def strcpy (dst src : Mem) : Mem :=
  fun i => if 0 ≤ i ∧ i ≤ strlen PTEXTLEN src then src i else dst i

/-- The text of the user on the stack. -/
def currPtext (stack ptext : Mem) : Mem :=
  let m := strcpy stack ptext
  if m 0 = 0x40 then Function.update m 0 0 else m

def edInit (ted : Tedinfo) (stack : Mem) (s : State) : State :=
  let len := strlen PTEXTLEN (currPtext stack s.tePtext)
  { s with didx :=
      match ted.xteVislen with
      | none => len
      | some vislen => if len ≤ vislen then len else 0 }

def edChar (ted : Tedinfo) (stack : Mem) (s : State) (key : UInt16) : State :=
  let e : Ed := ⟨currPtext stack s.tePtext, s.didx, txtposToTmpltpos ted s.didx⟩
  match objcTab.lookup key with
  | none =>
    let e := inputChar ted s.inpOvwrmode key.toUInt8 e
    { s with tePtext := strcpy s.tePtext e.curr, didx := e.didx }
  | some k =>
    let e' := control ted s.inpOvwrmode s.scrap e k
    { tePtext := strcpy s.tePtext e'.curr
      didx := e'.didx
      inpOvwrmode := ovwrAfter s.inpOvwrmode k
      scrap := scrapAfter e.curr s.scrap k }

/-- What may be called. Anyone may write to the clipboard. -/
inductive Call where
  | edInit
  | edChar (key : UInt16)
  | scrap (text : List Byte)

/-- A call, with what is on the stack. -/
def objcEdit (ted : Tedinfo) (stack : Mem) (s : State) : Call → State
  | .edInit => edInit ted stack s
  | .edChar key => edChar ted stack s key
  | .scrap text => { s with scrap := text }

end Edit

end Aes

end MagiC
