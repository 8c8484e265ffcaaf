import Mathlib.Data.List.Forall2
import MagiC.Aes.Field

/-!
# Templates

A field shows its text in a template. Two routines say where the characters of the text go:
`txt_tmplt_to_merge` puts them into the template, and `txtpos_to_tmpltpos` says where in the
template a place of the text is, which is where the cursor is put.

The first one begins with the last character and the last place if the text is to be on the
right. The second one is not told how the text is justified. It counts the places from the
left, so for a text on the right that does not fill the places it says something else.

A string is given with the zero behind it, and an access outside of it has no result.

## Main definitions

* `places`, `fill`: The places of a template, and what it becomes.

## Theorems

* `tmplt_iff`: When the routines say the same.
-/

namespace MagiC

namespace Aes

namespace Edit

def TE_RIGHT : Byte := 1

/-- A byte of a string. -/
def peek (b : List Byte) (i : Int) : Option Byte := if 0 ≤ i then b[i.toNat]? else none

def poke (b : List Byte) (i : Int) (c : Byte) : Option (List Byte) :=
  if 0 ≤ i ∧ i < b.length then some (b.set i.toNat c) else none

/-- A template, with a place for a character. Its length is kept in a word with a sign. -/
structure Template where
  chars : List Byte
  nonzero : 0 ∉ chars
  place : 0x5f ∈ chars
  short : chars.length < 0x8000

/-- A template in memory. -/
def Template.bytes (t : Template) : List Byte := t.chars ++ [0]

/-- Where the template of a field is. A field that scrolls has it somewhere else. -/
structure TmpltInfo where
  tePtmplt : Option Template
  xtePtmplt : Template

def TmpltInfo.template (te : TmpltInfo) : Template := te.tePtmplt.getD te.xtePtmplt

/-- `txtt_l1`: a place for each of the characters. -/
def posL1 (b : List Byte) : Nat → Int → BitVec 16 → BitVec 16 → Option (Int × BitVec 16)
  | 0, _, _, _ => none
  | n + 1, a0, d1, d0 =>
    if (0 : BitVec 16).slt d1 then do
      let c ← peek b a0
      posL1 b n (a0 + 1) (if c = 0x5f then d1 - 1 else d1) (d0 + 1)
    else some (a0, d0)

/-- `txtt_l4`: the next place, or the end of the template. -/
def posL4 (b : List Byte) : Nat → Int → BitVec 16 → Option (Bool × Int × BitVec 16)
  | 0, _, _ => none
  | n + 1, a0, d0 => do
    let c ← peek b a0
    if c = 0 then return (false, a0, d0)
    if c = 0x5f then return (true, a0, d0)
    posL4 b n (a0 + 1) (d0 + 1)

/-- `txtt_l6`: behind the last place. -/
def posL6 (b : List Byte) : Nat → Int → BitVec 16 → Option (BitVec 16)
  | 0, _, _ => none
  | n + 1, a0, d0 =>
    if d0.slt 0 then do
      let c ← peek b a0
      return if c = 0 then d0 else d0 + 1
    else do
      let c ← peek b (a0 - 1)
      if c = 0x5f then return d0
      posL6 b n (a0 - 1) (d0 - 1)

/-- `txtpos_to_tmpltpos` in memory. -/
def txtpos (te : TmpltInfo) (ptxtpos : BitVec 16) : Option (BitVec 16) := do
  let b := te.template.bytes
  let r ← posL1 b (b.length + 1) 0 ptxtpos 0
  let r ← posL4 b (b.length + 1) r.1 r.2
  if r.1 then return r.2.2
  posL6 b (b.length + 1) r.2.1 r.2.2

/-- `ttm_vloop`: from the left. -/
def ttmVloop (txt tmplt : List Byte) : Nat → Int → Int → Int → List Byte → Option (List Byte)
  | 0, _, _, _, _ => none
  | n + 1, a0, a1, a2, dest => do
    let d0 ← peek tmplt a1
    let r ← if d0 = 0x5f then
        (peek txt a0).map fun c => if c = 0 then (d0, a0) else (c, a0 + 1)
      else some (d0, a0)
    let dest ← poke dest a2 r.1
    if r.1 = 0 then poke dest (a2 + 1) 0 else ttmVloop txt tmplt n r.2 (a1 + 1) (a2 + 1) dest

/-- `ttm_rsloop1` and `ttm_rsloop2`: behind the zero. -/
def ttmRsloop (b : List Byte) : Nat → Int → Option Int
  | 0, _ => none
  | n + 1, a => do
    let c ← peek b a
    if c = 0 then return a + 1
    ttmRsloop b n (a + 1)

/-- `ttm_rloop`: from the right. -/
def ttmRloop (txt tmplt : List Byte) : Nat → Int → Int → Int → List Byte → Option (List Byte)
  | 0, _, _, _, _ => none
  | n + 1, a0, a1, a2, dest => do
    let d0 ← peek tmplt (a1 - 1)
    let r ← if d0 = 0x5f ∧ 0 < a0 then (peek txt (a0 - 1)).map fun c => (c, a0 - 1)
      else some (d0, a0)
    let dest ← poke dest (a2 - 1) r.1
    if 0 < a1 - 1 then ttmRloop txt tmplt n r.2 (a1 - 1) (a2 - 1) dest else return dest

/-- The text is put into the template. -/
def txtTmpltToMerge (just : Byte) (txt tmplt dest : List Byte) : Option (List Byte) := do
  let c ← peek txt 0
  let txt := if c = 0x40 then [0] else txt
  if just = TE_RIGHT then
    let a0 ← ttmRsloop txt txt.length 0
    -- both pointers go on by one for each character of the template
    let a1 ← ttmRsloop tmplt tmplt.length 0
    ttmRloop txt tmplt tmplt.length (a0 - 1) a1 a1 dest
  else ttmVloop txt tmplt tmplt.length 0 0 0 dest

/-- The places of a template from `off` on. -/
def places : Nat → List Byte → List Nat
  | _, [] => []
  | off, c :: cs => if c = 0x5f then off :: places (off + 1) cs else places (off + 1) cs

/-- The places that have got a character, with the characters. -/
def taken : Nat → List Byte → List Byte → List (Nat × Byte)
  | off, c :: cs, o :: os =>
    if c = 0x5f ∧ o ≠ 0x5f then (off, o) :: taken (off + 1) cs os else taken (off + 1) cs os
  | _, _, _ => []

/-- The places that are left. -/
def left : Nat → List Byte → List Byte → List Nat
  | off, c :: cs, o :: os =>
    if c = 0x5f ∧ o = 0x5f then off :: left (off + 1) cs os else left (off + 1) cs os
  | _, _, _ => []

/-- Characters are put into the places, beginning with the first one. -/
def fill : List Byte → List Byte → List Byte
  | [], _ => []
  | c :: cs, [] => c :: cs
  | c :: cs, x :: xs => if c = 0x5f then x :: fill cs xs else c :: fill cs (x :: xs)

/-- A text for a template. -/
structure Text (t : Template) where
  chars : List Byte
  nonzero : 0 ∉ chars
  plain : 0x5f ∉ chars
  head : chars.head? ≠ some 0x40
  fits : chars.length ≤ t.chars.count 0x5f

/-- What the text has been put into is the template but for its places. -/
structure Merged (t : Template) (out : List Byte) : Prop where
  length : out.length = t.chars.length
  nonzero : 0 ∉ out
  fixed : ∀ p : Nat, t.chars[p]? ≠ some 0x5f → out[p]? = t.chars[p]?

/-- The places of the text are `pos`, in what it has been put into. -/
structure Located (t : Template) (txt out : List Byte) (pos : Nat → Nat) : Prop where
  char : ∀ i c, txt[i]? = some c → (taken 0 t.chars out)[i]? = some (pos i, c)
  mono : ∀ i j, i < j → j < txt.length → pos i < pos j
  next : ∀ p, (left 0 t.chars out).head? = some p → pos txt.length = p
  behind : left 0 t.chars out = [] →
    ∃ q, (places 0 t.chars).getLast? = some q ∧ pos txt.length = q + 1

/-- The two routines say the same, and access nothing but their strings and two bytes more than
    the template has characters. -/
def Agree (te : TmpltInfo) (just : Byte) (txt : Text te.template) : Prop :=
  ∀ dest : List Byte, dest.length = te.template.chars.length + 2 → ∃ out rest,
    txtTmpltToMerge just (txt.chars ++ [0]) te.template.bytes dest = some (out ++ 0 :: rest) ∧
    Merged te.template out ∧ ∃ pos : Nat → Nat,
      (∀ i ≤ txt.chars.length, ∃ w, txtpos te (BitVec.ofNat 16 i) = some w ∧ w.toInt = pos i) ∧
      Located te.template txt.chars out pos

section

variable {a b : List Byte} {c : Byte}

theorem peek_append (i : Int) (hi : i = a.length) : peek (a ++ c :: b) i = some c := by
  rw [peek, if_pos (by omega), hi, Int.toNat_natCast, List.getElem?_append_right (Nat.le_refl _)]
  simp

theorem poke_append (i : Int) (hi : i = a.length) (d : Byte) :
    poke (a ++ c :: b) i d = some (a ++ d :: b) := by
  rw [poke, if_pos (by simp only [List.length_append, List.length_cons]; omega), hi,
    Int.toNat_natCast, List.set_append_right _ _ (Nat.le_refl _)]
  simp

theorem fill_nil (cs : List Byte) : fill cs [] = cs := by
  cases cs with
  | nil => rfl
  | cons c cs => rfl

theorem fill_fixed {cs : List Byte} (hc : c ≠ 0x5f) (xs : List Byte) :
    fill (c :: cs) xs = c :: fill cs xs := by
  rcases xs with - | ⟨x, xs⟩
  · rw [fill_nil, fill_nil]
  · rw [fill, if_neg hc]

/-- From the left, the places get the characters in their order. -/
theorem ttmVloop_fill (pre cs xpre xs done rest : List Byte) (n : Nat) (hcs : 0 ∉ cs) (hxs : 0 ∉ xs)
    (hdone : done.length = pre.length) (hrest : rest.length = cs.length + 2) (hn : cs.length < n) :
    ttmVloop (xpre ++ xs ++ [0]) (pre ++ cs ++ [0]) n xpre.length pre.length done.length
      (done ++ rest) = some (done ++ fill cs xs ++ [0, 0]) := by
  induction cs generalizing pre xpre xs done rest n with
  | nil =>
    rcases n with - | n
    · exact absurd hn (Nat.not_lt_zero _)
    · rcases rest with - | ⟨r, - | ⟨r', - | ⟨r'', rest⟩⟩⟩
      all_goals try simp at hrest
      rw [List.append_nil, ttmVloop, peek_append _ rfl]
      have happ : done ++ 0 :: [r'] = (done ++ [0]) ++ [r'] := by simp
      simp only [Option.bind_eq_bind, Option.bind_some, show (0 : Byte) ≠ 0x5f by decide,
        if_false, if_true, poke_append _ rfl]
      rw [happ, poke_append _ (by simp)]
      simp [fill]
  | cons c cs ih =>
    rcases n with - | n
    · exact absurd hn (Nat.not_lt_zero _)
    · rcases rest with - | ⟨r, rest⟩
      · simp at hrest
      · have hc : c ≠ 0 := fun heq => hcs (heq ▸ List.mem_cons_self)
        have hcs' : 0 ∉ cs := fun hmem => hcs (List.mem_cons_of_mem c hmem)
        have next : ∀ (d : Byte) (zpre zs : List Byte), 0 ∉ zs →
            ttmVloop (zpre ++ zs ++ [0]) (pre ++ c :: cs ++ [0]) n zpre.length (pre.length + 1)
              (done.length + 1) (done ++ d :: rest) = some (done ++ d :: fill cs zs ++ [0,
                0]) := by
          intro d zpre zs hzs
          have hrun := ih (pre ++ [c]) zpre zs (done ++ [d]) rest n hcs' hzs
            (by simpa using hdone)
            (by simpa using hrest) (by simpa using hn)
          simpa using hrun
        have hread : peek (pre ++ c :: cs ++ [0]) pre.length = some c := by
          rw [List.append_assoc, List.cons_append]
          exact peek_append _ rfl
        rw [ttmVloop, hread]
        by_cases hplace : c = 0x5f
        · rcases xs with - | ⟨x, xs⟩
          · -- the text has ended
            have hend : peek (xpre ++ [] ++ [0]) xpre.length = some 0 := by
              rw [List.append_nil]
              exact peek_append _ rfl
            simp only [Option.bind_eq_bind, Option.bind_some, if_pos hplace, hend,
              Option.map_some,
              if_true, poke_append _ rfl, if_neg hc, next c xpre [] hxs]
            rw [fill_nil, fill_nil]
          · have hx : x ≠ 0 := fun heq => hxs (heq ▸ List.mem_cons_self)
            have hget : peek (xpre ++ x :: xs ++ [0]) xpre.length = some x := by
              rw [List.append_assoc, List.cons_append]
              exact peek_append _ rfl
            have hrun := next x (xpre ++ [x]) xs fun hmem => hxs (List.mem_cons_of_mem x hmem)
            simp only [List.append_assoc, List.cons_append, List.nil_append, List.length_append,
              List.length_singleton, Nat.cast_add, Nat.cast_one] at hrun hget ⊢
            simp only [Option.bind_eq_bind, Option.bind_some, if_pos hplace, hget,
              Option.map_some,
              poke_append _ rfl, if_neg hx, hrun]
            rw [fill, if_pos hplace]
            rfl
        · have hrun := next c xpre xs hxs
          simp only [Option.bind_eq_bind, Option.bind_some, if_neg hplace, poke_append _ rfl,
            if_neg hc, hrun]
          rw [fill_fixed hplace]

/-- From the right, the places get the characters in the opposite order. -/
theorem ttmRloop_fill (p suf q xsuf rest done : List Byte) (n : Nat) (hp : p ≠ [])
    (hrest : rest.length = p.length) (hn : p.length ≤ n) :
    ttmRloop (q.reverse ++ xsuf) (p.reverse ++ suf) n q.length p.length p.length (rest ++ done) =
      some ((fill p q).reverse ++ done) := by
  induction p generalizing suf q xsuf rest done n with
  | nil => exact absurd rfl hp
  | cons c p ih =>
    rcases n with - | n
    · exact absurd hn (Nat.not_succ_le_zero _)
    · rcases List.eq_nil_or_concat' rest with rfl | ⟨rest, r, rfl⟩
      · exact absurd hrest (Nat.zero_ne_add_one _)
      · have hlen : (rest.length : Int) = p.length := by simpa using hrest
        have next : ∀ (d : Byte) (z zsuf : List Byte),
            (if 0 < (p.length : Int) then
              ttmRloop (z.reverse ++ zsuf) (p.reverse ++ c :: suf) n z.length p.length p.length
                (rest ++ d :: done)
            else some (rest ++ d :: done)) = some ((fill p z).reverse ++ d :: done) := by
          intro d z zsuf
          by_cases hnil : p = []
          · subst hnil
            have hrest' : rest = [] := List.eq_nil_of_length_eq_zero (by simpa using hlen)
            rw [hrest', if_neg (by simp)]
            rfl
          · rw [if_pos (by have := List.length_pos_iff.mpr hnil; omega)]
            exact ih (c :: suf) z zsuf rest (d :: done) n hnil (by omega) (by simpa using hn)
        have htmplt : (c :: p).reverse ++ suf = p.reverse ++ c :: suf := by simp
        have hat : ((c :: p).length : Int) - 1 = p.length := by simp
        have hread : peek (p.reverse ++ c :: suf) p.length = some c := peek_append _ (by simp)
        have hdest : ∀ d, poke (rest ++ [r] ++ done) p.length d = some (rest ++ d :: done) := by
          intro d
          rw [List.append_assoc]
          exact poke_append _ hlen.symm d
        rw [ttmRloop, htmplt, hat, hread]
        by_cases hplace : c = 0x5f ∧ 0 < (q.length : Int)
        · rcases q with - | ⟨x, q⟩
          · exact absurd hplace.2 (by simp)
          · have hqat : ((x :: q).length : Int) - 1 = q.length := by simp
            have hget : peek ((x :: q).reverse ++ xsuf) q.length = some x := by
              rw [List.reverse_cons, List.append_assoc]
              exact peek_append _ (by simp)
            have hrun := next x q (x :: xsuf)
            simp only [Option.bind_eq_bind, Option.bind_some, if_pos hplace, hqat, hget,
              Option.map_some, hdest, pure]
            rw [fill, if_pos hplace.1, List.reverse_cons, List.reverse_cons, List.append_assoc,
              List.append_assoc]
            exact hrun
        · have hrun := next c q xsuf
          simp only [Option.bind_eq_bind, Option.bind_some, if_neg hplace, hdest, pure]
          have hfill : fill (c :: p) q = c :: fill p q := by
            rcases q with - | ⟨x, q⟩
            · rw [fill_nil, fill_nil]
            · rw [fill, if_neg fun hc => hplace ⟨hc, by simp⟩]
          rw [hfill, List.reverse_cons, List.append_assoc]
          exact hrun

theorem ttmRsloop_end (pre cs : List Byte) (n : Nat) (hcs : 0 ∉ cs) (hn : cs.length < n) :
    ttmRsloop (pre ++ cs ++ [0]) n pre.length = some ((pre.length : Int) + cs.length + 1) := by
  induction cs generalizing pre n with
  | nil =>
    rcases n with - | n
    · exact absurd hn (Nat.not_lt_zero _)
    · rw [List.append_nil, ttmRsloop, peek_append _ rfl]
      rfl
  | cons c cs ih =>
    rcases n with - | n
    · exact absurd hn (Nat.not_lt_zero _)
    · have hc : c ≠ 0 := fun heq => hcs (heq ▸ List.mem_cons_self)
      have hrun := ih (pre ++ [c]) n (fun hmem => hcs (List.mem_cons_of_mem c hmem))
        (by simpa using hn)
      have happ : pre ++ [c] ++ cs ++ [0] = pre ++ c :: cs ++ [0] := by simp
      have hread : peek (pre ++ c :: cs ++ [0]) pre.length = some c := by
        rw [List.append_assoc, List.cons_append]
        exact peek_append _ rfl
      rw [happ, List.length_append, List.length_singleton, Nat.cast_add, Nat.cast_one] at hrun
      rw [ttmRsloop, hread]
      simp only [Option.bind_eq_bind, Option.bind_some, if_neg hc, hrun, List.length_cons,
        Nat.cast_add, Nat.cast_one]
      congr 1
      omega

/-- What the template becomes. -/
def merged (just : Byte) (cs xs : List Byte) : List Byte :=
  if just = TE_RIGHT then (fill cs.reverse xs.reverse).reverse else fill cs xs

theorem txtTmpltToMerge_spec (just : Byte) (t : Template) (txt : Text t) (dest : List Byte)
    (hdest : dest.length = t.chars.length + 2) : ∃ rest,
      txtTmpltToMerge just (txt.chars ++ [0]) t.bytes dest =
        some (merged just t.chars txt.chars ++ 0 :: rest) := by
  have hfirst : ∃ c, peek (txt.chars ++ [0]) 0 = some c ∧ c ≠ 0x40 := by
    have hhead := txt.head
    rcases hx : txt.chars with - | ⟨x, xs⟩
    · exact ⟨0, rfl, by decide⟩
    · rw [hx] at hhead
      exact ⟨x, rfl, fun heq => hhead (congrArg some heq)⟩
  rcases hfirst with ⟨c, hc, hne⟩
  rw [txtTmpltToMerge, hc, Template.bytes, merged]
  simp only [Option.bind_eq_bind, Option.bind_some, if_neg hne]
  by_cases hjust : just = TE_RIGHT
  · have htxt := ttmRsloop_end [] txt.chars (txt.chars ++ [0]).length txt.nonzero (by simp)
    have htmplt := ttmRsloop_end [] t.chars (t.chars ++ [0]).length t.nonzero (by simp)
    -- the zero behind the template is the first character to be copied
    rcases List.eq_nil_or_concat' dest with rfl | ⟨d, last, rfl⟩
    · exact absurd hdest (by simp)
    have hrun := ttmRloop_fill (0 :: t.chars.reverse) [] txt.chars.reverse [0] d [last]
      (t.chars.length + 1) (by simp) (by simpa using hdest) (by simp)
    refine ⟨[last], ?_⟩
    rw [fill_fixed (by decide)] at hrun
    simp only [List.nil_append, List.length_nil, Nat.cast_zero, zero_add] at htxt htmplt
    rw [if_pos hjust, if_pos hjust, htxt, Option.bind_some, htmplt, Option.bind_some]
    simpa using hrun
  · refine ⟨[0], ?_⟩
    have hrun := ttmVloop_fill [] t.chars [] txt.chars [] dest (t.chars ++ [0]).length t.nonzero
      txt.nonzero rfl hdest (by simp)
    rw [if_neg hjust, if_neg hjust]
    simpa using hrun

/-- Only places have got other characters. -/
def Over (cs out : List Byte) : Prop := List.Forall₂ (fun c o => c ≠ 0x5f → o = c) cs out

theorem fill_over (cs xs : List Byte) : Over cs (fill cs xs) := by
  induction cs generalizing xs with
  | nil => exact .nil
  | cons c cs ih =>
    rcases xs with - | ⟨x, xs⟩
    · rw [fill_nil]
      exact List.forall₂_same.mpr fun _ _ _ => rfl
    · rw [fill]
      by_cases hc : c = 0x5f
      · rw [if_pos hc]
        exact .cons (fun hne => absurd hc hne) (ih xs)
      · rw [if_neg hc]
        exact .cons (fun _ => rfl) (ih (x :: xs))

theorem mem_fill {cs xs : List Byte} (h : c ∈ fill cs xs) : c ∈ cs ∨ c ∈ xs := by
  induction cs generalizing xs with
  | nil => exact absurd h List.not_mem_nil
  | cons d cs ih =>
    rcases xs with - | ⟨x, xs⟩
    · rw [fill_nil] at h
      exact .inl h
    · rw [fill] at h
      split at h
      · rcases List.mem_cons.mp h with rfl | h
        · exact .inr List.mem_cons_self
        · exact (ih h).imp (List.mem_cons_of_mem d) (List.mem_cons_of_mem x)
      · rcases List.mem_cons.mp h with rfl | h
        · exact .inl List.mem_cons_self
        · exact (ih h).imp_left (List.mem_cons_of_mem d)

theorem merged_over (just : Byte) (cs xs : List Byte) : Over cs (merged just cs xs) := by
  rw [merged]
  split
  · have h := List.forall₂_reverse_iff.mpr (fill_over cs.reverse xs.reverse)
    rwa [List.reverse_reverse] at h
  · exact fill_over cs xs

theorem merged_spec (just : Byte) (t : Template) (txt : Text t) :
    Merged t (merged just t.chars txt.chars) := by
  have hover := merged_over just t.chars txt.chars
  refine ⟨hover.length_eq.symm, fun hmem => ?_, fun p hp => ?_⟩
  · rw [merged] at hmem
    split at hmem
    · rcases mem_fill (List.mem_reverse.mp hmem) with h | h
      · exact t.nonzero (List.mem_reverse.mp h)
      · exact txt.nonzero (List.mem_reverse.mp h)
    · exact (mem_fill hmem).elim t.nonzero txt.nonzero
  · by_cases hlt : p < t.chars.length
    · have hlt' : p < (merged just t.chars txt.chars).length := hover.length_eq ▸ hlt
      rw [List.getElem?_eq_getElem hlt] at hp
      rw [List.getElem?_eq_getElem hlt, List.getElem?_eq_getElem hlt']
      exact congrArg some (hover.get hlt hlt' fun heq => hp (congrArg some heq))
    · rw [List.getElem?_eq_none (Nat.le_of_not_lt hlt),
        List.getElem?_eq_none (hover.length_eq ▸ Nat.le_of_not_lt hlt)]

/-! ## The places of the text -/

theorem places_append (off : Nat) (a b : List Byte) :
    places off (a ++ b) = places off a ++ places (off + a.length) b := by
  induction a generalizing off with
  | nil => rfl
  | cons c a ih =>
    rw [List.cons_append, places, places, ih, List.length_cons, Nat.add_right_comm off 1,
      Nat.add_assoc off]
    split <;> rfl

theorem places_length (off : Nat) (a : List Byte) : (places off a).length = a.count 0x5f := by
  induction a generalizing off with
  | nil => rfl
  | cons c a ih =>
    rw [places, List.count_cons]
    by_cases hc : c = 0x5f
    · rw [if_pos hc, List.length_cons, ih, if_pos (beq_iff_eq.mpr hc)]
    · rw [if_neg hc, ih, if_neg (mt beq_iff_eq.mp hc)]
      rfl

theorem places_ge {off p : Nat} (h : p ∈ places off a) : off ≤ p ∧ p < off + a.length := by
  induction a generalizing off with
  | nil => exact absurd h List.not_mem_nil
  | cons c a ih =>
    rw [List.length_cons]
    rw [places] at h
    split at h
    · rcases List.mem_cons.mp h with rfl | h
      · omega
      · have := ih h
        omega
    · have := ih h
      omega

theorem places_sorted (off : Nat) (a : List Byte) : (places off a).Pairwise (· < ·) := by
  induction a generalizing off with
  | nil => exact .nil
  | cons c a ih =>
    rw [places]
    split
    · exact List.pairwise_cons.mpr ⟨fun p hp => (places_ge hp).1, ih _⟩
    · exact ih _

theorem taken_append {o : List Byte} (off : Nat) (d : Byte) (h : a.length = o.length) :
    taken off (a ++ [c]) (o ++ [d]) =
      taken off a o ++ if c = 0x5f ∧ d ≠ 0x5f then [(off + a.length, d)] else [] := by
  induction a generalizing off o with
  | nil =>
    rw [List.eq_nil_of_length_eq_zero h.symm]
    simp [taken]
  | cons x a ih =>
    rcases o with - | ⟨y, o⟩
    · exact absurd h (by simp)
    · rw [List.cons_append, List.cons_append, taken, taken, ih _ (by simpa using h),
        List.length_cons, Nat.add_right_comm off 1, Nat.add_assoc off]
      split <;> rfl

theorem left_append {o : List Byte} (off : Nat) (d : Byte) (h : a.length = o.length) :
    left off (a ++ [c]) (o ++ [d]) =
      left off a o ++ if c = 0x5f ∧ d = 0x5f then [off + a.length] else [] := by
  induction a generalizing off o with
  | nil =>
    rw [List.eq_nil_of_length_eq_zero h.symm]
    simp [left]
  | cons x a ih =>
    rcases o with - | ⟨y, o⟩
    · exact absurd h (by simp)
    · rw [List.cons_append, List.cons_append, left, left, ih _ (by simpa using h),
        List.length_cons, Nat.add_right_comm off 1, Nat.add_assoc off]
      split <;> rfl

theorem taken_fill (off : Nat) (cs : List Byte) {xs : List Byte} (hxs : 0x5f ∉ xs) :
    taken off cs (fill cs xs) = (places off cs).zip xs ∧
      left off cs (fill cs xs) = (places off cs).drop xs.length := by
  induction cs generalizing off xs with
  | nil => simp [taken, left, places]
  | cons c cs ih =>
    by_cases hc : c = 0x5f
    · rcases xs with - | ⟨x, xs⟩
      · have hrest := ih (off + 1) (List.not_mem_nil : 0x5f ∉ ([] : List Byte))
        rw [fill_nil] at hrest ⊢
        simpa [taken, left, places, hc] using hrest
      · have hx : x ≠ 0x5f := fun heq => hxs (heq ▸ List.mem_cons_self)
        have hrest := ih (off + 1) fun hmem => hxs (List.mem_cons_of_mem x hmem)
        rw [fill, if_pos hc]
        simpa [taken, left, places, hc, hx] using hrest
    · have hrest := ih (off + 1) hxs
      rw [fill_fixed hc]
      simpa [taken, left, places, hc] using hrest

theorem taken_fill_right (off : Nat) (cs : List Byte) {xs : List Byte} (hxs : 0x5f ∉ xs)
    (hle : xs.length ≤ cs.count 0x5f) :
    taken off cs (fill cs.reverse xs.reverse).reverse =
        ((places off cs).drop (cs.count 0x5f - xs.length)).zip xs ∧
      left off cs (fill cs.reverse xs.reverse).reverse =
        (places off cs).take (cs.count 0x5f - xs.length) := by
  induction cs using List.reverseRecOn generalizing xs with
  | nil => simp [taken, left, places]
  | append_singleton cs c ih =>
    have hlen : ∀ zs, cs.length = (fill cs.reverse zs).reverse.length := by
      intro zs
      rw [List.length_reverse, ← (fill_over cs.reverse zs).length_eq, List.length_reverse]
    rw [List.reverse_append, List.reverse_singleton, List.singleton_append, places_append]
    by_cases hc : c = 0x5f
    · rcases List.eq_nil_or_concat' xs with rfl | ⟨xs, x, rfl⟩
      · -- no character is left for the last place
        have hrest := ih (List.not_mem_nil : 0x5f ∉ ([] : List Byte)) (Nat.zero_le _)
        have hall := hlen []
        rw [fill_nil] at hall
        rw [List.reverse_nil, fill_nil] at hrest ⊢
        rw [List.reverse_cons, taken_append off c hall, left_append off c hall, hrest.1, hrest.2]
        simp [places, hc, ← places_length off cs]
      · have hx : x ≠ 0x5f := fun heq => hxs (heq ▸ by simp)
        have hle' : xs.length ≤ cs.count 0x5f := by simpa [hc] using hle
        have hrest := ih (fun hmem => hxs (List.mem_append_left _ hmem)) hle'
        have hcount : (cs ++ [c]).count 0x5f - (xs ++ [x]).length =
            cs.count 0x5f - xs.length := by
          simp [hc]
        have hpl := places_length off cs
        rw [List.reverse_append, List.reverse_singleton, List.singleton_append, fill, if_pos hc,
          List.reverse_cons, taken_append off x (hlen _), left_append off x (hlen _), hrest.1,
          hrest.2, hcount, if_pos ⟨hc, hx⟩, if_neg fun h => hx h.2, places, if_pos hc, places,
          List.drop_append_of_le_length (by omega), List.take_append_of_le_length (by omega),
          List.zip_append (by rw [List.length_drop]; omega)]
        exact ⟨rfl, List.append_nil _⟩
    · have hrest := ih hxs (by simpa [hc] using hle)
      rw [fill_fixed hc, List.reverse_cons, taken_append off c (hlen _), left_append off c
        (hlen _),
        hrest.1, hrest.2]
      simp [places, hc]

/-! ## From the text to the template -/

theorem word_toInt {k : Nat} (hk : k < 0x8000) : (BitVec.ofNat 16 k).toInt = k := by
  rw [BitVec.toInt_eq_toNat_bmod, BitVec.toNat_ofNat, Nat.mod_eq_of_lt (by omega),
    Int.bmod_eq_of_le] <;> omega

theorem word_succ (k : Nat) : BitVec.ofNat 16 k + 1 = BitVec.ofNat 16 (k + 1) :=
  (BitVec.ofNat_add k 1).symm

theorem word_pred (k : Nat) : BitVec.ofNat 16 (k + 1) - 1 = BitVec.ofNat 16 k := by
  rw [← word_succ, BitVec.add_sub_cancel]

theorem posL1_spec (pre cs : List Byte) (n i : Nat) (hi : i ≤ cs.count 0x5f) (hshort : i < 0x8000)
    (hn : cs.length < n) : ∃ front rest, cs = front ++ rest ∧ front.count 0x5f = i ∧
      txttL1 cs i pre.length = (((pre.length + front.length : Nat) : Int), rest) ∧
      posL1 (pre ++ cs ++ [0]) n pre.length (BitVec.ofNat 16 i) (BitVec.ofNat 16 pre.length) =
        some (((pre.length + front.length : Nat) : Int),
          BitVec.ofNat 16 (pre.length + front.length)) := by
  induction cs generalizing pre n i with
  | nil =>
    rcases n with - | n
    · exact absurd hn (Nat.not_lt_zero _)
    · have h0 : i = 0 := Nat.le_zero.mp hi
      subst h0
      exact ⟨[], [], rfl, rfl, rfl, by rw [posL1, if_neg (by decide)]; rfl⟩
  | cons c cs ih =>
    rcases n with - | n
    · exact absurd hn (Nat.not_lt_zero _)
    · by_cases hpos : 0 < i
      · -- a place is taken by one of the characters
        have hlt : (0 : BitVec 16).slt (BitVec.ofNat 16 i) = true := by
          rw [BitVec.slt_iff_toInt_lt, word_toInt hshort]
          exact Int.natCast_pos.mpr hpos
        have hread : peek (pre ++ c :: cs ++ [0]) pre.length = some c := by
          rw [List.append_assoc, List.cons_append]
          exact peek_append _ rfl
        have happ : pre ++ [c] ++ cs ++ [0] = pre ++ c :: cs ++ [0] := by simp
        have hlen : pre.length + 1 = (pre ++ [c]).length := by simp
        rcases Nat.exists_eq_add_of_le' hpos with ⟨j, rfl⟩
        rw [txttL1, posL1, if_pos (by exact_mod_cast hpos), if_pos hlt, hread, word_succ,
          show ((pre.length : Int) + 1) = ((pre.length + 1 : Nat) : Int) from rfl, hlen]
        by_cases hc : c = 0x5f
        · rcases ih (pre ++ [c]) n j (by simpa [hc] using hi) (by omega) (by simpa using hn) with
            ⟨front, rest, rfl, hcount, htxtt, hrun⟩
          refine ⟨c :: front, rest, rfl, by simp [hc, hcount], ?_, ?_⟩
          · rw [if_pos hc, show (((j + 1 : Nat) : Int) - 1) = (j : Int) by omega, htxtt]
            simp [Nat.add_assoc, Nat.add_comm 1]
          · rw [happ] at hrun
            simp only [Option.bind_eq_bind, Option.bind_some, if_pos hc, word_pred]
            rw [hrun]
            simp [Nat.add_assoc, Nat.add_comm 1]
        · rcases ih (pre ++ [c]) n (j + 1) (by simpa [hc] using hi) hshort
            (by simpa using hn) with
            ⟨front, rest, rfl, hcount, htxtt, hrun⟩
          refine ⟨c :: front, rest, rfl, by simp [hc, hcount], ?_, ?_⟩
          · rw [if_neg hc, htxtt]
            simp [Nat.add_assoc, Nat.add_comm 1]
          · rw [happ] at hrun
            simp only [Option.bind_eq_bind, Option.bind_some, if_neg hc]
            rw [hrun]
            simp [Nat.add_assoc, Nat.add_comm 1]
      · have h0 : i = 0 := Nat.eq_zero_of_not_pos hpos
        subst h0
        refine ⟨[], c :: cs, rfl, rfl, ?_, ?_⟩
        · rw [txttL1, if_neg (by simp)]
          rfl
        · rw [posL1, if_neg (by decide)]
          rfl

theorem posL4_spec (pre cs : List Byte) (n : Nat) (hcs : 0 ∉ cs) (hn : cs.length < n) :
    posL4 (pre ++ cs ++ [0]) n pre.length (BitVec.ofNat 16 pre.length) =
      some (match (places pre.length cs).head? with
        | some q => (true, (q : Int), BitVec.ofNat 16 q)
        | none => (false, ((pre ++ cs).length : Int), BitVec.ofNat 16 (pre ++ cs).length)) := by
  induction cs generalizing pre n with
  | nil =>
    rcases n with - | n
    · exact absurd hn (Nat.not_lt_zero _)
    · rw [List.append_nil, posL4, peek_append _ rfl]
      rfl
  | cons c cs ih =>
    rcases n with - | n
    · exact absurd hn (Nat.not_lt_zero _)
    · have hc : c ≠ 0 := fun heq => hcs (heq ▸ List.mem_cons_self)
      have hread : peek (pre ++ c :: cs ++ [0]) pre.length = some c := by
        rw [List.append_assoc, List.cons_append]
        exact peek_append _ rfl
      rw [posL4, hread, places]
      simp only [Option.bind_eq_bind, Option.bind_some, if_neg hc]
      by_cases hplace : c = 0x5f
      · rw [if_pos hplace, if_pos hplace]
        rfl
      · have hrun := ih (pre ++ [c]) n (fun hmem => hcs (List.mem_cons_of_mem c hmem))
          (by simpa using hn)
        have happ : pre ++ [c] ++ cs = pre ++ c :: cs := by simp
        rw [happ, List.length_append, List.length_singleton, ← word_succ, Nat.cast_add,
          Nat.cast_one] at hrun
        rw [if_neg hplace, if_neg hplace]
        exact hrun

theorem posL6_spec (pre cs suf : List Byte) (n : Nat) (hcs : 0x5f ∉ cs)
    (hshort : pre.length + 1 + cs.length < 0x8000) (hn : cs.length < n) :
    posL6 (pre ++ 0x5f :: cs ++ suf) n ((pre.length + 1 + cs.length : Nat) : Int)
      (BitVec.ofNat 16 (pre.length + 1 + cs.length)) = some (BitVec.ofNat 16 (pre.length + 1)) := by
  have hpos : ∀ k, k < 0x8000 → ¬ (BitVec.ofNat 16 k).slt 0 = true := by
    intro k hk
    rw [BitVec.slt_iff_toInt_lt, word_toInt hk]
    exact Int.not_lt.mpr (Int.natCast_nonneg k)
  induction cs using List.reverseRecOn generalizing suf n with
  | nil =>
    rcases n with - | n
    · exact absurd hn (Nat.not_lt_zero _)
    · have hread : peek (pre ++ 0x5f :: [] ++ suf) pre.length = some 0x5f := by
        rw [List.append_assoc, List.cons_append]
        exact peek_append _ rfl
      rw [posL6, if_neg (hpos _ hshort), show (((pre.length + 1 + [].length : Nat) : Int) - 1) =
        pre.length by simp, hread]
      rfl
  | append_singleton cs c ih =>
    rcases n with - | n
    · exact absurd hn (Nat.not_lt_zero _)
    · have hc : c ≠ 0x5f := fun heq => hcs (heq ▸ by simp)
      have happ : pre ++ 0x5f :: (cs ++ [c]) ++ suf = pre ++ 0x5f :: cs ++ c :: suf := by simp
      have hat : pre.length + 1 + (cs ++ [c]).length =
        pre.length + 1 + cs.length + 1 := by simp; rfl
      have hread : peek (pre ++ 0x5f :: cs ++ c :: suf)
        ((pre.length + 1 + cs.length : Nat) : Int) =
          some c := peek_append _ (by simp; omega)
      rw [hat] at hshort
      rw [posL6, hat, if_neg (hpos _ hshort), happ, Nat.cast_add _ 1, Nat.cast_one,
        Int.add_sub_cancel, hread, word_pred]
      simp only [Option.bind_eq_bind, Option.bind_some, if_neg hc]
      exact ih (c :: suf) n (fun hmem => hcs (List.mem_append_left _ hmem)) (by omega)
        (by simpa using hn)

theorem last_place (t : Template) : ∃ pre suf, t.chars = pre ++ 0x5f :: suf ∧ 0x5f ∉ suf ∧
    (places 0 t.chars).getLast? = some pre.length := by
  rcases List.eq_append_cons_of_mem (List.mem_reverse.mpr t.place) with ⟨suf, pre, heq, hsuf⟩
  have hchars : t.chars = pre.reverse ++ 0x5f :: suf.reverse := by
    rw [← List.reverse_reverse t.chars, heq]
    simp
  have hnone : ∀ off, places off suf.reverse = [] := fun off =>
    List.eq_nil_of_length_eq_zero (by
      rw [places_length]
      exact List.count_eq_zero.mpr fun h => hsuf (List.mem_reverse.mp h))
  refine ⟨pre.reverse, suf.reverse, hchars, fun h => hsuf (List.mem_reverse.mp h), ?_⟩
  rw [hchars, places_append, places, if_pos rfl, hnone]
  simp

/-- The place that is counted from the left, or what is behind the last one. -/
def placeOf (t : Template) (i : Nat) : Nat :=
  (places 0 t.chars)[i]?.getD ((places 0 t.chars).getLast?.getD 0 + 1)

/-- The place that is counted from the left is found. -/
theorem txtpos_spec (te : TmpltInfo) (i : Nat) (hi : i ≤ te.template.chars.count 0x5f) :
    ∃ w, txtpos te (BitVec.ofNat 16 i) = some w ∧ w.toInt = placeOf te.template i := by
  have hshort := te.template.short
  have hcount := List.count_le_length (a := (0x5f : Byte)) (l := te.template.chars)
  rcases posL1_spec [] te.template.chars (te.template.bytes.length + 1) i hi (by omega)
    (by rw [Template.bytes, List.length_append]; omega) with ⟨front, rest, hchars, hfront, -, hl1⟩
  have hsplit : places 0 te.template.chars = places 0 front ++ places front.length rest := by
    rw [hchars, places_append, Nat.zero_add]
  have hnext : (places 0 te.template.chars)[i]? = (places front.length rest).head? := by
    rw [hsplit, List.getElem?_append_right (by rw [places_length, hfront]), places_length, hfront,
      Nat.sub_self, List.head?_eq_getElem?]
  have hl4 := posL4_spec front rest (te.template.bytes.length + 1)
    (fun h => te.template.nonzero (hchars ▸ List.mem_append_right front h))
    (by simp [Template.bytes, hchars]; omega)
  rw [← hchars] at hl4
  simp only [List.nil_append, List.length_nil, Nat.zero_add, Nat.cast_zero] at hl1
  rw [txtpos, placeOf, hnext]
  simp only [Option.bind_eq_bind]
  rw [show te.template.bytes = te.template.chars ++ [0] from rfl] at hl1 hl4 ⊢
  rw [show (0 : BitVec 16) = BitVec.ofNat 16 0 from rfl, hl1, Option.bind_some, hl4,
    Option.bind_some]
  rcases hhead : (places front.length rest).head? with - | q
  · -- no place is left, so it is looked for backwards
    rcases last_place te.template with ⟨pre, suf, hlast, hsuf, hget⟩
    have hlen : te.template.chars.length = pre.length + 1 + suf.length := by
      rw [hlast]
      simp
      omega
    have hl6 := posL6_spec pre suf [0] ((te.template.chars ++ [0]).length + 1) hsuf (by omega)
      (by simp; omega)
    rw [← hlast, ← hlen] at hl6
    refine ⟨_, hl6, ?_⟩
    rw [hget, word_toInt (by omega)]
    rfl
  · refine ⟨_, rfl, ?_⟩
    have hmem := List.mem_of_mem_head? hhead
    have hge := (places_ge hmem).2
    have hlen : te.template.chars.length = front.length + rest.length := by
      rw [hchars, List.length_append]
    rw [word_toInt (by omega)]
    rfl

/-- The condition for the two routines to count alike: the text is not put to the right, or it
    takes all places, or there is none. -/
def Alike (te : TmpltInfo) (just : Byte) (txt : Text te.template) : Prop :=
  just ≠ TE_RIGHT ∨ txt.chars.length = te.template.chars.count 0x5f ∨ txt.chars = []

theorem taken_merged {te : TmpltInfo} {just : Byte} {txt : Text te.template}
    (h : Alike te just txt) :
    taken 0 te.template.chars (merged just te.template.chars txt.chars) =
        (places 0 te.template.chars).zip txt.chars ∧
      left 0 te.template.chars (merged just te.template.chars txt.chars) =
        (places 0 te.template.chars).drop txt.chars.length := by
  by_cases hjust : just = TE_RIGHT
  · have hright := taken_fill_right 0 te.template.chars txt.plain txt.fits
    have hlen := places_length 0 te.template.chars
    rw [merged, if_pos hjust]
    rcases h with hne | hall | hnil
    · exact absurd hjust hne
    · rw [← hall, Nat.sub_self] at hright
      rw [hright.1, hright.2, hall, ← hlen, List.drop_length]
      exact ⟨rfl, rfl⟩
    · rw [hnil] at hright ⊢
      rw [hright.1, hright.2]
      simp [← hlen]
  · rw [merged, if_neg hjust]
    exact taken_fill 0 te.template.chars txt.plain

theorem located_of_alike {te : TmpltInfo} {just : Byte} {txt : Text te.template}
    (h : Alike te just txt) :
    Located te.template txt.chars (merged just te.template.chars txt.chars)
      (placeOf te.template) := by
  rcases taken_merged h with ⟨htaken, hleft⟩
  have hlen := places_length 0 te.template.chars
  have hfits := txt.fits
  have hget : ∀ i, (hi : i < (places 0 te.template.chars).length) →
      placeOf te.template i = (places 0 te.template.chars)[i] := by
    intro i hi
    rw [placeOf, List.getElem?_eq_getElem hi]
    rfl
  refine ⟨fun i c hc => ?_, fun i j hij hj => ?_, fun p hp => ?_, fun hnil => ?_⟩
  · have hi : i < (places 0 te.template.chars).length := by
      have := (List.getElem?_eq_some_iff.mp hc).1
      omega
    rw [htaken, List.getElem?_zip_eq_some, hget i hi]
    exact ⟨List.getElem?_eq_getElem hi, hc⟩
  · rw [hget i (by omega), hget j (by omega)]
    exact List.pairwise_iff_getElem.mp (places_sorted 0 _) i j _ _ hij
  · rw [hleft, List.head?_drop] at hp
    rw [placeOf, hp]
    rfl
  · rw [hleft, List.drop_eq_nil_iff] at hnil
    rcases last_place te.template with ⟨pre, -, -, -, hlast⟩
    rw [placeOf, List.getElem?_eq_none hnil, hlast]
    exact ⟨pre.length, rfl, rfl⟩

theorem agree_of_alike {te : TmpltInfo} {just : Byte} {txt : Text te.template}
    (h : Alike te just txt) : Agree te just txt := by
  intro dest hdest
  rcases txtTmpltToMerge_spec just te.template txt dest hdest with ⟨rest, hmerge⟩
  refine ⟨_, rest, hmerge, merged_spec just te.template txt, placeOf te.template, fun i hi => ?_,
    located_of_alike h⟩
  exact txtpos_spec te i (Nat.le_trans hi txt.fits)

theorem alike_of_agree {te : TmpltInfo} {just : Byte} {txt : Text te.template}
    (h : Agree te just txt) : Alike te just txt := by
  by_contra hnot
  rw [Alike, not_or, not_or, not_not] at hnot
  rcases hnot with ⟨hjust, hne, hnil⟩
  have hlen := places_length 0 te.template.chars
  have hfits := txt.fits
  have hlt := Nat.lt_of_le_of_ne hfits hne
  have hpos := List.length_pos_iff.mpr hnil
  have hdest : (List.replicate (te.template.chars.length + 2) (0 : Byte)).length =
    te.template.chars.length + 2 := List.length_replicate
  rcases h _ hdest with ⟨out, rest, hout, hmerged, pos, hpos', hloc⟩
  rcases txtTmpltToMerge_spec just te.template txt _ hdest with ⟨rest', hout'⟩
  have hsame : out = merged just te.template.chars txt.chars :=
    (List.append_inj (Option.some.inj (hout.symm.trans hout'))
      (hmerged.length.trans (merged_spec just te.template txt).length.symm)).1
  -- the first character is at a place behind the first one
  rcases hpos' 0 (Nat.zero_le _) with ⟨w, hw, hw0⟩
  rcases txtpos_spec te 0 (Nat.zero_le _) with ⟨w', hw', hw0'⟩
  have hfirst : pos 0 = placeOf te.template 0 := by
    have heq : w = w' := Option.some.inj (hw.symm.trans hw')
    rw [heq, hw0'] at hw0
    exact (Int.ofNat.inj hw0).symm
  have hchar := hloc.char 0 txt.chars[0] (List.getElem?_eq_getElem hpos)
  rw [hsame, merged, if_pos hjust, (taken_fill_right 0 te.template.chars txt.plain hfits).1,
    List.getElem?_zip_eq_some, List.getElem?_drop, Nat.add_zero, hfirst, placeOf,
    List.getElem?_eq_getElem (by omega), List.getElem?_eq_getElem (by omega)] at hchar
  have hsorted := List.pairwise_iff_getElem.mp (places_sorted 0 te.template.chars) 0
    (te.template.chars.count 0x5f - txt.chars.length) (by omega) (by omega) (by omega)
  exact Nat.ne_of_gt hsorted (Option.some.inj hchar.1)

/-- Putting the text into the template and counting its places agree just if the text is not put
    to the right, or takes all places, or is empty. -/
theorem tmplt_iff (te : TmpltInfo) (just : Byte) (txt : Text te.template) :
    Agree te just txt ↔ Alike te just txt :=
  ⟨alike_of_agree, agree_of_alike⟩

/-- Two places, of which the text on the right takes the second one. -/
def twoPlaces : TmpltInfo :=
  ⟨none, ⟨[0x5f, 0x5f], by decide, by decide, by decide +kernel⟩⟩

def oneChar : Text twoPlaces.template :=
  ⟨[0x31], by decide, by decide, by decide, by decide⟩

theorem agree_right : ¬ Agree twoPlaces TE_RIGHT oneChar := by
  intro h
  rcases alike_of_agree h with h | h | h
  · exact h rfl
  · exact absurd h (by decide)
  · exact absurd h (by decide)

end

end Edit

end Aes

end MagiC
