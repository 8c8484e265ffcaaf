import MagiC.Aes.Typing

/-!
# The First Place of a Text Field

A text that begins with `@` counts as an empty one. So it matters what is typed at the first
place of a field. In a field for several characters this is the first character that is
accepted while the cursor is there, unless the cursor jumps away before. In a field for one
character it is the last one that is accepted, for each of them replaces the one before.

What is typed behind the first place does not change it, and the other keys leave the cursor at
the beginning when they change what is there.

## Main definitions

* `PutsAt`: The text begins with `@` afterwards, and the cursor is not at its beginning.

## Theorems

* `txtposToTmpltpos_ge`: The cursor is not in front of the template.
-/

namespace MagiC

namespace Aes

namespace Edit

def typed (scrap : List Byte) (key : UInt16) : List Byte :=
  match objcTab.lookup key with
  | none => if key.toUInt8 = 0 then [] else [key.toUInt8]
  | some .edPaste => scrpPst scrap
  | some _ => []

/-- What is put at the first place. What is not accepted may let the cursor jump away. -/
def first (ted : Tedinfo) (d3 : Int) : List Byte → Option Byte
  | [] => none
  | c :: cs =>
    let v := isValid c (ted.currPvalid 0)
    if v.1 then some v.2
    else
      let d0 := srchTmpltC v.2 (ted.tmplt d3) 0
      if (ted.teTxtlen : Int) - 2 ≤ d0 ∨ d0 = 0 then first ted d3 cs else none

/-- What is put at the only place. -/
def only (ted : Tedinfo) : List Byte → Option Byte
  | [] => none
  | c :: cs =>
    let v := isValid c (ted.currPvalid 0)
    (only ted cs).or (if v.1 then some v.2 else none)

/-- The character `@` is put at the first place and stays there. -/
def PutsAt (ted : Tedinfo) (s : State) (key : UInt16) : Prop :=
  if ted.teTxtlen = 2 then only ted (typed s.scrap key) = some 0x40
  else s.didx = 0 ∧ first ted (txtposToTmpltpos ted 0) (typed s.scrap key) = some 0x40

instance (ted : Tedinfo) (s : State) (key : UInt16) : Decidable (PutsAt ted s key) := by
  unfold PutsAt
  infer_instance

/-- The call does not put `@` at the beginning of the text. -/
def Meets (ted : Tedinfo) (s : State) : Call → Prop
  | .edChar key => ¬ PutsAt ted s key
  | _ => True

instance (ted : Tedinfo) (s : State) : (call : Call) → Decidable (Meets ted s call)
  | .edInit => isTrue trivial
  | .edChar key => inferInstanceAs (Decidable (¬ PutsAt ted s key))
  | .scrap _ => isTrue trivial

section

variable {ted : Tedinfo} {t : List Byte} {n p : Nat} {c : Byte} {f : Field} {d3 : Int}
  {cs : List Byte} {ovwr : Bool}

/-- A text with something at the first place that is no `@`, and the cursor behind that. -/
structure Field.Past (f : Field) : Prop where
  head : f.text.head? ≠ some 0x40
  cursor : 1 ≤ f.cursor
  le : f.cursor ≤ f.text.length

theorem head?_set {b : Byte} (hp : 1 ≤ p) : (t.set p b).head? = t.head? := by
  cases t with
  | nil => rfl
  | cons x t =>
    cases p with
    | zero => omega
    | succ p => rfl

theorem head?_insertIdx {b : Byte} (hp : 1 ≤ p) (hle : p ≤ t.length) :
    (t.insertIdx p b).head? = t.head? := by
  cases t with
  | nil => exact absurd (Nat.le_trans hp hle) (by decide)
  | cons x t =>
    cases p with
    | zero => omega
    | succ p => rfl

theorem head?_take {q : Nat} (hq : 1 ≤ q) : (t.take q).head? = t.head? := by
  rw [List.head?_take, if_neg (by omega)]

theorem input_keeps (hn : 3 ≤ ted.teTxtlen) (hf : f.Past) (hwf : f.Wf ted.teTxtlen)
    (hw : ted.teTxtlen + (-d3).toNat + ted.tePtmplt.length < 2 ^ 15) :
    (Field.input ted ovwr (f, d3) c).1.Past := by
  have hcur := hf.cursor
  rcases hwf.place with ⟨hple, hroom⟩
  have hp : 1 ≤ f.place ted := by
    unfold Field.place
    split
    · omega
    · omega
  unfold Field.input
  split
  · exact hf
  · dsimp only
    split
    · have hput : (f.put ted.teTxtlen ovwr (f.place ted)
          (isValid c (ted.currPvalid (f.place ted))).2).Wf ted.teTxtlen := hwf.put hple hroom
      refine ⟨?_, ?_, hput.cursor⟩
      · unfold Field.put
        split
        · rw [head?_set hp]
          exact hf.head
        · rw [head?_take (by omega), head?_insertIdx hp hple]
          exact hf.head
      · unfold Field.put
        split
        · exact Nat.succ_pos _
        · exact Nat.succ_pos _
    · have hjump := hwf.jump (c := (isValid c (ted.currPvalid (f.place ted))).2) hw
      refine ⟨?_, ?_, hjump.1.cursor⟩
      · unfold Field.jump
        dsimp only
        split
        · exact hf.head
        · rw [Field.fill, List.head?_append, head?_take hcur]
          cases ht : f.text with
          | nil =>
            have hle := hf.le
            rw [ht, List.length_nil] at hle
            omega
          | cons x u =>
            have hhead := hf.head
            rw [ht] at hhead
            exact hhead
      · have hge := hjump.2
        unfold Field.jump
        dsimp only
        split
        · exact hcur
        · show 1 ≤ (srchTmpltC _ (ted.tmplt d3) f.cursor).toNat
          omega

/-- What is pasted behind the first place does not change that. -/
theorem foldl_keeps (hn : 3 ≤ ted.teTxtlen) (hf : f.Past) (hwf : f.Wf ted.teTxtlen)
    (hw : ted.teTxtlen + (-d3).toNat + cs.length + ted.tePtmplt.length ≤ 2 ^ 15) :
    (cs.foldl (Field.input ted ovwr) (f, d3)).1.Past := by
  induction cs generalizing f d3 with
  | nil => exact hf
  | cons c cs ih =>
    rw [List.length_cons] at hw
    have hpast : (Field.input ted ovwr (f, d3) c).1.Past := input_keeps hn hf hwf (by omega)
    rcases hwf.input ovwr d3 c (by omega) with ⟨hwf', hle⟩
    rw [List.foldl_cons]
    generalize Field.input ted ovwr (f, d3) c = r at hpast hwf' hle
    rcases r with ⟨g, d⟩
    exact ih hpast hwf' (by omega)

theorem put_first {b : Byte} (hn : 2 ≤ n) :
    (f.put n ovwr 0 b).text.head? = some b ∧ (f.put n ovwr 0 b).cursor = 1 := by
  unfold Field.put
  split
  · rename_i hin
    refine ⟨?_, rfl⟩
    cases ht : f.text with
    | nil =>
      rw [ht] at hin
      exact absurd hin.2 (Nat.lt_irrefl 0)
    | cons x t => rfl
  · refine ⟨?_, rfl⟩
    rw [head?_take (by omega), List.insertIdx_zero]
    rfl

/-- The text does not begin with `@`, or the cursor is at its beginning. -/
def Field.Clear (f : Field) : Prop := f.text.head? = some 0x40 → f.cursor = 0

theorem Field.Past.clear (h : f.Past) : f.Clear := fun hat => absurd hat h.head

/-- The cursor is at the beginning of a field for several characters. -/
theorem foldl_first (hn : 3 ≤ ted.teTxtlen) (h0 : f.cursor = 0) (hwf : f.Wf ted.teTxtlen)
    (hnul : 0 ∉ cs) (hfirst : first ted d3 cs ≠ some 0x40)
    (hw : ted.teTxtlen + (-d3).toNat + cs.length + ted.tePtmplt.length ≤ 2 ^ 15) :
    (cs.foldl (Field.input ted ovwr) (f, d3)).1.Clear := by
  induction cs generalizing f with
  | nil => exact fun _ => h0
  | cons c cs ih =>
    rw [List.length_cons] at hw
    have hc : c ≠ 0 := fun hc => hnul (hc ▸ List.mem_cons_self)
    have hplace : f.place ted = 0 := by
      rw [Field.place, h0, if_neg (by omega)]
    rcases hwf.input ovwr d3 c (by omega) with ⟨hwf', -⟩
    have hw' : ted.teTxtlen + (-d3).toNat + ted.tePtmplt.length < 2 ^ 15 := by omega
    have hjump := (hwf.jump (c := (isValid c (ted.currPvalid 0)).2) hw').2
    have hput : ∀ b, (f.put ted.teTxtlen ovwr 0 b).text.head? = some b ∧
      (f.put ted.teTxtlen ovwr 0 b).cursor = 1 := fun b => put_first ted.txtlen_ge
    rw [List.foldl_cons]
    unfold first at hfirst
    dsimp only at hfirst
    unfold Field.input at hwf' ⊢
    rw [if_neg hc] at hwf' ⊢
    dsimp only at hwf' ⊢
    rw [hplace] at hwf' ⊢
    generalize isValid c (ted.currPvalid 0) = v at hwf' hjump hfirst ⊢
    by_cases hv : v.1 = true
    · simp only [hv, if_true] at hwf' hfirst ⊢
      -- The first character that is accepted is behind the cursor from now on.
      have hcur := hwf'.cursor
      rw [(hput v.2).2] at hcur
      have hpast : (f.put ted.teTxtlen ovwr 0 v.2).Past :=
        ⟨(hput v.2).1 ▸ hfirst, Nat.le_of_eq (hput v.2).2.symm, (hput v.2).2 ▸ hcur⟩
      have hif : (if ted.teTxtlen < f.cursor + 2 then d3 - 1 else d3) = d3 :=
        if_neg (by omega)
      rw [hif]
      exact (foldl_keeps hn hpast hwf' (by omega)).clear
    · simp only [hv] at hwf' hfirst ⊢
      have hcast : (f.cursor : Int) = 0 := by omega
      have hjumpeq : f.jump ted d3 v.2 =
          if (ted.teTxtlen : Int) - 2 ≤ srchTmpltC v.2 (ted.tmplt d3) 0 then f
          else f.fill (srchTmpltC v.2 (ted.tmplt d3) 0).toNat := by
        rw [Field.jump, hcast]
      rw [hcast] at hjump
      show (cs.foldl (Field.input ted ovwr) (f.jump ted d3 v.2, d3)).1.Clear
      have hwf' : (f.jump ted d3 v.2).Wf ted.teTxtlen := hwf'
      rw [hjumpeq] at hwf' ⊢
      generalize srchTmpltC v.2 (ted.tmplt d3) 0 = d0 at hwf' hjump hfirst ⊢
      have hnul' : 0 ∉ cs := fun hz => hnul (List.mem_cons_of_mem _ hz)
      by_cases hge : (ted.teTxtlen : Int) - 2 ≤ d0
      · rw [if_pos hge]
        simp only [hge, true_or, if_true] at hfirst
        exact ih h0 hwf hnul' hfirst (by omega)
      · rw [if_neg hge] at hwf' ⊢
        by_cases hz : d0 = 0
        · simp only [hz, or_true, if_true] at hfirst
          exact ih (by rw [hz]; rfl) hwf' hnul' hfirst (by omega)
        · -- The place that has been passed is filled with a blank.
          have hpast : (f.fill d0.toNat).Past := by
            refine ⟨?_, by show 1 ≤ d0.toNat; omega, hwf'.cursor⟩
            rw [Field.fill, h0, List.take_zero, List.nil_append, List.head?_replicate,
              if_neg (by omega)]
            decide
          exact (foldl_keeps hn hpast hwf' (by omega)).clear

/-- A field for one character holds the last one that is accepted. -/
theorem foldl_only (hn : ted.teTxtlen = 2) (hwf : f.Wf ted.teTxtlen) (hnul : 0 ∉ cs)
    (hw : ted.teTxtlen + (-d3).toNat + cs.length + ted.tePtmplt.length ≤ 2 ^ 15) :
    (cs.foldl (Field.input ted ovwr) (f, d3)).1.text.head? = (only ted cs).or f.text.head? := by
  induction cs generalizing f d3 with
  | nil => rfl
  | cons c cs ih =>
    rw [List.length_cons] at hw
    have hc : c ≠ 0 := fun hc => hnul (hc ▸ List.mem_cons_self)
    have hshort := hwf.short
    have hcur := hwf.cursor
    have hplace : f.place ted = 0 := by
      unfold Field.place
      split
      · omega
      · omega
    have hw' : ted.teTxtlen + (-d3).toNat + ted.tePtmplt.length < 2 ^ 15 := by omega
    have hjump := (hwf.jump (c := (isValid c (ted.currPvalid 0)).2) hw').2
    rcases hwf.input ovwr d3 c hw' with ⟨hwf', hle⟩
    rw [List.foldl_cons]
    have hstep : (Field.input ted ovwr (f, d3) c).1.text.head? =
        (if (isValid c (ted.currPvalid 0)).1 then some (isValid c (ted.currPvalid 0)).2
          else none).or f.text.head? := by
      unfold Field.input
      rw [if_neg hc]
      dsimp only
      have hcast : ((0 : Nat) : Int) = 0 := rfl
      rw [hplace, hcast]
      generalize isValid c (ted.currPvalid 0) = v at hjump
      by_cases hv : v.1 = true
      · rw [if_pos hv, if_pos hv, (put_first ted.txtlen_ge).1, Option.some_or]
      · -- No place of the template is free.
        rw [if_neg hv, if_neg hv, Option.none_or, Field.jump]
        dsimp only
        rw [if_pos (by omega)]
    generalize hr : Field.input ted ovwr (f, d3) c = r at hwf' hle hstep
    rcases r with ⟨g, d⟩
    have hstep : g.text.head? = _ := hstep
    rw [ih hwf' (fun hz => hnul (List.mem_cons_of_mem _ hz)) (by omega), hstep, only,
      Option.or_assoc]

/-- What is typed puts no `@` at the first place. -/
theorem typing_clear (hwf : f.Wf ted.teTxtlen) (hhead : f.text.head? ≠ some 0x40) (hnul : 0 ∉ cs)
    (hone : ted.teTxtlen = 2 → only ted cs ≠ some 0x40)
    (hmany : ted.teTxtlen ≠ 2 → f.cursor = 0 → first ted d3 cs ≠ some 0x40)
    (hw : ted.teTxtlen + (-d3).toNat + cs.length + ted.tePtmplt.length ≤ 2 ^ 15) :
    (cs.foldl (Field.input ted ovwr) (f, d3)).1.Clear := by
  have hge := ted.txtlen_ge
  by_cases hn : ted.teTxtlen = 2
  · intro hat
    rw [foldl_only hn hwf hnul hw] at hat
    rcases ho : only ted cs with - | b
    · rw [ho, Option.none_or] at hat
      exact absurd hat hhead
    · rw [ho, Option.some_or] at hat
      exact absurd (ho.trans hat) (hone hn)
  · by_cases h0 : f.cursor = 0
    · exact foldl_first (by omega) h0 hwf hnul (hmany hn h0) hw
    · exact (foldl_keeps (by omega) ⟨hhead, by omega, hwf.cursor⟩ hwf hw).clear

theorem head?_eraseIdx (hp : 1 ≤ p) : (t.eraseIdx p).head? = t.head? := by
  cases t with
  | nil => rfl
  | cons x t =>
    cases p with
    | zero => omega
    | succ p => rfl

/-- The other keys put no `@` at the first place. A key that takes a character away leaves the
    cursor there. -/
theorem control_clear (scrap : List Byte) (k : Control) (hhead : f.text.head? ≠ some 0x40)
    (hpaste : k = .edPaste → (f.control ted ovwr scrap d3 k).Clear) :
    (f.control ted ovwr scrap d3 k).Clear := by
  have hgoto : ∀ x, Field.Clear ⟨f.text, x⟩ := fun x hat => absurd hat hhead
  have hself : f.Clear := fun hat => absurd hat hhead
  have herase : ∀ x, Field.Clear ⟨f.text.eraseIdx x, x⟩ := by
    intro x hat
    by_contra hx
    have hx : 1 ≤ x := Nat.one_le_iff_ne_zero.mpr hx
    exact hhead (head?_eraseIdx hx ▸ hat)
  cases k with
  | escape => exact fun _ => rfl
  | backspace =>
    show Field.Clear (if f.cursor = 0 then f else _)
    split
    · exact hself
    · exact herase _
  | curleft => exact hgoto _
  | ganzlinks => exact hgoto _
  | wordleft => exact hgoto _
  | curright => exact hgoto _
  | ganzrechts => exact hgoto _
  | wordright => exact hgoto _
  | delete => exact herase _
  | delToEol =>
    intro hat
    by_contra hx
    have hx : 1 ≤ f.cursor := Nat.one_le_iff_ne_zero.mpr hx
    exact hhead (head?_take hx ▸ hat)
  | insMode => exact hself
  | ovwrMode => exact hself
  | edCut => exact fun _ => rfl
  | edCopy => exact hself
  | edPaste => exact hpaste rfl

theorem txttL1_ge (cs : List Byte) (d1 d0 : Int) : d0 ≤ (txttL1 cs d1 d0).1 := by
  induction cs generalizing d1 d0 with
  | nil => exact Int.le_refl d0
  | cons c cs ih =>
    rw [txttL1]
    split
    · exact Int.le_trans (Int.le_of_lt (Int.lt_succ d0)) (ih _ _)
    · exact Int.le_refl d0

theorem txttL4_ge {cs : List Byte} {d0 d : Int} (h : txttL4 cs d0 = some d) : d0 ≤ d := by
  induction cs generalizing d0 with
  | nil => cases h
  | cons c cs ih =>
    rw [txttL4] at h
    split at h
    · exact Int.le_of_eq (Option.some.inj h)
    · exact Int.le_trans (Int.le_of_lt (Int.lt_succ d0)) (ih h)

theorem txttL6_ge (cs : List Byte) (d0 : Int) : d0 - cs.length ≤ txttL6 cs d0 := by
  induction cs generalizing d0 with
  | nil => exact Int.le_of_eq (Int.sub_zero d0)
  | cons c cs ih =>
    rw [txttL6, List.length_cons]
    split
    · omega
    · have hrec := ih (d0 - 1)
      push_cast
      omega

theorem txtposToTmpltpos_ge (ted : Tedinfo) (pos : Int) : 0 ≤ txtposToTmpltpos ted pos := by
  unfold txtposToTmpltpos
  dsimp only
  have hl1 := txttL1_ge ted.tePtmplt pos 0
  rcases hl4 : txttL4 (txttL1 ted.tePtmplt pos 0).2 (txttL1 ted.tePtmplt pos 0).1 with - | d
  · have hl6 := txttL6_ge ted.tePtmplt.reverse ted.tePtmplt.length
    rw [List.length_reverse, Int.sub_self] at hl6
    exact hl6
  · exact Int.le_trans hl1 (txttL4_ge hl4)

end

end Edit

end Aes

end MagiC
