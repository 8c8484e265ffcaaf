import Mathlib.Data.List.TakeWhile
import MagiC.Aes.Keys

/-!
# Pasting into a Text Field

Whether pasting a text does the same as typing it.

The place of the cursor in the template is looked up once for every key. A text that is pasted
comes with one key, and only a character that is typed over the last one moves that place. So a
character that is not accepted is looked for from where the cursor was when the pasting began,
and not from where it is. And only 256 characters of the clipboard are read.

It makes a difference only if the cursor jumps, and then at once. Two texts or cursors that
differ may become the same again, so it is all beginnings of a text that are compared.

## Main definitions

* `landing`: Where a character lets the cursor jump to.

## Theorems

* `paste_iff`: When pasting is typing.
-/

namespace MagiC

namespace Aes

namespace Edit

open Terminated

/-- Keys are typed, each with what is on the stack. -/
def typeKeys (ted : Tedinfo) (s : State) (keys : List (Mem × UInt16)) : State :=
  keys.foldl (fun s a => edChar ted a.1 s a.2) s

/-- The text and the cursor are the same. -/
def State.Alike (s t : State) : Prop :=
  cstr PTEXTLEN s.tePtext = cstr PTEXTLEN t.tePtext ∧ s.didx = t.didx

def PASTE : UInt16 := 0x2f16

/-- Where a character that is not accepted lets the cursor jump to, if the field changes. -/
def landing (ted : Tedinfo) (f : Field) (d3 : Int) (c : Byte) : Option Int :=
  let d0 := srchTmpltC c (ted.tmplt d3) f.cursor
  if (ted.teTxtlen : Int) - 2 ≤ d0 ∨ (d0 = f.cursor ∧ f.cursor = f.text.length) then none
  else some d0

/-- Every character is accepted, or found at the same place from the cursor in the template that
    the pasting began with as from the one it has come to. -/
def Straight (ted : Tedinfo) (ovwr : Bool) : Field → Int → List Byte → Prop
  | _, _, [] => True
  | f, d3, c :: cs =>
    let v := isValid c (ted.currPvalid (f.place ted))
    (v.1 = true ∨ landing ted f d3 v.2 = landing ted f (txtposToTmpltpos ted f.cursor) v.2) ∧
      Straight ted ovwr (Field.input ted ovwr (f, d3) c).1 (Field.input ted ovwr (f, d3) c).2 cs

/-- A character is typed by a key of its own. -/
def Field.typed (ted : Tedinfo) (ovwr : Bool) (f : Field) (c : Byte) : Field :=
  (Field.input ted ovwr (f, txtposToTmpltpos ted f.cursor) c).1

/-- Typed here, a character changes nothing. It is the one at the end of a full field, or it is
    not accepted and not found. -/
def Idle (ted : Tedinfo) (f : Field) (c : Byte) : Prop :=
  let v := isValid c (ted.currPvalid (f.place ted))
  if v.1 = true then f.cursor + 1 = ted.teTxtlen ∧ f.text[f.place ted]? = some v.2
  else landing ted f (txtposToTmpltpos ted f.cursor) v.2 = none

section

variable {ted : Tedinfo} {f : Field} {ovwr : Bool} {c : Byte} {cs : List Byte} {d d' : Int}
  {s : State}

/-! ## Fields -/

theorem jump_landing (f : Field) (d : Int) (c : Byte) :
    f.jump ted d c = match landing ted f d c with
      | none => f
      | some q => f.fill q.toNat := by
  unfold Field.jump landing
  dsimp only
  by_cases hfar : (ted.teTxtlen : Int) - 2 ≤ srchTmpltC c (ted.tmplt d) f.cursor
  · rw [if_pos hfar, if_pos (Or.inl hfar)]
  · rw [if_neg hfar]
    by_cases hend : srchTmpltC c (ted.tmplt d) f.cursor = f.cursor ∧ f.cursor = f.text.length
    · -- The cursor stays at the end of the text.
      rw [if_pos (Or.inr hend), hend.1, Int.toNat_natCast, Field.fill, Nat.sub_self,
        List.replicate_zero, List.append_nil, List.take_of_length_le (Nat.le_of_eq hend.2.symm)]
    · rw [if_neg (not_or.mpr ⟨hfar, hend⟩)]

theorem landing_ge {q : Int} (hf : f.Wf ted.teTxtlen)
    (hw : ted.teTxtlen + (-d).toNat + ted.tePtmplt.length < 2 ^ 15)
    (hq : landing ted f d c = some q) :
    (f.cursor : Int) ≤ q ∧ ¬(q = f.cursor ∧ f.cursor = f.text.length) := by
  have hge := (hf.jump (c := c) hw).2
  unfold landing at hq
  dsimp only at hq
  split at hq
  · cases hq
  · rename_i hn
    cases hq
    exact ⟨hge, (not_or.mp hn).2⟩

theorem fill_ne {q : Int} (hf : f.Wf ted.teTxtlen) (hq : (f.cursor : Int) ≤ q)
    (hne : ¬(q = f.cursor ∧ f.cursor = f.text.length)) : f.fill q.toNat ≠ f := by
  intro heq
  have hcur : q.toNat = f.cursor := congrArg Field.cursor heq
  have htext : (f.fill q.toNat).text.length = f.text.length := by rw [heq]
  have hc := hf.cursor
  rw [Field.fill, List.length_append, List.length_take, List.length_replicate] at htext
  exact hne ⟨by omega, by omega⟩

theorem jump_iff (hf : f.Wf ted.teTxtlen)
    (hw : ted.teTxtlen + (-d).toNat + ted.tePtmplt.length < 2 ^ 15)
    (hw' : ted.teTxtlen + (-d').toNat + ted.tePtmplt.length < 2 ^ 15) :
    f.jump ted d c = f.jump ted d' c ↔ landing ted f d c = landing ted f d' c := by
  rw [jump_landing, jump_landing]
  constructor
  · intro heq
    rcases hl : landing ted f d c with - | q
    · rcases hl' : landing ted f d' c with - | q'
      · rfl
      · rw [hl, hl'] at heq
        rcases landing_ge hf hw' hl' with ⟨hge, hne⟩
        exact absurd heq.symm (fill_ne hf hge hne)
    · rcases hl' : landing ted f d' c with - | q'
      · rw [hl, hl'] at heq
        rcases landing_ge hf hw hl with ⟨hge, hne⟩
        exact absurd heq (fill_ne hf hge hne)
      · rw [hl, hl'] at heq
        have hcur : q.toNat = q'.toNat := congrArg Field.cursor heq
        have hge := (landing_ge hf hw hl).1
        have hge' := (landing_ge hf hw' hl').1
        rw [show q = q' by omega]
  · intro heq
    rw [heq]

/-- One character does the same from two places in the template. -/
theorem input_iff (hf : f.Wf ted.teTxtlen) (hc : c ≠ 0)
    (hw : ted.teTxtlen + (-d).toNat + ted.tePtmplt.length < 2 ^ 15)
    (hw' : ted.teTxtlen + (-d').toNat + ted.tePtmplt.length < 2 ^ 15) :
    (Field.input ted ovwr (f, d) c).1 = (Field.input ted ovwr (f, d') c).1 ↔
      (isValid c (ted.currPvalid (f.place ted))).1 = true ∨
        landing ted f d (isValid c (ted.currPvalid (f.place ted))).2 =
          landing ted f d' (isValid c (ted.currPvalid (f.place ted))).2 := by
  unfold Field.input
  rw [if_neg hc, if_neg hc]
  dsimp only
  cases hv : (isValid c (ted.currPvalid (f.place ted))).1
  · rw [if_neg Bool.false_ne_true, if_neg Bool.false_ne_true]
    dsimp only
    rw [jump_iff hf hw hw']
    simp
  · simp

/-- Each beginning of a text does the same pasted as typed. -/
theorem fold_iff (hf : f.Wf ted.teTxtlen) (hnul : 0 ∉ cs)
    (hw : ted.teTxtlen + (-d).toNat + cs.length + ted.tePtmplt.length ≤ 2 ^ 15) :
    (∀ n, ((cs.take n).foldl (Field.input ted ovwr) (f, d)).1 =
        (cs.take n).foldl (Field.typed ted ovwr) f) ↔ Straight ted ovwr f d cs := by
  induction cs generalizing f d with
  | nil => exact ⟨fun _ => trivial, fun _ n => by rw [List.take_nil]; rfl⟩
  | cons c cs ih =>
    rw [List.length_cons] at hw
    have hc : c ≠ 0 := fun h => hnul (h ▸ List.mem_cons_self)
    have hpos := txtposToTmpltpos_ge ted f.cursor
    have hstep : (Field.input ted ovwr (f, d) c).1 = f.typed ted ovwr c ↔ _ :=
      input_iff hf hc (by omega) (by omega)
    rcases hf.input ovwr d c (by omega) with ⟨hwf, hle⟩
    have hrest := ih (f := (Field.input ted ovwr (f, d) c).1)
      (d := (Field.input ted ovwr (f, d) c).2) hwf (fun h => hnul (List.mem_cons_of_mem c h))
      (by omega)
    constructor
    · intro hall
      -- The first character alone is the first beginning.
      have h1 : (Field.input ted ovwr (f, d) c).1 = f.typed ted ovwr c := hall 1
      refine ⟨hstep.mp h1, hrest.mp fun n => ?_⟩
      have hn := hall (n + 1)
      rw [List.take_succ_cons, List.foldl_cons, List.foldl_cons, ← h1] at hn
      exact hn
    · rintro ⟨hfirst, hmore⟩ n
      rcases n with - | n
      · rfl
      · have h1 := hstep.mpr hfirst
        rw [List.take_succ_cons, List.foldl_cons, List.foldl_cons, ← h1]
        exact hrest.mpr hmore n

theorem put_last {p : Nat} (hp : f.text[p]? = some c) (hcur : f.cursor = p + 1)
    (hlen : f.text.length = p + 1) : f.put (p + 2) ovwr p c = f := by
  rcases f with ⟨t, x⟩
  have hx : x = p + 1 := hcur
  have hlt : t.length = p + 1 := hlen
  unfold Field.put
  dsimp only at hp ⊢
  rw [hx]
  split
  · congr 1
    refine List.ext_getElem? fun i => ?_
    rw [List.getElem?_set]
    split
    · rename_i heq
      rw [if_pos (by omega), ← hp, heq]
    · rfl
  · congr 1
    refine List.ext_getElem? fun i => ?_
    rcases Nat.lt_trichotomy i p with hi | hi | hi
    · rw [List.getElem?_take_of_lt (by omega), List.getElem?_insertIdx_of_lt hi]
    · rw [hi, List.getElem?_take_of_lt (by omega), List.getElem?_insertIdx_self,
        if_pos (by omega), hp]
    · rw [List.getElem?_eq_none (by rw [List.length_take]; omega),
        List.getElem?_eq_none (by omega)]

theorem typed_iff (hf : f.Wf ted.teTxtlen) (hc : c ≠ 0)
    (htm : ted.tePtmplt.length + 512 ≤ 2 ^ 15) : f.typed ted ovwr c = f ↔ Idle ted f c := by
  have hle := ted.txtlen_le
  have hge := ted.txtlen_ge
  have hshort := hf.short
  have hcur := hf.cursor
  have hpos := txtposToTmpltpos_ge ted f.cursor
  have hw : ted.teTxtlen + (-txtposToTmpltpos ted f.cursor).toNat +
    ted.tePtmplt.length < 2 ^ 15 := by
    omega
  rcases hf.place with ⟨hple, hroom⟩
  have hplace : f.place ted = if ted.teTxtlen < f.cursor + 2 then f.cursor - 1 else f.cursor := rfl
  unfold Field.typed Field.input Idle
  rw [if_neg hc]
  dsimp only
  by_cases hv : (isValid c (ted.currPvalid (f.place ted))).1 = true
  · rw [if_pos hv, if_pos hv]
    dsimp only
    constructor
    · intro heq
      have hx : f.place ted + 1 = f.cursor := by
        have hput : (f.put ted.teTxtlen ovwr (f.place ted)
            (isValid c (ted.currPvalid (f.place ted))).2).cursor = f.place ted + 1 := by
          unfold Field.put
          split
          · rfl
          · rfl
        rw [← hput, heq]
      have hat := put_at ovwr (isValid c (ted.currPvalid (f.place ted))).2 hple hroom
      rw [heq] at hat
      refine ⟨?_, hat⟩
      -- Anywhere else the cursor would have moved on.
      split at hplace
      · omega
      · omega
    · rintro ⟨hfull, hat⟩
      rw [if_pos (by omega)] at hplace
      have hn : ted.teTxtlen = f.place ted + 2 := by omega
      rw [hn]
      exact put_last hat (by omega) (by omega)
  · rw [if_neg hv, if_neg hv]
    dsimp only
    rw [jump_landing]
    rcases hl : landing ted f (txtposToTmpltpos ted f.cursor)
      (isValid c (ted.currPvalid (f.place ted))).2 with - | q
    · simp
    · rcases landing_ge hf hw hl with ⟨hq, hne⟩
      exact ⟨fun heq => absurd heq (fill_ne hf hq hne), fun h => by cases h⟩

theorem Field.Wf.typed (hf : f.Wf ted.teTxtlen) (htm : ted.tePtmplt.length + 512 ≤ 2 ^ 15) :
    (cs.foldl (Field.typed ted ovwr) f).Wf ted.teTxtlen := by
  have hle := ted.txtlen_le
  induction cs generalizing f with
  | nil => exact hf
  | cons c cs ih =>
    have hpos := txtposToTmpltpos_ge ted f.cursor
    exact ih (hf.input ovwr _ c (by omega)).1

theorem idle_iff (ovwr : Bool) (hf : f.Wf ted.teTxtlen) (hnul : 0 ∉ cs)
    (htm : ted.tePtmplt.length + 512 ≤ 2 ^ 15) :
    (∀ n, (cs.take n).foldl (Field.typed ted ovwr) f = f) ↔ ∀ c ∈ cs, Idle ted f c := by
  induction cs with
  | nil => simp
  | cons c cs ih =>
    have hc : f.typed ted ovwr c = f ↔ Idle ted f c :=
      typed_iff hf (fun h => hnul (h ▸ List.mem_cons_self)) htm
    rw [List.forall_mem_cons, ← hc, ← ih fun h => hnul (List.mem_cons_of_mem c h)]
    constructor
    · intro hall
      have h1 : f.typed ted ovwr c = f := hall 1
      refine ⟨h1, fun n => ?_⟩
      have hn := hall (n + 1)
      rwa [List.take_succ_cons, List.foldl_cons, h1] at hn
    · rintro ⟨h1, hall⟩ n
      rcases n with - | n
      · rfl
      · rw [List.take_succ_cons, List.foldl_cons, h1, hall n]

/-- Each beginning of a text does the same when only 256 characters are read. -/
theorem read_iff (hf : f.Wf ted.teTxtlen) (hnul : 0 ∉ cs) (hd : 0 ≤ d)
    (htm : ted.tePtmplt.length + 512 ≤ 2 ^ 15) :
    (∀ n, (((cs.take n).take 256).foldl (Field.input ted ovwr) (f, d)).1 =
        (cs.take n).foldl (Field.typed ted ovwr) f) ↔
      Straight ted ovwr f d (cs.take 256) ∧
        ∀ c ∈ cs.drop 256, Idle ted ((cs.take 256).foldl (Field.typed ted ovwr) f) c := by
  have hle := ted.txtlen_le
  have hread := List.length_take_le 256 cs
  have hcomm : ∀ n, (cs.take n).take 256 = (cs.take 256).take n := fun n => by
    rw [List.take_take, List.take_take, Nat.min_comm]
  rw [← fold_iff hf (fun h => hnul (List.mem_of_mem_take h)) (by omega),
    ← idle_iff ovwr (hf.typed htm) (fun h => hnul (List.mem_of_mem_drop h)) htm]
  constructor
  · intro hall
    have hfirst : ∀ n, (((cs.take 256).take n).foldl (Field.input ted ovwr) (f, d)).1 =
        ((cs.take 256).take n).foldl (Field.typed ted ovwr) f := by
      intro n
      have hn := hall (min n 256)
      rwa [← List.take_take, List.take_of_length_le ((List.length_take_le' n _).trans hread)] at hn
    refine ⟨hfirst, fun n => ?_⟩
    have hn := hall (256 + n)
    have h256 := hfirst (256 + n)
    rw [hcomm, h256, List.take_of_length_le (by omega), List.take_add, List.foldl_append] at hn
    exact hn.symm
  · rintro ⟨hfirst, hrest⟩ n
    rw [hcomm, hfirst n]
    rcases Nat.le_total n 256 with hn | hn
    · rw [List.take_take, Nat.min_eq_left hn]
    · rcases Nat.exists_eq_add_of_le hn with ⟨m, rfl⟩
      rw [List.take_of_length_le (by omega), List.take_add, List.foldl_append, hrest m]

/-! ## States -/

theorem toupper_at (hc : c ≠ 0x40) : Vfat.toupper c ≠ 0x40 := by
  have hall : ∀ n : Fin 256, UInt8.ofNat n ≠ 0x40 → Vfat.toupper (UInt8.ofNat n) ≠ 0x40 := by
    decide +kernel
  have h := hall ⟨c.toNat, c.toNat_lt⟩
  rw [UInt8.ofNat_toNat] at h
  exact h hc

theorem isValid_at (hc : c ≠ 0x40) (mask : Byte) : (isValid c mask).2 ≠ 0x40 := by
  unfold isValid
  split
  · exact hc
  · split
    · exact toupper_at hc
    · split
      · exact hc
      · dsimp only
        split
        · exact toupper_at hc
        · exact hc

theorem input_at (ovwr : Bool) (d : Int) (hf : 0x40 ∉ f.text) (hc : c ≠ 0x40) :
    0x40 ∉ (Field.input ted ovwr (f, d) c).1.text := by
  have hv := isValid_at hc (ted.currPvalid (f.place ted))
  unfold Field.input
  split
  · exact hf
  · dsimp only
    split
    · unfold Field.put
      split
      · intro hmem
        rcases List.mem_or_eq_of_mem_set hmem with h | h
        · exact hf h
        · exact hv h.symm
      · intro hmem
        rcases List.eq_or_mem_of_mem_insertIdx (List.mem_of_mem_take hmem) with h | h
        · exact hv h.symm
        · exact hf h
    · rw [jump_landing]
      split
      · exact hf
      · intro hmem
        rcases List.mem_append.mp hmem with h | h
        · exact hf (List.mem_of_mem_take h)
        · exact absurd (List.mem_replicate.mp h).2 (by decide)

theorem fieldText_eq {m : Mem} (h : 0x40 ∉ cstr PTEXTLEN m) : fieldText m = cstr PTEXTLEN m := by
  unfold fieldText
  exact if_neg fun hat => h (List.mem_of_mem_head? hat)

theorem edChar_text (h : Ready ted s) (htm : ted.tePtmplt.length + 512 ≤ 2 ^ 15) (stack : Mem)
    (key : UInt16) : cstr PTEXTLEN (edChar ted stack s key).tePtext = (s.next ted key).text := by
  rcases edChar_shows h htm stack key with ⟨hwf, e, hshow, htext, -⟩
  have hn := ted.txtlen_le
  have hs := hwf.short
  have hlt : (s.next ted key).text.length < PTEXTLEN := by
    unfold PTEXTLEN
    omega
  rw [htext]
  exact (strcpy_spec s.tePtext hshow.holds hlt).1.cstr hlt

/-- The field in memory, if there is no `@`. -/
def State.shown (s : State) : Field := ⟨cstr PTEXTLEN s.tePtext, s.didx.toNat⟩

theorem alike_iff {s t : State} (hs : 0 ≤ s.didx) (ht : 0 ≤ t.didx) :
    s.Alike t ↔ s.shown = t.shown := by
  constructor
  · rintro ⟨htext, hdidx⟩
    rw [State.shown, State.shown, htext, hdidx]
  · intro h
    have hcur : s.didx.toNat = t.didx.toNat := congrArg Field.cursor h
    have htext : s.shown.text = t.shown.text := congrArg Field.text h
    exact ⟨htext, by omega⟩

theorem shown_edChar (h : Ready ted s) (htm : ted.tePtmplt.length + 512 ≤ 2 ^ 15) (stack : Mem)
    (key : UInt16) : (edChar ted stack s key).shown = s.next ted key := by
  rw [State.shown, edChar_text h htm, (edChar_spec h htm stack key).1, Int.toNat_natCast]

theorem step_typed (h : Ready ted s) (htm : ted.tePtmplt.length + 512 ≤ 2 ^ 15) (stack : Mem)
    {key : UInt16} (hk : objcTab.lookup key = none) (hkey : key.toUInt8 ≠ 0x40)
    (hat : 0x40 ∉ s.shown.text) :
    (edChar ted stack s key).shown = s.shown.typed ted s.inpOvwrmode key.toUInt8 ∧
      0x40 ∉ (edChar ted stack s key).shown.text ∧ Ready ted (edChar ted stack s key) ∧
      (edChar ted stack s key).inpOvwrmode = s.inpOvwrmode := by
  have hfield : s.field = s.shown := by rw [State.field, State.shown, fieldText_eq hat]
  have hnext : s.next ted key = s.shown.typed ted s.inpOvwrmode key.toUInt8 := by
    rw [State.next, Field.edChar, hk, hfield]
    rfl
  have hshown := shown_edChar h htm stack key
  have hat' : 0x40 ∉ (edChar ted stack s key).shown.text := by
    rw [hshown, hnext]
    exact input_at _ _ hat hkey
  have hwf := (edChar_shows h htm stack key).1
  rcases edChar_spec h htm stack key with ⟨hdidx, -, hshort, -⟩
  refine ⟨hshown.trans hnext, hat', ⟨hshort, by omega, ?_⟩, ?_⟩
  · rw [fieldText_eq hat', edChar_text h htm, hdidx]
    exact Int.ofNat_le.mpr hwf.cursor
  · rw [edChar, hk]

theorem typeKeys_shown {keys : List (Mem × UInt16)} (h : Ready ted s)
    (htm : ted.tePtmplt.length + 512 ≤ 2 ^ 15) (hat : 0x40 ∉ s.shown.text)
    (hk : ∀ a ∈ keys, objcTab.lookup a.2 = none) (hkey : ∀ a ∈ keys, a.2.toUInt8 ≠ 0x40) :
    (typeKeys ted s keys).shown =
        (keys.map fun a => a.2.toUInt8).foldl (Field.typed ted s.inpOvwrmode) s.shown ∧
      Ready ted (typeKeys ted s keys) := by
  induction keys generalizing s with
  | nil => exact ⟨rfl, h⟩
  | cons a keys ih =>
    rcases step_typed h htm a.1 (hk a List.mem_cons_self) (hkey a List.mem_cons_self) hat with
      ⟨hshown, hat', hready, hovwr⟩
    have hrest := ih hready hat' (fun b hb => hk b (List.mem_cons_of_mem a hb))
      fun b hb => hkey b (List.mem_cons_of_mem a hb)
    rw [hovwr, hshown] at hrest
    exact hrest

theorem paste_shown (h : Ready ted s) (htm : ted.tePtmplt.length + 512 ≤ 2 ^ 15) (stack : Mem)
    (hat : 0x40 ∉ s.shown.text) (hnul : 0 ∉ s.scrap) :
    (edChar ted stack s PASTE).shown =
      ((s.scrap.take 256).foldl (Field.input ted s.inpOvwrmode)
        (s.shown, txtposToTmpltpos ted s.shown.cursor)).1 := by
  have hfield : s.field = s.shown := by rw [State.field, State.shown, fieldText_eq hat]
  have htake : scrpPst s.scrap = s.scrap.take 256 :=
    List.takeWhile_eq_self_iff.mpr fun c hc =>
      decide_eq_true fun h0 => hnul (h0 ▸ List.mem_of_mem_take hc)
  rw [shown_edChar h htm, State.next, Field.edChar, hfield]
  show ((scrpPst s.scrap).foldl (Field.input ted s.inpOvwrmode)
    (s.shown, txtposToTmpltpos ted s.shown.cursor)).1 = _
  rw [htake]

end

/-- Pasting any beginning of a text leaves the text and the cursor that typing it does, if and
    only if no character that is read is found at another place than it would be when typed,
    and what is not read any more would change nothing. -/
theorem paste_iff (ted : Tedinfo) (s : State) (stack : Mem) (keys : List (Mem × UInt16))
    (htm : ted.tePtmplt.length + 512 ≤ 2 ^ 15) (hshort : strlen PTEXTLEN s.tePtext < ted.teTxtlen)
    (hat : 0x40 ∉ cstr PTEXTLEN s.tePtext)
    (hdidx : 0 ≤ s.didx ∧ s.didx ≤ (cstr PTEXTLEN s.tePtext).length)
    (hkeys : ∀ a ∈ keys, objcTab.lookup a.2 = none ∧ a.2.toUInt8 ≠ 0 ∧ a.2.toUInt8 ≠ 0x40) :
    (∀ n, let s' := { s with scrap := (keys.take n).map fun a => a.2.toUInt8 }
      (edChar ted stack s' PASTE).Alike (typeKeys ted s' (keys.take n))) ↔
      let f : Field := ⟨cstr PTEXTLEN s.tePtext, s.didx.toNat⟩
      let cs := keys.map fun a => a.2.toUInt8
      Straight ted s.inpOvwrmode f (txtposToTmpltpos ted s.didx) (cs.take 256) ∧
        ∀ c ∈ cs.drop 256, Idle ted ((cs.take 256).foldl (Field.typed ted s.inpOvwrmode) f) c := by
  -- The clipboard does not count when keys are typed.
  have hready : ∀ scrap : List Byte, Ready ted { s with scrap := scrap } :=
    fun _ => ⟨hshort, hdidx.1, by rw [fieldText_eq hat]; exact hdidx.2⟩
  have hwf : s.shown.Wf ted.teTxtlen := by
    have h := ((hready []).shows fun _ => 0).2
    rwa [State.field, fieldText_eq hat] at h
  have hnul : 0 ∉ keys.map fun a => a.2.toUInt8 := by
    intro h
    rcases List.mem_map.mp h with ⟨a, ha, h0⟩
    exact (hkeys a ha).2.1 h0
  have hdcur : txtposToTmpltpos ted s.shown.cursor = txtposToTmpltpos ted s.didx := by
    show txtposToTmpltpos ted (s.didx.toNat : Int) = _
    rw [Int.toNat_of_nonneg hdidx.1]
  refine Iff.trans ?_ (read_iff (f := s.shown) hwf hnul (txtposToTmpltpos_ge ted s.didx) htm)
  refine forall_congr' fun n => ?_
  have hmem : ∀ a ∈ keys.take n, a ∈ keys := fun a ha => List.mem_of_mem_take ha
  have hr := hready ((keys.take n).map fun a => a.2.toUInt8)
  have hpaste := paste_shown hr htm stack hat fun h => by
    rcases List.mem_map.mp h with ⟨a, ha, h0⟩
    exact (hkeys a (hmem a ha)).2.1 h0
  rcases typeKeys_shown hr htm hat (fun a ha => (hkeys a (hmem a ha)).1)
    (fun a ha => (hkeys a (hmem a ha)).2.2) with ⟨htyped, hr'⟩
  have hge := (edChar_spec hr htm stack PASTE).1
  rw [← List.map_take, ← hdcur]
  exact (alike_iff (by omega) hr'.didx_ge).trans (Eq.congr hpaste htyped)

/-- A field for a date, in which two digits are separated by dots. -/
def dateField : Tedinfo :=
  ⟨[0x5f, 0x5f, 0x2e, 0x5f, 0x5f, 0x2e, 0x5f, 0x5f], [0x39], 7, none, fun _ => 0, by decide,
    by decide, by decide, by decide, by decide +kernel⟩

/-- The digits 1 and 2. -/
def digits : List (Mem × UInt16) := [(fun _ => 0, 0x0231), (fun _ => 0, 0x0332)]

theorem paste_iff_digits : digits.length = 2 ∧ ∀ n,
    let s' : State := ⟨fun _ => 0, 0, false, (digits.take n).map fun a => a.2.toUInt8⟩
    (edChar dateField (fun _ => 0) s' PASTE).Alike (typeKeys dateField s' (digits.take n)) :=
  ⟨rfl, (paste_iff dateField ⟨fun _ => 0, 0, false, []⟩ (fun _ => 0) digits (by decide)
    (by decide +kernel) (by decide +kernel) (by decide +kernel) (by decide)).mpr
    ⟨⟨Or.inl (by decide +kernel), Or.inl (by decide +kernel), trivial⟩, fun _ hc => nomatch hc⟩⟩

/-- A dot behind the first digit: typed it ends the day, pasted it is the second one. -/
theorem paste_jumps :
    let s' : State := ⟨fun _ => 0, 0, false, [0x31, 0x2e]⟩
    let pasted := edChar dateField (fun _ => 0) s' PASTE
    let byKeys := typeKeys dateField s' [(fun _ => 0, 0x0231), (fun _ => 0, 0x342e)]
    pasted.didx = 3 ∧ byKeys.didx = 2 ∧ ¬ pasted.Alike byKeys := by
  have h : (edChar dateField (fun _ => 0) ⟨fun _ => 0, 0, false, [0x31, 0x2e]⟩ PASTE).didx = 3 ∧
      (typeKeys dateField ⟨fun _ => 0, 0, false, [0x31, 0x2e]⟩
        [(fun _ => 0, 0x0231), (fun _ => 0, 0x342e)]).didx = 2 := by
    decide +kernel
  refine ⟨h.1, h.2, fun ha => ?_⟩
  have heq := ha.2
  omega

end Edit

end Aes

end MagiC
