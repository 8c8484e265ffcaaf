import MagiC.Aes.Field

/-!
# Typing into a Text Field

What an editor is for: a text and a cursor in it, and what the keys do to them. The routines on
the memory do the same.

Nothing here looks behind the end of the text. So the text and the cursor after a key come from
the text and the cursor before it, and not from what else is in the memory.

A search in the template may count past the end of the words. The text is then too short for
the place that is found, which is why the length of the template is bounded.

## Main definitions

* `Field.control`: What the keys do.

## Theorems

* `insertChar_holds`, `dlcLoop_holds`: The loops that move the text.
-/

namespace MagiC

namespace Aes

namespace Edit

open Terminated

/-- A text and the cursor in it. -/
structure Field where
  text : List Byte
  cursor : Nat

/-- The text fits in, and the cursor is in it. -/
structure Field.Wf (f : Field) (n : Nat) : Prop where
  short : f.text.length + 1 ≤ n
  cursor : f.cursor ≤ f.text.length

def Field.put (f : Field) (n : Nat) (ovwr : Bool) (p : Nat) (c : Byte) : Field :=
  if ovwr ∧ p < f.text.length then ⟨f.text.set p c, p + 1⟩
  else ⟨(f.text.insertIdx p c).take (n - 1), p + 1⟩

/-- The text is filled up to a place. -/
def Field.fill (f : Field) (q : Nat) : Field :=
  ⟨f.text.take f.cursor ++ List.replicate (q - f.cursor) 0x20, q⟩

/-- The cursor jumps behind a character of the template. -/
def Field.jump (f : Field) (ted : Tedinfo) (d3 : Int) (c : Byte) : Field :=
  let d0 := srchTmpltC c (ted.tmplt d3) f.cursor
  if (ted.teTxtlen : Int) - 2 ≤ d0 then f else f.fill d0.toNat

/-- The place a character is typed at. -/
def Field.place (f : Field) (ted : Tedinfo) : Nat :=
  if ted.teTxtlen < f.cursor + 2 then f.cursor - 1 else f.cursor

/-- A character is typed. The cursor in the template goes along. -/
def Field.input (ted : Tedinfo) (ovwr : Bool) (r : Field × Int) (key : Byte) : Field × Int :=
  if key = 0 then r
  else
    let v := isValid key (ted.currPvalid (r.1.place ted))
    if v.1 then
      (r.1.put ted.teTxtlen ovwr (r.1.place ted) v.2,
        if ted.teTxtlen < r.1.cursor + 2 then r.2 - 1 else r.2)
    else (r.1.jump ted r.2 v.2, r.2)

def wordleft (t : List Byte) : Nat → Nat
  | 0 => 0
  | x + 1 => if cIsSep (t.getD x 0) then x + 1 else wordleft t x

/-- The word to the left. -/
def toWord (t : List Byte) : Nat → Nat
  | 0 => 0
  | x + 1 => if cIsSep (t.getD x 0) then toWord t x else x

/-- So many characters from here have a property. -/
def span (p : Byte → Bool) (t : List Byte) (x : Nat) : Nat := ((t.drop x).takeWhile p).length

def wordright (t : List Byte) (x : Nat) : Nat :=
  let y := x + span (fun c => !cIsSep c) t x
  y + span cIsSep t y

def Field.control (ted : Tedinfo) (ovwr : Bool) (scrap : List Byte) (d3 : Int) (f : Field) :
    Control → Field
  | .escape => ⟨[], 0⟩
  | .backspace => if f.cursor = 0 then f else ⟨f.text.eraseIdx (f.cursor - 1), f.cursor - 1⟩
  | .curleft => ⟨f.text, f.cursor - 1⟩
  | .ganzlinks => ⟨f.text, 0⟩
  | .wordleft => ⟨f.text, wordleft f.text (toWord f.text f.cursor)⟩
  | .curright => ⟨f.text, min (f.cursor + 1) f.text.length⟩
  | .ganzrechts => ⟨f.text, f.text.length⟩
  | .wordright => ⟨f.text, wordright f.text f.cursor⟩
  | .delete => ⟨f.text.eraseIdx f.cursor, f.cursor⟩
  | .delToEol => ⟨f.text.take f.cursor, f.cursor⟩
  | .insMode => f
  | .ovwrMode => f
  | .edCut => ⟨[], 0⟩
  | .edCopy => f
  | .edPaste => ((scrpPst scrap).foldl (Field.input ted ovwr) (f, d3)).1

/-- The memory holds the text, and the cursor is the one of the field. -/
structure Shows (e : Ed) (f : Field) : Prop where
  holds : Holds e.curr f.text
  didx : e.didx = f.cursor

section

variable {ted : Tedinfo} {m : Mem} {t : List Byte} {p n : Nat} {c : Byte} {e : Ed} {f : Field}

theorem inscLoop_eq (m : Mem) {d1 : Nat} (hp : p ≤ d1) :
    inscLoop m p d1 = (fun i => if (p : Int) < i ∧ i ≤ d1 then m (i - 1) else m i, (p : Int)) := by
  induction d1 generalizing m with
  | zero =>
    have hp0 : p = 0 := Nat.le_zero.mp hp
    subst hp0
    refine Prod.ext (funext fun i => ?_) rfl
    show m i = if ((0 : Nat) : Int) < i ∧ i ≤ ((0 : Nat) : Int) then m (i - 1) else m i
    rw [if_neg (by omega)]
  | succ d1 ih =>
    unfold inscLoop
    by_cases hlt : (p : Int) < (d1 : Int) + 1
    · rw [if_pos hlt, ih _ (by omega)]
      refine Prod.ext (funext fun i => ?_) rfl
      dsimp only
      by_cases hi : i = (d1 : Int) + 1
      · subst hi
        rw [if_neg (by omega), if_pos (by push_cast; omega), Function.update_self,
          Int.add_sub_cancel]
      · rw [Function.update_of_ne hi]
        by_cases hin : (p : Int) < i ∧ i ≤ d1
        · rw [if_pos hin, if_pos (by push_cast; omega), Function.update_of_ne (by omega)]
        · rw [if_neg hin, if_neg (by push_cast; omega)]
    · rw [if_neg hlt]
      have heq : p = d1 + 1 := by omega
      subst heq
      refine Prod.ext (funext fun i => ?_) rfl
      show m i = if ((d1 + 1 : Nat) : Int) < i ∧ i ≤ ((d1 + 1 : Nat) : Int) then m (i - 1) else m i
      rw [if_neg (by omega)]

/-- A character is put into the text. What does not fit in any more is cut off. -/
theorem insertChar_holds (h : Holds m t) (hlen : t.length + 1 ≤ n) (hn : n ≤ PTEXTLEN)
    (hp : p ≤ t.length) (hc : c ≠ 0) :
    Holds (insertChar m c p n) ((t.insertIdx p c).take (n - 1)) := by
  have hstr : strlen PTEXTLEN m = t.length := h.strlen (by omega)
  unfold insertChar
  rw [hstr, inscLoop_eq m hp]
  dsimp only
  -- With an end behind it the memory holds the longer text.
  generalize hm : Function.update (fun i : Int =>
    if (p : Int) < i ∧ i ≤ (t.length : Int) then m (i - 1) else m i) (p : Int) c = m'
  have hlo : ∀ i : Nat, i < p → m' i = m i := by
    intro i hi
    rw [← hm, Function.update_of_ne (by omega), if_neg (by omega)]
  have hat : m' p = c := by
    rw [← hm, Function.update_self]
  have hhi : ∀ i : Nat, p ≤ i → i < t.length → m' (i + 1 : Nat) = m i := by
    intro i hpi hi
    rw [← hm, Function.update_of_ne (by omega), if_pos (by omega)]
    congr 1
    omega
  have hlong : Holds (Function.update m' (t.length + 1 : Nat) 0) (t.insertIdx p c) := by
    refine h.insert hp hc (fun i hi => ?_) ?_ (fun i hpi hi => ?_)
    · rw [Function.update_of_ne (by omega), hlo i hi]
    · rw [Function.update_of_ne (by omega), hat]
    · rcases Nat.lt_or_ge i t.length with hlt | hge
      · rw [Function.update_of_ne (by omega), hhi i hpi hlt]
      · have heq : i = t.length := by omega
        rw [heq, Function.update_self, h.nul]
  have hlonglen : (t.insertIdx p c).length = t.length + 1 := List.length_insertIdx_of_le_length hp c
  split
  · have hcut := hlong.cut (p := n - 1) (by omega)
    refine hcut.congr fun i hi => ?_
    rw [List.length_take, hlonglen] at hi
    have hcast : ((n - 1 : Nat) : Int) = (n : Int) - 1 := by omega
    rw [hcast]
    by_cases hin : (i : Int) = (n : Int) - 1
    · rw [hin, Function.update_self, Function.update_self]
    · rw [Function.update_of_ne hin, Function.update_of_ne hin, Function.update_of_ne (by omega)]
  · rw [List.take_of_length_le (by omega)]
    push_cast at hlong
    exact hlong

theorem dlcLoop_eq {len fuel : Nat} (hp : p < len) (hf : len ≤ fuel + p)
    (hne : ∀ i : Nat, p < i → i < len → m i ≠ 0) (hnul : m len = 0) (i : Nat) :
    dlcLoop m fuel p i = if p ≤ i ∧ i < len then m (i + 1 : Nat) else m i := by
  induction fuel generalizing m p with
  | zero => omega
  | succ fuel ih =>
    have hcast : (p : Int) + 1 = (p + 1 : Nat) := by push_cast; rfl
    unfold dlcLoop
    dsimp only
    rw [hcast]
    by_cases hlast : p + 1 = len
    · -- The end of the text is what has been moved.
      rw [hlast, if_pos hnul]
      by_cases hip : i = p
      · rw [hip, Function.update_self, if_pos (by omega), hlast]
      · rw [Function.update_of_ne (by omega), if_neg (by omega)]
    · have hkeep : ∀ j : Nat, p < j → Function.update m (p : Int) (m (p + 1 : Nat)) j = m j :=
        fun j hj => Function.update_of_ne (by omega) ..
      have hne' : ∀ j : Nat, p + 1 < j → j < len →
          Function.update m (p : Int) (m (p + 1 : Nat)) j ≠ 0 := by
        intro j hj hjl
        rw [hkeep j (by omega)]
        exact hne j (by omega) hjl
      have hnul' : Function.update m (p : Int) (m (p + 1 : Nat)) len = 0 := by
        rw [hkeep len (by omega)]
        exact hnul
      rw [if_neg (hne (p + 1) (by omega) (by omega)), ih (by omega) (by omega) hne' hnul']
      by_cases hip : i = p
      · rw [hip, if_neg (by omega), Function.update_self, if_pos (by omega)]
      · by_cases hin : p + 1 ≤ i ∧ i < len
        · rw [if_pos hin, if_pos (by omega), hkeep (i + 1) (by omega)]
        · have hne : (i : Int) ≠ p := by omega
          rw [if_neg hin, if_neg (by omega), Function.update_of_ne hne]

theorem dlcLoop_holds (h : Holds m t) (hp : p < t.length) (hlen : t.length ≤ PTEXTLEN) :
    Holds (dlcLoop m PTEXTLEN p) (t.eraseIdx p) := by
  have heq : ∀ i : Nat, dlcLoop m PTEXTLEN p i =
      if p ≤ i ∧ i < t.length then m (i + 1 : Nat) else m i :=
    fun i => dlcLoop_eq hp (by omega) (fun i _ hi => h.ne_zero hi) h.nul i
  refine h.erase hp (fun i hi => ?_) (fun i hpi hi => ?_)
  · rw [heq, if_neg (by omega)]
  · rw [heq, if_pos (by omega)]

theorem fill_holds {q : Nat} (h : Holds m t) (hp : p ≤ t.length) (hq : p ≤ q) (hc : c ≠ 0) :
    Holds (Function.update (fillmem m p (q - p) c) q 0) (t.take p ++ List.replicate (q - p) c) := by
  refine h.pad hp hq hc (fun i hi => ?_) (fun i hpi hi => ?_) (Function.update_self ..)
  · rw [Function.update_of_ne (by omega), fillmem, if_neg (by omega)]
  · rw [Function.update_of_ne (by omega), fillmem, if_pos (by omega)]

theorem cIsSep_zero : cIsSep 0 = false := by decide

/-- The loops to the left look at the text only. -/
theorem wlLoop_eq (h : Holds m t) {x : Nat} (hx : x ≤ t.length) : wlLoop m x = toWord t x := by
  induction x with
  | zero => rfl
  | succ x ih => rw [wlLoop, toWord, h.eq x (by omega), ih (by omega)]

theorem wlLoop2_eq (h : Holds m t) {x : Nat} (hx : x ≤ t.length) : wlLoop2 m x = wordleft t x := by
  induction x with
  | zero => rfl
  | succ x ih => rw [wlLoop2, wordleft, h.eq x (by omega), ih (by omega)]

theorem toWord_le (t : List Byte) (x : Nat) : toWord t x ≤ x := by
  induction x with
  | zero => exact Nat.le_refl 0
  | succ x ih =>
    rw [toWord]
    split
    · omega
    · omega

theorem wordleft_le (t : List Byte) (x : Nat) : wordleft t x ≤ x := by
  induction x with
  | zero => exact Nat.le_refl 0
  | succ x ih =>
    rw [wordleft]
    split
    · omega
    · omega

theorem span_le (q : Byte → Bool) {x : Nat} (hx : x ≤ t.length) : x + span q t x ≤ t.length := by
  have hlen := (List.takeWhile_sublist (l := t.drop x) q).length_le
  rw [List.length_drop] at hlen
  unfold span
  omega

theorem span_end (q : Byte → Bool) : span q t t.length = 0 := by
  rw [span, List.drop_length]
  rfl

theorem span_step (q : Byte → Bool) {x : Nat} (hx : x < t.length) :
    span q t x = if q t[x] then span q t (x + 1) + 1 else 0 := by
  unfold span
  rw [List.drop_eq_getElem_cons hx, List.takeWhile_cons]
  split
  · rfl
  · rfl

theorem wrLoop_eq (h : Holds m t) {fuel x : Nat} (hx : x ≤ t.length) (hf : t.length < fuel + x) :
    wrLoop m t.length fuel x = (x + span (fun c => !cIsSep c) t x : Nat) := by
  induction fuel generalizing x with
  | zero => omega
  | succ fuel ih =>
    unfold wrLoop
    by_cases hlt : x < t.length
    · rw [h.char hlt, span_step _ hlt]
      by_cases hsep : cIsSep t[x] = true
      · rw [if_pos hsep, hsep]
        rfl
      · have hnot : (!cIsSep t[x]) = true := by simpa using hsep
        have hle : (x : Int) + 1 ≤ (t.length : Int) := by omega
        have hcast : (x : Int) + 1 = (x + 1 : Nat) := by push_cast; rfl
        rw [if_neg hsep, if_pos hle, if_pos hnot, hcast, ih (by omega) (by omega)]
        congr 1
        omega
    · have heq : x = t.length := by omega
      subst heq
      rw [h.nul, cIsSep_zero, span_end, if_neg (by simp), if_neg (by omega)]
      rfl

theorem wrLoop2_eq (h : Holds m t) {fuel x : Nat} (hx : x ≤ t.length) (hf : t.length < fuel + x) :
    wrLoop2 m t.length fuel x = (x + span cIsSep t x : Nat) := by
  induction fuel generalizing x with
  | zero => omega
  | succ fuel ih =>
    unfold wrLoop2
    by_cases hlt : x < t.length
    · rw [h.char hlt, span_step _ hlt]
      by_cases hsep : cIsSep t[x] = true
      · have hone : 1 ≤ t.length := by omega
        have hcast : (x : Int) + 1 = (x + 1 : Nat) := by push_cast; rfl
        rw [if_pos hsep, if_pos hone, if_pos hsep, hcast, ih (by omega) (by omega)]
        congr 1
        omega
      · rw [if_neg hsep, if_neg hsep]
        rfl
    · have heq : x = t.length := by omega
      subst heq
      rw [h.nul, cIsSep_zero, span_end, if_neg (by simp)]
      rfl

theorem toupper_ne_zero (hc : c ≠ 0) : Vfat.toupper c ≠ 0 := by
  unfold Vfat.toupper
  split
  · exact hc
  · rename_i hge
    split
    · rename_i hle
      intro hz
      have hsub := congrArg UInt8.toNat hz
      have hge : 0x61 ≤ c.toNat := UInt8.le_iff_toNat_le.mp (UInt8.not_lt.mp hge)
      rw [UInt8.toNat_sub_of_le _ _ (UInt8.le_iff_toNat_le.mpr (Nat.le_trans (by decide) hge))]
        at hsub
      have hlow : (0x20 : UInt8).toNat = 32 := rfl
      have hzero : (0 : UInt8).toNat = 0 := rfl
      omega
    · rcases hl : Vfat.sonderS.lookup c with - | v
      · exact hc
      · rcases List.lookup_eq_some_iff.mp hl with ⟨u, w, hs, -⟩
        have hmem : (c, v) ∈ Vfat.sonderS := by
          rw [hs]
          exact List.mem_append_right _ List.mem_cons_self
        have hall : (Vfat.sonderS.all fun x => x.2 != 0) = true := by decide
        exact bne_iff_ne.mp (List.all_eq_true.mp hall _ hmem)

theorem isValid_ne_zero (hc : c ≠ 0) (mask : Byte) : (isValid c mask).2 ≠ 0 := by
  unfold isValid
  split
  · exact hc
  · split
    · exact toupper_ne_zero hc
    · split
      · exact hc
      · dsimp only
        split
        · exact toupper_ne_zero hc
        · exact hc

theorem srchTmpltC_ge {xs : List Byte} {a : Int} (ha : 0 ≤ a) (hw : a + xs.length < 2 ^ 15) :
    a ≤ srchTmpltC c xs a := by
  induction xs generalizing a with
  | nil => exact Int.le_refl a
  | cons x xs ih =>
    rw [List.length_cons] at hw
    push_cast at hw
    unfold srchTmpltC
    split
    · exact Int.le_refl a
    · split
      · have heq : (a + 1).bmod (2 ^ 16) = a + 1 := Int.bmod_eq_of_le (by omega) (by omega)
        rw [heq]
        have hrec := ih (a := a + 1) (by omega) (by omega)
        omega
      · exact ih ha (by omega)

theorem tmplt_length (ted : Tedinfo) (d3 : Int) :
    (ted.tmplt d3).length ≤ (-d3).toNat + ted.tePtmplt.length := by
  rw [Tedinfo.tmplt, List.length_append, List.length_reverse, List.length_map, List.length_range,
    List.length_drop]
  omega

theorem Field.Wf.place (h : f.Wf ted.teTxtlen) :
    f.place ted ≤ f.text.length ∧ f.place ted + 2 ≤ ted.teTxtlen := by
  have hn := ted.txtlen_ge
  have hs := h.short
  have hc := h.cursor
  unfold Field.place
  split
  · omega
  · omega

theorem Field.Wf.put {ovwr : Bool} (h : f.Wf n) (hp : p ≤ f.text.length) (hn : p + 2 ≤ n) :
    (f.put n ovwr p c).Wf n := by
  unfold Field.put
  split
  · rename_i hin
    refine ⟨?_, ?_⟩
    · rw [List.length_set]
      exact h.short
    · rw [List.length_set]
      exact hin.2
  · have hlen := List.length_insertIdx_of_le_length hp c
    refine ⟨?_, ?_⟩
    · rw [List.length_take]
      omega
    · rw [List.length_take, hlen]
      show p + 1 ≤ min (n - 1) (f.text.length + 1)
      omega

/-- The place that is found is one the cursor may be at. -/
theorem Field.Wf.jump {d3 : Int} (h : f.Wf ted.teTxtlen)
    (hw : ted.teTxtlen + (-d3).toNat + ted.tePtmplt.length < 2 ^ 15) :
    (f.jump ted d3 c).Wf ted.teTxtlen ∧ (f.cursor : Int) ≤
      srchTmpltC c (ted.tmplt d3) f.cursor := by
  have hs := h.short
  have hc := h.cursor
  have hlen := tmplt_length ted d3
  have hge : (f.cursor : Int) ≤ srchTmpltC c (ted.tmplt d3) f.cursor :=
    srchTmpltC_ge (by omega) (by omega)
  refine ⟨?_, hge⟩
  unfold Field.jump
  dsimp only
  split
  · exact h
  · have htake : (f.text.take f.cursor).length = f.cursor := by
      rw [List.length_take, Nat.min_eq_left hc]
    have hlong : (f.fill (srchTmpltC c (ted.tmplt d3) f.cursor).toNat).text.length =
        (srchTmpltC c (ted.tmplt d3) f.cursor).toNat := by
      rw [Field.fill, List.length_append, List.length_replicate, htake]
      omega
    exact ⟨by omega, Nat.le_of_eq hlong.symm⟩

/-- A character is typed. The cursor in the template is one place to the left at most. -/
theorem Field.Wf.input (ovwr : Bool) (d3 : Int) (key : Byte) (h : f.Wf ted.teTxtlen)
    (hw : ted.teTxtlen + (-d3).toNat + ted.tePtmplt.length < 2 ^ 15) :
    (Field.input ted ovwr (f, d3) key).1.Wf ted.teTxtlen ∧
      d3 - 1 ≤ (Field.input ted ovwr (f, d3) key).2 := by
  rcases h.place with ⟨hp, hroom⟩
  unfold Field.input
  split
  · exact ⟨h, by dsimp only; omega⟩
  · dsimp only
    split
    · refine ⟨h.put hp hroom, ?_⟩
      dsimp only
      split
      · omega
      · omega
    · exact ⟨(h.jump hw).1, by dsimp only; omega⟩

theorem put_shows {ovwr : Bool} (h : Holds e.curr f.text) (hd : e.didx = p)
    (hf : f.Wf ted.teTxtlen) (hp : p ≤ f.text.length) (hc : c ≠ 0) :
    Shows (e.put ted ovwr c) (f.put ted.teTxtlen ovwr p c) := by
  have hn := ted.txtlen_le
  have hiff : (ovwr = true ∧ e.curr e.didx ≠ 0) ↔ (ovwr = true ∧ p < f.text.length) := by
    rw [hd, Ne, h.zero_iff hp]
    constructor
    · exact fun hq => ⟨hq.1, Nat.lt_of_le_of_ne hp hq.2⟩
    · exact fun hq => ⟨hq.1, Nat.ne_of_lt hq.2⟩
  unfold Ed.put Field.put
  by_cases hin : ovwr = true ∧ p < f.text.length
  · rw [if_pos hin, if_pos (hiff.mpr hin), hd]
    exact ⟨h.put hin.2 hc, rfl⟩
  · rw [if_neg hin, if_neg (mt hiff.mp hin), hd]
    exact ⟨insertChar_holds h hf.short (Nat.le_trans hn (by decide)) hp hc, rfl⟩

theorem jump_shows (h : Shows e f) (hf : f.Wf ted.teTxtlen)
    (hw : ted.teTxtlen + (-e.d3).toNat + ted.tePtmplt.length < 2 ^ 15) :
    Shows (e.jump ted c) (f.jump ted e.d3 c) := by
  have hge := (hf.jump (c := c) hw).2
  have hn := ted.txtlen_le
  unfold Ed.jump Field.jump
  rw [h.didx]
  dsimp only
  generalize srchTmpltC c (ted.tmplt e.d3) f.cursor = d0 at hge
  split
  · exact h
  · rename_i hlt
    lift d0 to Nat using by omega
    have hcount : (((d0 : Int) - f.cursor) % 2 ^ 16).toNat = d0 - f.cursor := by omega
    rw [hcount]
    exact ⟨fill_holds h.holds hf.cursor (by omega) (by decide), rfl⟩

theorem inputChar_shows (ovwr : Bool) (key : Byte) (h : Shows e f) (hf : f.Wf ted.teTxtlen)
    (hw : ted.teTxtlen + (-e.d3).toNat + ted.tePtmplt.length < 2 ^ 15) :
    Shows (inputChar ted ovwr key e) (Field.input ted ovwr (f, e.d3) key).1 ∧
      (inputChar ted ovwr key e).d3 = (Field.input ted ovwr (f, e.d3) key).2 := by
  rcases hf.place with ⟨hp, -⟩
  have hborder : e.atBorder ted ↔ ted.teTxtlen < f.cursor + 2 := by
    rw [Ed.atBorder, h.didx]
    omega
  unfold inputChar Field.input
  by_cases hkey : key = 0
  · rw [if_pos hkey, if_pos hkey]
    exact ⟨h, rfl⟩
  · rw [if_neg hkey, if_neg hkey]
    generalize hl : (if e.atBorder ted then { e with didx := e.didx - 1, d3 := e.d3 - 1 }
      else e : Ed) = l
    have hlcurr : l.curr = e.curr := by
      rw [← hl]
      split
      · rfl
      · rfl
    have hldidx : l.didx = f.place ted := by
      have hge := ted.txtlen_ge
      rw [← hl, Field.place]
      split
      · rename_i hb
        have hb := hborder.mp hb
        rw [if_pos hb]
        show e.didx - 1 = _
        rw [h.didx]
        omega
      · rename_i hb
        rw [if_neg (mt hborder.mpr hb)]
        exact h.didx
    have hld3 : l.d3 = if ted.teTxtlen < f.cursor + 2 then e.d3 - 1 else e.d3 := by
      rw [← hl]
      split
      · rename_i hb
        rw [if_pos (hborder.mp hb)]
      · rename_i hb
        rw [if_neg (mt hborder.mpr hb)]
    have hne := isValid_ne_zero hkey (ted.currPvalid (f.place ted))
    dsimp only
    rw [hldidx]
    generalize isValid key (ted.currPvalid (f.place ted)) = v at hne ⊢
    by_cases hv : v.1 = true
    · simp only [hv, if_true]
      exact ⟨put_shows (hlcurr ▸ h.holds) hldidx hf hp hne, hld3⟩
    · simp only [hv]
      refine ⟨jump_shows h hf hw, ?_⟩
      show (e.jump ted v.2).d3 = e.d3
      unfold Ed.jump
      dsimp only
      split
      · rfl
      · rfl

theorem scrpPst_length (scrap : List Byte) : (scrpPst scrap).length ≤ 256 :=
  Nat.le_trans (List.takeWhile_sublist _).length_le
    (List.length_take ▸ Nat.min_le_left 256 scrap.length)

theorem scrpPst_nonzero (scrap : List Byte) : 0 ∉ scrpPst scrap := by
  intro h
  have hall : (scrpPst scrap).all (fun c => decide (c ≠ 0)) = true := List.all_takeWhile
  exact of_decide_eq_true (List.all_eq_true.mp hall 0 h) rfl

theorem paste_shows (ovwr : Bool) (cs : List Byte) (h : Shows e f) (hf : f.Wf ted.teTxtlen)
    (hw : ted.teTxtlen + (-e.d3).toNat + cs.length + ted.tePtmplt.length ≤ 2 ^ 15) :
    Shows (cs.foldl (fun e c => inputChar ted ovwr c e) e)
        (cs.foldl (Field.input ted ovwr) (f, e.d3)).1 ∧
      (cs.foldl (Field.input ted ovwr) (f, e.d3)).1.Wf ted.teTxtlen := by
  induction cs generalizing e f with
  | nil => exact ⟨h, hf⟩
  | cons c cs ih =>
    rw [List.length_cons] at hw
    rcases inputChar_shows ovwr c h hf (by omega) with ⟨hshow, hd3⟩
    rcases hf.input ovwr e.d3 c (by omega) with ⟨hwf, hle⟩
    rw [List.foldl_cons, List.foldl_cons]
    generalize Field.input ted ovwr (f, e.d3) c = r at hshow hd3 hwf hle
    rcases r with ⟨g, d⟩
    have hd3 : (inputChar ted ovwr c e).d3 = d := hd3
    rw [← hd3]
    exact ih hshow hwf (by omega)

theorem del_shows (h : Shows e f) (hf : f.Wf ted.teTxtlen) :
    Shows e.del ⟨f.text.eraseIdx f.cursor, f.cursor⟩ := by
  have hn := ted.txtlen_le
  have hs := hf.short
  have hzero := h.holds.zero_iff hf.cursor
  rw [← h.didx] at hzero
  unfold Ed.del
  by_cases hend : f.cursor = f.text.length
  · rw [if_pos (hzero.mpr hend), List.eraseIdx_of_length_le (Nat.le_of_eq hend.symm)]
    exact h
  · have hlt := Nat.lt_of_le_of_ne hf.cursor hend
    have hlen : f.text.length ≤ PTEXTLEN := by
      unfold PTEXTLEN
      omega
    rw [if_neg (mt hzero.mp hend), h.didx]
    exact ⟨dlcLoop_holds h.holds hlt hlen, rfl⟩

theorem goto_shows {x : Nat} (h : Shows e f) : Shows (e.goto x) ⟨f.text, x⟩ := ⟨h.holds, rfl⟩

theorem clear_shows (h : Shows e f) :
    Shows { e with curr := Function.update e.curr 0 0, didx := 0 } ⟨[], 0⟩ :=
  ⟨h.holds.cut (Nat.zero_le _), rfl⟩

/-- The routines do to the text on the stack what is done to the field. -/
theorem control_shows (ovwr : Bool) (scrap : List Byte) (k : Control) (h : Shows e f)
    (hf : f.Wf ted.teTxtlen)
    (hw : ted.teTxtlen + (-e.d3).toNat + 256 + ted.tePtmplt.length ≤ 2 ^ 15) :
    Shows (control ted ovwr scrap e k) (f.control ted ovwr scrap e.d3 k) := by
  have hn := ted.txtlen_le
  have hs := hf.short
  have hc := hf.cursor
  have hbound : f.text.length < PTEXTLEN := by
    unfold PTEXTLEN
    omega
  have hlen : strlen PTEXTLEN e.curr = f.text.length := h.holds.strlen hbound
  cases k with
  | escape => exact clear_shows h
  | backspace =>
    show Shows (if e.didx ≤ 0 then e else _) (if f.cursor = 0 then f else _)
    by_cases h0 : f.cursor = 0
    · rw [if_pos h0, if_pos (by rw [h.didx]; omega)]
      exact h
    · have hcast : e.didx - 1 = (f.cursor - 1 : Nat) := by
        rw [h.didx]
        omega
      rw [if_neg h0, if_neg (by rw [h.didx]; omega), hcast]
      have hwf : Field.Wf ⟨f.text, f.cursor - 1⟩ ted.teTxtlen := ⟨hs, by dsimp only; omega⟩
      exact del_shows (goto_shows h) hwf
  | curleft =>
    show Shows (if e.didx ≤ 0 then e else _) _
    split
    · rename_i h0
      rw [h.didx] at h0
      have heq : f.cursor - 1 = f.cursor := by omega
      show Shows e ⟨f.text, f.cursor - 1⟩
      rw [heq]
      exact h
    · rename_i h0
      rw [h.didx] at h0 ⊢
      have hcast : (f.cursor : Int) - 1 = (f.cursor - 1 : Nat) := by omega
      rw [hcast]
      exact goto_shows h
  | ganzlinks => exact goto_shows h
  | wordleft =>
    have hword := toWord_le f.text f.cursor
    have heq : wlLoop2 e.curr (wlLoop e.curr e.didx.toNat) =
        wordleft f.text (toWord f.text f.cursor) := by
      rw [h.didx, Int.toNat_natCast, wlLoop_eq h.holds hc, wlLoop2_eq h.holds (by omega)]
    show Shows (e.goto _) _
    rw [heq]
    exact goto_shows h
  | curright =>
    show Shows (if (strlen PTEXTLEN e.curr : Int) ≤ e.didx then e else _) _
    rw [hlen, h.didx]
    split
    · have heq : min (f.cursor + 1) f.text.length = f.cursor := by omega
      show Shows e ⟨f.text, min (f.cursor + 1) f.text.length⟩
      rw [heq]
      exact h
    · have heq : (f.cursor : Int) + 1 = (min (f.cursor + 1) f.text.length : Nat) := by omega
      rw [heq]
      exact goto_shows h
  | ganzrechts =>
    show Shows (e.goto (strlen PTEXTLEN e.curr)) _
    rw [hlen]
    exact goto_shows h
  | wordright =>
    show Shows (e.goto _) _
    have hspan := span_le (t := f.text) (fun c => !cIsSep c) hc
    rw [hlen, h.didx, wrLoop_eq h.holds hc (by omega), wrLoop2_eq h.holds hspan (by omega)]
    exact goto_shows h
  | delete =>
    show Shows (if e.atBorder ted then e else e.del) _
    split
    · rename_i hb
      -- The cursor is behind the last character.
      rw [Ed.atBorder, h.didx] at hb
      have hend : f.text.eraseIdx f.cursor = f.text := List.eraseIdx_of_length_le (by omega)
      show Shows e ⟨f.text.eraseIdx f.cursor, f.cursor⟩
      rw [hend]
      exact h
    · exact del_shows h hf
  | delToEol =>
    show Shows (if e.curr e.didx = 0 then e else _) _
    split
    · rename_i hz
      rw [h.didx, h.holds.zero_iff hc] at hz
      show Shows e ⟨f.text.take f.cursor, f.cursor⟩
      rw [List.take_of_length_le (Nat.le_of_eq hz.symm)]
      exact h
    · rw [h.didx]
      exact ⟨h.holds.cut hc, rfl⟩
  | insMode => exact h
  | ovwrMode => exact h
  | edCut =>
    show Shows (if strlen PTEXTLEN e.curr = 0 then e else _) _
    rw [hlen]
    split
    · rename_i h0
      have htext : f.text = [] := List.eq_nil_of_length_eq_zero h0
      have hcur : f.cursor = 0 := by omega
      have hholds := h.holds
      have hdidx := h.didx
      rw [htext] at hholds
      rw [hcur] at hdidx
      exact ⟨hholds, hdidx⟩
    · exact clear_shows h
  | edCopy => exact h
  | edPaste =>
    have hread := scrpPst_length scrap
    exact (paste_shows ovwr _ h hf (by omega)).1

theorem Field.Wf.control (ovwr : Bool) (scrap : List Byte) (k : Control)
    (hf : f.Wf ted.teTxtlen) (h : Shows e f)
    (hw : ted.teTxtlen + (-e.d3).toNat + 256 + ted.tePtmplt.length ≤ 2 ^ 15) :
    (f.control ted ovwr scrap e.d3 k).Wf ted.teTxtlen := by
  have hn := ted.txtlen_ge
  have hs := hf.short
  have hc := hf.cursor
  have hempty : Field.Wf ⟨[], 0⟩ ted.teTxtlen := ⟨Nat.le_of_lt hn, Nat.le_refl 0⟩
  have hgoto : ∀ x, x ≤ f.text.length → Field.Wf ⟨f.text, x⟩ ted.teTxtlen := fun x hx => ⟨hs, hx⟩
  have herase : ∀ x, x < f.text.length →
      Field.Wf ⟨f.text.eraseIdx x, x⟩ ted.teTxtlen := by
    intro x hx
    have hlen := List.length_eraseIdx_of_lt hx
    exact ⟨by dsimp only; omega, by dsimp only; omega⟩
  cases k with
  | escape => exact hempty
  | backspace =>
    show Field.Wf (if f.cursor = 0 then f else _) _
    split
    · exact hf
    · exact herase _ (by omega)
  | curleft => exact hgoto _ (by omega)
  | ganzlinks => exact hgoto _ (Nat.zero_le _)
  | wordleft =>
    have hword := toWord_le f.text f.cursor
    have hleft := wordleft_le f.text (toWord f.text f.cursor)
    exact hgoto _ (by omega)
  | curright => exact hgoto _ (Nat.min_le_right ..)
  | ganzrechts => exact hgoto _ (Nat.le_refl _)
  | wordright => exact hgoto _ (span_le _ (span_le _ hc))
  | delete =>
    by_cases hend : f.cursor = f.text.length
    · show Field.Wf ⟨f.text.eraseIdx f.cursor, f.cursor⟩ _
      rw [List.eraseIdx_of_length_le (Nat.le_of_eq hend.symm)]
      exact hf
    · exact herase _ (by omega)
  | delToEol =>
    have hlen : (f.text.take f.cursor).length = f.cursor := by
      rw [List.length_take, Nat.min_eq_left hc]
    exact ⟨by show (f.text.take f.cursor).length + 1 ≤ _; omega, Nat.le_of_eq hlen.symm⟩
  | insMode => exact hf
  | ovwrMode => exact hf
  | edCut => exact hempty
  | edCopy => exact hf
  | edPaste =>
    have hread := scrpPst_length scrap
    exact (paste_shows ovwr _ h hf (by omega)).2

end

end Edit

end Aes

end MagiC
