import MagiC.Edit.Stepback

/-!
# Scrolling Down and Up

The table of the visible lines is a window on the lines of the text. Scrolling moves the
window, in each direction as far as there are lines: to the left to the first line, to
the right until the last line is the last of the window.

A window that is not full is never moved to the right, so it does not come back after it
has been moved to the left.

## Main definitions

* `Table`: The table is a window that begins at a given line.

## Theorems

* `moves_consistent`: Calls one after the other.
-/

namespace MagiC

namespace Edit

variable {xi : XEDITINFO} {l m : Line} {ls : List Line} {k n : Nat}

/-- The table is a window on the lines of the text. -/
structure Table (xi : XEDITINFO) (ls : List Line) (k : Nat) : Prop where
  parse : Lines xi 0 ls
  visible : 0 < xi.lvis
  top : k < ls.length
  leff : xi.leff = min xi.lvis (ls.length - k)
  entry : ∀ i l, i < xi.leff → ls[k + i]? = some l → xi.lines[i]? = some l.entry
  free : ∀ i li, xi.leff ≤ i → xi.lines[i]? = some li → li.line = none

/-- The table and the number of lines in front of it are right. -/
def Consistent (xi : XEDITINFO) : Prop := ∃ ls k, Table xi ls k ∧ xi.yscroll = k

/-- Scrolling down and up again gives the table that was there. -/
def Restores (xi : XEDITINFO) (n : Nat) : Prop :=
  ∃ down c up c', scrollDown xi n = some (down, c) ∧ scrollUp down c = some (up, c') ∧
    up.yscroll = xi.yscroll ∧ up.leff = xi.leff ∧ up.lines = xi.lines

/-- The text is the same, and the table has the same size. -/
structure SameText (xi xi' : XEDITINFO) : Prop where
  buf : xi'.buf = xi.buf
  autowrap : xi'.autowrap = xi.autowrap
  lvis : xi'.lvis = xi.lvis

theorem SameText.refl (xi : XEDITINFO) : SameText xi xi := ⟨rfl, rfl, rfl⟩

theorem SameText.trans {a b : XEDITINFO} (h : SameText xi a) (h' : SameText a b) : SameText xi b :=
  ⟨h'.buf.trans h.buf, h'.autowrap.trans h.autowrap, h'.lvis.trans h.lvis⟩

theorem sameText_shiftDown (li : XedLi) (hpos : 0 < xi.lvis) :
    SameText xi (xi.shiftDown li) := by
  refine ⟨rfl, rfl, ?_⟩
  simp only [XEDITINFO.lvis, XEDITINFO.shiftDown, List.length_cons, List.length_dropLast]
  exact Nat.sub_add_cancel hpos

theorem sameText_shiftUp (li : XedLi) (hpos : 0 < xi.lvis) : SameText xi (xi.shiftUp li) := by
  refine ⟨rfl, rfl, ?_⟩
  simp only [XEDITINFO.lvis, XEDITINFO.shiftUp, List.length_append, List.length_tail]
  exact Nat.sub_add_cancel hpos

theorem SameText.stepsBack {xi' : XEDITINFO} (hsame : SameText xi xi') (h : xi.autowrap = 0)
    (hb : StepsBack xi) : StepsBack xi' := by
  rw [stepsBack_iff (hsame.autowrap.trans h), hsame.buf]
  exact (stepsBack_iff h).mp hb

theorem Lines.congr {xi' : XEDITINFO} {s : Nat} (h : xi.autowrap = 0) (hsame : SameText xi xi')
    (hls : Lines xi s ls) : Lines xi' s ls := by
  have hnext : ∀ s, getNextEol xi' s = getNextEol xi s := by
    intro s
    rw [getNextEol_hard h, getNextEol_hard (hsame.autowrap.trans h), hsame.buf]
  induction hls with
  | last hl => exact Lines.last ((hnext _).trans hl)
  | cons hl _ ih => exact Lines.cons ((hnext _).trans hl) ih

theorem Lines.last_iff (h : xi.autowrap = 0) (hls : Lines xi 0 ls) {i : Nat}
    (hi : ls[i]? = some l) :
    (l.lextra = 0 ∧ l.line + l.len ≥ xi.currTlen) ↔ i + 1 = ls.length := by
  have hget := (hls.get i hi).1
  rw [getNextEol_hard h, Option.some.injEq] at hget
  rcases hardEol_cases xi.buf l.line with ⟨m, hm, -, he⟩ | ⟨-, he⟩
  · rw [he, Eol.mk.injEq] at hget
    refine ⟨fun hend => ?_, fun heq => absurd hget.2.2 (by simp [heq])⟩
    rcases hm.lextra_cases with ⟨hx, -⟩ | ⟨hx, -⟩ <;> omega
  · rw [he, Eol.mk.injEq] at hget
    refine ⟨fun _ => of_decide_eq_true hget.2.2.symm, fun _ => ⟨hget.2.1.symm, ?_⟩⟩
    rw [← hget.1, XEDITINFO.currTlen]
    omega

theorem Table.first (ht : Table xi ls k) :
    ∃ l lis, ls[k]? = some l ∧ xi.lines = l.entry :: lis := by
  have hpos := ht.visible
  have htop := ht.top
  have hl : ls[k]? = some ls[k] := List.getElem?_eq_getElem htop
  have hentry := ht.entry 0 ls[k] (by rw [ht.leff]; omega) hl
  rcases hlines : xi.lines with - | ⟨li, lis⟩
  · rw [hlines] at hentry
    exact absurd hentry (by simp)
  · rw [hlines, List.getElem?_cons_zero, Option.some.injEq] at hentry
    exact ⟨ls[k], lis, hl, by rw [hentry]⟩

theorem Table.shiftDown (h : xi.autowrap = 0) (ht : Table xi ls (k + 1)) (hl : ls[k]? = some l) :
    Table (xi.shiftDown l.entry) ls k := by
  have htop := ht.top
  have hvis := ht.visible
  have hleff := ht.leff
  have hsame := sameText_shiftDown l.entry hvis
  have hnew : (xi.shiftDown l.entry).leff = min xi.lvis (ls.length - k) := by
    simp only [XEDITINFO.shiftDown]
    split <;> omega
  refine ⟨ht.parse.congr h hsame, hsame.lvis ▸ hvis, by omega, hsame.lvis ▸ hnew, ?_, ?_⟩
  · intro i m hi hm
    rw [hnew] at hi
    rcases i with - | i
    · rw [Nat.add_zero, hl, Option.some.injEq] at hm
      rw [hm]
      rfl
    · -- the entries move by one, and the last one falls out
      have hlvis : i + 1 < xi.lvis := by omega
      have hlt : i < xi.lines.length - 1 := by
        unfold XEDITINFO.lvis at hlvis
        omega
      rw [XEDITINFO.shiftDown, List.getElem?_cons_succ, List.getElem?_dropLast, if_pos hlt]
      exact ht.entry i m (by omega) (by rwa [show k + 1 + i = k + (i + 1) by omega])
  · intro i li hi hli
    rw [hnew] at hi
    rcases i with - | i
    · omega
    · rw [XEDITINFO.shiftDown, List.getElem?_cons_succ, List.getElem?_dropLast] at hli
      have hlvis : xi.lvis = xi.lines.length := rfl
      split at hli
      · exact ht.free i li (by omega) hli
      · exact absurd hli (by simp)

theorem scrollDownLoop_table (h : xi.autowrap = 0) (hb : StepsBack xi) (n : Nat)
    (ht : Table xi ls k) :
    ∃ xi', scrollDownLoop n xi = some (xi', n - k) ∧ SameText xi xi' ∧
      xi'.yscroll = xi.yscroll ∧ Table xi' ls (k - n) := by
  -- the text stays, so stepping back goes on to work
  induction n generalizing k xi with
  | zero => exact ⟨xi, by simp [scrollDownLoop], SameText.refl xi, rfl, ht⟩
  | succ n ih =>
    rcases ht.first with ⟨l, lis, hl, hlines⟩
    have hhead : xi.lines.head? = some l.entry := by rw [hlines]; rfl
    rcases k with - | k
    · have hzero : l.line = 0 := by
        rcases ht.parse.head with ⟨m, hm, hline⟩
        rw [hl, Option.some.injEq] at hm
        rw [hm, hline]
      refine ⟨xi, ?_, SameText.refl xi, rfl, by simpa using ht⟩
      rw [scrollDownLoop, hhead]
      simp only [Line.entry, hzero, hb.1, Nat.sub_zero]
    · have htop := ht.top
      have hp : ls[k]? = some ls[k] := List.getElem?_eq_getElem (by omega)
      rcases ht.parse.get k hp with ⟨hget, hnext⟩
      rw [decide_eq_false (by omega)] at hget
      have hprev := hb.2 ls[k] (ht.parse.start k hp) hget
      rw [← hnext l hl] at hprev
      have hsame := sameText_shiftDown (ls[k]).entry ht.visible
      rcases ih (hsame.autowrap.trans h) (hsame.stepsBack h hb) (ht.shiftDown h hp) with
        ⟨xi', hloop, hsame', hscroll, htable⟩
      refine ⟨xi', ?_, hsame.trans hsame', hscroll, by rwa [show k + 1 - (n + 1) = k - n by omega]⟩
      rw [scrollDownLoop, hhead]
      simp only [Line.entry, hprev]
      rw [show n + 1 - (k + 1) = n - k by omega]
      exact hloop

theorem Table.shiftUp (h : xi.autowrap = 0) (ht : Table xi ls k)
    (hl : ls[k + xi.lvis]? = some l) : Table (xi.shiftUp l.entry) ls (k + 1) := by
  have hlt : k + xi.lvis < ls.length := (List.getElem?_eq_some_iff.mp hl).choose
  have hvis := ht.visible
  have hleff := ht.leff
  have hsame := sameText_shiftUp l.entry hvis
  have hnew : (xi.shiftUp l.entry).leff = xi.lvis := by
    show xi.leff = xi.lvis
    omega
  refine ⟨ht.parse.congr h hsame, hsame.lvis ▸ hvis, by omega, ?_, ?_, ?_⟩
  · rw [hsame.lvis, hnew]
    omega
  · intro i m hi hm
    rw [hnew] at hi
    rw [XEDITINFO.shiftUp]
    by_cases hlast : i + 1 < xi.lvis
    · rw [List.getElem?_append_left, List.getElem?_tail]
      · exact ht.entry (i + 1) m (by omega) (by rwa [show k + (i + 1) = k + 1 + i by omega])
      · rw [List.length_tail]
        unfold XEDITINFO.lvis at hlast
        omega
    · -- the last entry is the new one
      have hi' : xi.lines.tail.length = i := by
        rw [List.length_tail]
        unfold XEDITINFO.lvis at hlast hi
        omega
      rw [← hi', List.getElem?_concat_length]
      rw [show k + 1 + i = k + xi.lvis by omega, hl, Option.some.injEq] at hm
      rw [hm]
  · intro i li hi hli
    have hlen := hsame.lvis
    rw [hnew] at hi
    rw [List.getElem?_eq_none (hlen.trans_le hi)] at hli
    exact absurd hli (by simp)

theorem scrollUpLoop_stop (hfull : ¬ xi.leff < xi.lvis)
    (hget : xi.lines.getLast? = some l.entry)
    (hend : l.lextra = 0 ∧ l.line + l.len ≥ xi.currTlen) :
    scrollUpLoop (n + 1) xi = some (xi, n + 1) := by
  rw [scrollUpLoop, if_neg hfull, hget]
  exact if_pos hend

theorem scrollUpLoop_step {e : Bool} (hfull : ¬ xi.leff < xi.lvis)
    (hget : xi.lines.getLast? = some l.entry)
    (hend : ¬ (l.lextra = 0 ∧ l.line + l.len ≥ xi.currTlen)) (hline : m.line = l.next)
    (hgive : getNextEol xi m.line = some ⟨m.len, m.lextra, e⟩) :
    scrollUpLoop (n + 1) xi = scrollUpLoop n (xi.shiftUp m.entry) := by
  rw [scrollUpLoop, if_neg hfull, hget]
  refine (if_neg hend).trans ?_
  rw [hline, Line.next] at hgive
  simp only [Line.entry, hgive, hline, Line.next]

theorem scrollUpLoop_table (h : xi.autowrap = 0) (n : Nat) (ht : Table xi ls k) :
    ∃ xi', scrollUpLoop n xi = some (xi', n - (ls.length - (k + xi.lvis))) ∧ SameText xi xi' ∧
      xi'.yscroll = xi.yscroll ∧ Table xi' ls (k + min n (ls.length - (k + xi.lvis))) := by
  induction n generalizing k xi with
  | zero => exact ⟨xi, by simp [scrollUpLoop], SameText.refl xi, rfl, by simpa using ht⟩
  | succ n ih =>
    have hvis := ht.visible
    have hleff := ht.leff
    by_cases hfull : xi.leff < xi.lvis
    · have hnone : ls.length - (k + xi.lvis) = 0 := by omega
      refine ⟨xi, ?_, SameText.refl xi, rfl, by simpa [hnone] using ht⟩
      rw [scrollUpLoop, if_pos hfull, hnone, Nat.sub_zero]
    · -- the last entry of a full window is a line
      have hlast : ls[k + (xi.lvis - 1)]? = some ls[k + (xi.lvis - 1)] :=
        List.getElem?_eq_getElem (by omega)
      generalize ls[k + (xi.lvis - 1)] = l at hlast
      have hget : xi.lines.getLast? = some l.entry := by
        rw [List.getLast?_eq_getElem?]
        exact ht.entry (xi.lvis - 1) l (by omega) hlast
      have hiff := ht.parse.last_iff h hlast
      by_cases hend : k + (xi.lvis - 1) + 1 = ls.length
      · have hnone : ls.length - (k + xi.lvis) = 0 := by omega
        rw [scrollUpLoop_stop hfull hget (hiff.mpr hend), hnone, Nat.sub_zero]
        exact ⟨xi, rfl, SameText.refl xi, rfl, by simpa using ht⟩
      · have hm : ls[k + xi.lvis]? = some ls[k + xi.lvis] := List.getElem?_eq_getElem (by omega)
        generalize ls[k + xi.lvis] = m at hm
        have hline : m.line = l.next := (ht.parse.get _ hlast).2 m
          (by rwa [show k + (xi.lvis - 1) + 1 = k + xi.lvis by omega])
        have hgive := (ht.parse.get _ hm).1
        have hsame := sameText_shiftUp m.entry hvis
        rcases ih (hsame.autowrap.trans h) (ht.shiftUp h hm) with ⟨xi', hloop, hsame', hscroll,
          htable⟩
        rw [hsame.lvis] at hloop htable
        refine ⟨xi', ?_, hsame.trans hsame', hscroll, ?_⟩
        · rw [scrollUpLoop_step hfull hget (fun hc => hend (hiff.mp hc)) hline hgive, hloop,
            show n + 1 - (ls.length - (k + xi.lvis)) =
            n - (ls.length - (k + 1 + xi.lvis)) by omega]
        · rwa [show k + min (n + 1) (ls.length - (k + xi.lvis)) =
            k + 1 + min n (ls.length - (k + 1 + xi.lvis)) by omega]

theorem Table.lines_eq {xi' : XEDITINFO} (ht : Table xi ls k) (ht' : Table xi' ls k)
    (hlvis : xi'.lvis = xi.lvis) (hfull : xi.leff = xi.lvis) : xi'.lines = xi.lines := by
  have hleff := ht.leff
  have hleff' := ht'.leff
  refine List.ext_getElem? fun i => ?_
  by_cases hi : i < xi.lvis
  · have hl : ls[k + i]? = some ls[k + i] := List.getElem?_eq_getElem (by omega)
    rw [ht.entry i _ (by omega) hl, ht'.entry i _ (by omega) hl]
  · unfold XEDITINFO.lvis at hi hlvis
    rw [List.getElem?_eq_none (by omega), List.getElem?_eq_none (by omega)]

theorem Table.withYscroll (h : xi.autowrap = 0) (ht : Table xi ls k) (y : Int) :
    Table { xi with yscroll := y } ls k :=
  ⟨ht.parse.congr h ⟨rfl, rfl, rfl⟩, ht.visible, ht.top, ht.leff, ht.entry, ht.free⟩

theorem scrollDown_table (h : xi.autowrap = 0) (hb : StepsBack xi) (n : Nat)
    (ht : Table xi ls k) :
    ∃ down, scrollDown xi n = some (down, min n k) ∧ down.autowrap = 0 ∧ down.lvis = xi.lvis ∧
      down.yscroll = xi.yscroll - (min n k : Nat) ∧ Table down ls (k - n) := by
  rcases scrollDownLoop_table h hb n ht with ⟨xi', hloop, hsame, hscroll, htable⟩
  have h' := hsame.autowrap.trans h
  refine ⟨{ xi' with yscroll := xi'.yscroll - (min n k : Nat) }, ?_, h', hsame.lvis, ?_,
    htable.withYscroll h' _⟩
  · rw [scrollDown, hloop, Option.map_some, show n - (n - k) = min n k by omega]
  · rw [hscroll]

theorem scrollUp_table (h : xi.autowrap = 0) (n : Nat) (ht : Table xi ls k) :
    ∃ up c, scrollUp xi n = some (up, c) ∧ c = min n (ls.length - (k + xi.lvis)) ∧
      up.lvis = xi.lvis ∧ up.yscroll = xi.yscroll + (c : Nat) ∧ Table up ls (k + c) := by
  rcases scrollUpLoop_table h n ht with ⟨xi', hloop, hsame, hscroll, htable⟩
  have h' := hsame.autowrap.trans h
  refine ⟨{ xi' with yscroll := xi'.yscroll + (min n (ls.length - (k + xi.lvis)) : Nat) }, _, ?_,
    rfl, hsame.lvis, ?_, htable.withYscroll h' _⟩
  · rw [scrollUp, hloop, Option.map_some,
      show n - (n - (ls.length - (k + xi.lvis))) = min n (ls.length - (k + xi.lvis)) by omega]
  · rw [hscroll]

theorem restores_of_zero (hb : StepsBack xi) (ht : Table xi ls k) (hn : k = 0 ∨ n = 0) :
    Restores xi n := by
  have hloop : scrollDownLoop n xi = some (xi, n) := by
    rcases n with - | n
    · rfl
    · rcases hn with rfl | hn
      · rcases ht.first with ⟨l, lis, hl, hlines⟩
        rcases ht.parse.head with ⟨m, hm, hline⟩
        rw [hl, Option.some.injEq] at hm
        rw [scrollDownLoop, hlines]
        simp only [List.head?_cons, Line.entry, hm, hline, hb.1]
      · exact absurd hn (by omega)
  refine ⟨xi, 0, xi, 0, ?_, ?_, rfl, rfl, rfl⟩
  · rw [scrollDown, hloop]
    simp
  · simp [scrollUp, scrollUpLoop]

/-- The window comes back if it is full, or if it has not been moved. -/
theorem restores_iff (h : xi.autowrap = 0) (hb : StepsBack xi) (ht : Table xi ls k) (n : Nat) :
    Restores xi n ↔ xi.leff = xi.lvis ∨ k = 0 ∨ n = 0 := by
  have hleff := ht.leff
  have htop := ht.top
  rcases scrollDown_table h hb n ht with ⟨down, hdown, h', hlvis, hscroll, htable⟩
  rcases scrollUp_table h' (min n k) htable with ⟨up, c, hup, hc, hlvis', hscroll', htable'⟩
  rw [hlvis] at hc hlvis'
  refine ⟨fun hr => ?_, fun hr => ?_⟩
  · -- the number in front of the window tells how far the window has come back
    rcases hr with ⟨down', c₁, up', c₂, hdown', hup', hy, -, -⟩
    rw [hdown, Option.some.injEq, Prod.mk.injEq] at hdown'
    rcases hdown' with ⟨rfl, rfl⟩
    rw [hup, Option.some.injEq, Prod.mk.injEq] at hup'
    rcases hup' with ⟨rfl, rfl⟩
    rw [hscroll', hscroll] at hy
    omega
  · by_cases hzero : k = 0 ∨ n = 0
    · exact restores_of_zero hb ht hzero
    · have hfull : xi.leff = xi.lvis := hr.resolve_right hzero
      have hback : k - n + c = k := by omega
      rw [hback] at htable'
      have hleff' := htable'.leff
      refine ⟨down, min n k, up, c, hdown, hup, ?_, ?_, ht.lines_eq htable' hlvis' hfull⟩
      · rw [hscroll', hscroll]
        omega
      · omega

/-- Stepping back undoes stepping forwards, and scrolling up undoes scrolling down. -/
theorem stepping_back_iff (xi : XEDITINFO) (n : Nat) (h : xi.autowrap = 0) (hc : Consistent xi) :
    (StepsBack xi ∧ Restores xi n) ↔
      Straight xi.buf ∧ (xi.leff = xi.lvis ∨ xi.yscroll = 0 ∨ n = 0) := by
  rcases hc with ⟨ls, k, ht, hy⟩
  rw [hy, Int.natCast_eq_zero, ← stepsBack_iff h]
  exact and_congr_right fun hb => restores_iff h hb ht n

/-- A field with one visible line that has been scrolled to the last line of its text. -/
def scrolled (buf : List Byte) (noZero : (0 : Byte) ∉ buf) (top : XedLi) (yscroll : Int) :
    XEDITINFO where
  buf := buf
  noZero := noZero
  yscroll := yscroll
  autowrap := 0
  maxLinew := 0
  tabwidth := 0
  mono := true
  charW := 8
  leff := 1
  lines := [top]
  vqtExtent := fun _ => 0

/-- The text `A`, CR, LF, `B`, at its second line. -/
def twoLines : XEDITINFO := scrolled [0x41, CR, LF, 0x42] (by decide) ⟨some 3, 1, 0⟩ 1

theorem twoLines_parse : Lines twoLines 0 [⟨0, 1, 2⟩, ⟨3, 1, 0⟩] :=
  Lines.cons (by decide) (Lines.last (by decide))

theorem twoLines_consistent : Consistent twoLines := by
  refine ⟨_, 1, ⟨twoLines_parse, by decide, by decide, by decide, ?_, ?_⟩, by decide⟩
  · intro i l hi hl
    rcases i with - | i
    · simp only [Nat.add_zero, List.getElem?_cons_succ, List.getElem?_cons_zero,
        Option.some.injEq] at hl
      rw [← hl]
      decide
    · exact absurd hi (by simp [twoLines, scrolled])
  · intro i li hi hli
    rcases i with - | i
    · exact absurd hi (by decide)
    · exact absurd hli (by simp [twoLines, scrolled])

theorem twoLines_straight : Straight twoLines.buf := by
  refine ⟨fun i k hk hr => ?_, fun hfirst => absurd hfirst (by decide)⟩
  have hend := (hr.turns 1 (by omega)).1
  have hlt : i + 1 + 1 < 4 := lt_of_isEol hend
  obtain rfl | rfl : i = 0 ∨ i = 1 := by omega
  · exact absurd hr.eol (by decide)
  · exact absurd hend (by decide)

theorem stepping_back_iff_twoLines : StepsBack twoLines ∧ Restores twoLines 5 :=
  (stepping_back_iff twoLines 5 rfl twoLines_consistent).mpr ⟨twoLines_straight, .inl rfl⟩

/-- The text LF, `A`, LF, `B`, at its last line. -/
def emptyFirst : XEDITINFO := scrolled [LF, 0x41, LF, 0x42] (by decide) ⟨some 3, 1, 0⟩ 2

/-- The second line seems to begin at the beginning of the text. -/
theorem stepping_back_fails :
    getNextEol emptyFirst 1 = some ⟨1, 1, false⟩ ∧
      getPrevEol emptyFirst 3 = some (some ⟨0, 2, 1⟩) ∧ ¬ StepsBack emptyFirst := by
  refine ⟨by decide, by decide, fun hb => ?_⟩
  have hfirst : LineStart emptyFirst 1 :=
    LineStart.next (l := ⟨0, 0, 1⟩) LineStart.first (by decide)
  have hprev := hb.2 ⟨1, 1, 1⟩ hfirst (by decide)
  exact absurd hprev (by decide)

theorem initLinesFrom_ended (lis : List XedLi) (s : Nat) (hfree : ∀ li ∈ lis, li.line = none) :
    initLinesFrom xi lis s true = some (lis, 0) := by
  induction lis with
  | nil => rfl
  | cons li lis ih =>
    rw [initLinesFrom, ih fun m hm => hfree m (List.mem_cons_of_mem li hm), Option.map_some,
      ← hfree li List.mem_cons_self]

/-- The rest of a table is filled with what it has if that is right. -/
theorem initLinesFrom_filled {s : Nat} (hls : Lines xi s ls) (lis : List XedLi)
    (hentry : ∀ i l, i < lis.length → ls[i]? = some l → lis[i]? = some l.entry)
    (hfree : ∀ i li, ls.length ≤ i → lis[i]? = some li → li.line = none) :
    initLinesFrom xi lis s false = some (lis, min lis.length ls.length) := by
  induction lis generalizing s ls with
  | nil => simp [initLinesFrom]
  | cons li lis ih =>
    cases hls with
    | @last _ len lextra h =>
      obtain rfl := Option.some.inj (hentry 0 _ (Nat.succ_pos _) rfl)
      rw [initLinesFrom, h]
      simp only
      rw [initLinesFrom_ended lis _ fun m hm => by
        obtain ⟨i, hi⟩ := List.mem_iff_getElem?.mp hm
        exact hfree (i + 1) m (Nat.le_add_left 1 i) hi]
      simp [Line.entry]
    | @cons _ len lextra ls h hls =>
      obtain rfl := Option.some.inj (hentry 0 _ (Nat.succ_pos _) rfl)
      rw [initLinesFrom, h]
      simp only
      rw [ih hls (fun i l hi hl => hentry (i + 1) l (Nat.succ_lt_succ hi) hl)
        fun i li hi hli => hfree (i + 1) li (Nat.succ_le_succ hi) hli]
      simp [Line.entry]

/-- `init_lines` changes nothing in a table that is right. -/
theorem initLines_table (ht : Table xi ls k) : initLines xi = some xi := by
  rcases ht.first with ⟨l, lis, hl, hlines⟩
  have hleff := ht.leff
  unfold XEDITINFO.lvis at hleff
  have hfill := initLinesFrom_filled (ht.parse.drop k hl) xi.lines (fun i m hi hm => by
      rw [List.getElem?_drop] at hm
      have hlt := (List.getElem?_eq_some_iff.mp hm).choose
      exact ht.entry i m (by omega) hm)
    (fun i li hi hli => by
      rw [List.length_drop] at hi
      exact ht.free i li (by omega) hli)
  rw [List.length_drop, ← hleff] at hfill
  unfold initLines
  rw [hlines]
  simp only [Line.entry]
  rw [← Line.entry, ← hlines, hfill]
  rfl

/-- A call that moves the window, or fills it again. -/
inductive Move where
  | up (n : Nat)
  | down (n : Nat)
  | fill

def Move.run (xi : XEDITINFO) : Move → Option XEDITINFO
  | .up n => (scrollUp xi n).map Prod.fst
  | .down n => (scrollDown xi n).map Prod.fst
  | .fill => initLines xi

/-- Where a call moves the window that begins at the line `k` of `len` lines. -/
def Move.target (len lvis k : Nat) : Move → Nat
  | .up n => k + min n (len - (k + lvis))
  | .down n => k - n
  | .fill => k

theorem Move.run_table (h : xi.autowrap = 0) (hb : StepsBack xi) (c : Move) (ht : Table xi ls k)
    (hy : xi.yscroll = k) : ∃ t, c.run xi = some t ∧ SameText xi t ∧
      Table t ls (c.target ls.length xi.lvis k) ∧ t.yscroll = c.target ls.length xi.lvis k := by
  cases c with
  | up n =>
    rcases scrollUpLoop_table h n ht with ⟨t, hloop, hsame, hscroll, htable⟩
    refine ⟨{ t with yscroll := t.yscroll + (n - (n - (ls.length - (k + xi.lvis))) : Nat) },
      by rw [Move.run, scrollUp, hloop]; rfl, ⟨hsame.buf, hsame.autowrap, hsame.lvis⟩,
      htable.withYscroll (hsame.autowrap.trans h) _, ?_⟩
    simp only [Move.target, hscroll, hy]
    omega
  | down n =>
    rcases scrollDownLoop_table h hb n ht with ⟨t, hloop, hsame, hscroll, htable⟩
    refine ⟨{ t with yscroll := t.yscroll - (n - (n - k) : Nat) },
      by rw [Move.run, scrollDown, hloop]; rfl, ⟨hsame.buf, hsame.autowrap, hsame.lvis⟩,
      htable.withYscroll (hsame.autowrap.trans h) _, ?_⟩
    simp only [Move.target, hscroll, hy]
    omega
  | fill => exact ⟨xi, initLines_table ht, .refl xi, ht, hy⟩

/-- Every sequence of calls comes to its end and keeps the table right, in which `init_lines`
    changes nothing then, and where the window is depends on the numbers of lines only. -/
theorem moves_consistent (h : xi.autowrap = 0) (hb : Straight xi.buf) (ht : Table xi ls k)
    (hy : xi.yscroll = k) (calls : List Move) : ∃ t, calls.foldlM Move.run xi = some t ∧
      t.buf = xi.buf ∧ t.lvis = xi.lvis ∧ Consistent t ∧ initLines t = some t ∧
      t.yscroll = calls.foldl (fun k c => c.target ls.length xi.lvis k) k := by
  induction calls generalizing xi k with
  | nil => exact ⟨xi, rfl, rfl, rfl, ⟨ls, k, ht, hy⟩, initLines_table ht, hy⟩
  | cons c calls ih =>
    rcases c.run_table h ((stepsBack_iff h).mpr hb) ht hy with ⟨t, hrun, hsame, htable, hscroll⟩
    rcases ih (hsame.autowrap.trans h) (hsame.buf ▸ hb) htable hscroll with
      ⟨u, hfold, hbuf, hlvis, hcons, hinit, hend⟩
    refine ⟨u, ?_, hbuf.trans hsame.buf, hlvis.trans hsame.lvis, hcons, hinit, ?_⟩
    · rw [List.foldlM_cons, hrun]
      exact hfold
    · rw [hend, hsame.lvis]
      rfl

/-- The window goes to the first line, is filled, and goes back. -/
theorem moves_consistent_twoLines : ∃ t, [Move.down 5, .fill, .up 1].foldlM Move.run twoLines =
    some t ∧ Consistent t := by
  rcases twoLines_consistent with ⟨ls, k, ht, hy⟩
  rcases moves_consistent rfl twoLines_straight ht hy [.down 5, .fill, .up 1] with
    ⟨t, hrun, -, -, hc, -⟩
  exact ⟨t, hrun, hc⟩

end Edit

end MagiC
