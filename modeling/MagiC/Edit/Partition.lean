import MagiC.Edit.Wrap

/-!
# The Lines Make Up the Text

A text is broken into lines as asked if and only if no tab is wider than the line, and no
line that is broken begins with the only space or hyphen that fits in it. This is so for
texts in which the widths the code computes fit into 16 bits. Where they do not, a line
that is too wide may be taken for one that fits.

## Main definitions

* `WidthsFit`: The widths the code computes fit into 16 bits.

## Theorems

* `partitions_iff`: The texts that are broken as asked.
-/

namespace MagiC

namespace Edit

open Bisect

variable {xi : XEDITINFO} {l m : Line} {ls : List Line} {s n : Nat}

theorem countLines_step {e : Eol} {i : Nat} {w linew : Int} (h : getNextEol xi s = some e)
    (hw : (if xi.autowrap ≠ 0 then extent xi ((xi.buf.drop s).take e.len) else some w) =
      some linew) :
    countLines xi s i w =
      if e.eot = true then some (i + 1, if linew > w then linew else w)
      else if e.len + e.lextra = 0 then none
      else countLines xi (s + e.len + e.lextra) (i + 1) (if linew > w then linew else w) := by
  rw [countLines]
  split
  · rename_i h'
    rw [h] at h'
    exact absurd h' (by simp)
  · rename_i e' h'
    rw [h, Option.some.injEq] at h'
    subst h'
    rw [hw]

/-- If each line is as asked and goes on to the next, the text is broken as asked. -/
theorem partitions_of_step (hm : Monospaced xi) (P : Nat → Prop) (h0 : P 0)
    (hstep : ∀ s, P s → s ≤ xi.buf.length → ∃ l, l.line = s ∧ LineOk xi l ∧
      (xi.autowrap ≠ 0 → widthAt xi s l.len < 32768) ∧
      (getNextEol xi s = some ⟨l.len, l.lextra, true⟩ ∧ l.next = xi.buf.length ∨
        getNextEol xi s = some ⟨l.len, l.lextra, false⟩ ∧ s < l.next ∧
          l.next ≤ xi.buf.length ∧ P l.next)) :
    Partitions xi := by
  have run : ∀ d s, xi.buf.length - s = d → P s → s ≤ xi.buf.length → ∀ i w, ∃ ls,
      Lines xi s ls ∧ (∃ w', countLines xi s i w = some (i + ls.length, w')) ∧
        (∃ l, ls.getLast? = some l ∧ l.next = xi.buf.length) ∧ ∀ l ∈ ls, LineOk xi l := by
    intro d
    -- the rest of the text gets shorter with each line
    induction d using Nat.strong_induction_on with
    | _ d ih =>
      intro s hd hs hle i w
      rcases hstep s hs hle with ⟨l, rfl, hok, hrange, hcases⟩
      have hwidth : ∃ linew, (if xi.autowrap ≠ 0 then extent xi ((xi.buf.drop l.line).take l.len)
          else some w) = some linew := by
        by_cases hw : xi.autowrap ≠ 0
        · rw [if_pos hw]
          exact ⟨_, extent_exact hm _ (hrange hw)⟩
        · rw [if_neg hw]
          exact ⟨w, rfl⟩
      rcases hwidth with ⟨linew, hwidth⟩
      rcases hcases with ⟨hnext, hend⟩ | ⟨hnext, hlt, hle', hP⟩
      · refine ⟨[l], Lines.last hnext, ⟨_, countLines_step hnext hwidth⟩, ⟨l, rfl, hend⟩, ?_⟩
        intro m hm'
        rw [List.mem_singleton.mp hm']
        exact hok
      · rcases ih _ (by omega) l.next rfl hP hle' (i + 1) (if linew > w then linew else w) with
          ⟨ls, hls, ⟨w', hcount⟩, ⟨m, hlast, hend⟩, hall⟩
        refine ⟨l :: ls, Lines.cons hnext hls, ⟨w', ?_⟩, ⟨m, ?_, hend⟩, ?_⟩
        · have hpos : ¬ l.len + l.lextra = 0 := by
            rw [Line.next] at hlt
            omega
          rw [countLines_step hnext hwidth]
          rw [if_neg (by simp), if_neg hpos, List.length_cons,
            show i + (ls.length + 1) = i + 1 + ls.length by omega]
          exact hcount
        · rw [List.getLast?_cons, hlast]
          rfl
        · intro m hm'
          rcases List.mem_cons.mp hm' with rfl | hm'
          · exact hok
          · exact hall m hm'
  rcases run _ 0 rfl h0 (Nat.zero_le _) 0 xi.maxLinew with ⟨ls, hls, ⟨w', hcount⟩, hrest⟩
  refine ⟨ls, hls, ⟨w', ?_⟩, hrest⟩
  rw [getNumberOfLines, hcount, Nat.zero_add]

theorem partitions_hard (hm : Monospaced xi) (hw : xi.autowrap = 0) : Partitions xi := by
  refine partitions_of_step hm (fun _ => True) trivial fun s _ hs => ?_
  rcases hard_line hs (fun h => absurd hw h) with ⟨l, hline, -, hok, hcases⟩
  refine ⟨l, hline, hok, fun h => absurd hw h, ?_⟩
  rw [getNextEol_hard hw]
  rcases hcases with ⟨he, hend⟩ | ⟨he, hlt, hle⟩
  · exact .inl ⟨congrArg some he, hend⟩
  · exact .inr ⟨congrArg some he, hlt, hle, trivial⟩

/-- The widths the code computes fit into 16 bits. -/
def WidthsFit (xi : XEDITINFO) : Prop :=
  xi.autowrap ≠ 0 → ∀ s, BreakStart xi s → InRange xi s

/-- No tab is too wide, and every space and hyphen that counts is seen. -/
def WordsFit (xi : XEDITINFO) : Prop :=
  xi.autowrap ≠ 0 → TabsFit xi ∧ ∀ s, BreakStart xi s → SepSeen xi s

theorem partitions_of_wordsFit (hm : Monospaced xi) (hr : WidthsFit xi) (hf : WordsFit xi) :
    Partitions xi := by
  by_cases hw : xi.autowrap = 0
  · exact partitions_hard hm hw
  · refine partitions_of_step hm (BreakStart xi) BreakStart.first fun s hs hle => ?_
    rcases hf hw with ⟨htabs, hseen⟩
    have hexact := getNextEol_exact hm hw (hr hw s hs)
    have hword := hm.word
    have hlimit := widthAt_fit xi s
    by_cases hfit : fit xi s = hardLen xi s
    · rw [if_pos hfit] at hexact
      rcases hard_line hle (fun _ => hfit ▸ hlimit) with ⟨l, hline, hlen, hok, hcases⟩
      refine ⟨l, hline, hok, fun _ => by rw [hlen, ← hfit]; omega, ?_⟩
      rcases hcases with ⟨he, hend⟩ | ⟨he, hlt, hle'⟩
      · exact .inl ⟨hexact.trans (congrArg some he), hend⟩
      · refine .inr ⟨hexact.trans (congrArg some he), hlt, hle', ?_⟩
        have hnext : breakNext xi s = l.next := by
          rw [breakNext, breakLen, if_pos hfit, if_pos hfit, he, Line.next, hline, hlen]
        exact hnext ▸ hs.next (.inr (by rw [he]))
    · have hlt : fit xi s < hardLen xi s := Nat.lt_of_le_of_ne (fit_le xi s) hfit
      have hpos : 0 < fit xi s := fit_pos hm hw htabs (by omega)
      rcases breakLen_bounds hlt hpos with ⟨hb, hbf⟩
      have hlen := hardLen_le xi s
      rw [if_neg hfit, softLen_eq hlt hpos (hseen s hs)] at hexact
      have hok := soft_line hm hw hlt hpos
      have hnext : breakNext xi s = Line.next ⟨s, breakLen xi s, 0⟩ := by
        rw [breakNext, if_neg hfit, Line.next]
      refine ⟨_, rfl, hok, fun _ => ?_, .inr ⟨hexact, ?_, ?_, ?_⟩⟩
      · show widthAt xi s (breakLen xi s) < 32768
        rcases Nat.lt_or_eq_of_le hbf with h | h
        · have := widthAt_lt hm h (s := s) (by omega)
          omega
        · rw [h]
          omega
      · show s < s + breakLen xi s
        omega
      · show s + breakLen xi s ≤ xi.buf.length
        omega
      · exact hnext ▸ hs.next (.inl hfit)

theorem Lines.progress (h : Lines xi s ls) : getNextEol xi s ≠ some ⟨0, 0, false⟩ := by
  induction h with
  | last h => simp [h]
  | cons h _ ih =>
    intro h'
    rw [h, Option.some.injEq, Eol.mk.injEq] at h'
    rcases h' with ⟨rfl, rfl, -⟩
    exact ih h

theorem sepSeen_of_ok (hw : xi.autowrap ≠ 0) (hok : LineOk xi l)
    (hlen : fit xi l.line < hardLen xi l.line → l.len = softLen xi l.line) :
    SepSeen xi l.line := by
  intro hfit hone hsep
  by_contra hno
  have hclear : ∀ i, 0 < i → i < fit xi l.line → ¬ isSep (ch xi.buf (l.line + i)) :=
    fun i hi hif hs => hno ⟨i, hi, hif, hs⟩
  rcases wordEnd_spec (xi.buf.drop l.line) (fit xi l.line - 1) with ⟨hle, hat, -⟩
  have hzero : ¬ 0 < wordEnd (xi.buf.drop l.line) (fit xi l.line - 1) := by
    intro hpos
    refine hclear _ hpos (by omega) ?_
    rw [← ch_drop]
    exact hat hpos
  have hl : l.len = fit xi l.line := by rw [hlen hfit, softLen, if_neg hzero]
  have hroom := hardLen_le xi l.line
  have hsoft : Soft xi l := ⟨hw, by omega, hl ▸ hardLen_clear xi hfit⟩
  have hlast := (hok.word hsoft ⟨0, by omega, hsep⟩).1
  exact hclear (l.len - 1) (by omega) (by omega) hlast

section

variable (hm : Monospaced xi) (hr : WidthsFit xi) (hw : xi.autowrap ≠ 0) (hls : Lines xi 0 ls)
  (hall : ∀ l ∈ ls, LineOk xi l)

include hm hr hw hls hall

theorem line_breaks {i : Nat} (hi : ls[i]? = some l) (hs : BreakStart xi l.line) :
    SepSeen xi l.line ∧ l.len ≤ fit xi l.line ∧
      (i + 1 ≠ ls.length ↔ fit xi l.line ≠ hardLen xi l.line ∨
        (hardEol xi.buf l.line).eot = false) ∧
      (i + 1 ≠ ls.length → l.next = breakNext xi l.line) ∧
      (fit xi l.line = hardLen xi l.line → (hardEol xi.buf l.line).lextra = l.lextra) ∧
      (fit xi l.line ≠ hardLen xi l.line → l.lextra = 0) := by
  have hexact := getNextEol_exact hm hw (hr hw _ hs)
  have hget := (hls.get i hi).1
  have hok := hall l (List.mem_of_getElem? hi)
  have hle := fit_le xi l.line
  by_cases hfit : fit xi l.line = hardLen xi l.line
  · rw [if_pos hfit, hget, Option.some.injEq] at hexact
    have hseen := sepSeen_of_ok hw hok fun hlt => by omega
    have hlen : l.len = hardLen xi l.line := by rw [hardLen, ← hexact]
    refine ⟨hseen, by omega, ?_, fun hne => ?_, fun _ => by rw [← hexact], fun h => absurd hfit h⟩
    · rw [← hexact]
      simp [hfit]
    · rw [breakNext, breakLen, if_pos hfit, if_pos hfit, ← hexact, ← hlen, Line.next]
  · rw [if_neg hfit, hget, Option.some.injEq, Eol.mk.injEq] at hexact
    rcases hexact with ⟨hlen, hx, hlast⟩
    have hlt : fit xi l.line < hardLen xi l.line := Nat.lt_of_le_of_ne hle hfit
    have hseen := sepSeen_of_ok hw hok fun _ => hlen
    -- without progress the parse would not come to its end
    have hpos : 0 < fit xi l.line := by
      by_contra hzero
      have hstay : softLen xi l.line = 0 := by
        have : fit xi l.line = 0 := by omega
        rw [softLen, this]
        rfl
      refine (hls.drop i hi).progress ?_
      rw [hget, hlen, hx, hlast, hstay]
    have hbreak := softLen_eq hlt hpos hseen
    have hbound := breakLen_bounds hlt hpos
    refine ⟨hseen, by omega, ?_, fun _ => ?_, fun h => absurd h hfit, fun _ => hx⟩
    · simp only [decide_eq_false_iff_not] at hlast
      simp [hlast, hfit]
    · rw [breakNext, if_neg hfit, ← hbreak, ← hlen, Line.next, hx]

theorem breakStart_of_line (i : Nat) (hi : ls[i]? = some l) : BreakStart xi l.line := by
  induction i generalizing l with
  | zero =>
    rcases hls.head with ⟨m, hm', hline⟩
    rw [hm', Option.some.injEq] at hi
    rw [← hi, hline]
    exact BreakStart.first
  | succ i ih =>
    have hlt : i + 1 < ls.length := (List.getElem?_eq_some_iff.mp hi).choose
    have hp : ls[i]? = some ls[i] := List.getElem?_eq_getElem (by omega)
    have hs := ih hp
    rcases line_breaks hm hr hw hls hall hp hs with ⟨-, -, hmore, hnext, -⟩
    rw [(hls.get i hp).2 l hi, hnext (by omega)]
    exact hs.next (hmore.mp (by omega))

theorem line_of_breakStart (hs : BreakStart xi s) :
    ∃ (i : Nat) (l : Line), ls[i]? = some l ∧ l.line = s := by
  induction hs with
  | first =>
    rcases hls.head with ⟨l, hl, hline⟩
    exact ⟨0, l, hl, hline⟩
  | next hs hmore ih =>
    rcases ih with ⟨i, l, hi, rfl⟩
    rcases line_breaks hm hr hw hls hall hi hs with ⟨-, -, hiff, hnext, -⟩
    have hne := hiff.mpr hmore
    have hlt : i < ls.length := (List.getElem?_eq_some_iff.mp hi).choose
    have hp : ls[i + 1]? = some ls[i + 1] := List.getElem?_eq_getElem (by omega)
    exact ⟨i + 1, _, hp, by rw [(hls.get i hi).2 _ hp, hnext hne]⟩

end

theorem Lines.cover (h : Lines xi s ls) {p : Nat} (hs : s ≤ p) (hlast : ls.getLast? = some m)
    (hp : p < m.next) : ∃ (i : Nat) (l : Line), ls[i]? = some l ∧ l.line ≤ p ∧ p < l.next := by
  induction h with
  | last h =>
    rw [List.getLast?_singleton, Option.some.injEq] at hlast
    subst hlast
    exact ⟨0, _, rfl, hs, hp⟩
  | @cons s len lextra ls h hls ih =>
    by_cases hin : p < s + len + lextra
    · exact ⟨0, _, rfl, hs, hin⟩
    · have hlast' : ls.getLast? = some m := by
        have hpos := hls.pos
        rcases ls with - | ⟨a, ls⟩
        · exact absurd hpos (by simp)
        · rwa [List.getLast?_cons_cons] at hlast
      rcases ih (by omega) hlast' with ⟨i, l, hi, hl⟩
      exact ⟨i + 1, l, by simpa using hi, hl⟩

theorem tabwidth_le (hp : s + n < xi.buf.length)
    (htab : ch xi.buf (s + n) = TAB) : xi.tabwidth.toNat ≤ widthAt xi s (n + 1) := by
  rw [widthAt_succ xi hp, htab, advance]
  split
  · rw [Nat.add_mul, Nat.one_mul]
    omega
  · rename_i h
    have : xi.tabwidth.toNat = 0 := by
      by_contra hne
      exact h ⟨hne, rfl⟩
    omega

theorem wordsFit_of_partitions (hm : Monospaced xi) (hr : WidthsFit xi) (h : Partitions xi) :
    WordsFit xi := by
  intro hw
  rcases h with ⟨ls, hls, -, ⟨m, hlast, hend⟩, hall⟩
  refine ⟨fun htab => ?_, fun s hs => ?_⟩
  · -- the line with the tab is not wider than what fits
    rcases List.mem_iff_getElem.mp htab with ⟨p, hp, hch⟩
    rw [← ch_eq_getElem hp] at hch
    rcases hls.cover (Nat.zero_le p) hlast (hend ▸ hp) with ⟨i, l, hi, hlp, hpl⟩
    have hs := breakStart_of_line hm hr hw hls hall i hi
    rcases line_breaks hm hr hw hls hall hi hs with ⟨-, hlen, -, -, hhard, hsoft⟩
    have hroom := hardLen_le xi l.line
    have hfit := fit_le xi l.line
    have hin : p < l.line + l.len := by
      by_contra hout
      rw [Line.next] at hpl
      by_cases heq : fit xi l.line = hardLen xi l.line
      · have hx := hhard heq
        have hget := (hls.get i hi).1
        have hexact := getNextEol_exact hm hw (hr hw _ hs)
        rw [if_pos heq, hget, Option.some.injEq] at hexact
        rcases hardEol_cases xi.buf l.line with ⟨a, ha, hline, he⟩ | ⟨-, he⟩
        · -- the characters of a line end are no tabs
          rw [he, Eol.mk.injEq] at hexact
          have hfirst := ha.eol
          rcases ha.lextra_cases with ⟨hx, -⟩ | ⟨hx, htwo⟩
          · rw [show a.line + a.len = p by omega, hch] at hfirst
            exact absurd hfirst (by decide)
          · rcases Nat.eq_or_lt_of_le (show l.line + l.len ≤ p by omega) with h | h
            · rw [show a.line + a.len = p by omega, hch] at hfirst
              exact absurd hfirst (by decide)
            · have hsecond := htwo.1
              rw [show a.line + a.len + 1 = p by omega, hch] at hsecond
              exact absurd hsecond (by decide)
        · rw [he, Eol.mk.injEq] at hexact
          omega
      · have := hsoft heq
        omega
    have hpos : l.line + (p - l.line) = p := by omega
    have htabw : xi.tabwidth.toNat ≤ widthAt xi l.line (p - l.line + 1) :=
      tabwidth_le (by omega) (by rwa [hpos])
    have hwidth : widthAt xi l.line (p - l.line + 1) ≤ widthAt xi l.line (fit xi l.line) := by
      rcases Nat.lt_or_eq_of_le (show p - l.line + 1 ≤ fit xi l.line by omega) with h | h
      · exact Nat.le_of_lt (widthAt_lt hm h (by omega))
      · rw [h]
    have hlimit := widthAt_fit xi l.line
    have := hm.tabwidth
    have hcw := hm.charW
    have := hm.autowrap.resolve_left hw
    omega
  · rcases line_of_breakStart hm hr hw hls hall hs with ⟨i, l, hi, rfl⟩
    exact (line_breaks hm hr hw hls hall hi hs).1

/-- The texts that are broken as asked, among those whose widths fit into 16 bits. -/
theorem partitions_iff (xi : XEDITINFO) (hm : Monospaced xi) (hr : WidthsFit xi) :
    Partitions xi ↔ WordsFit xi :=
  ⟨wordsFit_of_partitions hm hr, partitions_of_wordsFit hm hr⟩

theorem widthsFit_of_narrow (h : ∀ s, s ≤ xi.buf.length → ∀ n, n ≤ xi.buf.length →
    widthAt xi s n < 32768) : WidthsFit xi := by
  intro _ s _ n hn
  have hle := probe_le hn
  have := hardLen_le xi s
  exact h s (by omega) n (by omega)

/-- A field of 24 pixels with characters of 8 pixels. -/
def narrow (buf : List Byte) (noZero : (0 : Byte) ∉ buf) (tabwidth : Int) : XEDITINFO where
  buf := buf
  noZero := noZero
  yscroll := 0
  autowrap := 24
  maxLinew := 0
  tabwidth := tabwidth
  mono := true
  charW := 8
  leff := 0
  lines := []
  vqtExtent := fun _ => 0

/-- The text `ab cd`. -/
def twoWords : XEDITINFO := narrow [0x61, 0x62, 0x20, 0x63, 0x64] (by decide) 0

/-- The second word begins a line, and there is no other one. -/
theorem twoWords_starts (h : BreakStart twoWords s) : s = 0 ∨ s = 3 := by
  induction h with
  | first => exact .inl rfl
  | next _ hmore ih =>
    rcases ih with rfl | rfl
    · exact .inr (by decide)
    · exact absurd hmore (by decide)

theorem partitions_iff_twoWords : Partitions twoWords := by
  refine (partitions_iff twoWords ⟨rfl, by decide, by decide, .inr (by decide), by decide⟩
    (widthsFit_of_narrow (by decide))).mpr fun _ => ⟨fun h => absurd h (by decide), fun s hs => ?_⟩
  have hno : ¬ isSep (ch twoWords.buf s) := by
    rcases twoWords_starts hs with rfl | rfl
    · decide
    · decide
  exact fun _ _ hsep => absurd hsep hno

/-- A tab that is wider than the line. -/
def wideTab : XEDITINFO := narrow [TAB] (by decide) 32

/-- The lines are not counted to the end. -/
theorem wide_tab_endless : getNumberOfLines wideTab = none ∧ ¬ Partitions wideTab := by
  have hm : Monospaced wideTab := ⟨rfl, by decide, by decide, .inr (by decide), by decide⟩
  have hr : WidthsFit wideTab := widthsFit_of_narrow (by decide)
  have hw : wideTab.autowrap ≠ 0 := by decide
  have hnext := getNextEol_exact hm hw (hr hw 0 BreakStart.first)
  rw [if_neg (by decide), show softLen wideTab 0 = 0 by decide] at hnext
  refine ⟨?_, fun h => absurd ((wordsFit_of_partitions hm hr h hw).1 (by decide)) (by decide)⟩
  have hwidth : (if wideTab.autowrap ≠ 0 then extent wideTab ((wideTab.buf.drop 0).take 0)
      else some wideTab.maxLinew) = some 0 := by
    rw [if_pos hw]
    exact extent_exact hm [] (by decide)
  rw [getNumberOfLines, countLines_step hnext hwidth]
  rfl

end Edit

end MagiC
