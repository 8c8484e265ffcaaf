import Mathlib.Data.Nat.Find
import Mathlib.Tactic.Ring
import MagiC.Lib.Bisect
import MagiC.Edit.Lines

/-!
# Widths in a Monospaced Font

The width of a string without the bound of a register: each character adds its width,
and a tab goes on to the next tab stop. As long as it fits into 16 bits it is what
`extent` gives, and as long as all widths the search looks at do, the search finds the
number of characters that fit.

## Main definitions

* `fit`: The number of characters of a line that fit.

## Theorems

* `pixposToNpos_exact`: The search finds the number of characters that fit.
-/

namespace MagiC

namespace Edit

open Bisect

/-- A field with a monospaced font, and without wrapping or wide enough for a character. -/
structure Monospaced (xi : XEDITINFO) : Prop where
  mono : xi.mono = true
  charW : 0 < xi.charW
  tabwidth : 0 ≤ xi.tabwidth
  autowrap : xi.autowrap = 0 ∨ xi.charW ≤ xi.autowrap
  word : xi.autowrap < 32768

/-- The position behind a character. -/
def advance (tw cw offs : Nat) (c : Byte) : Nat :=
  if tw ≠ 0 ∧ c = TAB then (offs / tw + 1) * tw else offs + cw

def width (xi : XEDITINFO) (s : List Byte) : Nat :=
  s.foldl (advance xi.tabwidth.toNat xi.charW.toNat) 0

/-- The width of the first characters from a position on. -/
def widthAt (xi : XEDITINFO) (s n : Nat) : Nat := width xi ((xi.buf.drop s).take n)

/-- The length of the line without wrapping. -/
def hardLen (xi : XEDITINFO) (s : Nat) : Nat := (hardEol xi.buf s).len

/-- The number of characters that fit. -/
def fit (xi : XEDITINFO) (s : Nat) : Nat :=
  Nat.findGreatest (fun n => widthAt xi s n ≤ xi.autowrap.toNat) (hardLen xi s)

/-- The widths the search at a position looks at fit into 16 bits. -/
def InRange (xi : XEDITINFO) (s : Nat) : Prop :=
  ∀ n, Probe (widthAt xi s) xi.autowrap.toNat 0 (hardLen xi s) n → widthAt xi s n < 32768

variable {xi : XEDITINFO} {tw cw offs : Nat} {c : Byte} {s : List Byte}

theorem word_of_lt {i : Int} (h0 : 0 ≤ i) (h : i < 32768) : word i = i := by
  rw [word, BitVec.toInt_ofInt]
  exact Int.bmod_eq_of_le (by omega) (by omega)

theorem lt_advance (hcw : 0 < cw) : offs < advance tw cw offs c := by
  rw [advance]
  split
  · rename_i h
    have := Nat.lt_div_mul_add (a := offs) (Nat.pos_of_ne_zero h.1)
    rw [Nat.add_mul, Nat.one_mul]
    exact this
  · omega

theorem le_foldl_advance (hcw : 0 < cw) (s : List Byte) (offs : Nat) :
    offs ≤ s.foldl (advance tw cw) offs := by
  induction s generalizing offs with
  | nil => exact Nat.le_refl _
  | cons c s ih => exact (Nat.le_of_lt (lt_advance hcw)).trans (ih _)

theorem foldl_advance_plain (h : tw = 0 ∨ TAB ∉ s) (offs : Nat) :
    s.foldl (advance tw cw) offs = offs + s.length * cw := by
  induction s generalizing offs with
  | nil => simp
  | cons c s ih =>
    have hc : ¬ (tw ≠ 0 ∧ c = TAB) := by
      intro hc
      rcases h with h | h
      · exact hc.1 h
      · exact h (hc.2 ▸ List.mem_cons_self)
    have htail : tw = 0 ∨ TAB ∉ s := h.imp_right fun h hs => h (List.mem_cons_of_mem c hs)
    rw [List.foldl_cons, ih htail, advance, if_neg hc, List.length_cons]
    ring

theorem tab_stop (h : tw ≠ 0) (offs : Nat) :
    (if (((offs + 1 : Nat) : Int)).tmod tw ≠ 0
      then ((offs + 1 : Nat) : Int) + (tw - ((offs + 1 : Nat) : Int).tmod tw)
      else ((offs + 1 : Nat) : Int)) = ((offs / tw + 1) * tw : Nat) := by
  have hpos : 0 < tw := Nat.pos_of_ne_zero h
  have hdiv := Nat.div_add_mod offs tw
  have hmod := Nat.mod_lt offs hpos
  have hmul : (offs / tw + 1) * tw = tw * (offs / tw) + tw := by ring
  rw [← Int.ofNat_tmod, hmul]
  by_cases hlast : offs % tw + 1 = tw
  · have hrest : (offs + 1) % tw = 0 := by
      rw [show offs + 1 = tw * (offs / tw + 1) by rw [Nat.mul_add, Nat.mul_one]; omega]
      exact Nat.mul_mod_right _ _
    rw [hrest, if_neg (by simp)]
    generalize tw * (offs / tw) = p at hdiv
    omega
  · have hrest : (offs + 1) % tw = offs % tw + 1 := by
      rw [show offs + 1 = tw * (offs / tw) + (offs % tw + 1) by omega, Nat.mul_add_mod,
        Nat.mod_eq_of_lt (by omega)]
    rw [hrest, if_pos (by omega)]
    generalize tw * (offs / tw) = p at hdiv
    omega

theorem toTab_cases (xi : XEDITINFO) (s : List Byte) :
    let t := if xi.tabwidth = 0 then s else s.takeWhile (· ≠ TAB)
    (xi.tabwidth.toNat = 0 ∨ TAB ∉ t) ∧
      (t.length = s.length ∧ t = s ∨
        xi.tabwidth ≠ 0 ∧ t.length ≠ s.length ∧ s = t ++ TAB :: s.drop (t.length + 1)) := by
  by_cases htw : xi.tabwidth = 0
  · simp [htw]
  · simp only [if_neg htw]
    refine ⟨.inr fun h => ?_, ?_⟩
    · have := List.all_takeWhile (p := (· ≠ TAB)) (l := s)
      rw [List.all_eq_true] at this
      exact absurd (this TAB h) (by simp)
    · by_cases hlen : (s.takeWhile (· ≠ TAB)).length = s.length
      · exact .inl ⟨hlen, (List.takeWhile_prefix _).eq_of_length hlen⟩
      · refine .inr ⟨htw, hlen, ?_⟩
        -- what follows the part is a tab
        have happ := List.takeWhile_append_dropWhile (p := (· ≠ TAB)) (l := s)
        rcases hd : s.dropWhile (· ≠ TAB) with - | ⟨c, r⟩
        · rw [hd, List.append_nil] at happ
          exact absurd (congrArg List.length happ) hlen
        · have hc : c = TAB := by
            have := List.head?_dropWhile_not (· ≠ TAB) s
            rw [hd] at this
            simpa using this
          rw [hd, hc] at happ
          generalize s.takeWhile (· ≠ TAB) = t at happ
          rw [← happ, List.drop_append, List.drop_of_length_le (by omega)]
          simp

theorem extentFrom_exact (hm : Monospaced xi) (s : List Byte) (offs : Nat)
    (h : s.foldl (advance xi.tabwidth.toNat xi.charW.toNat) offs < 32768) :
    extentFrom xi s offs =
      some ((s.foldl (advance xi.tabwidth.toNat xi.charW.toNat) offs : Nat) : Int) := by
  have hcw : 0 < xi.charW.toNat := by have := hm.charW; omega
  have hcw' : (xi.charW.toNat : Int) = xi.charW := Int.toNat_of_nonneg (by have := hm.charW; omega)
  have htw' : (xi.tabwidth.toNat : Int) = xi.tabwidth := Int.toNat_of_nonneg hm.tabwidth
  induction hn : s.length using Nat.strong_induction_on generalizing s offs with
  | _ n ih =>
    rw [extentFrom]
    split
    · rename_i hs
      rw [hs]
      rfl
    · rename_i hs
      rcases toTab_cases xi s with ⟨hplain, hcases⟩
      generalize (if xi.tabwidth = 0 then s else s.takeWhile (· ≠ TAB)) = t at hplain hcases
      have hfold : t.foldl (advance xi.tabwidth.toNat xi.charW.toNat) offs =
          offs + t.length * xi.charW.toNat := foldl_advance_plain hplain offs
      have hmul : t.length ≤ t.length * xi.charW.toNat := Nat.le_mul_of_pos_right _ hcw
      have hoffs : ∀ m : Nat, m < 32768 → word (m : Int) = m := fun m hm =>
        word_of_lt (by omega) (by omega)
      have hsum : (offs : Int) + (t.length : Int) * xi.charW =
          ((offs + t.length * xi.charW.toNat : Nat) : Int) := by
        push_cast
        rw [hcw']
      rcases hcases with ⟨hlen, rfl⟩ | ⟨htw, hlen, hsplit⟩
      · rw [hfold] at h ⊢
        simp only [hm.mono, if_true]
        rw [hoffs t.length (by omega), hsum, hoffs _ h]
        simp only [if_true]
      · have htw0 : xi.tabwidth.toNat ≠ 0 := by have := hm.tabwidth; omega
        generalize hu : offs + t.length * xi.charW.toNat = u at hfold hsum
        have hrest : s.foldl (advance xi.tabwidth.toNat xi.charW.toNat) offs =
            (s.drop (t.length + 1)).foldl (advance xi.tabwidth.toNat xi.charW.toNat)
              (advance xi.tabwidth.toNat xi.charW.toNat u TAB) := by
          conv_lhs => rw [hsplit]
          rw [List.foldl_append, List.foldl_cons, hfold]
        rw [hrest] at h ⊢
        have hlt : u < advance xi.tabwidth.toNat xi.charW.toNat u TAB := lt_advance hcw
        have hle : advance xi.tabwidth.toNat xi.charW.toNat u TAB ≤
            (s.drop (t.length + 1)).foldl (advance xi.tabwidth.toNat xi.charW.toNat)
              (advance xi.tabwidth.toNat xi.charW.toNat u TAB) := le_foldl_advance hcw _ _
        -- the tab stop lies in front of the end
        have hstop := tab_stop htw0 u
        rw [htw', show (u / xi.tabwidth.toNat + 1) * xi.tabwidth.toNat =
          advance xi.tabwidth.toNat xi.charW.toNat u TAB by
            rw [advance, if_pos ⟨htw0, rfl⟩]] at hstop
        have hround : (if ((u + 1 : Nat) : Int).tmod xi.tabwidth ≠ 0
            then word (((u + 1 : Nat) : Int) +
              (xi.tabwidth - ((u + 1 : Nat) : Int).tmod xi.tabwidth))
            else ((u + 1 : Nat) : Int)) =
            (advance xi.tabwidth.toNat xi.charW.toNat u TAB : Nat) := by
          split
          · rename_i hr
            rw [if_pos hr] at hstop
            rw [hstop, hoffs _ (by omega)]
          · rename_i hr
            rwa [if_neg hr] at hstop
        have hshort : (s.drop (t.length + 1)).length < n := by
          rw [List.length_drop]
          have : s.length ≠ 0 := fun h => hs (List.length_eq_zero_iff.mp h)
          omega
        simp only [hm.mono, if_true]
        rw [if_neg hlen, hoffs t.length (by omega), hsum, hoffs u (by omega)]
        rw [show (u : Int) + 1 = ((u + 1 : Nat) : Int) by push_cast; rfl, hoffs (u + 1) (by omega),
          hround, show (t.length : Int) + 1 = ((t.length + 1 : Nat) : Int) by push_cast; rfl,
          hoffs (t.length + 1) (by omega), if_pos rfl]
        exact ih _ hshort _ _ h rfl

theorem extent_exact (hm : Monospaced xi) (s : List Byte) (h : width xi s < 32768) :
    extent xi s = some (width xi s : Int) :=
  extentFrom_exact hm s 0 h

theorem Monospaced.charW_pos (hm : Monospaced xi) : 0 < xi.charW.toNat := by
  have := hm.charW
  omega

theorem width_append (xi : XEDITINFO) (s t : List Byte) :
    width xi (s ++ t) = t.foldl (advance xi.tabwidth.toNat xi.charW.toNat) (width xi s) := by
  rw [width, List.foldl_append, width]

theorem hardLen_le (xi : XEDITINFO) (s : Nat) : hardLen xi s ≤ xi.buf.length - s := by
  rcases hardEol_cases xi.buf s with ⟨l, hl, rfl, he⟩ | ⟨-, he⟩
  · have := lt_of_isEol hl.eol
    rw [hardLen, he]
    simp only
    omega
  · rw [hardLen, he]

theorem widthAt_zero (xi : XEDITINFO) (s : Nat) : widthAt xi s 0 = 0 := rfl

theorem widthAt_succ (xi : XEDITINFO) {s n : Nat} (h : s + n < xi.buf.length) :
    widthAt xi s (n + 1) =
      advance xi.tabwidth.toNat xi.charW.toNat (widthAt xi s n) (ch xi.buf (s + n)) := by
  have hn : n < (xi.buf.drop s).length := by
    rw [List.length_drop]
    omega
  rw [widthAt, List.take_succ_eq_append_getElem hn, width_append, ← ch_eq_getElem hn, ch_drop]
  rfl

theorem widthAt_lt (hm : Monospaced xi) {s i j : Nat} (hij : i < j)
    (h : s + j ≤ xi.buf.length) : widthAt xi s i < widthAt xi s j := by
  induction j with
  | zero => exact absurd hij (by omega)
  | succ j ih =>
    rw [widthAt_succ xi (by omega)]
    have hstep : widthAt xi s j <
        advance xi.tabwidth.toNat xi.charW.toNat (widthAt xi s j) (ch xi.buf (s + j)) :=
      lt_advance hm.charW_pos
    rcases Nat.lt_succ_iff_lt_or_eq.mp hij with hlt | rfl
    · exact (ih hlt (by omega)).trans hstep
    · exact hstep

theorem le_widthAt (hm : Monospaced xi) {s n : Nat} (h : s + n ≤ xi.buf.length) :
    n ≤ widthAt xi s n := by
  induction n with
  | zero => exact Nat.zero_le _
  | succ n ih => exact (ih (by omega)).trans_lt (widthAt_lt hm (Nat.lt_succ_self n) h)

theorem strictMonoOn_widthAt (hm : Monospaced xi) (s : Nat) :
    StrictMonoOn (widthAt xi s) (Set.Iic (hardLen xi s)) := by
  intro i hi j hj hij
  have := hardLen_le xi s
  rw [Set.mem_Iic] at hj
  exact widthAt_lt hm hij (by omega)

theorem fit_le (xi : XEDITINFO) (s : Nat) : fit xi s ≤ hardLen xi s := Nat.findGreatest_le _

theorem widthAt_fit (xi : XEDITINFO) (s : Nat) :
    widthAt xi s (fit xi s) ≤ xi.autowrap.toNat := by
  have h0 : widthAt xi s 0 ≤ xi.autowrap.toNat := by
    rw [widthAt_zero]
    exact Nat.zero_le _
  exact Nat.findGreatest_spec (P := fun n => widthAt xi s n ≤ xi.autowrap.toNat)
    (Nat.zero_le (hardLen xi s)) h0

theorem lt_widthAt_of_fit (xi : XEDITINFO) {s n : Nat} (h : fit xi s < n)
    (hn : n ≤ hardLen xi s) : xi.autowrap.toNat < widthAt xi s n :=
  Nat.lt_of_not_le
    (Nat.findGreatest_is_greatest (P := fun n => widthAt xi s n ≤ xi.autowrap.toNat) h hn)

theorem bisect_eq (hm : Monospaced xi) {s u o : Nat} (ho : o ≤ hardLen xi s)
    (h : ∀ n, Probe (widthAt xi s) xi.autowrap.toNat u o n → widthAt xi s n < 32768)
    (hw : 0 ≤ xi.autowrap) :
    bisect xi (xi.buf.drop s) xi.autowrap u o =
      some (halving (widthAt xi s) xi.autowrap.toNat u o) := by
  have hext : ∀ n, Probe (widthAt xi s) xi.autowrap.toNat u o n →
      extent xi ((xi.buf.drop s).take n) = some (widthAt xi s n : Int) :=
    fun n hn => extent_exact hm _ (h n hn)
  have hcast : (xi.autowrap.toNat : Int) = xi.autowrap := Int.toNat_of_nonneg hw
  induction hd : o - u using Nat.strong_induction_on generalizing u o with
  | _ d ih =>
    rw [bisect, halving]
    by_cases huo : u < o
    · rw [if_pos huo, if_pos huo]
      by_cases hone : o - u = 1
      · rw [if_pos hone, if_pos hone, hext o (.last hone)]
        simp only [show ((widthAt xi s o : Int) ≤ xi.autowrap) ↔
          widthAt xi s o ≤ xi.autowrap.toNat by omega]
      · rw [if_neg hone, if_neg hone, hext _ (.mid huo hone)]
        simp only [show ((widthAt xi s ((u + o) / 2) : Int) < xi.autowrap) ↔
          widthAt xi s ((u + o) / 2) < xi.autowrap.toNat by omega]
        split
        · rename_i hlt
          exact ih _ (by omega) ho (fun n hn => h n (.right huo hone hlt hn))
            (fun n hn => hext n (.right huo hone hlt hn)) rfl
        · rename_i hge
          exact ih _ (by omega) (by omega) (fun n hn => h n (.left huo hone hge hn))
            (fun n hn => hext n (.left huo hone hge hn)) rfl
    · rw [if_neg huo, if_neg huo]

theorem pixposToNpos_exact (hm : Monospaced xi) (hw : xi.autowrap ≠ 0) {s : Nat}
    (hr : InRange xi s) :
    pixposToNpos xi (xi.buf.drop s) (hardLen xi s) xi.autowrap = some (fit xi s : Int) := by
  have hpos : 0 ≤ xi.autowrap := by
    have := hm.charW
    rcases hm.autowrap with h | h
    · exact absurd h hw
    · omega
  have hfit : fit xi s < 32768 := by
    have hle := hardLen_le xi s
    have hfit := fit_le xi s
    by_cases hs : s ≤ xi.buf.length
    · have h1 := le_widthAt hm (s := s) (n := fit xi s) (by omega)
      have h2 := widthAt_fit xi s
      have := hm.word
      omega
    · omega
  rw [pixposToNpos, bisect_eq hm (Nat.le_refl _) hr hpos,
    halving_eq (strictMonoOn_widthAt hm s) (by rw [widthAt_zero]; exact Nat.zero_le _)]
  rw [Option.map_some]
  exact congrArg some (word_of_lt (by omega) (by exact_mod_cast hfit))

end Edit

end MagiC
