import MagiC.Edit.Width

/-!
# Line Breaks

The lines of a text that is wrapped.

`get_next_eol` takes as many characters as fit, and goes back to the last space or hyphen
among them. It does so without regard to two cases. A tab that is wider than the line
does not fit at all, so no character is taken and the parse stays where it is. And a space
or hyphen is not seen at the beginning of the line, where the loop that looks for it
ends, so a line with no other one is broken inside a word.

A third fault is that widths are computed with 16 bits, so what is too wide may seem to
fit.

## Main definitions

* `breakLen`: Where the line that begins at a position is to be broken.

## Theorems

* `getNextEol_exact`: Where the code breaks a line.
-/

namespace MagiC

namespace Edit

open Bisect

variable {xi : XEDITINFO} {l : Line} {ls : List Line} {s n : Nat}

/-- A space or a hyphen. -/
def isSep (c : Byte) : Prop := c = 0x20 ∨ c = 0x2d

instance (c : Byte) : Decidable (isSep c) := inferInstanceAs (Decidable (_ ∨ _))

/-- The text goes on in the same line. -/
def Soft (xi : XEDITINFO) (l : Line) : Prop :=
  xi.autowrap ≠ 0 ∧ l.line + l.len < xi.buf.length ∧
    isEol (ch xi.buf (l.line + l.len)) = false

/-- What is asked of a line. -/
structure LineOk (xi : XEDITINFO) (l : Line) : Prop where
  clear : ∀ i, i < l.len → isEol (ch xi.buf (l.line + i)) = false
  extra : l.lextra = 0 → Soft xi l ∨ l.line + l.len = xi.buf.length
  fits : xi.autowrap ≠ 0 → widthAt xi l.line l.len ≤ xi.autowrap.toNat ∨ l.len = 1
  word : Soft xi l → (∃ i, i < l.len ∧ isSep (ch xi.buf (l.line + i))) →
    isSep (ch xi.buf (l.line + (l.len - 1))) ∧
      ∀ i, l.len ≤ i → i < hardLen xi l.line → isSep (ch xi.buf (l.line + i)) →
        xi.autowrap.toNat < widthAt xi l.line (i + 1)

/-- The lines make up the text, and each is as asked. -/
def Partitions (xi : XEDITINFO) : Prop :=
  ∃ ls, Lines xi 0 ls ∧ (∃ w, getNumberOfLines xi = some (ls.length, w)) ∧
    (∃ l, ls.getLast? = some l ∧ l.next = xi.buf.length) ∧ ∀ l ∈ ls, LineOk xi l

/-- The length of the part up to the last space or hyphen that fits, if there is one. -/
def wordLen (xi : XEDITINFO) (s : Nat) : Nat :=
  Nat.findGreatest (fun n => 0 < n ∧ isSep (ch xi.buf (s + (n - 1)))) (fit xi s)

/-- Where the line that begins at a position is to be broken. -/
def breakLen (xi : XEDITINFO) (s : Nat) : Nat :=
  if fit xi s = hardLen xi s then hardLen xi s
  else if 0 < wordLen xi s then wordLen xi s
  else max 1 (fit xi s)

/-- Where the line after it begins. -/
def breakNext (xi : XEDITINFO) (s : Nat) : Nat :=
  s + breakLen xi s + if fit xi s = hardLen xi s then (hardEol xi.buf s).lextra else 0

/-- The positions at which lines begin that are broken there. -/
inductive BreakStart (xi : XEDITINFO) : Nat → Prop where
  | first : BreakStart xi 0
  | next {s : Nat} (h : BreakStart xi s)
      (hmore : fit xi s ≠ hardLen xi s ∨ (hardEol xi.buf s).eot = false) :
      BreakStart xi (breakNext xi s)

/-- A space or hyphen at the beginning of a line that is broken is not the only one. -/
def SepSeen (xi : XEDITINFO) (s : Nat) : Prop :=
  fit xi s < hardLen xi s → 1 < fit xi s → isSep (ch xi.buf s) →
    ∃ i, 0 < i ∧ i < fit xi s ∧ isSep (ch xi.buf (s + i))

/-- No tab is wider than the line. -/
def TabsFit (xi : XEDITINFO) : Prop :=
  TAB ∈ xi.buf → xi.tabwidth ≤ xi.autowrap

theorem wordEnd_spec (line : List Byte) (n : Nat) :
    wordEnd line n ≤ n ∧ (0 < wordEnd line n → isSep (ch line (wordEnd line n))) ∧
      ∀ i, wordEnd line n < i → i ≤ n → ¬ isSep (ch line i) := by
  induction n with
  | zero => exact ⟨Nat.le_refl 0, fun h => absurd h (Nat.lt_irrefl 0), fun i h h' => by omega⟩
  | succ n ih =>
    rw [wordEnd]
    split
    · rename_i h
      exact ⟨Nat.le_refl _, fun _ => h, fun i h h' => by omega⟩
    · rename_i hno
      rcases ih with ⟨hle, hsep, hclear⟩
      refine ⟨by omega, hsep, fun i hi hin => ?_⟩
      rcases Nat.lt_succ_iff_lt_or_eq.mp (Nat.lt_succ_of_le hin) with hlt | rfl
      · exact hclear i hi (by omega)
      · exact hno

/-- What the code takes from a line that does not fit. -/
def softLen (xi : XEDITINFO) (s : Nat) : Nat :=
  if 0 < wordEnd (xi.buf.drop s) (fit xi s - 1) then wordEnd (xi.buf.drop s) (fit xi s - 1) + 1
  else fit xi s

theorem getNextEol_exact (hm : Monospaced xi) (hw : xi.autowrap ≠ 0) (hr : InRange xi s) :
    getNextEol xi s =
      if fit xi s = hardLen xi s then some (hardEol xi.buf s)
      else some ⟨softLen xi s, 0, false⟩ := by
  have hle := fit_le xi s
  have hfit := pixposToNpos_exact hm hw hr
  rw [hardLen] at hfit hle
  rw [getNextEol, if_pos hw]
  simp only [hfit, Int.toNat_natCast]
  by_cases heq : fit xi s = hardLen xi s
  · rw [if_pos heq, if_neg (by rw [heq, hardLen]; omega)]
  · rw [if_neg heq, if_pos (by rw [hardLen] at heq; omega), if_neg (by omega)]
    rfl

theorem hardLen_clear (xi : XEDITINFO) {s i : Nat} (h : i < hardLen xi s) :
    isEol (ch xi.buf (s + i)) = false := by
  rcases hardEol_cases xi.buf s with ⟨l, hl, rfl, he⟩ | ⟨hno, -⟩
  · rw [hardLen, he] at h
    exact hl.clear _ (by omega) (by simpa using h)
  · exact hno _ (by omega)

theorem wordLen_le (xi : XEDITINFO) (s : Nat) : wordLen xi s ≤ fit xi s := Nat.findGreatest_le _

theorem wordLen_sep (h : 0 < wordLen xi s) : isSep (ch xi.buf (s + (wordLen xi s - 1))) :=
  (Nat.findGreatest_of_ne_zero (P := fun n => 0 < n ∧ isSep (ch xi.buf (s + (n - 1)))) rfl
    (Nat.pos_iff_ne_zero.mp h)).2

theorem wordLen_last {i : Nat} (h : wordLen xi s ≤ i) (hi : i < fit xi s) :
    ¬ isSep (ch xi.buf (s + i)) := by
  intro hsep
  have := Nat.le_findGreatest (P := fun n => 0 < n ∧ isSep (ch xi.buf (s + (n - 1))))
    (n := fit xi s) (m := i + 1) hi ⟨by omega, hsep⟩
  rw [wordLen] at h
  omega

/-- The code breaks the line where it is to be broken, but for the two cases. -/
theorem softLen_eq (hfit : fit xi s < hardLen xi s) (hpos : 0 < fit xi s)
    (hsep : SepSeen xi s) : softLen xi s = breakLen xi s := by
  rcases wordEnd_spec (xi.buf.drop s) (fit xi s - 1) with ⟨hle, hat, hclear⟩
  rw [breakLen, if_neg (by omega), softLen]
  generalize wordEnd (xi.buf.drop s) (fit xi s - 1) = e at hle hat hclear
  have hword := wordLen_le xi s
  by_cases he : 0 < e
  · -- the loop has stopped at the last one that fits
    have hse := hat he
    rw [ch_drop] at hse
    have hlen : wordLen xi s = e + 1 := by
      have hge : ¬ wordLen xi s ≤ e := fun h => wordLen_last h (by omega) hse
      refine Nat.le_antisymm ?_ (by omega)
      by_contra hlt
      refine hclear (wordLen xi s - 1) (by omega) (by omega) ?_
      rw [ch_drop]
      exact wordLen_sep (by omega)
    rw [if_pos he, if_pos (by omega), hlen]
  · rw [if_neg he]
    split
    · rename_i hlen
      -- only the first character can be one, and then nothing else fits
      have hone : wordLen xi s = 1 := by
        by_contra hne
        refine hclear (wordLen xi s - 1) (by omega) (by omega) ?_
        rw [ch_drop]
        exact wordLen_sep hlen
      have hfirst := wordLen_sep hlen
      rw [hone] at hfirst ⊢
      by_contra hne
      rcases hsep hfit (by omega) hfirst with ⟨i, hi, hif, hi'⟩
      refine hclear i (by omega) (by omega) ?_
      rwa [ch_drop]
    · omega

theorem breakLen_bounds (hfit : fit xi s < hardLen xi s) (hpos : 0 < fit xi s) :
    0 < breakLen xi s ∧ breakLen xi s ≤ fit xi s := by
  have hword := wordLen_le xi s
  rw [breakLen, if_neg (by omega)]
  split
  · omega
  · omega

theorem fit_pos (hm : Monospaced xi) (hw : xi.autowrap ≠ 0) (ht : TabsFit xi)
    (h : 0 < hardLen xi s) : 0 < fit xi s := by
  have hlen := hardLen_le xi s
  have hcw := hm.autowrap.resolve_left hw
  have hfirst : widthAt xi s 1 ≤ xi.autowrap.toNat := by
    rw [widthAt_succ xi (by omega), widthAt_zero, advance]
    split
    · rename_i htab
      have hmem : TAB ∈ xi.buf := by
        rw [← htab.2, ch_eq_getElem (by omega)]
        exact List.getElem_mem _
      have := ht hmem
      rw [Nat.zero_div, Nat.zero_add, Nat.one_mul]
      omega
    · omega
  have := Nat.le_findGreatest (P := fun n => widthAt xi s n ≤ xi.autowrap.toNat) h hfirst
  rw [fit]
  omega

theorem hard_line (hs : s ≤ xi.buf.length)
    (hfits : xi.autowrap ≠ 0 → widthAt xi s (hardLen xi s) ≤ xi.autowrap.toNat) :
    ∃ l, l.line = s ∧ l.len = hardLen xi s ∧ LineOk xi l ∧
      (hardEol xi.buf s = ⟨l.len, l.lextra, true⟩ ∧ l.next = xi.buf.length ∨
        hardEol xi.buf s = ⟨l.len, l.lextra, false⟩ ∧ s < l.next ∧ l.next ≤ xi.buf.length) := by
  rcases hardEol_cases xi.buf s with ⟨l, hl, rfl, he⟩ | ⟨hno, he⟩
  · have hlen : l.len = hardLen xi l.line := by rw [hardLen, he]
    have hx : 0 < l.lextra := by
      rcases hl.lextra_cases with ⟨h, -⟩ | ⟨h, -⟩ <;> omega
    have hnext : l.line < l.next ∧ l.next ≤ xi.buf.length := by
      have hlast := lt_of_isEol hl.eol_last
      have := hl.next_pos
      rw [Line.next] at this hlast ⊢
      omega
    refine ⟨l, rfl, hlen, ⟨?_, fun h => by omega, fun hw => .inl (hlen ▸ hfits hw), ?_⟩,
      .inr ⟨he, hnext⟩⟩
    · intro i hi
      exact hl.clear _ (by omega) (by omega)
    · intro hsoft
      have := hsoft.2.2
      rw [hl.eol] at this
      exact absurd this (by simp)
  · have hlen : xi.buf.length - s = hardLen xi s := by rw [hardLen, he]
    have hend : s + (xi.buf.length - s) = xi.buf.length := Nat.add_sub_cancel' hs
    refine ⟨⟨s, xi.buf.length - s, 0⟩, rfl, hlen, ⟨?_, fun _ => .inr hend,
      fun hw => .inl (hlen ▸ hfits hw), ?_⟩, .inl ⟨he, hend⟩⟩
    · intro i _
      exact hno _ (Nat.le_add_right s i)
    · intro hsoft
      exact absurd hsoft.2.1 (Nat.not_lt_of_le (Nat.le_of_eq hend.symm))

theorem soft_line (hm : Monospaced xi) (hw : xi.autowrap ≠ 0) (hfit : fit xi s < hardLen xi s)
    (hpos : 0 < fit xi s) : LineOk xi ⟨s, breakLen xi s, 0⟩ := by
  have hlen := hardLen_le xi s
  rcases breakLen_bounds hfit hpos with ⟨hb, hbf⟩
  have hlt : breakLen xi s < hardLen xi s := by omega
  refine ⟨?_, fun _ => .inl ⟨hw, ?_, hardLen_clear xi hlt⟩, fun _ => .inl ?_, ?_⟩
  · intro i (hi : i < breakLen xi s)
    exact hardLen_clear xi (hi.trans hlt)
  · show s + breakLen xi s < xi.buf.length
    omega
  · show widthAt xi s (breakLen xi s) ≤ xi.autowrap.toNat
    rcases Nat.lt_or_eq_of_le hbf with hlt | heq
    · exact (Nat.le_of_lt (widthAt_lt hm hlt (by omega))).trans (widthAt_fit xi s)
    · rw [heq]
      exact widthAt_fit xi s
  · intro _ ⟨i, (hi : i < breakLen xi s), (hsi : isSep (ch xi.buf (s + i)))⟩
    have hword : 0 < wordLen xi s := by
      by_contra hzero
      exact wordLen_last (by omega) (by omega) hsi
    have hbreak : breakLen xi s = wordLen xi s := by
      rw [breakLen, if_neg (by omega), if_pos hword]
    show isSep (ch xi.buf (s + (breakLen xi s - 1))) ∧ ∀ j, breakLen xi s ≤ j →
      j < hardLen xi s → isSep (ch xi.buf (s + j)) → xi.autowrap.toNat < widthAt xi s (j + 1)
    rw [hbreak]
    refine ⟨wordLen_sep hword, fun j hj hjh hsj => ?_⟩
    refine lt_widthAt_of_fit xi ?_ hjh
    by_contra hle
    exact wordLen_last hj (by omega) hsj

end Edit

end MagiC
