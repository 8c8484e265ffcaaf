import MagiC.Edit.Lines

/-!
# Stepping Back

`get_prev_eol` looks at the characters to the left of a line, where `get_next_eol` has
come from the left. Two things make them disagree.

`get_prev_eol` pairs the two characters to the left of the line. If these are the second
character of one line end and the only character of the next, it takes them for one line
end. So it goes wrong in a run of line ends in which CR and LF take turns, if the number
of characters is odd and greater than one.

## Main definitions

* `OddRun`: CR and LF in turn, an odd number of times.

## Theorems

* `getPrevEol_next_iff`: The line in front of a line.
-/

namespace MagiC

namespace Edit

variable {xi : XEDITINFO} {buf : List Byte} {s t : Nat} {l m : Line} {ls : List Line}

theorem hardReturn_clear (n : Nat) (h : ∀ i, t < i → i ≤ t + n → isEol (ch buf i) = false) :
    hardReturn buf (t + n) = hardReturn buf t := by
  induction n with
  | zero => rfl
  | succ n ih =>
    have hlast := h (t + n + 1) (by omega) (by omega)
    rw [← Nat.add_assoc, hardReturn, hlast, if_neg (by simp)]
    exact ih fun i hi hit => h i hi (by omega)

theorem hardReturn_of_eol (h : isEol (ch buf t) = true) : hardReturn buf t = t := by
  cases t with
  | zero => rfl
  | succ t => rw [hardReturn, if_pos h]

theorem startBefore_eq (h : xi.autowrap = 0) (hs : LineStart xi l.line) (hl : Ends xi.buf l) :
    startBefore xi.buf (l.line + l.len) = if l.line = 1 then 0 else l.line := by
  have hclear := hl.clear
  rcases Nat.eq_zero_or_pos l.line with hzero | hpos
  · rw [hzero] at hclear ⊢
    rw [if_neg (by omega), startBefore]
    split
    · rfl
    · rename_i hlen
      have hret : hardReturn xi.buf (0 + (l.len - 1)) = hardReturn xi.buf 0 :=
        hardReturn_clear _ fun i hi hit => hclear i (by omega) (by omega)
      rw [show 0 + l.len - 1 = 0 + (l.len - 1) by omega, hret]
      rfl
  · have heol := hs.eol_before h hpos
    have hret : hardReturn xi.buf (l.line - 1 + l.len) = l.line - 1 := by
      rw [hardReturn_clear _ fun i hi hit => hclear i (by omega) (by omega), hardReturn_of_eol heol]
    rw [startBefore, if_neg (by omega), show l.line + l.len - 1 = l.line - 1 + l.len by omega, hret]
    by_cases hone : l.line = 1
    · simp [hone]
    · simp only [if_neg hone]
      rw [if_pos (by omega)]
      omega

/-- An empty line whose line end and the character before it look like one line end. -/
def Fuses (buf : List Byte) (l : Line) : Prop :=
  l.len = 0 ∧ l.lextra = 1 ∧ 0 < l.line ∧ ch buf (l.line - 1) ≠ ch buf l.line

theorem endBefore_eq (hl : Ends buf l) (hf : ¬ Fuses buf l) :
    endBefore buf l.next = l.line + l.len := by
  have heol := hl.eol
  rcases hl.lextra_cases with ⟨hone, -⟩ | ⟨htwo, hsecond⟩
  · rw [endBefore, Line.next, hone, if_pos (by simpa using heol)]
    simp only [Nat.add_sub_cancel]
    split
    · rename_i hpos
      rw [if_neg]
      rintro ⟨hprev, hne⟩
      rcases Nat.eq_zero_or_pos l.len with hlen | hlen
      · -- the character to the left belongs to the line before
        rw [hlen] at hpos hne
        exact hf ⟨hlen, hone, hpos, fun heq => hne heq.symm⟩
      · rw [hl.clear _ (by omega) (by omega)] at hprev
        exact absurd hprev (by simp)
    · rfl
  · have hfirst : l.line + l.len + 2 - 1 = l.line + l.len + 1 := by omega
    rw [endBefore, Line.next, htwo, hfirst, if_pos hsecond.1]
    simp only
    rw [if_pos (by omega), Nat.add_sub_cancel, if_pos ⟨heol, hsecond.2⟩]

theorem endBefore_fuses (h : xi.autowrap = 0) (hs : LineStart xi l.line) (hl : Ends xi.buf l)
    (hf : Fuses xi.buf l) : endBefore xi.buf l.next = l.line - 1 := by
  rcases hf with ⟨hlen, hone, hpos, hne⟩
  have heol := hl.eol
  rw [hlen, Nat.add_zero] at heol
  rw [endBefore, Line.next, hlen, hone, Nat.add_zero, Nat.add_sub_cancel, if_pos heol]
  simp only
  rw [if_pos hpos, if_pos ⟨hs.eol_before h hpos, fun heq => hne heq.symm⟩]

/-- The line in front of a line is found, but for two cases. -/
theorem getPrevEol_next_iff (h : xi.autowrap = 0) (hs : LineStart xi l.line)
    (hl : Ends xi.buf l) :
    getPrevEol xi l.next = some (some l) ↔ l.line ≠ 1 ∧ ¬ Fuses xi.buf l := by
  have hpos := hl.next_pos
  have hnowrap : ¬ xi.autowrap ≠ 0 := by simp [h]
  by_cases hf : Fuses xi.buf l
  · -- the line end seems to have two characters
    have hend := endBefore_fuses h hs hl hf
    refine ⟨fun hprev => ?_, fun hok => absurd hf hok.2⟩
    rcases hf with ⟨hlen, hone, hline, -⟩
    rw [getPrevEol, if_neg (by omega), hend] at hprev
    simp only [if_neg hnowrap] at hprev
    split at hprev
    · exact absurd hprev (by simp)
    · simp only [Option.some.injEq] at hprev
      have hx := congrArg Line.lextra hprev
      simp only [Line.next, hlen, hone] at hx
      omega
  · have hend := endBefore_eq hl hf
    have hstart := startBefore_eq h hs hl
    rw [getPrevEol, if_neg (by omega), hend]
    simp only [if_neg hnowrap, hstart]
    by_cases hone : l.line = 1
    · -- the first character of the text is taken into the line
      rw [if_pos hone, if_neg (by omega)]
      refine ⟨fun hprev => ?_, fun hok => absurd hone hok.1⟩
      simp only [Option.some.injEq] at hprev
      have := congrArg Line.line hprev
      simp only at this
      omega
    · rw [if_neg hone, if_neg (by omega)]
      refine ⟨fun _ => ⟨hone, hf⟩, fun _ => ?_⟩
      have hlen : l.line + l.len - l.line = l.len := by omega
      have hx : l.next - (l.line + l.len) = l.lextra := by
        rw [Line.next]
        omega
      rw [hlen, hx]

/-- From every line that is not the first `get_prev_eol` gives the line in front of it. -/
def StepsBack (xi : XEDITINFO) : Prop :=
  getPrevEol xi 0 = some none ∧
    ∀ l : Line, LineStart xi l.line → getNextEol xi l.line = some ⟨l.len, l.lextra, false⟩ →
      getPrevEol xi l.next = some (some l)

/-- CR and LF in turn, in a run of an odd number of line ends that cannot be made longer. -/
structure OddRun (buf : List Byte) (i k : Nat) : Prop where
  eol : isEol (ch buf i) = true
  turns : ∀ j, j < 2 * k → Two buf (i + j)
  first : i = 0 ∨ ¬ (isEol (ch buf (i - 1)) = true ∧ ch buf i ≠ ch buf (i - 1))
  last : ¬ Two buf (i + 2 * k)

/-- A text in which stepping back does not go wrong. -/
structure Straight (buf : List Byte) : Prop where
  runs : ∀ i k, 0 < k → ¬ OddRun buf i k
  begins : isEol (ch buf 0) = true → ¬ Two buf 0 → ∀ i, 0 < i → isEol (ch buf i) = false

theorem line_of_eol (h : xi.autowrap = 0) {p : Nat} (hp : isEol (ch xi.buf p) = true)
    (hs : LineStart xi s) (hsp : s ≤ p) :
    ∃ l, LineStart xi l.line ∧ Ends xi.buf l ∧
      (l.line + l.len = p ∨ l.line + l.len + 1 = p ∧ l.lextra = 2) := by
  induction hn : p - s using Nat.strong_induction_on generalizing s with
  | _ n ih =>
    rcases hardEol_cases xi.buf s with ⟨l, hl, rfl, -⟩ | ⟨hno, -⟩
    · have hle : l.line + l.len ≤ p := by
        by_contra hlt
        rw [hl.clear p hsp (by omega)] at hp
        exact absurd hp (by simp)
      by_cases hnext : l.next ≤ p
      · have hpos : 0 < l.lextra := by
          rcases hl.lextra_cases with ⟨hx, -⟩ | ⟨hx, -⟩ <;> omega
        rw [Line.next] at hnext
        exact ih (p - l.next) (by rw [Line.next]; omega)
          (LineStart.next hs (getNextEol_of_ends h hl)) hnext rfl
      · refine ⟨l, hs, hl, ?_⟩
        rw [Line.next] at hnext
        rcases hl.lextra_cases with ⟨hx, -⟩ | ⟨hx, -⟩
        · exact .inl (by omega)
        · rcases Nat.eq_or_lt_of_le hle with heq | hlt
          · exact .inl heq
          · exact .inr ⟨by omega, hx⟩
    · rw [hno p hsp] at hp
      exact absurd hp (by simp)

theorem Ends.len_zero (hl : Ends buf l) (h : isEol (ch buf l.line) = true) : l.len = 0 := by
  by_contra hlen
  rw [hl.clear l.line (by omega) (by omega)] at h
  exact absurd h (by simp)

theorem line_at {p : Nat} (hp : isEol (ch buf p) = true) (hsp : s ≤ p) :
    ∃ l, l.line = s ∧ Ends buf l := by
  rcases hardEol_cases buf s with ⟨l, hl, hline, -⟩ | ⟨hno, -⟩
  · exact ⟨l, hline, hl⟩
  · rw [hno p hsp] at hp
    exact absurd hp (by simp)

theorem run_before (h : xi.autowrap = 0) (hs : LineStart xi s)
    (heol : isEol (ch xi.buf s) = true) :
    ∃ i k, i + 2 * k = s ∧ isEol (ch xi.buf i) = true ∧ (∀ j, j < 2 * k → Two xi.buf (i + j)) ∧
      (i = 0 ∨ ¬ (isEol (ch xi.buf (i - 1)) = true ∧ ch xi.buf i ≠ ch xi.buf (i - 1))) := by
  induction s using Nat.strong_induction_on with
  | _ s ih =>
    by_cases hfirst : s = 0 ∨
        ¬ (isEol (ch xi.buf (s - 1)) = true ∧ ch xi.buf s ≠ ch xi.buf (s - 1))
    · exact ⟨s, 0, rfl, heol, fun j hj => absurd hj (by omega), hfirst⟩
    · rw [not_or, not_not] at hfirst
      rcases hfirst with ⟨hs0, hprev, hne⟩
      rcases hs.behind h with hzero | ⟨l, hls, hl, hnext⟩
      · exact absurd hzero hs0
      · rw [Line.next] at hnext
        rcases hl.lextra_cases with ⟨hx, hno⟩ | ⟨hx, htwo⟩
        · -- a single character would have been paired with the one at `s`
          refine absurd ⟨?_, ?_⟩ hno
          · rwa [show l.line + l.len + 1 = s by omega]
          · rwa [show l.line + l.len + 1 = s by omega, show l.line + l.len = s - 1 by omega]
        · have hpair : Two xi.buf (s - 1) := by
            refine ⟨?_, ?_⟩
            · rwa [show s - 1 + 1 = s by omega]
            · rwa [show s - 1 + 1 = s by omega]
          rcases Nat.eq_zero_or_pos l.len with hlen | hlen
          · -- the line before is empty as well
            have hle := hl.eol
            rw [hlen, Nat.add_zero] at hle htwo
            rcases ih l.line (by omega) hls hle with ⟨i, k, hik, hi, hturns, hfi⟩
            refine ⟨i, k + 1, by omega, hi, ?_, hfi⟩
            intro j hj
            rcases Nat.lt_trichotomy j (2 * k) with hlt | heq | hgt
            · exact hturns j hlt
            · rwa [heq, hik]
            · rwa [show i + j = s - 1 by omega]
          · refine ⟨l.line + l.len, 1, by omega, hl.eol, ?_, .inr ?_⟩
            · intro j hj
              rcases Nat.eq_zero_or_pos j with rfl | hj0
              · exact htwo
              · rwa [show l.line + l.len + j = s - 1 by omega]
            · rw [hl.clear _ (by omega) (by omega)]
              simp

theorem line_in_run (h : xi.autowrap = 0) {i k : Nat} (hr : OddRun xi.buf i k) (j : Nat)
    (hj : j ≤ k) :
    ∃ l, LineStart xi l.line ∧ Ends xi.buf l ∧ l.line + l.len = i + 2 * j ∧
      (0 < j → l.len = 0) := by
  induction j with
  | zero =>
    rcases line_of_eol h hr.eol LineStart.first (Nat.zero_le i) with ⟨l, hs, hl, hp | ⟨hp, hx⟩⟩
    · exact ⟨l, hs, hl, by omega, by omega⟩
    · -- the run would begin with the second character of a line end
      rcases hl.lextra_cases with ⟨hone, -⟩ | ⟨-, htwo⟩
      · exact absurd hone (by omega)
      · rcases hr.first with hzero | hno
        · exact absurd hzero (by omega)
        · refine absurd ⟨?_, ?_⟩ hno
          · rw [show i - 1 = l.line + l.len by omega]
            exact hl.eol
          · rw [← hp, show l.line + l.len + 1 - 1 = l.line + l.len by omega]
            exact htwo.2
  | succ j ih =>
    rcases ih (by omega) with ⟨l, hs, hl, hp, -⟩
    have htwo := hr.turns (2 * j) (by omega)
    have hsecond := (hr.turns (2 * j + 1) (by omega)).1
    rcases hl.lextra_cases with ⟨-, hno⟩ | ⟨hx, -⟩
    · exact absurd htwo (hp ▸ hno)
    · have hnext : l.next = i + (2 * j + 1) + 1 := by
        rw [Line.next, hp, hx]
        omega
      have hstart := LineStart.next hs (getNextEol_of_ends h hl)
      rw [hnext] at hstart
      rcases line_at hsecond (Nat.le_refl _) with ⟨m, hline, hm⟩
      have hzero := hm.len_zero (hline ▸ hsecond)
      exact ⟨m, hline ▸ hstart, hm, by omega, fun _ => hzero⟩

/-- Stepping back works exactly on the texts with neither of the two faults. -/
theorem stepsBack_iff (h : xi.autowrap = 0) : StepsBack xi ↔ Straight xi.buf := by
  refine ⟨fun hback => ⟨?_, ?_⟩, fun hstraight => ⟨by simp [getPrevEol], ?_⟩⟩
  · -- the last line end of an odd run fuses with the character before
    intro i k hk hr
    rcases line_in_run h hr k (Nat.le_refl k) with ⟨l, hs, hl, hp, hlen⟩
    have hlen := hlen hk
    have hturn := (hr.turns (2 * k - 1) (by omega)).2
    have hok := hback.2 l hs (getNextEol_of_ends h hl)
    rw [getPrevEol_next_iff h hs hl] at hok
    rcases hl.lextra_cases with ⟨hx, -⟩ | ⟨-, htwo⟩
    · refine hok.2 ⟨hlen, hx, by omega, ?_⟩
      rw [show l.line - 1 = i + (2 * k - 1) by omega,
        show l.line = i + (2 * k - 1) + 1 by omega]
      exact hturn.symm
    · exact absurd (hp ▸ htwo) hr.last
  · -- the line behind an empty first line
    intro heol hno i hi
    by_contra hc
    rw [Bool.not_eq_false] at hc
    rcases line_at heol (Nat.le_refl 0) with ⟨l, hline, hl⟩
    have hlen := hl.len_zero (hline ▸ heol)
    have hstart := LineStart.next (hline ▸ LineStart.first) (getNextEol_of_ends h hl)
    rcases hl.lextra_cases with ⟨hx, -⟩ | ⟨-, htwo⟩
    · have hnext : l.next = 1 := by rw [Line.next, hline, hlen, hx]
      rw [hnext] at hstart
      rcases line_at hc hi with ⟨m, hm1, hm⟩
      have hok := hback.2 m (hm1 ▸ hstart) (getNextEol_of_ends h hm)
      rw [getPrevEol_next_iff h (hm1 ▸ hstart) hm] at hok
      exact hok.1 hm1
    · rw [hline, hlen] at htwo
      exact hno htwo
  · intro l hs hl
    have hends := ends_of_getNextEol h hl
    rw [getPrevEol_next_iff h hs hends]
    refine ⟨fun hone => ?_, fun hf => ?_⟩
    · -- only an empty first line with one character leads to position 1
      rcases hs.behind h with hzero | ⟨m, -, hm, hnext⟩
      · omega
      · rw [Line.next] at hnext
        rcases hm.lextra_cases with ⟨hx, hno⟩ | ⟨hx, -⟩
        · have hfirst := hm.eol
          rw [show m.line + m.len = 0 by omega] at hfirst hno
          have := hstraight.begins hfirst hno (l.line + l.len) (by omega)
          rw [hends.eol] at this
          exact absurd this (by simp)
        · omega
    · rcases hf with ⟨hlen, hx, hpos, hne⟩
      have heol := hends.eol
      rw [hlen, Nat.add_zero] at heol
      rcases run_before h hs heol with ⟨i, k, hik, hi, hturns, hfirst⟩
      rcases Nat.eq_zero_or_pos k with rfl | hk
      · rw [Nat.mul_zero, Nat.add_zero] at hik
        rw [hik] at hfirst
        rcases hfirst with hzero | hno
        · omega
        · exact hno ⟨hs.eol_before h hpos, hne.symm⟩
      · refine hstraight.runs i k hk ⟨hi, hturns, hfirst, ?_⟩
        rcases hends.lextra_cases with ⟨-, hno⟩ | ⟨htwo, -⟩
        · rwa [hlen, Nat.add_zero, ← hik] at hno
        · omega

end Edit

end MagiC
