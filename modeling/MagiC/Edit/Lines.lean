import Mathlib.Tactic.Linarith
import MagiC.Edit.Code

/-!
# The Lines of a Text

What `get_next_eol` gives when there is no wrapping, and the lines that come out of it
from the beginning of a text to its end.

A line that is not the last one is known by three facts. It has no line end in it, there
is a line end behind it, and two characters make up that line end exactly if the second
one is the other of the two kinds.

## Main definitions

* `LineStart`: The positions the forward parse comes to.

## Theorems

-/

namespace MagiC

namespace Edit

variable {xi : XEDITINFO} {buf : List Byte} {s t : Nat} {l m : Line} {ls : List Line}

theorem lt_of_isEol {i : Nat} (h : isEol (ch buf i) = true) : i < buf.length := by
  by_contra hi
  have hc : ch buf i = 0 := by
    rw [ch, List.getD_eq_getElem?_getD, List.getElem?_eq_none (by omega)]
    rfl
  rw [hc] at h
  exact absurd h (by decide)

theorem ch_drop (i : Nat) : ch (buf.drop s) i = ch buf (s + i) := by
  simp [ch, List.getD_eq_getElem?_getD, List.getElem?_drop]

theorem ch_eq_getElem {i : Nat} (h : i < buf.length) : ch buf i = buf[i] := by
  simp [ch, List.getD_eq_getElem?_getD, List.getElem?_eq_getElem h]

theorem memchr2_some {e : Nat} (h : memchr2 buf s = some e) :
    s ≤ e ∧ isEol (ch buf e) = true ∧ ∀ i, s ≤ i → i < e → isEol (ch buf i) = false := by
  rw [memchr2, Option.map_eq_some_iff] at h
  rcases h with ⟨n, hn, rfl⟩
  rw [List.findIdx?_eq_some_iff_getElem] at hn
  rcases hn with ⟨hlt, heol, hclear⟩
  refine ⟨by omega, ?_, ?_⟩
  · rw [← ch_drop, ch_eq_getElem hlt]
    exact heol
  · intro i hi hie
    have hin : i - s < n := by omega
    have h := hclear (i - s) hin
    rw [← ch_eq_getElem (by omega), ch_drop, Nat.add_sub_cancel' hi] at h
    simpa using h

theorem memchr2_none (h : memchr2 buf s = none) :
    ∀ i, s ≤ i → isEol (ch buf i) = false := by
  intro i hi
  rw [memchr2, Option.map_eq_none_iff, List.findIdx?_eq_none_iff] at h
  by_contra hc
  rw [Bool.not_eq_false] at hc
  have hlt := lt_of_isEol hc
  have hmem : ch buf i ∈ buf.drop s := by
    rw [ch_eq_getElem hlt, List.mem_drop_iff_getElem]
    exact ⟨i - s, by omega, by simp only [Nat.add_sub_cancel' hi]⟩
  rw [h _ hmem] at hc
  exact absurd hc (by simp)

/-- The line end that begins at a position has two characters. -/
def Two (buf : List Byte) (i : Nat) : Prop :=
  isEol (ch buf (i + 1)) = true ∧ ch buf (i + 1) ≠ ch buf i

instance (buf : List Byte) (i : Nat) : Decidable (Two buf i) :=
  inferInstanceAs (Decidable (_ ∧ _))

/-- A line and the line end behind it. -/
structure Ends (buf : List Byte) (l : Line) : Prop where
  clear : ∀ i, l.line ≤ i → i < l.line + l.len → isEol (ch buf i) = false
  eol : isEol (ch buf (l.line + l.len)) = true
  lextra : l.lextra = if Two buf (l.line + l.len) then 2 else 1

/-- A line with a line end behind it follows, or the rest of the text is the last line. -/
theorem hardEol_cases (buf : List Byte) (s : Nat) :
    (∃ l, Ends buf l ∧ l.line = s ∧ hardEol buf s = ⟨l.len, l.lextra, false⟩) ∨
      (∀ i, s ≤ i → isEol (ch buf i) = false) ∧ hardEol buf s = ⟨buf.length - s, 0, true⟩ := by
  unfold hardEol
  split
  · rename_i e he
    rcases memchr2_some he with ⟨hse, heol, hclear⟩
    refine .inl ⟨⟨s, e - s, if Two buf e then 2 else 1⟩, ⟨?_, ?_, ?_⟩, rfl, ?_⟩
    · intro i hi hie
      exact hclear i hi (by simp only at hie; omega)
    · simpa only [Nat.add_sub_cancel' hse] using heol
    · simp only [Nat.add_sub_cancel' hse]
    · -- the test for the end of the text says nothing new
      have hlt : Two buf e → e < buf.length - 1 := fun h => by
        have := lt_of_isEol h.1
        omega
      simp only [Eol.mk.injEq, true_and, and_true]
      by_cases htwo : Two buf e
      · rw [if_pos htwo, if_pos ⟨hlt htwo, htwo.1, htwo.2⟩]
      · rw [if_neg htwo, if_neg fun h => htwo ⟨h.2.1, h.2.2⟩]
  · rename_i he
    exact .inr ⟨memchr2_none he, rfl⟩

theorem getNextEol_hard (h : xi.autowrap = 0) (s : Nat) :
    getNextEol xi s = some (hardEol xi.buf s) := by
  simp [getNextEol, h]

theorem ends_of_getNextEol (h : xi.autowrap = 0)
    (hl : getNextEol xi l.line = some ⟨l.len, l.lextra, false⟩) : Ends xi.buf l := by
  rw [getNextEol_hard h, Option.some.injEq] at hl
  rcases hardEol_cases xi.buf l.line with ⟨m, hm, hline, he⟩ | ⟨-, he⟩
  · rw [he, Eol.mk.injEq] at hl
    have : m = l := by
      cases m; cases l
      simp_all
    exact this ▸ hm
  · rw [he, Eol.mk.injEq] at hl
    exact absurd hl.2.2 (by simp)

theorem getNextEol_of_ends (h : xi.autowrap = 0) (hl : Ends xi.buf l) :
    getNextEol xi l.line = some ⟨l.len, l.lextra, false⟩ := by
  rw [getNextEol_hard h, Option.some.injEq]
  rcases hardEol_cases xi.buf l.line with ⟨m, hm, hline, he⟩ | ⟨hno, -⟩
  · -- the line ends at the first line end
    have hlen : m.len = l.len := by
      rcases Nat.lt_trichotomy m.len l.len with hlt | heq | hgt
      · have := hl.clear (m.line + m.len) (by omega) (by omega)
        rw [hm.eol] at this
        exact absurd this (by simp)
      · exact heq
      · have := hm.clear (l.line + l.len) (by omega) (by omega)
        rw [hl.eol] at this
        exact absurd this (by simp)
    rw [he, hm.lextra, hl.lextra, hline, hlen]
  · have := hno (l.line + l.len) (by omega)
    rw [hl.eol] at this
    exact absurd this (by simp)

/-- The positions the forward parse comes to. -/
inductive LineStart (xi : XEDITINFO) : Nat → Prop where
  | first : LineStart xi 0
  | next {l : Line} (hs : LineStart xi l.line)
      (hl : getNextEol xi l.line = some ⟨l.len, l.lextra, false⟩) : LineStart xi l.next

/-- The lines of the forward parse from a position on. -/
inductive Lines (xi : XEDITINFO) : Nat → List Line → Prop where
  | last {s len lextra : Nat} (h : getNextEol xi s = some ⟨len, lextra, true⟩) :
      Lines xi s [⟨s, len, lextra⟩]
  | cons {s len lextra : Nat} {ls : List Line} (h : getNextEol xi s = some ⟨len, lextra, false⟩)
      (hls : Lines xi (s + len + lextra) ls) : Lines xi s (⟨s, len, lextra⟩ :: ls)

theorem Lines.head (h : Lines xi s ls) : ∃ l, ls[0]? = some l ∧ l.line = s := by
  cases h with
  | last h => exact ⟨_, rfl, rfl⟩
  | cons h hls => exact ⟨_, rfl, rfl⟩

theorem Lines.pos (h : Lines xi s ls) : 0 < ls.length := by
  cases h with
  | last h => simp
  | cons h hls => simp

theorem Lines.drop (h : Lines xi s ls) (i : Nat) (hi : ls[i]? = some l) :
    Lines xi l.line (ls.drop i) := by
  induction h generalizing i with
  | last h =>
    rcases i with - | i
    · rw [List.getElem?_cons_zero, Option.some.injEq] at hi
      subst hi
      exact Lines.last h
    · simp at hi
  | cons h hls ih =>
    rcases i with - | i
    · rw [List.getElem?_cons_zero, Option.some.injEq] at hi
      subst hi
      exact Lines.cons h hls
    · exact ih i (by simpa using hi)

/-- Each line of a parse is what `get_next_eol` gives, and the next one begins behind it. -/
theorem Lines.get (h : Lines xi s ls) (i : Nat) (hi : ls[i]? = some l) :
    getNextEol xi l.line = some ⟨l.len, l.lextra, decide (i + 1 = ls.length)⟩ ∧
      ∀ m, ls[i + 1]? = some m → m.line = l.next := by
  induction h generalizing i with
  | last h =>
    rcases i with - | i
    · rw [List.getElem?_cons_zero, Option.some.injEq] at hi
      subst hi
      simp [h]
    · simp at hi
  | cons h hls ih =>
    rcases i with - | i
    · rw [List.getElem?_cons_zero, Option.some.injEq] at hi
      subst hi
      refine ⟨?_, ?_⟩
      · have := hls.pos
        rw [h, List.length_cons, decide_eq_false (by omega)]
      · intro m hm
        rcases hls.head with ⟨m', hm', hline⟩
        rw [List.getElem?_cons_succ, hm', Option.some.injEq] at hm
        rw [← hm, hline]
        rfl
    · rw [List.getElem?_cons_succ] at hi
      rcases ih i hi with ⟨hnext, hm⟩
      refine ⟨?_, fun m hm' => hm m (by simpa using hm')⟩
      rw [hnext]
      simp

theorem Lines.start (h : Lines xi 0 ls) (i : Nat) (hi : ls[i]? = some l) :
    LineStart xi l.line := by
  induction i generalizing l with
  | zero =>
    rcases h.head with ⟨m, hm, hline⟩
    rw [hm, Option.some.injEq] at hi
    rw [← hi, hline]
    exact LineStart.first
  | succ i ih =>
    have hlt : i + 1 < ls.length := (List.getElem?_eq_some_iff.mp hi).choose
    have hp : ls[i]? = some (ls[i]) := List.getElem?_eq_getElem (by omega)
    rcases h.get i hp with ⟨hnext, hm⟩
    rw [hm l hi]
    refine LineStart.next (ih hp) ?_
    rw [hnext, decide_eq_false (by omega)]

theorem LineStart.behind (h : xi.autowrap = 0) (hs : LineStart xi s) :
    s = 0 ∨ ∃ l, LineStart xi l.line ∧ Ends xi.buf l ∧ l.next = s := by
  cases hs with
  | first => exact .inl rfl
  | next hs hl => exact .inr ⟨_, hs, ends_of_getNextEol h hl, rfl⟩

theorem Ends.lextra_cases (hl : Ends buf l) :
    l.lextra = 1 ∧ ¬ Two buf (l.line + l.len) ∨ l.lextra = 2 ∧ Two buf (l.line + l.len) := by
  rw [hl.lextra]
  by_cases htwo : Two buf (l.line + l.len)
  · exact .inr ⟨if_pos htwo, htwo⟩
  · exact .inl ⟨if_neg htwo, htwo⟩

theorem Ends.next_pos (hl : Ends buf l) : 0 < l.next := by
  rcases hl.lextra_cases with ⟨h, -⟩ | ⟨h, -⟩ <;> (rw [Line.next, h]; omega)

theorem Ends.eol_last (hl : Ends buf l) : isEol (ch buf (l.next - 1)) = true := by
  rcases hl.lextra_cases with ⟨h, -⟩ | ⟨h, htwo⟩
  · rw [Line.next, h]
    exact hl.eol
  · rw [Line.next, h]
    exact htwo.1

theorem LineStart.eol_before (h : xi.autowrap = 0) (hs : LineStart xi s) (hpos : 0 < s) :
    isEol (ch xi.buf (s - 1)) = true := by
  rcases hs.behind h with rfl | ⟨l, -, hl, rfl⟩
  · exact absurd hpos (by omega)
  · exact hl.eol_last

end Edit

end MagiC
