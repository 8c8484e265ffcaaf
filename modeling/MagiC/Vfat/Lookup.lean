import MagiC.Vfat.Unicode

/-!
# Looking Up Unicode

What the binary search in the table of codes and characters finds.

The search keeps two places of the table that it has looked at, and only goes on while they
come closer. But at the beginning it has looked at neither of them. The last place is looked at
in the end, since half of two pairs is the second one. For the same reason the first place is
never looked at, unless it is the only one.

## Main definitions

* `Table`: A table that the search is made for.

## Theorems

* `lookup_iff`: Everything but the first code is found.
-/

namespace MagiC

namespace Vfat

/-- The search, or nothing if it reads outside of the table. -/
def unicReads (tab : List Nat) (wchar low high nitems : Nat) : Option UInt8 :=
  let test := low + (nitems >>> 1 &&& 0xfffe)
  match tab[test]? with
  | none => none
  | some code =>
    if wchar = code then tab[test + 1]?.map UInt8.ofNat
    else
      let low' := if wchar < code then low else test
      let high' := if wchar < code then test else high
      let nnitems := high' - low' + 2
      if _ : low' ≠ high' ∧ nnitems < nitems then unicReads tab wchar low' high' nnitems
      else some 0xbc
termination_by nitems
decreasing_by
  rename_i h
  exact h.2

/-- Codes with their characters. The size of the table in bytes is an `int`. -/
structure Table where
  pairs : List (Nat × Nat)
  nonempty : pairs ≠ []
  ascending : pairs.Pairwise fun p q => p.1 < q.1
  fits : 4 * pairs.length < 2 ^ 15

namespace Table

def words (t : Table) : List Nat := t.pairs.flatMap fun p => [p.1, p.2]

/-- The search as `unic2ibm` begins it. -/
def lookup (t : Table) (wchar : Nat) : Option UInt8 :=
  let nnitems := t.words.length
  unicReads t.words wchar 0 (nnitems - 2) nnitems

/-- The character that belongs to a code. -/
def expected (t : Table) (wchar : Nat) : UInt8 :=
  ((t.pairs.find? fun p => p.1 = wchar).map fun p => UInt8.ofNat p.2).getD 0xbc

end Table

/-- The search finds the same without looking at its accesses. -/
theorem unicReads_search {tab : List Nat} {wchar low high nitems : Nat} {c : UInt8}
    (h : unicReads tab wchar low high nitems = some c) :
    unicSearch tab wchar low high nitems = c := by
  induction nitems using Nat.strongRecOn generalizing low high with
  | ind nitems ih =>
    rw [unicReads] at h
    rw [unicSearch]
    dsimp only at h ⊢
    cases hcode : tab[low + (nitems >>> 1 &&& 0xfffe)]? with
    | none => rw [hcode] at h; cases h
    | some code =>
      rw [hcode] at h
      rw [List.getD_eq_getElem?_getD, hcode, Option.getD_some]
      dsimp only at h
      split
      · rename_i heq
        rw [if_pos heq] at h
        rcases Option.map_eq_some_iff.mp h with ⟨char, hchar, rfl⟩
        rw [List.getD_eq_getElem?_getD, hchar, Option.getD_some]
      · rename_i hne
        rw [if_neg hne] at h
        generalize (if wchar < code then low else low + (nitems >>> 1 &&& 0xfffe)) = low' at *
        generalize (if wchar < code then low + (nitems >>> 1 &&& 0xfffe) else high) = high' at *
        split
        · rename_i hless
          rw [dif_pos hless] at h
          exact ih _ hless.2 h
        · rename_i hstop
          rw [dif_neg hstop] at h
          exact Option.some.inj h

theorem and_even {m : Nat} (h : m < 2 ^ 16) : m &&& 0xfffe = 2 * (m / 2) := by
  have hhalf : (m &&& 0xfffe) / 2 = m / 2 := by
    rw [Nat.and_div_two, show 0xfffe / 2 = 2 ^ 15 - 1 from rfl, Nat.and_two_pow_sub_one_eq_mod]
    omega
  have heven : (m &&& 0xfffe) % 2 = 0 := by
    rw [show (2 : Nat) = 2 ^ 1 from rfl, Nat.and_mod_two_pow]
    simp
  omega

section

variable {tab : List Nat} {n : Nat} {code char : Nat → Nat}

/-- Behind a place up to another one a code is found if it is there. -/
theorem unicReads_between (hcode : ∀ i < n, tab[2 * i]? = some (code i))
    (hchar : ∀ i < n, tab[2 * i + 1]? = some (char i))
    (hasc : ∀ i j, i < j → j < n → code i < code j) (hfits : n < 2 ^ 15) (wchar : Nat)
    {l h : Nat} (hlh : l < h) (hh : h < n) :
    ∃ c, unicReads tab wchar (2 * l) (2 * h) (2 * (h - l) + 2) = some c ∧
      ((∃ i, l < i ∧ i ≤ h ∧ code i = wchar ∧ c = UInt8.ofNat (char i)) ∨
        (∀ i, l < i → i ≤ h → code i ≠ wchar) ∧ c = 0xbc) := by
  induction hd : h - l using Nat.strongRecOn generalizing l h with
  | ind d ih =>
    have htest : 2 * l + ((2 * d + 2) >>> 1 &&& 0xfffe) = 2 * (l + (d + 1) / 2) := by
      rw [Nat.shiftRight_one, and_even (by omega)]
      omega
    generalize ht : l + (d + 1) / 2 = t at htest
    have hbehind : l < t ∧ t ≤ h := by omega
    rw [unicReads]
    dsimp only
    rw [htest, hcode t (by omega)]
    dsimp only
    by_cases heq : wchar = code t
    · rw [if_pos heq, hchar t (by omega)]
      exact ⟨_, rfl, .inl ⟨t, hbehind.1, hbehind.2, heq.symm, rfl⟩⟩
    rw [if_neg heq]
    by_cases hlt : wchar < code t
    · -- What is behind the tested place is greater.
      have hgreater : ∀ i, t ≤ i → i ≤ h → code i ≠ wchar := by
        intro i hti hih hi
        rcases Nat.eq_or_lt_of_le hti with rfl | hti
        · exact heq hi.symm
        · have := hasc t i hti (by omega)
          omega
      rw [if_pos hlt, if_pos hlt]
      by_cases hth : t < h
      · rw [dif_pos (by omega), show 2 * t - 2 * l + 2 = 2 * (t - l) + 2 by omega]
        rcases ih (t - l) (by omega) hbehind.1 (by omega) rfl with ⟨c, hc, hfound | hnone⟩
        · rcases hfound with ⟨i, hli, hit, hi⟩
          exact ⟨c, hc, .inl ⟨i, hli, by omega, hi⟩⟩
        · refine ⟨c, hc, .inr ⟨fun i hli hih => ?_, hnone.2⟩⟩
          by_cases hit : i ≤ t
          · exact hnone.1 i hli hit
          · exact hgreater i (by omega) hih
      · -- Only the last place was left.
        rw [dif_neg (by omega)]
        refine ⟨_, rfl, .inr ⟨fun i hli hih => hgreater i ?_ hih, rfl⟩⟩
        omega
    · have hless : ∀ i, l < i → i ≤ t → code i ≠ wchar := by
        intro i hli hit hi
        rcases Nat.eq_or_lt_of_le hit with rfl | hit
        · exact heq hi.symm
        · have := hasc i t hit (by omega)
          omega
      rw [if_neg hlt, if_neg hlt]
      by_cases hth : t < h
      · rw [dif_pos (by omega), show 2 * h - 2 * t + 2 = 2 * (h - t) + 2 by omega]
        rcases ih (h - t) (by omega) hth hh rfl with ⟨c, hc, hfound | hnone⟩
        · rcases hfound with ⟨i, hti, hih, hi⟩
          exact ⟨c, hc, .inl ⟨i, by omega, hih, hi⟩⟩
        · refine ⟨c, hc, .inr ⟨fun i hli hih => ?_, hnone.2⟩⟩
          by_cases hit : i ≤ t
          · exact hless i hli hit
          · exact hnone.1 i (by omega) hih
      · rw [dif_neg (by omega)]
        exact ⟨_, rfl, .inr ⟨fun i hli hih => hless i hli (by omega), rfl⟩⟩

end

/-! ## Tables -/

section

variable (t : Table)

theorem flat_get (ps : List (Nat × Nat)) (i : Nat) :
    (ps.flatMap fun p => [p.1, p.2])[2 * i]? = ps[i]?.map Prod.fst ∧
      (ps.flatMap fun p => [p.1, p.2])[2 * i + 1]? = ps[i]?.map Prod.snd := by
  induction ps generalizing i with
  | nil => simp
  | cons p ps ih =>
    cases i with
    | zero => simp
    | succ i => simpa [Nat.mul_succ] using ih i

theorem Table.words_length : t.words.length = 2 * t.pairs.length := by
  simp [words, Nat.mul_comm]

def Table.code (i : Nat) : Nat := (t.pairs.getD i (0, 0)).1

def Table.char (i : Nat) : Nat := (t.pairs.getD i (0, 0)).2

theorem Table.code_get {i : Nat} (h : i < t.pairs.length) : t.words[2 * i]? = some (t.code i) := by
  simp [words, (flat_get _ i).1, code, h]

theorem Table.char_get {i : Nat} (h : i < t.pairs.length) :
    t.words[2 * i + 1]? = some (t.char i) := by
  simp [words, (flat_get _ i).2, char, h]

theorem Table.code_lt {i j : Nat} (hij : i < j) (hj : j < t.pairs.length) :
    t.code i < t.code j := by
  have h := List.pairwise_iff_getElem.mp t.ascending i j (by omega) hj hij
  simpa [code, hj, show i < t.pairs.length by omega] using h

theorem Table.expected_code {i : Nat} (hi : i < t.pairs.length) :
    t.expected (t.code i) = UInt8.ofNat (t.char i) := by
  have hget : t.pairs[i] = (t.code i, t.char i) := by
    simp [code, char, hi]
  have hfind : t.pairs.find? (fun p => p.1 = t.code i) = some (t.code i, t.char i) := by
    refine List.find?_eq_some_iff_getElem.mpr ⟨by simp, i, hi, hget, fun j hj => ?_⟩
    have hlt := t.code_lt hj hi
    have hlen : j < t.pairs.length := by omega
    have hcode : t.pairs[j].1 = t.code j := by
      simp [code, hlen]
    simp only [hcode, Bool.not_eq_true', decide_eq_false_iff_not]
    omega
  rw [expected, hfind]
  rfl

theorem Table.expected_none {wchar : Nat} (h : ∀ i < t.pairs.length, t.code i ≠ wchar) :
    t.expected wchar = 0xbc := by
  have hfind : t.pairs.find? (fun p => p.1 = wchar) = none := by
    refine List.find?_eq_none.mpr fun p hp => ?_
    rcases List.mem_iff_getElem.mp hp with ⟨i, hi, rfl⟩
    simpa [code, hi] using h i hi
  rw [expected, hfind]
  rfl

theorem Table.head_eq : t.pairs.head t.nonempty = (t.code 0, t.char 0) := by
  have hpos := List.length_pos_iff.mpr t.nonempty
  simp [code, char, List.head_eq_getElem, hpos]

theorem Table.lookup_single (hone : t.pairs.length = 1) (wchar : Nat) :
    t.lookup wchar = some (t.expected wchar) := by
  have hlen : t.words.length = 2 := by rw [words_length, hone]
  rw [lookup, hlen, unicReads]
  dsimp only
  rw [show 0 + (2 >>> 1 &&& 0xfffe) = 2 * 0 from rfl, t.code_get (by omega)]
  dsimp only
  by_cases heq : wchar = t.code 0
  · rw [if_pos heq, heq, t.char_get (by omega), t.expected_code (by omega)]
    rfl
  · rw [if_neg heq, t.expected_none]
    · refine dif_neg fun hne => hne.1 ?_
      split
      · rfl
      · rfl
    · intro i hi hcode
      obtain rfl : i = 0 := by omega
      exact heq hcode.symm

theorem Table.lookup_found (hmore : t.pairs.length ≠ 1) (wchar : Nat) :
    ∃ c, t.lookup wchar = some c ∧
      ((∃ i, 0 < i ∧ i < t.pairs.length ∧ t.code i = wchar ∧ c = UInt8.ofNat (t.char i)) ∨
        (∀ i, 0 < i → i < t.pairs.length → t.code i ≠ wchar) ∧ c = 0xbc) := by
  have hpos := List.length_pos_iff.mpr t.nonempty
  have hfits := t.fits
  rcases unicReads_between (fun i hi => t.code_get hi) (fun i hi => t.char_get hi)
    (fun i j hij hj => t.code_lt hij hj) (by omega) wchar (l := 0) (h := t.pairs.length - 1)
    (by omega) (by omega) with ⟨c, hc, hfound⟩
  refine ⟨c, ?_, ?_⟩
  · rw [Table.lookup, t.words_length, ← hc]
    congr 1 <;> omega
  · rcases hfound with ⟨i, h0i, hi, hcode⟩ | ⟨hnone, hcode⟩
    · exact .inl ⟨i, h0i, by omega, hcode⟩
    · exact .inr ⟨fun i h0i hi => hnone i h0i (by omega), hcode⟩

/-- The first code has not been looked at. -/
theorem Table.lookup_first (hmore : t.pairs.length ≠ 1) : t.lookup (t.code 0) = some 0xbc := by
  rcases t.lookup_found hmore (t.code 0) with ⟨c, hc, ⟨i, h0i, hi, heq, -⟩ | ⟨-, rfl⟩⟩
  · exact absurd (t.code_lt h0i hi) (by omega)
  · exact hc

end

/-- What is looked up is found, except the first code of a table that has more than one. -/
theorem lookup_iff (t : Table) (wchar : Nat) : t.lookup wchar = some (t.expected wchar) ↔
    t.pairs.length = 1 ∨ wchar ≠ (t.pairs.head t.nonempty).1 ∨
      UInt8.ofNat (t.pairs.head t.nonempty).2 = 0xbc := by
  by_cases hone : t.pairs.length = 1
  · exact iff_of_true (t.lookup_single hone wchar) (.inl hone)
  rw [t.head_eq]
  by_cases hfirst : wchar = t.code 0
  · rw [hfirst, t.lookup_first hone, t.expected_code (List.length_pos_iff.mpr t.nonempty)]
    constructor
    · exact fun h => .inr (.inr (Option.some.inj h).symm)
    · rintro (h | h | h)
      · exact absurd h hone
      · exact absurd rfl h
      · rw [h]
  · refine iff_of_true ?_ (.inr (.inl hfirst))
    rcases t.lookup_found hone wchar with ⟨c, hc, ⟨i, -, hi, rfl, rfl⟩ | ⟨hnone, rfl⟩⟩
    · rw [hc, t.expected_code hi]
    · rw [hc, t.expected_none]
      intro i hi hcode
      rcases Nat.eq_zero_or_pos i with rfl | h0i
      · exact hfirst hcode.symm
      · exact hnone i h0i hi hcode

/-- The pairs of words in a row. -/
def pairsOf : List Nat → List (Nat × Nat)
  | code :: char :: ws => (code, char) :: pairsOf ws
  | _ => []

/-- The table of the kernel. -/
def kernelTable : Table where
  pairs := pairsOf mapUnicodeAscii
  nonempty := by decide +kernel
  ascending := by decide +kernel
  fits := by decide +kernel

/-- The inverted exclamation mark is in the table, but it is not found. -/
theorem lookup_misses : kernelTable.words = mapUnicodeAscii ∧ kernelTable.expected 0xa1 = 173 ∧
    kernelTable.lookup 0xa1 = some 0xbc ∧ unicChar 0xa1 = some 0xbc := by
  have hwords : kernelTable.words = mapUnicodeAscii := by decide +kernel
  have hcode : kernelTable.code 0 = 0xa1 := rfl
  have hlookup : kernelTable.lookup 0xa1 = some 0xbc :=
    hcode ▸ kernelTable.lookup_first (by decide +kernel)
  refine ⟨hwords, by decide +kernel, hlookup, ?_⟩
  rw [Table.lookup, hwords] at hlookup
  rw [unicChar, if_neg (by omega), if_neg (by omega)]
  exact congrArg some (unicReads_search hlookup)

end Vfat

end MagiC
