import MagiC.Vfat.Alias

/-!
# The Marks Stay in their Table

When the accesses of `vf_ffree` to its table of marks, and its search in the short name, stay
inside.

The number behind a tilde is an `int` of 16 bits, and the code compares it with 1600 when it has
been read to its end. So a name with five digits or more can have a number that is negative by then,
and its mark lies in front of the table. This is so exactly for the names of which the digits have a
value with a set sign bit (`aliasScan_neg_iff`).

## Main definitions

* `Scanned`: An entry of which the number is marked.

## Theorems

* `tables_inside_iff`: When all accesses stay inside.
-/

namespace MagiC

namespace Vfat

/-! ### The number behind a tilde -/

def IsDigit (u : UInt8) : Prop := 0x30 ≤ u ∧ u ≤ 0x39

def addDigit (v : Nat) (u : UInt8) : Nat := 10 * v + (u.toNat - 0x30)

def digitsValue (ds : List UInt8) : Nat := ds.foldl addDigit 0

/-- What is left behind the digits: the name ends, or there is a blank. -/
def Stops (rest : List UInt8) : Prop := rest = [] ∨ rest.head? = some 0x20

theorem isDigit_iff (u : UInt8) : IsDigit u ↔ 0x30 ≤ u.toNat ∧ u.toNat ≤ 0x39 := by
  rw [IsDigit, UInt8.le_iff_toNat_le, UInt8.le_iff_toNat_le]
  exact Iff.rfl

theorem not_isDigit_iff (u : UInt8) : u < 0x30 ∨ 0x39 < u ↔ ¬ IsDigit u := by
  rw [isDigit_iff, UInt8.lt_iff_toNat_lt, UInt8.lt_iff_toNat_lt]
  simp only [UInt8.reduceToNat]
  omega

theorem int16_addDigit (v : Nat) (u : UInt8) (hu : IsDigit u) :
    int16 (int16 (int16 v * 10) + (u.toNat - 0x30 : Int)) = int16 (addDigit v u) := by
  rcases (isDigit_iff u).mp hu with ⟨hlow, -⟩
  unfold int16 addDigit
  rw [Int.bmod_add_bmod, Int.mul_comm (Int.bmod v (2 ^ 16)) 10, ← Int.bmod_add_bmod,
    Int.mul_bmod_bmod, Int.bmod_add_bmod]
  congr 1
  omega

/-- The number of digits that end at a blank, or with the name. -/
theorem aliasDigits_run (v : Nat) (ds rest : List UInt8) (hds : ∀ d ∈ ds, IsDigit d)
    (hrest : Stops rest) :
    aliasDigits (int16 v) (ds ++ rest) = some (int16 (ds.foldl addDigit v : Nat)) := by
  induction ds generalizing v with
  | nil =>
    rcases hrest with rfl | hblank
    · rfl
    · cases rest with
      | nil => rfl
      | cons c rest =>
        rw [List.nil_append, aliasDigits, if_pos (Option.some.inj hblank)]
        rfl
  | cons d ds ih =>
    have hd := hds d List.mem_cons_self
    have hne : d ≠ 0x20 := by
      rintro rfl
      exact absurd hd.1 (by decide)
    rw [List.cons_append, aliasDigits, if_neg hne,
      if_neg (fun h => (not_isDigit_iff d).mp h hd), int16_addDigit v d hd]
    exact ih (addDigit v d) fun e he => hds e (List.mem_cons_of_mem d he)

theorem aliasDigits_some (v : Nat) (us : List UInt8) (number : Int)
    (h : aliasDigits (int16 v) us = some number) :
    ∃ ds rest, us = ds ++ rest ∧ (∀ d ∈ ds, IsDigit d) ∧ Stops rest ∧
      number = int16 (ds.foldl addDigit v : Nat) := by
  induction us generalizing v with
  | nil =>
    exact ⟨[], [], rfl, fun d hd => absurd hd List.not_mem_nil, .inl rfl, (Option.some.inj h).symm⟩
  | cons u us ih =>
    rw [aliasDigits] at h
    by_cases hblank : u = 0x20
    · rw [if_pos hblank] at h
      exact ⟨[], u :: us, rfl, fun d hd => absurd hd List.not_mem_nil,
        .inr (congrArg some hblank), (Option.some.inj h).symm⟩
    rw [if_neg hblank] at h
    by_cases hdigit : u < 0x30 ∨ 0x39 < u
    · rw [if_pos hdigit] at h
      simp only [reduceCtorEq] at h
    rw [if_neg hdigit] at h
    have hu : IsDigit u := Classical.not_not.mp fun hn => hdigit ((not_isDigit_iff u).mpr hn)
    rw [int16_addDigit v u hu] at h
    rcases ih (addDigit v u) h with ⟨ds, rest, rfl, hds, hrest, hnumber⟩
    refine ⟨u :: ds, rest, rfl, fun d hd => ?_, hrest, hnumber⟩
    rcases List.mem_cons.mp hd with rfl | hd
    · exact hu
    · exact hds d hd

theorem int16_neg_iff (v : Nat) : int16 v < 0 ↔ 2 ^ 15 ≤ v % 2 ^ 16 := by
  have hmod : ((v : Int) % (2 ^ 16 : Nat)) = (v % 2 ^ 16 : Nat) := by omega
  unfold int16 Int.bmod
  simp only [hmod]
  by_cases hsign : ((v % 2 ^ 16 : Nat) : Int) < ((2 ^ 16 : Nat) + 1) / 2
  · rw [if_pos hsign]
    omega
  · rw [if_neg hsign]
    omega

theorem digitsValue_lt (v : Nat) (ds : List UInt8) (hds : ∀ d ∈ ds, IsDigit d) (n : Nat)
    (hv : v < 10 ^ n) : ds.foldl addDigit v < 10 ^ (n + ds.length) := by
  induction ds generalizing v n with
  | nil => exact hv
  | cons d ds ih =>
    rcases (isDigit_iff d).mp (hds d List.mem_cons_self) with ⟨-, hhigh⟩
    have hstep : addDigit v d < 10 ^ (n + 1) := by
      unfold addDigit
      rw [Nat.pow_succ]
      omega
    rw [List.foldl_cons, List.length_cons, show n + (ds.length + 1) = n + 1 + ds.length by omega]
    exact ih _ (fun e he => hds e (List.mem_cons_of_mem d he)) (n + 1) hstep

theorem digits_long (ds : List UInt8) (hds : ∀ d ∈ ds, IsDigit d)
    (hsign : 2 ^ 15 ≤ digitsValue ds % 2 ^ 16) : 5 ≤ ds.length := by
  have hlt := digitsValue_lt 0 ds hds 0 (by decide)
  rw [Nat.zero_add] at hlt
  refine Nat.le_of_not_lt fun hshort => ?_
  have hpow : 10 ^ ds.length ≤ 10 ^ 4 := Nat.pow_le_pow_right (by decide) (by omega)
  have hmod := Nat.mod_le (digitsValue ds) (2 ^ 16)
  unfold digitsValue at hsign hmod
  omega

/-! ### A number that is negative -/

/-- As an alias of `new`, the name `old` has a number that is negative as an `int`. -/
def Wraps (new old : List UInt8) : Prop :=
  new.drop 8 = old.drop 8 ∧ ∃ c p x ds rest, new.take 8 = c :: p ++ x ∧
    old.take 8 = c :: p ++ 0x7e :: (ds ++ rest) ∧ (∀ d ∈ ds, IsDigit d) ∧ Stops rest ∧
    2 ^ 15 ≤ digitsValue ds % 2 ^ 16

theorem aliasLoop_lt (s t : List UInt8) (number : Int) (h : aliasLoop s t = some number) :
    number < 1600 := by
  induction t generalizing s with
  | nil =>
    rw [aliasLoop] at h
    have h0 := Option.some.inj h
    omega
  | cons c t ih =>
    rw [aliasLoop] at h
    cases hif : (if c = 0x7e then aliasNumber t else none) with
    | none =>
      rw [hif] at h
      simp only at h
      by_cases hne : s.head? ≠ some c
      · rw [if_pos hne] at h
        simp only [reduceCtorEq] at h
      · rw [if_neg hne] at h
        exact ih s.tail h
    | some k =>
      rw [hif] at h
      rw [← Option.some.inj h]
      by_cases htilde : c = 0x7e
      · rw [if_pos htilde, aliasNumber] at hif
        cases hdigits : aliasDigits 0 t with
        | none =>
          rw [hdigits] at hif
          simp only [reduceCtorEq] at hif
        | some n =>
          rw [hdigits] at hif
          simp only at hif
          by_cases hbig : 1600 ≤ n
          · rw [if_pos hbig] at hif
            simp only [reduceCtorEq] at hif
          · rw [if_neg hbig] at hif
            rw [← Option.some.inj hif]
            omega
      · rw [if_neg htilde] at hif
        simp only [reduceCtorEq] at hif

theorem aliasScan_lt (new old : List UInt8) (number : Int) (h : aliasScan new old = some number) :
    number < 1600 := by
  unfold aliasScan at h
  by_cases hext : new.drop 8 ≠ old.drop 8
  · rw [if_pos hext] at h
    simp only [reduceCtorEq] at h
  rw [if_neg hext] at h
  by_cases hhead : new.head? ≠ old.head?
  · rw [if_pos hhead] at h
    simp only [reduceCtorEq] at h
  rw [if_neg hhead] at h
  exact aliasLoop_lt _ _ number h

theorem aliasLoop_neg (s t : List UInt8) (number : Int) (h : aliasLoop s t = some number)
    (hneg : number < 0) :
    ∃ p x ds rest, s = p ++ x ∧ t = p ++ 0x7e :: (ds ++ rest) ∧ (∀ d ∈ ds, IsDigit d) ∧
      Stops rest ∧ 2 ^ 15 ≤ digitsValue ds % 2 ^ 16 := by
  induction t generalizing s with
  | nil =>
    rw [aliasLoop] at h
    have h0 := Option.some.inj h
    omega
  | cons c t ih =>
    rw [aliasLoop] at h
    cases hif : (if c = 0x7e then aliasNumber t else none) with
    | none =>
      -- No number here: the characters are the same, and the scan goes on.
      rw [hif] at h
      simp only at h
      by_cases hne : s.head? ≠ some c
      · rw [if_pos hne] at h
        simp only [reduceCtorEq] at h
      rw [if_neg hne] at h
      rcases ih s.tail h with ⟨p, x, ds, rest, hs, rfl, hds⟩
      refine ⟨c :: p, x, ds, rest, ?_, rfl, hds⟩
      rw [List.cons_append, ← hs]
      exact List.eq_cons_of_mem_head? (Option.mem_def.mpr (Classical.not_not.mp hne))
    | some k =>
      rw [hif] at h
      have hk : k = number := Option.some.inj h
      by_cases htilde : c = 0x7e
      · rw [if_pos htilde, aliasNumber] at hif
        cases hdigits : aliasDigits 0 t with
        | none =>
          rw [hdigits] at hif
          simp only [reduceCtorEq] at hif
        | some n =>
          rw [hdigits] at hif
          simp only at hif
          rcases aliasDigits_some 0 t n hdigits with ⟨ds, rest, rfl, hds, hrest, hn⟩
          by_cases hbig : 1600 ≤ n
          · rw [if_pos hbig] at hif
            simp only [reduceCtorEq] at hif
          rw [if_neg hbig] at hif
          have hnk := Option.some.inj hif
          refine ⟨[], s, ds, rest, rfl, by rw [htilde]; rfl, hds, hrest, ?_⟩
          rw [← int16_neg_iff, digitsValue, ← hn]
          omega
      · rw [if_neg htilde] at hif
        simp only [reduceCtorEq] at hif

/-- The names that have a negative number. -/
theorem aliasScan_neg_iff (new old : List UInt8) :
    (∃ number, aliasScan new old = some number ∧ number < 0) ↔ Wraps new old := by
  constructor
  · rintro ⟨number, h, hneg⟩
    unfold aliasScan at h
    by_cases hext : new.drop 8 ≠ old.drop 8
    · rw [if_pos hext] at h
      simp only [reduceCtorEq] at h
    rw [if_neg hext] at h
    by_cases hhead : new.head? ≠ old.head?
    · rw [if_pos hhead] at h
      simp only [reduceCtorEq] at h
    rw [if_neg hhead] at h
    rcases aliasLoop_neg _ _ number h hneg with ⟨p, x, ds, rest, hnew, hold, hds⟩
    have hsame := Classical.not_not.mp hhead
    cases old with
    | nil =>
      have hnil : ([] : List UInt8) = p ++ 0x7e :: (ds ++ rest) := hold
      exact absurd hnil.symm (List.append_ne_nil_of_right_ne_nil p (List.cons_ne_nil _ _))
    | cons c old =>
      cases new with
      | nil => simp only [List.head?_nil, List.head?_cons, reduceCtorEq] at hsame
      | cons d new =>
        have hcd : d = c := Option.some.inj hsame
        rw [hcd] at hext ⊢
        refine ⟨Classical.not_not.mp hext, c, p, x, ds, rest, ?_, ?_, hds⟩
        · rw [List.cons_append, ← hnew]
          rfl
        · rw [List.cons_append, ← hold]
          rfl
  · rintro ⟨hext, c, p, x, ds, rest, hnew, hold, hds, hrest, hsign⟩
    have hlong := digits_long ds hds hsign
    have hneg := (int16_neg_iff (digitsValue ds)).mpr hsign
    have hlen := congrArg List.length hold
    rw [List.length_take] at hlen
    simp only [List.length_append, List.length_cons] at hlen
    have hhead : ∀ l : List UInt8, (l.take 8).head? = l.head? := fun l => by
      rw [List.head?_take, if_neg (by decide)]
    have hnumber : aliasNumber (ds ++ rest) = some (int16 (digitsValue ds)) := by
      have hrun := aliasDigits_run 0 ds rest hds hrest
      rw [aliasNumber, show (0 : Int) = int16 (0 : Nat) from rfl, hrun]
      simp only
      rw [if_neg (by unfold digitsValue at hneg; omega)]
      rfl
    have hloop : aliasLoop (p ++ x) (p ++ 0x7e :: (ds ++ rest)) =
      some (int16 (digitsValue ds)) := by
      -- There is at most one character between the first one and the tilde.
      rcases p with - | ⟨d, - | ⟨e, q⟩⟩
      · rw [List.nil_append, List.nil_append, aliasLoop, if_pos rfl, hnumber]
      · have hnone : (if d = 0x7e then aliasNumber (0x7e :: (ds ++ rest)) else none) = none := by
          have htilde : aliasNumber (0x7e :: (ds ++ rest)) = none := rfl
          rw [htilde, ite_self]
        rw [List.singleton_append, List.singleton_append, aliasLoop, hnone, List.head?_cons,
          if_neg (fun h => h rfl), List.tail_cons, aliasLoop, if_pos rfl, hnumber]
      · rw [List.length_cons, List.length_cons] at hlen
        omega
    refine ⟨int16 (digitsValue ds), ?_, hneg⟩
    rw [aliasScan, if_neg (fun h => h hext), if_neg, hnew, hold]
    · exact hloop
    · rw [← hhead new, ← hhead old, hnew, hold]
      exact fun h => h rfl

/-! ### The accesses -/

/-- An entry of which the number is marked: the main entry of another file that does not count
    as deleted. -/
def Scanned (specialpos specialfirstpos : Int) (ndirs : Nat) (entries : List Entry) (i : Nat)
    (e : Entry) : Prop :=
  Other specialpos entries i e ∧ ¬ Own specialpos specialfirstpos ndirs i

/-- All accesses stay inside: `number>>3` is an index of the table of 200 bytes, and the search
    for a character that is not blank finds one in the name. -/
structure Inside (specialpos specialfirstpos : Int) (ndirs : Nat) (entries : List Entry)
    (newdir : Entry) : Prop where
  marks : ∀ i e number, Scanned specialpos specialfirstpos ndirs entries i e →
    aliasScan newdir.name e.name = some number → 0 ≤ number / 8 ∧ number / 8 ≤ 199
  search : ∀ len, 2 ≤ len → len ≤ 5 → ∃ s, lastChar newdir.name (7 - len) = some s

theorem marks_iff (new old : List UInt8) :
    (∀ number, aliasScan new old = some number → 0 ≤ number / 8 ∧ number / 8 ≤ 199) ↔
      ¬ Wraps new old := by
  rw [← aliasScan_neg_iff]
  constructor
  · rintro h ⟨number, hscan, hneg⟩
    have hin := h number hscan
    omega
  · intro h number hscan
    have hlt := aliasScan_lt new old number hscan
    have hpos : 0 ≤ number := Int.not_lt.mp fun hneg => h ⟨number, hscan, hneg⟩
    omega

/-- When all accesses of the search for a name stay inside. -/
theorem tables_inside_iff (name : List UInt8) (helem : Element name) (htst : tstName name = 0)
    (newdir : Entry) (hname : newdir.name = conv83 name) (specialpos specialfirstpos : Int)
    (ndirs : Nat) (entries : List Entry) :
    Inside specialpos specialfirstpos ndirs entries newdir ↔
      (∀ i e, Scanned specialpos specialfirstpos ndirs entries i e →
        ¬ Wraps newdir.name e.name) ∧ name.head? ≠ some 0x2e := by
  have hhead : newdir.head = 0x20 ↔ name.head? = some 0x2e := by
    rw [← conv83_blank_iff name helem htst, ← hname, Entry.name, List.head?_cons,
      Option.some.injEq]
  constructor
  · rintro ⟨hmarks, hsearch⟩
    refine ⟨fun i e hscanned => (marks_iff newdir.name e.name).mp fun number hscan =>
      hmarks i e number hscanned hscan, fun hpoint => ?_⟩
    -- All characters are blank, and the search finds none.
    rcases hsearch 2 (by omega) (by omega) with ⟨s, hs⟩
    cases name with
    | nil => simp only [List.head?_nil, reduceCtorEq] at hpoint
    | cons c cs =>
      rw [List.head?_cons, Option.some.injEq] at hpoint
      rw [lastChar_blank newdir.name (by rw [hname, hpoint, conv83_point]) _ (by omega)] at hs
      simp only [reduceCtorEq] at hs
  · rintro ⟨hwraps, hpoint⟩
    refine ⟨fun i e number hscanned hscan => ?_, fun len _ _ => ?_⟩
    · exact (marks_iff newdir.name e.name).mpr (hwraps i e hscanned) number hscan
    · exact lastChar_some newdir.name _ fun hblank => hpoint (hhead.mp hblank)

/-- The short name `A~40000.TEX`. -/
def wrapEntry : Entry :=
  { Entry.zero with
    head := 0x41, name1 := [0x7e, 0x34, 0x30, 0x30, 0x30, 0x30, 0x20, 0x54, 0x45, 0x58]
    name1_length := rfl }

theorem other_single (e : Entry) (h0 : e.head ≠ 0) (hdel : e.head ≠ 0xe5) (hattr : e.attr ≠ 0x0f) :
    Other (-1) [e] 0 e := by
  refine ⟨rfl, ⟨e, rfl, hdel, ?_⟩, hattr, by omega⟩
  rintro ⟨m, d, hm, hd, hzero⟩
  rw [show m = 0 by omega] at hd
  rw [← Option.some.inj hd] at hzero
  exact h0 hzero

/-- Beside `A~2.TEX` the accesses for `a.text` stay inside. -/
theorem inside_text : Inside (-1) (-1) 2 [(putNumber textBase 2 4 2).file] textBase := by
  refine (tables_inside_iff textName (by unfold Element; decide +kernel) (by decide) textBase
    (by decide) (-1) (-1) 2 _).mpr ⟨fun i e hscanned => ?_, by decide⟩
  have hget := hscanned.1.1
  cases i with
  | zero =>
    rw [← Option.some.inj hget]
    refine (marks_iff _ _).mp fun number hscan => ?_
    have hnumber : aliasScan textBase.name (putNumber textBase 2 4 2).file.name =
      some 2 := by decide
    rw [hnumber, Option.some.injEq] at hscan
    omega
  | succ i => simp only [List.getElem?_cons_succ, List.getElem?_nil, reduceCtorEq] at hget

/-- Beside `A~40000.TEX` the mark for `a.text` is not in the table, and the search for the last
    character of the short name of `.profile` leaves this name. -/
theorem not_inside : ¬ Inside (-1) (-1) 2 [wrapEntry] textBase ∧
    ¬ Inside (-1) (-1) 2 [] profileBase := by
  constructor
  · intro h
    have hmark := h.marks 0 wrapEntry (-25536)
      ⟨other_single wrapEntry (by decide) (by decide) (by decide), fun hown => by
        have hle := hown.2.1
        omega⟩ (by decide)
    omega
  · intro h
    rcases h.search 2 (by omega) (by omega) with ⟨s, hs⟩
    rw [show lastChar profileBase.name (7 - 2) = none by decide] at hs
    simp only [reduceCtorEq] at hs

/-! ### The result -/

theorem mainSeen_none_iff (want : Want) (actpos : Nat) (dir : Entry) (gap : Gap) :
    mainSeen want actpos dir gap = none ↔ dir.attr ≠ 0x0f ∧ (actpos : Int) ≠ want.specialpos ∧
      ∃ number, aliasScan want.newdir.name dir.name = some number ∧ number < 0 := by
  unfold mainSeen
  simp only
  by_cases hmain : dir.attr ≠ 0x0f ∧ (actpos : Int) ≠ want.specialpos
  · rw [if_pos hmain]
    cases hscan : aliasScan want.newdir.name dir.name with
    | none =>
      simp only [reduceCtorEq, false_iff]
      rintro ⟨-, -, number, hn, -⟩
      cases hn
    | some number =>
      simp only [mark]
      by_cases hneg : number < 0
      · rw [if_pos hneg]
        exact ⟨fun _ => ⟨hmain.1, hmain.2, number, rfl, hneg⟩, fun _ => rfl⟩
      · rw [if_neg hneg]
        simp only [reduceCtorEq, false_iff]
        rintro ⟨-, -, k, hk, hlt⟩
        rw [← Option.some.inj hk] at hlt
        exact hneg hlt
  · rw [if_neg hmain]
    simp only [reduceCtorEq, false_iff]
    rintro ⟨hattr, hne, -⟩
    exact hmain ⟨hattr, hne⟩

/-- An entry that leaves the table. -/
def Leaves (want : Want) (entries : List Entry) (i : Nat) : Prop :=
  ∃ e number, Other want.specialpos entries i e ∧ ¬ Gone want entries i ∧
    aliasScan want.newdir.name e.name = some number ∧ number < 0

/-- The loop leaves the table if and only if there is such an entry. -/
theorem ffreeLoop_none_iff (vol : Vol) (want : Want) (hlong : want.long = true) (fd : Fd) (n : Nat)
    (rest : List Entry) (gap : Gap) (hes : fd.entries.drop n = rest)
    (hlive : ∀ m e, m < n → fd.entries[m]? = some e → e.head ≠ 0) :
    ffreeLoop vol want fd (32 * n) rest gap = none ↔ ∃ i, n ≤ i ∧ Leaves want fd.entries i := by
  induction rest generalizing n gap with
  | nil =>
    have hend : fd.entries.length ≤ n := by
      have hlen := congrArg List.length hes
      rw [List.length_drop, List.length_nil] at hlen
      omega
    refine ⟨fun h => ?_, ?_⟩
    · exfalso
      simp only [ffreeLoop] at h
      split_ifs at h
    · rintro ⟨i, hi, e, number, hother, -⟩
      have hget := hother.1
      rw [List.getElem?_eq_none (by omega)] at hget
      simp only [reduceCtorEq] at hget
  | cons dir rest ih =>
    have hget : fd.entries[n]? = some dir := by
      have hhead := congrArg List.head? hes
      rw [List.head?_drop, List.head?_cons] at hhead
      exact hhead
    have hnext : fd.entries.drop (n + 1) = rest := by
      rw [← List.tail_drop, hes]
      rfl
    simp only [ffreeLoop, show 32 * n + 32 = 32 * (n + 1) by omega, hlong, if_true]
    by_cases h0 : dir.head = 0
    · -- Everything from here on lies behind the end mark.
      rw [if_pos h0]
      refine ⟨fun h => ?_, ?_⟩
      · exfalso
        by_cases hfound : gap.found = true
        · rw [if_pos hfound] at h
          simp only [reduceCtorEq] at h
        · rw [if_neg hfound] at h
          generalize makeRoom vol _ _ _ fd = r at h
          rcases r with ⟨fd1, err⟩
          cases err with
          | some doserr => simp only [reduceCtorEq] at h
          | none => simp only [reduceCtorEq] at h
      · rintro ⟨i, hi, e, number, hother, -⟩
        rcases hother.2.1 with ⟨_, -, -, hnot⟩
        exact absurd ⟨n, dir, hi, hget, h0⟩ hnot
    rw [if_neg h0]
    have hlive' : ∀ m e, m < n + 1 → fd.entries[m]? = some e → e.head ≠ 0 := by
      intro m e hm he
      rcases Nat.lt_or_eq_of_le (Nat.le_of_lt_succ hm) with hlt | rfl
      · exact hlive m e hlt he
      · rw [hget] at he
        rw [← Option.some.inj he]
        exact h0
    -- The entries from `n` on, when the one at `n` does not leave the table.
    have hskip : ¬ Leaves want fd.entries n →
        ((∃ i, n + 1 ≤ i ∧ Leaves want fd.entries i) ↔ ∃ i, n ≤ i ∧ Leaves want fd.entries i) := by
      intro hno
      constructor
      · rintro ⟨i, hi, hl⟩
        exact ⟨i, by omega, hl⟩
      · rintro ⟨i, hi, hl⟩
        refine ⟨i, Nat.lt_of_le_of_ne hi fun heq => hno ?_, hl⟩
        rw [heq]
        exact hl
    by_cases hgone : dir.head = 0xe5 ∨ ((32 * n : Nat) : Int) ≤ want.specialpos ∧
        want.specialfirstpos ≤ (32 * n : Nat)
    · rw [if_pos hgone, ih (n + 1) _ hnext hlive']
      refine hskip ?_
      rintro ⟨e, number, -, hnot, -⟩
      exact hnot ⟨dir, hget, hgone⟩
    rw [if_neg hgone]
    have hnot : ¬ Gone want fd.entries n := by
      rintro ⟨e, he, hg⟩
      rw [hget, Option.some.injEq] at he
      rw [← he] at hg
      exact hgone hg
    cases hmain : mainSeen want (32 * n) dir gap with
    | none =>
      rcases (mainSeen_none_iff want _ dir gap).mp hmain with ⟨hattr, hne, number, hscan, hneg⟩
      refine ⟨fun _ => ⟨n, Nat.le_refl n, dir, number, ⟨hget, ⟨dir, hget, fun he => hgone (.inl he),
        ?_⟩, hattr, hne⟩, hnot, hscan, hneg⟩, fun _ => rfl⟩
      rintro ⟨m, e, hm, he, hzero⟩
      exact hlive' m e (Nat.lt_succ_of_le hm) he hzero
    | some gap1 =>
      simp only
      rw [ih (n + 1) gap1 hnext hlive']
      refine hskip ?_
      rintro ⟨e, number, hother, -, hscan, hneg⟩
      have he := hother.1
      rw [hget, Option.some.injEq] at he
      rw [← he] at hother hscan
      have hnone := (mainSeen_none_iff want (32 * n) dir gap).mpr
        ⟨hother.2.2.1, hother.2.2.2, number, hscan, hneg⟩
      rw [hmain] at hnone
      simp only [reduceCtorEq] at hnone

/-- What the loop looks for when the name is a long one. -/
def wantLong (specialpos specialfirstpos : Int) (ndirs : Nat) (newdir : Entry) : Want :=
  ⟨ndirs, true, newdir, specialpos,
    if specialpos < 0 then specialfirstpos
    else if (ndirs : Int) ≠
        (specialpos - if specialfirstpos < 0 then specialpos else specialfirstpos) / 32 + 1
      then 0x7fffffff
    else if specialfirstpos < 0 then specialpos else specialfirstpos⟩

theorem leaves_iff (specialpos specialfirstpos : Int) (hspecial : specialpos < 2 ^ 31) (ndirs : Nat)
    (newdir : Entry) (entries : List Entry) (i : Nat) :
    Leaves (wantLong specialpos specialfirstpos ndirs newdir) entries i ↔
      ∃ e, Scanned specialpos specialfirstpos ndirs entries i e ∧ Wraps newdir.name e.name := by
  have hgone : ∀ e, Other specialpos entries i e →
      (Gone (wantLong specialpos specialfirstpos ndirs newdir) entries i ↔
        Own specialpos specialfirstpos ndirs i) := by
    intro e hother
    refine ⟨fun hg => ?_, fun hown => ⟨e, hother.1, .inr ?_⟩⟩
    · rcases gone_spare specialpos specialfirstpos hspecial _ entries i rfl rfl hg with
        ⟨d, hd, hdel⟩ | hown
      · rcases hother.2.1 with ⟨b, hb, hne, -⟩
        rw [hb, Option.some.injEq] at hd
        rw [hd] at hne
        exact absurd hdel hne
      · exact hown
    · rcases hown with ⟨hlow, hhigh, hsame⟩
      refine ⟨hhigh, ?_⟩
      simp only [wantLong]
      rw [if_neg (by omega), if_neg (not_not_intro hsame)]
      exact hlow
  constructor
  · rintro ⟨e, number, hother, hnot, hscan, hneg⟩
    exact ⟨e, ⟨hother, fun hown => hnot ((hgone e hother).mpr hown)⟩,
      (aliasScan_neg_iff newdir.name e.name).mp ⟨number, hscan, hneg⟩⟩
  · rintro ⟨e, ⟨hother, hown⟩, hwraps⟩
    rcases (aliasScan_neg_iff newdir.name e.name).mpr hwraps with ⟨number, hscan, hneg⟩
    exact ⟨e, number, hother, fun hg => hown ((hgone e hother).mp hg), hscan, hneg⟩

section Result

variable (vol : Vol) (hflags : vol.d_flags = true) (specialpos specialfirstpos : Int)
  (hspecial : specialpos < 2 ^ 31) (fd : Fd) (name : List UInt8) (newdir : Entry)
  (hlong : ext83 newdir.name ≠ name) (hlen : name.length ≤ 64)
include hflags hspecial hlong hlen

omit hspecial in
theorem vfFfree_long : ∃ gap0 : Gap,
    vfFfree vol specialpos specialfirstpos fd name newdir =
      match ffreeLoop vol
          (wantLong specialpos specialfirstpos (dirsFor vol name newdir) newdir)
          { fd with fpos := 0 } 0 fd.entries gap0 with
      | none => none
      | some (fd, .ret doserr) => some (fd, ⟨doserr, newdir, some name, none⟩)
      | some (fd, .frei actpos) => some (fd, ⟨actpos, newdir, some name, some actpos⟩)
      | some (fd, .ende gap) =>
        match ffreeEnde (wantLong specialpos specialfirstpos (dirsFor vol name newdir) newdir)
          (some name) gap with
        | none => none
        | some r => some (fd, r) := by
  have hl : (vol.d_flags && ext83 newdir.name != name) = true := by
    rw [hflags, Bool.true_and, bne_iff_ne]
    exact hlong
  refine ⟨⟨none, 0, false, if stricmp (ext83 newdir.name) name = true then [0] else []⟩, ?_⟩
  unfold vfFfree dirsFor wantLong
  simp only [hl, true_and, if_true, Bool.true_and]
  refine (if_neg (by unfold MAXFOLDERNAME; omega)).trans ?_
  generalize (⟨_, true, newdir, specialpos, _⟩ : Want) = want
  generalize ffreeLoop vol want _ 0 fd.entries _ = out
  cases out with
  | none => rfl
  | some out =>
    rcases out with ⟨fd1, fin⟩
    cases fin with
    | ret doserr => rfl
    | frei actpos => rfl
    | ende gap =>
      cases hr : ffreeEnde want (some name) gap with
      | none => simp only [hr]
      | some r => simp only [hr]

/-- An entry that leaves the table: then there is no result. -/
theorem outside_none (i : Nat) (e : Entry)
    (hscanned : Scanned specialpos specialfirstpos (dirsFor vol name newdir) fd.entries i e)
    (hwraps : Wraps newdir.name e.name) :
    vfFfree vol specialpos specialfirstpos fd name newdir = none := by
  rcases vfFfree_long vol hflags specialpos specialfirstpos fd name newdir hlong hlen with
    ⟨gap0, hrun⟩
  rw [hrun, (ffreeLoop_none_iff vol _ rfl { fd with fpos := 0 } 0 fd.entries gap0 rfl
    (fun m d hm _ => absurd hm (Nat.not_lt_zero m))).mpr ⟨i, Nat.zero_le i,
      (leaves_iff specialpos specialfirstpos hspecial _ newdir fd.entries i).mpr
        ⟨e, hscanned, hwraps⟩⟩]

/-- When all accesses stay inside there is a result. -/
theorem inside_result (hinside : Inside specialpos specialfirstpos (dirsFor vol name newdir)
    fd.entries newdir) : vfFfree vol specialpos specialfirstpos fd name newdir ≠ none := by
  rcases vfFfree_long vol hflags specialpos specialfirstpos fd name newdir hlong hlen with
    ⟨gap0, hrun⟩
  rw [hrun]
  intro hnone
  cases hloop : ffreeLoop vol
      (wantLong specialpos specialfirstpos (dirsFor vol name newdir) newdir)
      { fd with fpos := 0 } 0 fd.entries gap0 with
  | none =>
    rcases (ffreeLoop_none_iff vol _ rfl { fd with fpos := 0 } 0 fd.entries gap0 rfl
      (fun m d hm _ => absurd hm (Nat.not_lt_zero m))).mp hloop with ⟨i, -, hleaves⟩
    rcases (leaves_iff specialpos specialfirstpos hspecial _ newdir fd.entries i).mp hleaves with
      ⟨e, hscanned, hwraps⟩
    exact (marks_iff newdir.name e.name).mp (fun number => hinside.marks i e number hscanned) hwraps
  | some out =>
    rw [hloop] at hnone
    rcases out with ⟨fd1, fin⟩
    cases fin with
    | ret doserr => simp only [reduceCtorEq] at hnone
    | frei actpos => simp only [reduceCtorEq] at hnone
    | ende gap =>
      simp only [ffreeEnde, wantLong, if_true] at hnone
      cases hfree : (List.range 1600).find? fun number => number ∉ gap.used with
      | none =>
        rw [hfree] at hnone
        simp only [reduceCtorEq] at hnone
      | some number =>
        rw [hfree] at hnone
        simp only at hnone
        have hlt := List.mem_range.mp (List.mem_of_find?_eq_some hfree)
        cases halias : aliasName newdir number with
        | some dir =>
          rw [halias] at hnone
          simp only [reduceCtorEq] at hnone
        | none =>
          unfold aliasName at halias
          by_cases h0 : number = 0
          · rw [if_pos h0] at halias
            simp only [reduceCtorEq] at halias
          · -- The search finds a character for each length of the alias.
            rcases hinside.search (aliasLen number) (aliasLen_digits number hlt).2 (by
              unfold aliasLen
              split_ifs <;> omega) with ⟨s, hs⟩
            rw [if_neg h0, hs] at halias
            simp only [reduceCtorEq] at halias

end Result

end Vfat

end MagiC
