import MagiC.Vfat.Ffree

/-!
# Eight and Three Characters

`conv_8_3`, which makes the short name of a file, and `tst_name`, which says whether a file may
have a name.

The first eight characters are those before the first point, the extension those behind the
last one. A blank becomes an underscore, and what is missing is filled with blanks, so among
the first eight characters of the short name a blank has only blanks behind it (`Padded`). They
are all blank if and only if the name begins with a point (`conv83_blank_iff`).

## Main definitions

* `Element`: A name as it stands in a path.

## Theorems

* `conv83_length`: A short name has eleven characters.
-/

namespace MagiC

namespace Vfat

def EBADRQ : Int := -5

/-! ### The definitions -/

/-- The loop of `tst_name`, with the number of characters that may come before the last
    one. At the end of this number the name is too long, whatever the character. -/
def tstnLoop : Nat → List UInt8 → Int
  | _, [] => 0
  | 0, _ :: _ => EBADRQ
  | d1 + 1, c :: cs => if c = 0x3f ∨ c = 0x2a ∨ c = 0x3a then EBADRQ else tstnLoop d1 cs

/-- `tst_name`: whether a file may have a name. -/
def tstName (name : List UInt8) : Int :=
  match name with
  | [] => EBADRQ
  | c :: cs =>
    if c = 0x20 then EBADRQ
    else if c = 0x2e ∧ (cs = [] ∨ cs.head? = some 0x2e) then EBADRQ
    else tstnLoop 64 name

/-- Where the extension begins: at the last point from `a0` on, or at `back`. -/
def c83Point : List UInt8 → List UInt8 → List UInt8
  | [], back => back
  | c :: a0, back =>
    if c = 0 ∨ c = 0x5c then back
    else if c = 0x2e then c83Point a0 (c :: a0)
    else c83Point a0 back

/-- Up to `n` characters before the first point, and what is left of the name behind them.
    The code goes back by one character, which is `prev` when there were as many as possible. -/
def c83Loop8 : Nat → UInt8 → List UInt8 → List UInt8 × List UInt8
  | 0, prev, a2 => ([], c83Point a2 (prev :: a2))
  | _ + 1, _, [] => ([], [])
  | n + 1, _, c :: a2 =>
    if c = 0 ∨ c = 0x2a ∨ c = 0x5c then ([], c :: a2)
    else if c = 0x2e then ([], c83Point a2 (c :: a2))
    else
      let r := c83Loop8 n c a2
      (toupper (if c = 0x20 then 0x5f else c) :: r.1, r.2)

/-- What the rest of a field is filled with. -/
def c83Fill (a2 : List UInt8) : UInt8 := if a2.head? = some 0x2a then 0x3f else 0x20

def skip (c : UInt8) (a2 : List UInt8) : List UInt8 := if a2.head? = some c then a2.tail else a2

def conv83 (pathname : List UInt8) : List UInt8 :=
  let r := c83Loop8 8 0 pathname
  let a2 := if r.1.length = 8 then r.2.dropWhile fun c => c ≠ 0 ∧ c ≠ 0x2e ∧ c ≠ 0x5c else r.2
  let nam := r.1 ++ List.replicate (8 - r.1.length) (c83Fill a2)
  let a2 := skip 0x2e (skip 0x2a a2)
  let ext := (a2.takeWhile fun c => c ≠ 0 ∧ c ≠ 0x2a ∧ c ≠ 0x5c ∧ c ≠ 0x2e ∧ c ≠ 0x20).take 3
  nam ++ ext.map toupper ++ List.replicate (3 - ext.length) (c83Fill (a2.drop ext.length))

example : conv83 [0x6c, 0x2e, 0x74, 0x61, 0x72, 0x2e, 0x67, 0x7a]
    = [0x4c, 0x20, 0x20, 0x20, 0x20, 0x20, 0x20, 0x20, 0x47, 0x5a, 0x20] := by decide

/-- A name as it stands in a path: there is no end mark and no backslash in it. -/
def Element (name : List UInt8) : Prop := ∀ c ∈ name, c ≠ 0 ∧ c ≠ 0x5c

/-- The blanks of a short name, of which the first eight characters are considered, are
    behind its characters. -/
def Padded (nam : List UInt8) : Prop :=
  ∃ a n, (∀ c ∈ a, c ≠ 0x20) ∧ nam.take 8 = a ++ List.replicate n 0x20

/-! ### Small and capital letters -/

theorem toupper_ne_blank (c : UInt8) (h : c ≠ 0x20) : toupper c ≠ 0x20 := by
  have hall : ∀ n < 256, UInt8.ofNat n ≠ 0x20 → toupper (UInt8.ofNat n) ≠ 0x20 := by
    decide +kernel
  have hc := hall c.toNat c.toNat_lt
  rw [UInt8.ofNat_toNat] at hc
  exact hc h

/-! ### The first eight characters -/

theorem c83Loop8_length (n : Nat) (prev : UInt8) (a2 : List UInt8) :
    (c83Loop8 n prev a2).1.length ≤ n := by
  induction n generalizing prev a2 with
  | zero => exact Nat.le_refl 0
  | succ n ih =>
    cases a2 with
    | nil => exact Nat.zero_le _
    | cons c a2 =>
      rw [c83Loop8]
      by_cases hend : c = 0 ∨ c = 0x2a ∨ c = 0x5c
      · rw [if_pos hend]
        exact Nat.zero_le _
      rw [if_neg hend]
      by_cases hpoint : c = 0x2e
      · rw [if_pos hpoint]
        exact Nat.zero_le _
      rw [if_neg hpoint]
      exact Nat.succ_le_succ (ih c a2)

theorem c83Loop8_ne_blank (n : Nat) (prev : UInt8) (a2 : List UInt8) :
    ∀ c ∈ (c83Loop8 n prev a2).1, c ≠ 0x20 := by
  induction n generalizing prev a2 with
  | zero => exact fun c hc => absurd hc List.not_mem_nil
  | succ n ih =>
    cases a2 with
    | nil => exact fun c hc => absurd hc List.not_mem_nil
    | cons c a2 =>
      rw [c83Loop8]
      by_cases hend : c = 0 ∨ c = 0x2a ∨ c = 0x5c
      · rw [if_pos hend]
        exact fun c hc => absurd hc List.not_mem_nil
      rw [if_neg hend]
      by_cases hpoint : c = 0x2e
      · rw [if_pos hpoint]
        exact fun c hc => absurd hc List.not_mem_nil
      rw [if_neg hpoint]
      intro d hd
      rcases List.mem_cons.mp hd with rfl | hd
      · refine toupper_ne_blank _ ?_
        by_cases hblank : c = 0x20
        · rw [if_pos hblank]
          decide
        · rw [if_neg hblank]
          exact hblank
      · exact ih c a2 d hd

theorem c83Point_head (a0 back : List UInt8) (h : back.head? = some 0x2e) :
    (c83Point a0 back).head? = some 0x2e := by
  induction a0 generalizing back with
  | nil => exact h
  | cons c a0 ih =>
    rw [c83Point]
    by_cases hend : c = 0 ∨ c = 0x5c
    · rw [if_pos hend]
      exact h
    rw [if_neg hend]
    by_cases hpoint : c = 0x2e
    · rw [if_pos hpoint]
      exact ih (c :: a0) (congrArg some hpoint)
    · rw [if_neg hpoint]
      exact ih back h

/-! ### The short name -/

theorem conv83_length (name : List UInt8) : (conv83 name).length = 11 := by
  have h8 := c83Loop8_length 8 0 name
  unfold conv83
  simp only [List.length_append, List.length_map, List.length_replicate, List.length_take]
  omega

theorem conv83_take (name : List UInt8) : ∃ fill, (fill = 0x20 ∨ fill = 0x3f) ∧
    (conv83 name).take 8 = (c83Loop8 8 0 name).1
      ++ List.replicate (8 - (c83Loop8 8 0 name).1.length) fill := by
  have h8 := c83Loop8_length 8 0 name
  unfold conv83
  simp only [List.append_assoc]
  generalize (if (c83Loop8 8 0 name).1.length = 8
    then (c83Loop8 8 0 name).2.dropWhile fun c => c ≠ 0 ∧ c ≠ 0x2e ∧ c ≠ 0x5c
    else (c83Loop8 8 0 name).2) = a2
  refine ⟨c83Fill a2, ?_, ?_⟩
  · unfold c83Fill
    by_cases hstar : a2.head? = some 0x2a
    · rw [if_pos hstar]
      exact .inr rfl
    · rw [if_neg hstar]
      exact .inl rfl
  · rw [← List.append_assoc, List.take_append_of_le_length, List.take_of_length_le]
    · simp only [List.length_append, List.length_replicate]
      omega
    · simp only [List.length_append, List.length_replicate]
      omega

/-- The blanks of a short name are behind its characters. -/
theorem conv83_padded (name : List UInt8) : Padded (conv83 name) := by
  rcases conv83_take name with ⟨fill, hfill, htake⟩
  have hloop := c83Loop8_ne_blank 8 0 name
  rw [Padded, htake]
  generalize (c83Loop8 8 0 name).1 = a at hloop
  rcases hfill with rfl | rfl
  · exact ⟨a, _, hloop, rfl⟩
  · -- A field that is filled with question marks has no blanks.
    refine ⟨a ++ List.replicate (8 - a.length) 0x3f, 0, fun c hc => ?_, (List.append_nil _).symm⟩
    rcases List.mem_append.mp hc with hc | hc
    · exact hloop c hc
    · rw [List.eq_of_mem_replicate hc]
      decide

theorem tstName_cons (c : UInt8) (cs : List UInt8) (h : tstName (c :: cs) = 0) :
    c ≠ 0x20 ∧ c ≠ 0x2a ∧ (c :: cs).length ≤ 64 := by
  have hlen : ∀ (n : Nat) (l : List UInt8), tstnLoop n l = 0 → l.length ≤ n := by
    intro n l
    induction l generalizing n with
    | nil => exact fun _ => Nat.zero_le n
    | cons d l ih =>
      intro hl
      cases n with
      | zero => exact absurd hl (show EBADRQ ≠ 0 by decide)
      | succ n =>
        rw [tstnLoop] at hl
        by_cases hbad : d = 0x3f ∨ d = 0x2a ∨ d = 0x3a
        · rw [if_pos hbad] at hl
          exact absurd hl (by decide)
        · rw [if_neg hbad] at hl
          exact Nat.succ_le_succ (ih n hl)
  rw [tstName] at h
  by_cases hblank : c = 0x20
  · rw [if_pos hblank] at h
    exact absurd h (by decide)
  rw [if_neg hblank] at h
  by_cases hpoint : c = 0x2e ∧ (cs = [] ∨ cs.head? = some 0x2e)
  · rw [if_pos hpoint] at h
    exact absurd h (by decide)
  rw [if_neg hpoint] at h
  refine ⟨hblank, fun hstar => ?_, hlen 64 _ h⟩
  rw [hstar] at h
  exact absurd h (show EBADRQ ≠ 0 by decide)

theorem conv83_point (cs : List UInt8) : (conv83 (0x2e :: cs)).take 8 = List.replicate 8 0x20 := by
  have hpoint := c83Point_head cs (0x2e :: cs) rfl
  have hloop : c83Loop8 8 0 (0x2e :: cs) = ([], c83Point cs (0x2e :: cs)) := rfl
  unfold conv83
  rw [hloop]
  simp only [List.length_nil, List.nil_append, c83Fill]
  rw [if_neg (by omega : ¬ 0 = 8), if_neg (by rw [hpoint]; decide), List.append_assoc,
    List.take_append_of_le_length (by simp only [List.length_replicate]; omega),
    List.take_of_length_le (by simp only [List.length_replicate]; omega)]

/-- The first character of the short name of a file is blank if and only if the name begins
    with a point. -/
theorem conv83_blank_iff (name : List UInt8) (helem : Element name) (htst : tstName name = 0) :
    (conv83 name).head? = some 0x20 ↔ name.head? = some 0x2e := by
  cases name with
  | nil => exact absurd htst (by decide)
  | cons c cs =>
    rcases tstName_cons c cs htst with ⟨-, hstar, -⟩
    rcases helem c List.mem_cons_self with ⟨hzero, hslash⟩
    have hhead : ∀ l : List UInt8, (l.take 8).head? = l.head? := fun l => by
      rw [List.head?_take, if_neg (by decide)]
    rw [← hhead]
    by_cases hpoint : c = 0x2e
    · rw [hpoint, conv83_point]
      exact ⟨fun _ => rfl, fun _ => rfl⟩
    · rcases conv83_take (c :: cs) with ⟨fill, -, htake⟩
      have hne := c83Loop8_ne_blank 8 0 (c :: cs)
      rw [htake]
      rw [c83Loop8, if_neg (by simp only [hzero, hstar, hslash, or_self, not_false_eq_true]),
        if_neg hpoint] at hne ⊢
      refine ⟨fun h => ?_, fun h => absurd (Option.some.inj h) hpoint⟩
      exact absurd (Option.some.inj h) (hne _ List.mem_cons_self)

end Vfat

end MagiC
