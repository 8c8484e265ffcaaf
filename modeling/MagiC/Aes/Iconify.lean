import MagiC.Aes.Visible

/-!
# Places for Iconified Windows

Where `find_icon_pos` of `aeswin.s` puts a window.

The places are looked at from the bottom of the screen upwards, each row from the right. A row
goes on while the right edge of the place is not negative, so a screen whose width is a multiple
of 72 has one more place in each row, which is left of it. The rows go on while `y` is not less
than that of the desktop, as numbers without sign. So there is an end above the screen only if
a row begins within the menu bar, otherwise the search goes on with negative rows. It ends
where `y + 72` is no word any more, since nothing is found to lie there.

## Main definitions

* `findIconPos`: `find_icon_pos`.

## Theorems

* `findIconPos_iff`: The place is as it should be if and only if the search stays on the screen.
-/

namespace MagiC

namespace Aes

namespace Win

open Msg

/-- The windows and their screen. Handles of windows that are not frozen have a window, and the
    desktop is at the end. -/
structure Desk where
  s : Screen
  iconified : BitVec 16 → Bool
  scrW : BitVec 16
  scrH : BitVec 16
  hhbox : BitVec 16
  wide : 160 ≤ scrW.toInt
  high : 160 ≤ scrH.toInt
  menu : hhbox.toNat < 72
  ends : ∃ pre, s.whdlx = pre ++ [0] ∧ 0 ∉ pre
  known : ∀ e ∈ s.whdlx, e.msb = false → (whdlToWnd s e).isSome

/-- `fip_hloop`: whether the place is taken. -/
def fipHloop (d : Desk) (g : Grect) : List (BitVec 16) → Bool
  | [] => false
  | d0 :: a5 =>
    if d0.msb then fipHloop d g a5
    else if d0 = 0 then false
    else
      match whdlToWnd d.s d0 with
      | none => false
      | some w =>
        if !d.iconified d0 then fipHloop d g a5
        else if (meet w.wCurr g).2 then true
        else fipHloop d g a5

def taken (d : Desk) (x y : BitVec 16) : Bool := fipHloop d ⟨x, y, 72, 72⟩ d.s.whdlx

/-- `fip_xloop`: the first place of the row that is free, if there is one. -/
def fipXloop (d : Desk) (y : BitVec 16) : Nat → BitVec 16 → Option (Option (BitVec 16))
  | 0, _ => none
  | fuel + 1, x =>
    if taken d x y then
      let x := x - 72
      if (0 : BitVec 16).sle (72 + x) then fipXloop d y fuel x else some none
    else some (some x)

/-- `fip_yloop`. The left edge of `desk_g` is 0, the upper one is `gr_hhbox`. -/
def fipYloop (d : Desk) (cols : Nat) : Nat → BitVec 16 → Option Grect
  | 0, _ => none
  | fuel + 1, y =>
    match fipXloop d y cols (d.scrW - 72) with
    | none => none
    | some (some x) => some ⟨x, y, 72, 72⟩
    | some none =>
      let y := y - 72
      if y < d.hhbox then some ⟨0, d.hhbox, 72, 72⟩ else fipYloop d cols fuel y

def findIconPos (d : Desk) (fuel : Nat) : Option Grect :=
  fipYloop d fuel fuel (d.scrH - 72 - 16)

/-- The rectangle meets an iconified window that is open. -/
def Hit (d : Desk) (g : Grect) : Prop :=
  ∃ e ∈ d.s.whdlx, e.msb = false ∧ e ≠ 0 ∧ d.iconified e = true ∧
    ∃ w, whdlToWnd d.s e = some w ∧ (meet w.wCurr g).2 = true

/-- The left edge of the places of a column, which are numbered from the right. -/
def left (d : Desk) (i : Nat) : Int := d.scrW.toInt - 72 - 72 * i

/-- The upper edge of the places of a row, which are numbered from the bottom. -/
def top (d : Desk) (j : Nat) : Int := d.scrH.toInt - 88 - 72 * j

def place (d : Desk) (i j : Nat) : Grect :=
  ⟨BitVec.ofInt 16 (left d i), BitVec.ofInt 16 (top d j), 72, 72⟩

def Taken (d : Desk) (i j : Nat) : Prop := taken d (place d i j).x (place d i j).y = true

/-- The rectangle is free and on the screen, or it is the corner of the desktop since nothing
    of the grid is free and on the screen. -/
structure Placed (d : Desk) (g : Grect) : Prop where
  width : g.w = 72
  height : g.h = 72
  free : (¬Hit d g ∧ 0 < g.x.toInt + 72 ∧ d.hhbox.toInt ≤ g.y.toInt) ∨
    ((g.x = 0 ∧ g.y = d.hhbox) ∧
      ∀ i j, 0 < left d i + 72 → d.hhbox.toInt ≤ top d j → Hit d (place d i j))

/-- If a row and those below it are full, the place left of the screen is taken, should there be
    one. If the screen is full, a row begins within the menu bar, or everything above the screen
    is taken as well. -/
structure Bounded (d : Desk) : Prop where
  aside : ∀ i j, left d i + 72 = 0 → d.hhbox.toInt ≤ top d j →
    (∀ j' ≤ j, ∀ i', 0 < left d i' + 72 → Taken d i' j') → Taken d i j
  above : (∀ i j, 0 < left d i + 72 → d.hhbox.toInt ≤ top d j → Taken d i j) →
    (∃ j, 0 ≤ top d j ∧ top d j < d.hhbox.toInt) ∨
      ∀ i j, 0 ≤ left d i + 72 → -2 ^ 15 ≤ top d j → top d j < 0 → Taken d i j

variable {d : Desk}

/-! ## A place -/

theorem fipHloop_list (g : Grect) {pre l : List (BitVec 16)} (hl : l = pre ++ [0])
    (h0 : 0 ∉ pre) (hknown : ∀ e ∈ l, e.msb = false → (whdlToWnd d.s e).isSome) :
    fipHloop d g l = true ↔ ∃ e ∈ l, e.msb = false ∧ e ≠ 0 ∧ d.iconified e = true ∧
      ∃ w, whdlToWnd d.s e = some w ∧ (meet w.wCurr g).2 = true := by
  subst hl
  induction pre with
  | nil => simp [fipHloop]
  | cons d0 pre ih =>
    rw [List.mem_cons, not_or] at h0
    have hrest := ih h0.2 fun e he => hknown e (List.mem_cons_of_mem _ he)
    rw [List.cons_append] at hknown ⊢
    rw [fipHloop, List.exists_mem_cons_iff]
    by_cases hmsb : d0.msb = true
    · rw [if_pos hmsb, hrest]
      exact (or_iff_right fun h => Bool.false_ne_true (h.1.symm.trans hmsb)).symm
    rw [Bool.not_eq_true] at hmsb
    rcases Option.isSome_iff_exists.mp (hknown d0 List.mem_cons_self hmsb) with ⟨w, hw⟩
    rw [if_neg (by rw [hmsb]; exact Bool.false_ne_true), if_neg fun h => h0.1 h.symm, hw]
    dsimp only
    by_cases hicon : d.iconified d0 = true
    · rw [if_neg (by rw [hicon]; exact Bool.false_ne_true)]
      by_cases hmeet : (meet w.wCurr g).2 = true
      · rw [if_pos hmeet]
        exact iff_of_true rfl (.inl ⟨hmsb, fun h => h0.1 h.symm, hicon, w, rfl, hmeet⟩)
      · rw [if_neg hmeet, hrest]
        refine (or_iff_right ?_).symm
        rintro ⟨-, -, -, w', hw', hmeet'⟩
        cases hw'
        exact hmeet hmeet'
    · rw [if_pos (by simp [hicon]), hrest]
      exact (or_iff_right fun h => hicon h.2.2.1).symm

/-- A place is taken if an iconified window that is open lies there. -/
theorem fipHloop_iff (g : Grect) : fipHloop d g d.s.whdlx = true ↔ Hit d g := by
  rcases d.ends with ⟨pre, hpre, h0⟩
  exact fipHloop_list g hpre h0 d.known

theorem hit_place (i j : Nat) : Hit d (place d i j) ↔ Taken d i j :=
  (fipHloop_iff _).symm

theorem hhbox_toInt (d : Desk) : d.hhbox.toInt = d.hhbox.toNat := by
  have h := d.menu
  rw [BitVec.toInt_eq_toNat_of_lt (by omega)]

/-- Nothing lies where the lower edge is not a word. -/
theorem meet_far {src g : Grect} (hh : g.h = 72) (hy : 2 ^ 15 ≤ g.y.toInt + 72) :
    (meet src g).2 = false := by
  have hlt : g.y.toInt < 2 ^ 15 := BitVec.toInt_lt
  have hwrap : (g.y + 72).toInt = g.y.toInt + 72 - 2 ^ 16 := by
    rw [BitVec.toInt_add]
    have h72 : (72 : BitVec 16).toInt = 72 := rfl
    rw [h72, ← Int.sub_mul_bmod_self_right _ 1 (2 ^ 16)]
    exact (Int.bmod_eq_of_le (by omega) (by omega)).trans (by omega)
  have hspan : meetSpan src.y src.h g.y g.h = false := by
    rw [hh, meetSpan]
    rw [← Bool.not_eq_true, BitVec.slt_iff_toInt_lt, Int.not_lt]
    have hright : (if (src.y + src.h).slt (g.y + 72) then src.y + src.h else g.y + 72).toInt ≤
        (g.y + 72).toInt := by
      split
      · rename_i h
        rw [BitVec.slt_iff_toInt_lt] at h
        omega
      · exact le_refl _
    have hleft : g.y.toInt ≤ (if g.y.slt src.y then src.y else g.y).toInt := by
      split
      · rename_i h
        rw [BitVec.slt_iff_toInt_lt] at h
        omega
      · exact le_refl _
    omega
  rw [meet]
  dsimp only
  rw [hspan, Bool.and_false]

/-! ## The grid -/

theorem left_col {i : Nat} (h : 0 ≤ left d i + 72) :
    (BitVec.ofInt 16 (left d i)).toInt = left d i := by
  have hlt : d.scrW.toInt < 2 ^ 15 := BitVec.toInt_lt
  rw [BitVec.toInt_ofInt]
  exact Int.bmod_eq_of_le (by omega) (by rw [left]; omega)

theorem top_row {j : Nat} (h : -2 ^ 15 ≤ top d j) :
    (BitVec.ofInt 16 (top d j)).toInt = top d j := by
  have hlt : d.scrH.toInt < 2 ^ 15 := BitVec.toInt_lt
  rw [BitVec.toInt_ofInt]
  exact Int.bmod_eq_of_le (by omega) (by rw [top]; omega)

/-- Below the words a row comes back at the other end. -/
theorem top_wrapped {j : Nat} (h : top d j < -2 ^ 15) (hlow : -2 ^ 15 - 72 ≤ top d j) :
    (BitVec.ofInt 16 (top d j)).toInt = top d j + 2 ^ 16 := by
  rw [BitVec.toInt_ofInt, ← Int.add_mul_bmod_self_right _ 1 (2 ^ 16)]
  exact (Int.bmod_eq_of_le (by omega) (by omega)).trans (by omega)

theorem ofInt_sub (y z : Int) :
    BitVec.ofInt 16 y - BitVec.ofInt 16 z = BitVec.ofInt 16 (y - z) := by
  rw [Int.sub_eq_add_neg, BitVec.ofInt_add, BitVec.ofInt_neg, BitVec.sub_eq_add_neg]

theorem left_succ (i : Nat) :
    BitVec.ofInt 16 (left d i) - 72 = BitVec.ofInt 16 (left d (i + 1)) := by
  refine (ofInt_sub _ 72).trans ?_
  congr 1
  rw [left, left]
  omega

theorem top_succ (j : Nat) :
    BitVec.ofInt 16 (top d j) - 72 = BitVec.ofInt 16 (top d (j + 1)) := by
  refine (ofInt_sub _ 72).trans ?_
  congr 1
  rw [top, top]
  omega

/-- Without sign a negative row is not above the desktop. -/
theorem top_lt {j : Nat} (hlow : -2 ^ 15 - 144 ≤ top d j) :
    BitVec.ofInt 16 (top d j) < d.hhbox ↔ 0 ≤ top d j ∧ top d j < d.hhbox.toInt := by
  have hlt : d.scrH.toInt < 2 ^ 15 := BitVec.toInt_lt
  have hmenu := d.menu
  have hhigh : top d j < 2 ^ 15 := by
    rw [top]
    omega
  rw [BitVec.lt_def, BitVec.toNat_ofInt, hhbox_toInt]
  omega

theorem taken_wrapped {j : Nat} (h : top d j < -2 ^ 15) (hlow : -2 ^ 15 - 72 ≤ top d j)
    (i : Nat) : ¬Taken d i j := by
  rw [← hit_place]
  rintro ⟨e, -, -, -, -, w, -, hmeet⟩
  have hfar : (meet w.wCurr (place d i j)).2 = false :=
    meet_far rfl (by dsimp only [place]; rw [top_wrapped h hlow]; omega)
  rw [hmeet] at hfar
  cases hfar

/-! ## The search -/

/-- What the search of a row says: the first place that is free, or that there is none. -/
def Searched (d : Desk) (j : Nat) : Option (BitVec 16) → Prop
  | some x => ∃ i, 0 ≤ left d i + 72 ∧ x = BitVec.ofInt 16 (left d i) ∧ ¬Taken d i j ∧
      ∀ k < i, Taken d k j
  | none => ∀ i, 0 ≤ left d i + 72 → Taken d i j

theorem fipXloop_spec (j fuel i : Nat) (hfuel : left d i + 72 < 72 * fuel)
    (hi : 0 ≤ left d i + 72) (hbefore : ∀ k < i, Taken d k j) :
    ∃ r, fipXloop d (BitVec.ofInt 16 (top d j)) fuel (BitVec.ofInt 16 (left d i)) = some r ∧
      Searched d j r := by
  induction fuel generalizing i with
  | zero => omega
  | succ fuel ih =>
    rw [fipXloop]
    have hnext : left d (i + 1) = left d i - 72 := by
      rw [left, left]
      omega
    by_cases htaken : taken d (BitVec.ofInt 16 (left d i)) (BitVec.ofInt 16 (top d j)) = true
    · have hupto : ∀ k < i + 1, Taken d k j := by
        intro k hk
        rcases Nat.lt_succ_iff_lt_or_eq.mp hk with hlt | rfl
        · exact hbefore k hlt
        · exact htaken
      rw [if_pos htaken]
      dsimp only
      have hedge : (72 + BitVec.ofInt 16 (left d (i + 1))).toInt = left d (i + 1) + 72 := by
        have hlt : d.scrW.toInt < 2 ^ 15 := BitVec.toInt_lt
        have h72 : (72 : BitVec 16) = BitVec.ofInt 16 72 := rfl
        rw [h72, ← BitVec.ofInt_add, BitVec.toInt_ofInt]
        exact (Int.bmod_eq_of_le (by omega) (by rw [left]; omega)).trans (by omega)
      rw [left_succ]
      split
      · rename_i hsle
        rw [BitVec.sle_iff_toInt_le, hedge] at hsle
        exact ih (i + 1) (by omega) hsle hupto
      · rename_i hsle
        rw [BitVec.sle_iff_toInt_le, hedge, Int.not_le] at hsle
        refine ⟨none, rfl, fun k hk => hupto k ?_⟩
        have hzero : (0 : BitVec 16).toInt = 0 := rfl
        rw [left] at hk hsle
        omega
    · rw [if_neg htaken]
      exact ⟨_, rfl, i, hi, rfl, htaken, hbefore⟩

/-- The search ends in a row: all rows before are full, and none of them was the last one. -/
structure Ends (d : Desk) (k : Nat) (g : Grect) : Prop where
  low : -2 ^ 15 - 72 ≤ top d k
  full : ∀ j < k, ∀ i, 0 ≤ left d i + 72 → Taken d i j
  past : ∀ j < k, ¬(0 ≤ top d (j + 1) ∧ top d (j + 1) < d.hhbox.toInt)
  last : (∃ i, 0 ≤ left d i + 72 ∧ g = place d i k ∧ ¬Taken d i k ∧ ∀ i' < i, Taken d i' k) ∨
    (∀ i, 0 ≤ left d i + 72 → Taken d i k) ∧
      (0 ≤ top d (k + 1) ∧ top d (k + 1) < d.hhbox.toInt) ∧ g = ⟨0, d.hhbox, 72, 72⟩

theorem fipYloop_spec (cols fuel j : Nat) (hcols : d.scrW.toInt < 72 * cols)
    (hfuel : top d j + 2 ^ 15 + 72 < 72 * fuel) (hlow : -2 ^ 15 - 72 ≤ top d j)
    (hfull : ∀ j' < j, ∀ i, 0 ≤ left d i + 72 → Taken d i j')
    (hpast : ∀ j' < j, ¬(0 ≤ top d (j' + 1) ∧ top d (j' + 1) < d.hhbox.toInt)) :
    ∃ k g, fipYloop d cols fuel (BitVec.ofInt 16 (top d j)) = some g ∧ Ends d k g := by
  induction fuel generalizing j with
  | zero => omega
  | succ fuel ih =>
    have hwide := d.wide
    have hfirst : d.scrW - 72 = BitVec.ofInt 16 (left d 0) := by
      have hsub := ofInt_sub d.scrW.toInt 72
      rw [BitVec.ofInt_toInt] at hsub
      refine hsub.trans ?_
      rw [left]
      simp
    have h0 : left d 0 + 72 = d.scrW.toInt := by
      rw [left]
      omega
    rcases fipXloop_spec (d := d) j cols 0 (by omega) (by omega)
      (fun k hk => absurd hk (by omega)) with ⟨r, hr, hsearched⟩
    rw [fipYloop, hfirst, hr]
    cases r with
    | some x =>
      rcases hsearched with ⟨i, hi, rfl, hfree, hbefore⟩
      exact ⟨j, _, rfl, hlow, hfull, hpast, .inl ⟨i, hi, rfl, hfree, hbefore⟩⟩
    | none =>
      have hrow : -2 ^ 15 ≤ top d j := by
        by_contra h
        exact taken_wrapped (by omega) hlow 0 (hsearched 0 (by omega))
      have hnext : top d (j + 1) = top d j - 72 := by
        rw [top, top]
        omega
      dsimp only
      rw [top_succ]
      split
      · rename_i hlt
        exact ⟨j, _, rfl, hlow, hfull, hpast,
          .inr ⟨hsearched, (top_lt (by omega)).mp hlt, rfl⟩⟩
      · rename_i hge
        rw [top_lt (by omega)] at hge
        refine ih (j + 1) (by omega) (by omega) (fun j' hj' => ?_) (fun j' hj' => ?_)
        · rcases Nat.lt_succ_iff_lt_or_eq.mp hj' with h | rfl
          · exact hfull j' h
          · exact hsearched
        · rcases Nat.lt_succ_iff_lt_or_eq.mp hj' with h | rfl
          · exact hpast j' h
          · exact hge

/-! ## The result -/

variable {k : Nat} {g : Grect}

/-- The search ends on the screen. -/
theorem Ends.placed_on (h : Ends d k g) (hon : d.hhbox.toInt ≤ top d k) :
    Placed d g ↔ Bounded d := by
  have hbox := hhbox_toInt d
  have htop : ∀ j, top d j = d.scrH.toInt - 88 - 72 * j := fun _ => rfl
  rcases h.last with ⟨i, hi, rfl, hfree, hbefore⟩ | ⟨hrow, hend, rfl⟩
  · have hx : (place d i k).x.toInt = left d i := left_col hi
    have hy : (place d i k).y.toInt = top d k := top_row (by omega)
    by_cases hleft : left d i + 72 = 0
    · -- Left of the screen, though everything else of the row is taken.
      refine iff_of_false (fun hplaced => ?_) fun hb => ?_
      · rcases hplaced.free with ⟨-, hpos, -⟩ | ⟨⟨hx0, -⟩, -⟩
        · omega
        · have hzero : (0 : BitVec 16).toInt = 0 := rfl
          rw [hx0] at hx
          omega
      · refine hfree (hb.aside i k hleft hon fun j hj i' hi' => ?_)
        rcases Nat.lt_or_eq_of_le hj with hlt | rfl
        · exact h.full j hlt i' (by omega)
        · refine hbefore i' ?_
          rw [left] at hleft hi'
          omega
    · refine iff_of_true ⟨rfl, rfl, .inl ⟨?_, by omega, by omega⟩⟩ ⟨?_, ?_⟩
      · rwa [hit_place]
      · intro i' j hi' hj hall
        rcases Nat.lt_or_ge j k with hlt | hge
        · exact h.full j hlt i' (by omega)
        · exact absurd (hall k hge i (by omega)) hfree
      · exact fun hall => absurd (hall i k (by omega) hon) hfree
  · have hrows : ∀ i j, 0 ≤ left d i + 72 → d.hhbox.toInt ≤ top d j → Taken d i j := by
      intro i j hi hj
      rw [htop] at hj hend
      rcases Nat.lt_or_eq_of_le (show j ≤ k by omega) with hlt | rfl
      · exact h.full j hlt i hi
      · exact hrow i hi
    refine iff_of_true ⟨rfl, rfl, .inr ⟨⟨rfl, rfl⟩, fun i j hi hj => ?_⟩⟩ ⟨?_, ?_⟩
    · exact (hit_place i j).mpr (hrows i j (by omega) hj)
    · exact fun i j hi hj _ => hrows i j (by omega) hj
    · exact fun _ => .inl ⟨k + 1, hend⟩

theorem Ends.placed_above (h : Ends d k g) (hon : top d k < d.hhbox.toInt) :
    Placed d g ↔ Bounded d := by
  have hhigh := d.high
  have hmenu := d.menu
  have hbox := hhbox_toInt d
  have htop : ∀ j, top d j = d.scrH.toInt - 88 - 72 * j := fun _ => rfl
  have hk0 : 0 < k := by
    rw [htop] at hon
    omega
  have hneg : top d k < 0 := by
    have hpast := h.past (k - 1) (by omega)
    rw [Nat.sub_add_cancel hk0] at hpast
    omega
  have hrows : ∀ i j, 0 ≤ left d i + 72 → d.hhbox.toInt ≤ top d j → Taken d i j := by
    intro i j hi hj
    refine h.full j ?_ i hi
    rw [htop] at hj hon
    omega
  rcases h.last with ⟨i, hi, rfl, hfree, hbefore⟩ | ⟨-, hend, -⟩
  · have hx : (place d i k).x.toInt = left d i := left_col hi
    by_cases hlow : -2 ^ 15 ≤ top d k
    · have hy : (place d i k).y.toInt = top d k := top_row hlow
      refine iff_of_false (fun hplaced => ?_) fun hb => ?_
      · rcases hplaced.free with ⟨-, -, hpos⟩ | ⟨⟨-, hy0⟩, -⟩
        · omega
        · rw [hy0] at hy
          omega
      · rcases hb.above fun i j hi hj => hrows i j (by omega) hj with ⟨j, hj⟩ | hall
        · -- That row would have been the last one.
          refine h.past (j - 1) ?_ ?_
          · rw [htop] at hj hneg
            omega
          · rwa [Nat.sub_add_cancel (by rw [htop] at hj; omega)]
        · exact hfree (hall i k hi hlow hneg)
    · -- Everything above the screen is taken, so the rows are gone through as words.
      have hy : (place d i k).y.toInt = top d k + 2 ^ 16 := top_wrapped (by omega) h.low
      have hi0 : i = 0 := by
        by_contra hne
        exact taken_wrapped (by omega) h.low 0 (hbefore 0 (Nat.pos_of_ne_zero hne))
      refine iff_of_true ⟨rfl, rfl, .inl ⟨?_, ?_, ?_⟩⟩ ⟨?_, fun _ => .inr ?_⟩
      · rwa [hit_place]
      · have hwide := d.wide
        rw [hx, hi0, left]
        omega
      · have hlow' := h.low
        omega
      · exact fun i j hi hj _ => hrows i j (by omega) hj
      · intro i j hi hj _
        refine h.full j ?_ i hi
        rw [htop] at hj hlow
        omega
  · rw [htop] at hend hneg
    omega

/-- For 1024 rounds and more of each loop. -/
theorem findIconPos_ends (d : Desk) (fuel : Nat) :
    ∃ k g, findIconPos d (fuel + 1024) = some g ∧ Ends d k g := by
  have hhigh := d.high
  have hw : d.scrW.toInt < 2 ^ 15 := BitVec.toInt_lt
  have hh : d.scrH.toInt < 2 ^ 15 := BitVec.toInt_lt
  have htop : top d 0 = d.scrH.toInt - 88 := by
    rw [top]
    omega
  have hstart : d.scrH - 72 - 16 = BitVec.ofInt 16 (top d 0) := by
    have hsub := ofInt_sub (d.scrH.toInt - 72) 16
    rw [← ofInt_sub, BitVec.ofInt_toInt] at hsub
    refine hsub.trans ?_
    rw [htop]
    congr 1
    omega
  rw [findIconPos, hstart]
  exact fipYloop_spec _ _ 0 (by omega) (by omega) (by omega)
    (fun j hj => absurd hj (by omega)) fun j hj => absurd hj (by omega)

/-- The place is as it should be if and only if the search stays on the screen. -/
theorem findIconPos_iff (d : Desk) (fuel : Nat) :
    (∃ g, findIconPos d (fuel + 1024) = some g ∧ Placed d g) ↔ Bounded d := by
  rcases findIconPos_ends d fuel with ⟨k, g, hg, hends⟩
  have hiff : Placed d g ↔ Bounded d := by
    rcases Int.lt_or_le (top d k) d.hhbox.toInt with hlt | hge
    · exact hends.placed_above hlt
    · exact hends.placed_on hge
  rw [← hiff]
  refine ⟨?_, fun h => ⟨g, hg, h⟩⟩
  rintro ⟨g', hg', hplaced⟩
  rw [hg] at hg'
  cases hg'
  exact hplaced

/-- A screen of 216 by 160 pixels with an iconified window that fills the row of the grid. -/
def fullRow : Desk where
  s := ⟨2, fun _ => some ⟨⟨0, 72, 216, 72⟩, ⟨0, 72, 216, 72⟩, ⟨0, 72, 216, 72⟩⟩, [1, 0],
    fun _ => 0, fun _ => ⟨0, 0, 0, 0⟩, fun _ => false, fun _ => 0⟩
  iconified whdl := whdl = 1
  scrW := 216
  scrH := 160
  hhbox := 19
  wide := by decide
  high := by decide
  menu := by decide
  ends := ⟨[1], rfl, by decide⟩
  known := by simp [whdlToWnd]

/-- The next icon goes left of the screen. -/
theorem findIconPos_aside :
    ¬ ∀ d fuel, ∃ g, findIconPos d (fuel + 1024) = some g ∧ Placed d g := by
  intro h
  rcases h fullRow 0 with ⟨g, hg, hplaced⟩
  have haside : findIconPos fullRow 1024 = some ⟨-72, 72, 72, 72⟩ := rfl
  rw [haside] at hg
  cases hg
  rcases hplaced.free with ⟨-, hpos, -⟩ | ⟨⟨hx, -⟩, -⟩
  · exact absurd hpos (by decide)
  · exact absurd hx (by decide)

end Win

end Aes

end MagiC
