import MagiC.Aes.Window
import MagiC.Lib.Tiling

/-!
# What a Window Covers of a Rectangle

The four pieces of `calc_wgrect_overlaps` in whole numbers.

Edges are words. The right piece has the width `wg.x + wg.w - cutter.x -
cutter.w`, in this order, and there is one if this is positive. The rectangle
and the cutter have their edges within a word, but what is left after the first
subtraction need not be: a rectangle that ends on the right of a cutter that
starts far on the left. Then there is no right piece, and what it would have
covered is lost. The lower piece is made in the same way.

## Main definitions

* `Grect.toRect`: A rectangle with its edges as whole numbers.

## Theorems

* `wordCut_has`: The points that are left.
-/

namespace MagiC

namespace Aes

namespace Win

open Msg Tiling

/-- A rectangle with its edges as whole numbers. -/
def toRect (g : Grect) : Rect Int where
  left := g.x.toInt
  right := g.x.toInt + g.w.toInt
  top := g.y.toInt
  bottom := g.y.toInt + g.h.toInt

/-- There is something between the edges, and the far ones are words. -/
structure Sound (g : Grect) : Prop where
  full : (toRect g).Full
  right : (toRect g).right < 2 ^ 15
  bottom : (toRect g).bottom < 2 ^ 15

instance (g : Grect) : Decidable (Sound g) :=
  decidable_of_iff (((toRect g).left < (toRect g).right ∧ (toRect g).top < (toRect g).bottom) ∧
    (toRect g).right < 2 ^ 15 ∧ (toRect g).bottom < 2 ^ 15)
    ⟨fun h => ⟨h.1, h.2.1, h.2.2⟩, fun h => ⟨h.full, h.right, h.bottom⟩⟩

/-- What the code makes of a rectangle, in whole numbers. -/
def wordCut (c r : Rect Int) : List (Rect Int) :=
  if c.Meets r then
    (if r.top < c.top then [c.above r] else []) ++ (if r.left < c.left then [c.before r] else []) ++
      (if c.right < r.right ∧ r.right - c.left < 2 ^ 15 then [c.behind r] else []) ++
      (if c.bottom < r.bottom ∧ r.bottom - c.top < 2 ^ 15 then [c.below r] else [])
  else [r]

/-- Going through the windows above, the rectangle that is left around a point
    does not end too far from the window, if the point is on this side of it. -/
def InReach (p : Int × Int) : List (Rect Int) → Rect Int → Prop
  | [], _ => True
  | c :: cs, r =>
    (c.Meets r → if c.bottom ≤ p.2 then r.bottom - c.top < 2 ^ 15
      else c.top ≤ p.2 → c.right ≤ p.1 → r.right - c.left < 2 ^ 15) ∧
      InReach p cs (c.tile r p)

/-- The pieces of a rectangle, in the order of the list. -/
def overlaps (cutter wg : Grect) : List Grect :=
  if apart cutter wg then [wg]
  else (oben cutter wg).toList ++ (links cutter wg).toList ++ (rechts cutter wg).toList ++
    (unten cutter wg).toList

variable {c r : Grect}

theorem toInt_add_of_lt {x w : BitVec 16} (h0 : 0 ≤ w.toInt) (h : x.toInt + w.toInt < 2 ^ 15) :
    (x + w).toInt = x.toInt + w.toInt := by
  have hx := BitVec.le_toInt x
  rw [BitVec.toInt_add]
  exact Int.bmod_eq_of_le (by omega) (by omega)

theorem toInt_sub_of_lt {x y : BitVec 16} (h0 : 0 ≤ x.toInt - y.toInt)
    (h : x.toInt - y.toInt < 2 ^ 15) : (x - y).toInt = x.toInt - y.toInt := by
  rw [BitVec.toInt_sub]
  exact Int.bmod_eq_of_le (by omega) (by omega)

theorem toInt_sub_of_ge {x y : BitVec 16} (h : 2 ^ 15 ≤ x.toInt - y.toInt) :
    (x - y).toInt < 0 := by
  have hx := BitVec.toInt_lt (x := x)
  have hy := BitVec.le_toInt y
  have hwrap : (x - y).toInt = x.toInt - y.toInt - 2 ^ 16 := by
    rw [BitVec.toInt_sub, ← Int.sub_mul_bmod_self_right _ 1 (2 ^ 16)]
    exact (Int.bmod_eq_of_le (by omega) (by omega)).trans (by omega)
  omega

theorem Sound.width (h : Sound r) : 0 < r.w.toInt ∧ 0 < r.h.toInt := by
  have h1 := h.full.1
  have h2 := h.full.2
  dsimp only [toRect] at h1 h2
  omega

theorem Sound.far (h : Sound r) : (r.x + r.w).toInt = (toRect r).right ∧
    (r.y + r.h).toInt = (toRect r).bottom :=
  ⟨toInt_add_of_lt (le_of_lt h.width.1) h.right, toInt_add_of_lt (le_of_lt h.width.2) h.bottom⟩

theorem apart_eq (hc : Sound c) (hr : Sound r) :
    apart c r = true ↔ ¬(toRect c).Meets (toRect r) := by
  have hcf := hc.far
  have hrf := hr.far
  simp only [apart, Bool.or_eq_true, BitVec.sle_iff_toInt_le, hcf, hrf, Rect.Meets]
  dsimp only [toRect]
  omega

theorem cwo_toRect (hc : Sound c) (hr : Sound r) (hm : (toRect c).Meets (toRect r))
    (x w : BitVec 16) : toRect (cwo c r x w) =
      ⟨x.toInt, x.toInt + w.toInt, max (toRect c).top (toRect r).top,
        min (toRect c).bottom (toRect r).bottom⟩ := by
  have hcf := hc.far.2
  have hrf := hr.far.2
  have hcw := hc.full.2
  have hrw := hr.full.2
  have hm2 := hm.2
  have htop : (if r.y.sle c.y then c.y else r.y).toInt = max (toRect c).top (toRect r).top := by
    by_cases hle : r.y.sle c.y = true
    · rw [if_pos hle]
      rw [BitVec.sle_iff_toInt_le] at hle
      exact (max_eq_left hle).symm
    · rw [if_neg hle]
      rw [BitVec.sle_iff_toInt_le, not_le] at hle
      exact (max_eq_right (le_of_lt hle)).symm
  have hend : (if (c.y + c.h).sle (r.y + r.h) then c.y + c.h else r.y + r.h).toInt
      = min (toRect c).bottom (toRect r).bottom := by
    by_cases hle : (c.y + c.h).sle (r.y + r.h) = true
    · rw [if_pos hle, hcf]
      rw [BitVec.sle_iff_toInt_le, hcf, hrf] at hle
      exact (min_eq_left hle).symm
    · rw [if_neg hle, hrf]
      rw [BitVec.sle_iff_toInt_le, hcf, hrf, not_le] at hle
      exact (min_eq_right (le_of_lt hle)).symm
  have hheight : c.h.toInt < 2 ^ 15 := BitVec.toInt_lt
  have hspan : (toRect c).bottom - (toRect c).top = c.h.toInt := by
    dsimp only [toRect]
    omega
  -- The rows are some of those of the cutter, so their number is a word.
  have hsub := toInt_sub_of_lt (x := if (c.y + c.h).sle (r.y + r.h) then c.y + c.h else r.y + r.h)
    (y := if r.y.sle c.y then c.y else r.y) (by rw [htop, hend]; omega) (by rw [htop, hend]; omega)
  rw [htop, hend] at hsub
  unfold cwo
  dsimp only [toRect] at htop hend hsub ⊢
  rw [htop, hsub]
  simp only [Rect.mk.injEq, true_and]
  omega

theorem oben_toRect (hm : (toRect c).Meets (toRect r)) :
    (oben c r).toList.map toRect =
      if (toRect r).top < (toRect c).top then [(toRect c).above (toRect r)] else [] := by
  have hm2 := hm.2.2
  have hheight : r.h.toInt < 2 ^ 15 := BitVec.toInt_lt
  unfold oben
  by_cases hle : c.y.sle r.y = true
  · rw [if_pos hle, if_neg]
    · rfl
    · rw [BitVec.sle_iff_toInt_le] at hle
      dsimp only [toRect]
      omega
  · rw [if_neg hle]
    rw [BitVec.sle_iff_toInt_le, not_le] at hle
    dsimp only [toRect] at hm2
    have hsub := toInt_sub_of_lt (x := c.y) (y := r.y) (by omega) (by omega)
    have hlt : (toRect r).top < (toRect c).top := hle
    rw [if_pos hlt, Option.toList_some, List.map_singleton]
    simp only [List.cons.injEq, and_true, Rect.above, Rect.mk.injEq, toRect, hsub, true_and]
    omega

theorem links_toRect (hc : Sound c) (hr : Sound r) (hm : (toRect c).Meets (toRect r)) :
    (links c r).toList.map toRect =
      if (toRect r).left < (toRect c).left then [(toRect c).before (toRect r)] else [] := by
  have hm1 := hm.1.2
  have hwidth : r.w.toInt < 2 ^ 15 := BitVec.toInt_lt
  unfold links
  by_cases hle : c.x.sle r.x = true
  · rw [if_pos hle, if_neg]
    · rfl
    · rw [BitVec.sle_iff_toInt_le] at hle
      dsimp only [toRect]
      omega
  · rw [if_neg hle]
    rw [BitVec.sle_iff_toInt_le, not_le] at hle
    dsimp only [toRect] at hm1
    have hsub := toInt_sub_of_lt (x := c.x) (y := r.x) (by omega) (by omega)
    have hlt : (toRect r).left < (toRect c).left := hle
    rw [if_pos hlt, Option.toList_some, List.map_singleton, cwo_toRect hc hr hm, hsub]
    simp only [List.cons.injEq, and_true, Rect.before, Rect.mk.injEq, toRect, true_and]
    omega

theorem farSide (x w cx cw : BitVec 16) (hw : 0 ≤ w.toInt) (hfar : x.toInt + w.toInt < 2 ^ 15)
    (hcw : 0 ≤ cw.toInt) (hmeet : cx.toInt < x.toInt + w.toInt) :
    ((x + w - cx).sle cw = true ↔ ¬(cx.toInt + cw.toInt < x.toInt + w.toInt ∧
      x.toInt + w.toInt - cx.toInt < 2 ^ 15)) ∧
    (cx.toInt + cw.toInt < x.toInt + w.toInt ∧ x.toInt + w.toInt - cx.toInt < 2 ^ 15 →
      (x + w - cx - cw).toInt = x.toInt + w.toInt - (cx.toInt + cw.toInt)) := by
  have hend := toInt_add_of_lt hw hfar
  rw [BitVec.sle_iff_toInt_le]
  by_cases hspan : x.toInt + w.toInt - cx.toInt < 2 ^ 15
  · have hd := toInt_sub_of_lt (x := x + w) (y := cx) (by omega) (by omega)
    refine ⟨by omega, fun h => ?_⟩
    have hsub := toInt_sub_of_lt (x := x + w - cx) (y := cw) (by omega) (by omega)
    omega
  · -- The first difference is negative, so it is not more than the width of the cutter.
    have hneg := toInt_sub_of_ge (x := x + w) (y := cx) (by omega)
    exact ⟨by omega, fun h => absurd h.2 hspan⟩

theorem rechts_toRect (hc : Sound c) (hr : Sound r) (hm : (toRect c).Meets (toRect r)) :
    (rechts c r).toList.map toRect =
      if (toRect c).right < (toRect r).right ∧ (toRect r).right - (toRect c).left < 2 ^ 15 then
        [(toRect c).behind (toRect r)] else [] := by
  have hside := farSide r.x r.w c.x c.w (le_of_lt hr.width.1) hr.right (le_of_lt hc.width.1)
    hm.1.2
  unfold rechts
  by_cases hle : (r.x + r.w - c.x).sle c.w = true
  · rw [if_pos hle]
    exact (if_neg (hside.1.mp hle)).symm
  · have hpos := not_not.mp (mt hside.1.mpr hle)
    have hlt : (toRect c).right < (toRect r).right ∧ (toRect r).right - (toRect c).left < 2 ^ 15 :=
      hpos
    rw [if_neg hle, if_pos hlt, Option.toList_some, List.map_singleton, cwo_toRect hc hr hm,
      hside.2 hpos, hc.far.1]
    simp only [List.cons.injEq, and_true, Rect.behind, Rect.mk.injEq, true_and, toRect]
    omega

theorem unten_toRect (hc : Sound c) (hr : Sound r) (hm : (toRect c).Meets (toRect r)) :
    (unten c r).toList.map toRect =
      if (toRect c).bottom < (toRect r).bottom ∧ (toRect r).bottom - (toRect c).top < 2 ^ 15 then
        [(toRect c).below (toRect r)] else [] := by
  have hside := farSide r.y r.h c.y c.h (le_of_lt hr.width.2) hr.bottom (le_of_lt hc.width.2)
    hm.2.2
  have hfar := hc.far.2
  unfold unten
  by_cases hle : (r.y + r.h - c.y).sle c.h = true
  · rw [if_pos hle]
    exact (if_neg (hside.1.mp hle)).symm
  · have hpos := not_not.mp (mt hside.1.mpr hle)
    have hlt : (toRect c).bottom < (toRect r).bottom ∧
        (toRect r).bottom - (toRect c).top < 2 ^ 15 := hpos
    rw [if_neg hle, if_pos hlt, Option.toList_some, List.map_singleton]
    simp only [List.cons.injEq, and_true, Rect.below, Rect.mk.injEq, true_and, toRect,
      hside.2 hpos]
    dsimp only [toRect] at hfar
    omega

/-- The code cuts as it does in whole numbers. -/
theorem overlaps_toRect (hc : Sound c) (hr : Sound r) :
    (overlaps c r).map toRect = wordCut (toRect c) (toRect r) := by
  by_cases hm : (toRect c).Meets (toRect r)
  · have hap : ¬apart c r = true := fun e => (apart_eq hc hr).mp e hm
    rw [overlaps, if_neg hap, wordCut, if_pos hm, List.map_append, List.map_append, List.map_append,
      oben_toRect hm, links_toRect hc hr hm, rechts_toRect hc hr hm, unten_toRect hc hr hm]
  · rw [overlaps, if_pos ((apart_eq hc hr).mpr hm), wordCut, if_neg hm]
    rfl

/-! ## Points that are left -/

theorem wordCut_sublist (c r : Rect Int) : (wordCut c r).Sublist (c.cut r) := by
  have hless : ∀ (a b : Prop) [Decidable a] [Decidable b] (q : Rect Int),
      (if a ∧ b then [q] else []).Sublist (if a then [q] else []) := by
    intro a b _ _ q
    by_cases ha : a
    · by_cases hb : b
      · rw [if_pos ⟨ha, hb⟩, if_pos ha]
      · rw [if_neg fun h => hb h.2]
        exact List.nil_sublist _
    · rw [if_neg fun h => ha h.1]
      exact List.nil_sublist _
  unfold wordCut Rect.cut
  split
  · exact ((List.Sublist.refl _).append (hless _ _ _)).append (hless _ _ _)
  · exact List.Sublist.refl _

theorem wordCut_cutter (c : Rect Int) (hc : c.Full) :
    Cutter Rect.Has Rect.Has Rect.Full Rect.tile wordCut c :=
  (Rect.cut_cutter hc).sublist (wordCut_sublist c)

theorem mem_wordCut {c r q : Rect Int} (h : c.Meets r) : q ∈ wordCut c r ↔
    (r.top < c.top ∧ q = c.above r) ∨ (r.left < c.left ∧ q = c.before r) ∨
      ((c.right < r.right ∧ r.right - c.left < 2 ^ 15) ∧ q = c.behind r) ∨
      (c.bottom < r.bottom ∧ r.bottom - c.top < 2 ^ 15) ∧ q = c.below r := by
  rw [wordCut, if_pos h]
  simp only [List.mem_append, List.mem_ite_nil_right, List.mem_singleton, or_assoc]

theorem tile_mem_wordCut {c r : Rect Int} {p : Int × Int} (hr : r.Has p) (hp : ¬c.Has p)
    (hc : c.Full) : c.tile r p ∈ wordCut c r ↔ (c.Meets r →
      if c.bottom ≤ p.2 then r.bottom - c.top < 2 ^ 15
        else c.top ≤ p.2 → c.right ≤ p.1 → r.right - c.left < 2 ^ 15) := by
  have hc1 := hc.1
  have hc2 := hc.2
  by_cases hm : c.Meets r
  · have htile := (Rect.mem_cut hm).mp (Rect.tile_mem_cut hr hp)
    rw [mem_wordCut hm]
    have hm1 := hm.1
    have hm2 := hm.2
    have hr1 := hr.1
    have hr2 := hr.2
    unfold Rect.tile
    rw [if_pos hm]
    by_cases htop : p.2 < c.top
    · rw [if_pos htop, if_neg (by omega)]
      exact ⟨fun _ _ h => absurd htop (by omega), fun _ => .inl ⟨by omega, rfl⟩⟩
    rw [if_neg htop]
    by_cases hbot : c.bottom ≤ p.2
    · rw [if_pos hbot, if_pos hbot]
      constructor
      · intro h _
        rcases h with ⟨_, h⟩ | ⟨_, h⟩ | ⟨_, h⟩ | ⟨h, _⟩
        · have := congrArg Rect.bottom h
          dsimp only [Rect.above, Rect.below] at this
          omega
        · have := congrArg Rect.top h
          dsimp only [Rect.before, Rect.below] at this
          omega
        · have := congrArg Rect.top h
          dsimp only [Rect.behind, Rect.below] at this
          omega
        · exact h.2
      · intro h
        exact .inr (.inr (.inr ⟨⟨by omega, h hm⟩, rfl⟩))
    rw [if_neg hbot, if_neg hbot]
    by_cases hleft : p.1 < c.left
    · rw [if_pos hleft]
      exact ⟨fun _ _ _ h => absurd hleft (by omega), fun _ => .inr (.inl ⟨by omega, rfl⟩)⟩
    rw [if_neg hleft]
    -- Within the rows of the cutter and not before it, so behind it.
    have hright : c.right ≤ p.1 := by
      by_contra hlt
      exact hp ⟨⟨by omega, by omega⟩, by omega, by omega⟩
    constructor
    · intro h _ _ _
      rcases h with ⟨_, h⟩ | ⟨_, h⟩ | ⟨h, _⟩ | ⟨_, h⟩
      · have := congrArg Rect.left h
        dsimp only [Rect.above, Rect.behind] at this
        omega
      · have := congrArg Rect.left h
        dsimp only [Rect.before, Rect.behind] at this
        omega
      · exact h.2
      · have := congrArg Rect.left h
        dsimp only [Rect.below, Rect.behind] at this
        omega
    · intro h
      exact .inr (.inr (.inl ⟨⟨by omega, h hm (by omega) hright⟩, rfl⟩))
  · rw [wordCut, if_neg hm, Rect.tile, if_neg hm, List.mem_singleton]
    exact ⟨fun _ h => absurd h hm, fun _ => rfl⟩

theorem kept_iff (p : Int × Int) (cs : List (Rect Int)) (r : Rect Int) (hcs : ∀ c ∈ cs, c.Full)
    (hr : r.Has p) (hp : ∀ c ∈ cs, ¬c.Has p) :
    Kept Rect.tile wordCut p cs r ↔ InReach p cs r := by
  induction cs generalizing r with
  | nil => exact Iff.rfl
  | cons c cs ih =>
    have hc := hp c List.mem_cons_self
    refine and_congr (tile_mem_wordCut hr hc (hcs c List.mem_cons_self)) ?_
    exact ih _ (fun d hd => hcs d (List.mem_cons_of_mem _ hd)) (Rect.tile_has hr hc)
      fun d hd => hp d (List.mem_cons_of_mem _ hd)

theorem wordCut_has (p : Int × Int) (cs : List (Rect Int)) (r : Rect Int)
    (hcs : ∀ c ∈ cs, c.Full) (hr : r.Full) : (∃ q ∈ cutAll wordCut cs [r], q.Has p) ↔
      r.Has p ∧ (∀ c ∈ cs, ¬c.Has p) ∧ InReach p cs r := by
  rw [cutAll_has cs r p (fun c hc => wordCut_cutter c (hcs c hc)) hr]
  constructor
  · intro h
    exact ⟨h.1, h.2.1, (kept_iff p cs r hcs h.1 h.2.1).mp h.2.2⟩
  · intro h
    exact ⟨h.1, h.2.1, (kept_iff p cs r hcs h.1 h.2.1).mpr h.2.2⟩

/-! ## Rectangles as the code has them -/

theorem overlaps_sound (hc : Sound c) (hr : Sound r) : ∀ q ∈ overlaps c r, Sound q := by
  intro q hq
  have hmem : toRect q ∈ wordCut (toRect c) (toRect r) := by
    rw [← overlaps_toRect hc hr]
    exact List.mem_map_of_mem hq
  have hcut := (wordCut_sublist _ _).subset hmem
  have hfull := Rect.cut_full hc.full hr.full hcut
  have hlast : (toRect q).Has ((toRect q).right - 1, (toRect q).bottom - 1) := by
    have h1 := hfull.1
    have h2 := hfull.2
    exact ⟨⟨by omega, by omega⟩, by omega, by omega⟩
  have hpart := Rect.cut_part hcut hlast
  have hright := hpart.1.2
  have hbottom := hpart.2.2
  have hr1 := hr.right
  have hr2 := hr.bottom
  dsimp only at hright hbottom
  exact ⟨hfull, by omega, by omega⟩

theorem cutAll_toRect (cs : List Grect) (hcs : ∀ c ∈ cs, Sound c) (hr : Sound r) :
    (cutAll overlaps cs [r]).map toRect = cutAll wordCut (cs.map toRect) [toRect r] :=
  cutAll_map toRect toRect Sound cs [r] (by simpa using hr)
    (fun d hd _ hs => overlaps_sound (hcs d hd) hs)
    fun d hd _ hs => overlaps_toRect (hcs d hd) hs

theorem cutAll_sound (cs : List Grect) (l : List Grect) (hcs : ∀ c ∈ cs, Sound c)
    (hl : ∀ g ∈ l, Sound g) : ∀ g ∈ cutAll overlaps cs l, Sound g := by
  induction cs generalizing l with
  | nil => exact hl
  | cons c cs ih =>
    refine ih _ (fun d hd => hcs d (List.mem_cons_of_mem _ hd)) fun q hq => ?_
    rcases List.mem_flatMap.mp hq with ⟨g, hg, hqg⟩
    exact overlaps_sound (hcs c List.mem_cons_self) (hl g hg) q hqg

theorem cutAll_overlaps_disjoint (cs : List Grect) (hcs : ∀ c ∈ cs, Sound c) (hr : Sound r) :
    (cutAll overlaps cs [r]).Pairwise (Apart Grect.Has) := by
  have hfull : ∀ d ∈ cs.map toRect, d.Full := by
    intro d hd
    rcases List.mem_map.mp hd with ⟨g, hg, rfl⟩
    exact (hcs g hg).full
  have hdis := cutAll_disjoint (cs.map toRect) [toRect r]
    (fun d hd => wordCut_cutter d (hfull d hd)) (by simpa using hr.full)
    (List.pairwise_singleton _ _)
  rw [← cutAll_toRect cs hcs hr] at hdis
  have hpair := List.pairwise_map.mp hdis
  exact hpair

theorem cutAll_overlaps_has (p : Int × Int) (cs : List Grect) (hcs : ∀ c ∈ cs, Sound c)
    (hr : Sound r) : (∃ q ∈ cutAll overlaps cs [r], q.Has p) ↔
      r.Has p ∧ (∀ c ∈ cs, ¬c.Has p) ∧ InReach p (cs.map toRect) (toRect r) := by
  have hfull : ∀ d ∈ cs.map toRect, d.Full := by
    intro d hd
    rcases List.mem_map.mp hd with ⟨g, hg, rfl⟩
    exact (hcs g hg).full
  have hhas := wordCut_has p (cs.map toRect) (toRect r) hfull hr.full
  rw [← cutAll_toRect cs hcs hr] at hhas
  simp only [List.mem_map, exists_exists_and_eq_and, forall_exists_index, and_imp,
    forall_apply_eq_imp_iff₂] at hhas
  exact hhas

theorem cutAll_apart (cs : List Grect) (g : Grect) (hcs : ∀ c ∈ cs, apart c g = true) :
    cutAll overlaps cs [g] = [g] := by
  induction cs with
  | nil => rfl
  | cons c cs ih =>
    rw [cutAll, List.flatMap_singleton, overlaps, if_pos (hcs c List.mem_cons_self)]
    exact ih fun d hd => hcs d (List.mem_cons_of_mem _ hd)

theorem apart_iff (hc : Sound c) (hr : Sound r) :
    apart c r = false ↔ ∃ p, r.Has p ∧ c.Has p := by
  have hcf := hc.full
  have hrf := hr.full
  rw [← Bool.not_eq_true, apart_eq hc hr, not_not]
  constructor
  · intro h
    have h1 := h.1
    have h2 := h.2
    refine ⟨(max (toRect c).left (toRect r).left, max (toRect c).top (toRect r).top), ?_, ?_⟩
    · exact ⟨⟨le_max_right _ _, max_lt h1.2 hrf.1⟩, le_max_right _ _, max_lt h2.2 hrf.2⟩
    · exact ⟨⟨le_max_left _ _, max_lt hcf.1 h1.1⟩, le_max_left _ _, max_lt hcf.2 h2.1⟩
  · intro h
    rcases h with ⟨p, hrp, hcp⟩
    exact Rect.meets_of_has hcp hrp

end Win

end Aes

end MagiC
