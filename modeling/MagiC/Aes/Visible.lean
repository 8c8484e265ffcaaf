import MagiC.Aes.Rebuild

/-!
# Rectangle Lists Are the Visible Regions

`build_new_wgs` and `get_visb_wg` for any stack of windows.

After `build_new_wgs` the list of a window is made of disjoint rectangles. They
cover what can be seen of the window, as long as no point of it gets lost where
a difference of edges is not a word, see `InReach`.

An application gets the rectangles cut by its work area, so it gets what can be
seen of that under the same condition.

## Main definitions

* `Exact`: The lists, the bits and the rectangles an application gets are as
  they should be.

## Theorems

* `visible_exact`: The lists are exact if and only if no visible point gets
  lost.
-/

namespace MagiC

namespace Aes

namespace Win

open Chains Msg Tiling

/-- The far edges are words. -/
structure Spans (g : Grect) : Prop where
  xlow : -2 ^ 15 ≤ g.x.toInt + g.w.toInt
  xhigh : g.x.toInt + g.w.toInt < 2 ^ 15
  ylow : -2 ^ 15 ≤ g.y.toInt + g.h.toInt
  yhigh : g.y.toInt + g.h.toInt < 2 ^ 15

/-- The windows are different, the desktop is the last one, and only windows in
    the stack have rectangles. The outline of a window that is not empty is not
    empty, since `_wbm_ssize` makes it from `w_curr` and a shadow. -/
structure Ready (s : Screen) (pool : List Nat) : Prop where
  stack : ∃ pre, s.whdlx = pre ++ [0] ∧ 0 ∉ pre
  nodup : (s.whdlx.map (· &&& 0x7fff)).Nodup
  wnd : ∀ e ∈ s.whdlx, (whdlToWnd s (e &&& 0x7fff)).isSome
  lists : ∃ L, Rep s.link pool L ∧ ∀ w, w ∉ s.whdlx.map (· &&& 0x7fff) → L (.wg w) = []
  sound : ∀ e ∈ s.whdlx, ∀ g, outline s e = some g → Sound g
  work : ∀ e ∈ s.whdlx, ∀ w, whdlToWnd s (e &&& 0x7fff) = some w → Spans w.wWork

/-- A point of a window that is on the screen, and of no window above it. -/
def VisibleAt (s : Screen) (v : BitVec 16) (p : Int × Int) : Prop :=
  ∃ g, outline s v = some g ∧ g.Has p ∧ ∀ c ∈ uppers s s.whdlx v, ¬c.Has p

/-- `WF_NEXTXYWH` as long as the rectangle before was not empty. -/
def redrawLoop (fuel : Nat) (whdl : BitVec 16) (w : Window) :
    Nat → Grect × Screen → Except Stop (List Grect)
  | 0, _ => .error .fuel
  | n + 1, r =>
    if r.1.w = 0 then .ok []
    else (wfNext fuel whdl w r.1 r.2).bind fun r' => (redrawLoop fuel whdl w n r').map (r.1 :: ·)

/-- The rectangles an application gets, up to the empty one. -/
def delivered (fuel n : Nat) (whdl : BitVec 16) (w : Window) (ret : Grect) (s : Screen) :
    Except Stop (List Grect) :=
  (wfFirst fuel whdl w ret s).bind (redrawLoop fuel whdl w n)

/-- The list of each window is made of disjoint rectangles that cover what can
    be seen of it, the bit for covered windows is right, and an application
    gets what can be seen of the work area. -/
structure Exact (s s' : Screen) (pool : List Nat) : Prop where
  lists : ∃ L, Rep s'.link pool L ∧
    (∀ v, (v ∈ s.whdlx → outline s v = none) → L (.wg v) = []) ∧
    ∀ v ∈ s.whdlx, ∀ g, outline s v = some g →
      (∀ q ∈ rects s' (L (.wg v)), (toRect q).Full) ∧
      (rects s' (L (.wg v))).Pairwise (Apart Grect.Has) ∧
      ∀ p, (∃ q ∈ rects s' (L (.wg v)), q.Has p) ↔ VisibleAt s v p
  covered : ∀ e ∈ s.whdlx, s'.covered (e &&& 0x7fff) = true ↔
    ∃ g, outline s e = some g ∧ ∃ c ∈ uppers s s.whdlx e, ∃ p, g.Has p ∧ c.Has p
  drawn : ∀ e ∈ s.whdlx, ∀ w, whdlToWnd s (e &&& 0x7fff) = some w →
    ∀ fuel n ret, pool.length < fuel → pool.length < n →
      ∃ l, delivered fuel n (e &&& 0x7fff) w ret s' = .ok l ∧ l.Pairwise (Apart Grect.Has) ∧
        ∀ p, (∃ q ∈ l, q.Has p) ↔ w.wWork.Has p ∧ VisibleAt s e p

/-- No visible point gets lost: going upwards from a window, the rectangle left
    around the point never ends `2 ^ 15` or more behind the near edge of a
    window that the point is behind. -/
def NoneLost (s : Screen) : Prop :=
  ∀ v ∈ s.whdlx, ∀ g, outline s v = some g → ∀ p, g.Has p →
    (∀ c ∈ uppers s s.whdlx v, ¬c.Has p) →
    InReach p ((uppers s s.whdlx v).map toRect) (toRect g)

/-- No window ends `2 ^ 15` or more behind the near edge of one above it. -/
def nearby (s : Screen) : Bool :=
  s.whdlx.all fun v => (outline s v).all fun g => (uppers s s.whdlx v).all fun c =>
    (toRect g).right - (toRect c).left < 2 ^ 15 ∧ (toRect g).bottom - (toRect c).top < 2 ^ 15

/-! ## After the rebuild -/

/-- The lists after `build_new_wgs`. -/
structure Done (s : Screen) (pool : List Nat) (s' : Screen) (L : Root → List Nat) : Prop where
  rep : Rep s'.link pool L
  list : ∀ v ∈ s.whdlx, ∀ g, outline s v = some g →
    rects s' (L (.wg v)) = cutAll overlaps (uppers s s.whdlx v) [g]
  empty : ∀ v, (v ∈ s.whdlx → outline s v = none) → L (.wg v) = []
  covered : ∀ e ∈ s.whdlx, s'.covered (e &&& 0x7fff) = true ↔
    ∃ g, outline s e = some g ∧ ((uppers s s.whdlx e).any fun c => !apart c g) = true

theorem mask_of_msb {e : BitVec 16} (h : e.msb = false) : e &&& 0x7fff = e := by
  have hlt := BitVec.msb_eq_false_iff_two_mul_lt.mp h
  refine BitVec.eq_of_toNat_eq ?_
  rw [BitVec.toNat_and, show (0x7fff : BitVec 16).toNat = 2 ^ 15 - 1 by decide,
    Nat.and_two_pow_sub_one_eq_mod]
  omega

theorem mask_msb (e : BitVec 16) : (e &&& 0x7fff).msb = false := by
  rw [BitVec.msb_and]
  exact Bool.and_false _

theorem uppers_congr {s s' : Screen} (ws : List (BitVec 16)) (v : BitVec 16)
    (h : ∀ e, outline s' e = outline s e) : uppers s' ws v = uppers s ws v := by
  rw [uppers, uppers]
  exact List.filterMap_congr fun e _ => h e

theorem buildNewWgs_spec {s : Screen} {pool : List Nat} {fuel : Nat} (h : Ready s pool)
    (hfuel : pool.length < fuel) :
    Gives (buildNewWgs fuel s) fun s' => ∃ L, Done s pool s' L := by
  rcases h.stack with ⟨pre, hstack, hpre⟩
  rcases trim_spec pre hpre with ⟨pre', htrim, hperm, hthaw⟩
  rcases h.lists with ⟨L, hrep, hnone⟩
  have hpre' : 0 ∉ pre' := fun e => hpre (hperm.mem_iff.mp e)
  have hmem : ∀ e, e ∈ pre' ++ [0] ↔ e ∈ s.whdlx := by
    intro e
    rw [hstack, List.mem_append, List.mem_append, hperm.mem_iff]
  have hnd : (pre ++ [0]).Nodup := List.Nodup.of_map _ (hstack ▸ h.nodup)
  have hnd' : pre'.Nodup := hperm.nodup_iff.mpr (List.nodup_append.mp hnd).1
  unfold buildNewWgs
  rw [hstack, htrim]
  refine gives_bind (bnwWgfreeloop_spec pre' (s := { s with whdlx := pre' ++ [0] }) hrep hfuel hpre'
    fun e he => h.wnd e ((hmem e).mp he)) fun s1 hs1 => ?_
  rcases hs1 with ⟨L1, hfreed⟩
  have hmask : ∀ e, e ∈ (pre' ++ [0]).map (· &&& 0x7fff) ↔ e ∈ s.whdlx.map (· &&& 0x7fff) := by
    intro e
    simp only [List.mem_map, hmem]
  have hL1 : ∀ w, L1 (.wg w) = [] := by
    intro w
    by_cases hw : w ∈ s.whdlx.map (· &&& 0x7fff)
    · exact hfreed.list w (.inr ((hmask w).mpr hw))
    · exact hfreed.list w (.inl (hnone w hw))
  have hclear : ∀ e ∈ s.whdlx, s1.covered (e &&& 0x7fff) = false := fun e he =>
    hfreed.clear _ (.inr ((hmask _).mpr (List.mem_map_of_mem he)))
  have hout : ∀ e, outline s1 e = outline s e := fun e =>
    outline_congr (hfreed.nwindows) (hfreed.windx)
  have hupp : ∀ v, v.msb = false → uppers s1 (pre' ++ [0]) v = uppers s s.whdlx v := by
    intro v hv
    rw [uppers_congr _ v hout, ← uppers_thawed _ hv, ← uppers_thawed s.whdlx hv, hstack]
    rw [thawed, thawed, List.filter_append, List.filter_append]
    rw [thawed, thawed] at hthaw
    rw [hthaw]
  refine gives_mono (bnwSwgloop_spec pre' hfreed.rep hL1 hfuel hpre' hnd' (fun w hw hm => ?_)
    fun w hw hm => ?_) fun s' hs' => ?_
  · have hwnd := h.wnd w ((hmem w).mp hw)
    rw [mask_of_msb hm] at hwnd
    rw [whdlToWnd, hfreed.nwindows, hfreed.windx]
    exact hwnd
  · have hc := hclear w ((hmem w).mp hw)
    rwa [mask_of_msb hm] at hc
  rcases hs' with ⟨L', hb⟩
  refine ⟨L', hb.rep, fun v hv g hg => ?_, fun v hv => ?_, fun e he => ?_⟩
  · rw [hb.list v ((hmem v).mpr hv) g ((hout v).trans hg), hupp v (outline_msb hg)]
  · exact hb.empty v fun e => (hout v).trans (hv ((hmem v).mp e))
  · cases hg : outline s e with
    | some g =>
      have hm := outline_msb hg
      rw [mask_of_msb hm, hb.sets e ((hmem e).mpr he) g ((hout e).trans hg), hupp e hm]
      constructor
      · intro hany
        exact ⟨g, rfl, hany⟩
      · intro hany
        rcases hany with ⟨g', hg', hany⟩
        cases hg'
        exact hany
    | none =>
      -- The window of a frozen handle has no other handle in the stack.
      have hnot : e &&& 0x7fff ∈ pre' ++ [0] → outline s1 (e &&& 0x7fff) = none := by
        intro hin
        have hinj := List.inj_on_of_nodup_map h.nodup ((hmem _).mp hin) he
          (mask_of_msb (mask_msb e))
        rw [hinj, hout, hg]
      rw [hb.covered _ hnot, hclear e he]
      constructor
      · intro hf
        cases hf
      · intro hex
        rcases hex with ⟨g, hg', _⟩
        cases hg'

/-! ## What an application gets -/

theorem meetAxis_spec {x0 w0 x1 w1 : BitVec 16} (hlow : -2 ^ 15 ≤ x0.toInt + w0.toInt)
    (hhigh : x0.toInt + w0.toInt < 2 ^ 15) (hw1 : 0 ≤ w1.toInt)
    (hfar : x1.toInt + w1.toInt < 2 ^ 15) :
    (meetSpan x0 w0 x1 w1 = true ↔
      max x0.toInt x1.toInt < min (x0.toInt + w0.toInt) (x1.toInt + w1.toInt)) ∧
    (meetSpan x0 w0 x1 w1 = true → (meetAxis x0 w0 x1 w1).1.toInt = max x0.toInt x1.toInt ∧
      (meetAxis x0 w0 x1 w1).1.toInt + (meetAxis x0 w0 x1 w1).2.toInt =
        min (x0.toInt + w0.toInt) (x1.toInt + w1.toInt)) := by
  have h0 : (x0 + w0).toInt = x0.toInt + w0.toInt := by
    rw [BitVec.toInt_add]
    exact Int.bmod_eq_of_le (by omega) (by omega)
  have h1 := toInt_add_of_lt hw1 hfar
  have hleft : (if x1.slt x0 then x0 else x1).toInt = max x0.toInt x1.toInt := by
    by_cases hlt : x1.slt x0 = true
    · rw [if_pos hlt]
      rw [BitVec.slt_iff_toInt_lt] at hlt
      omega
    · rw [if_neg hlt]
      rw [BitVec.slt_iff_toInt_lt] at hlt
      omega
  have hright : (if (x0 + w0).slt (x1 + w1) then x0 + w0 else x1 + w1).toInt =
      min (x0.toInt + w0.toInt) (x1.toInt + w1.toInt) := by
    by_cases hlt : (x0 + w0).slt (x1 + w1) = true
    · rw [if_pos hlt]
      rw [BitVec.slt_iff_toInt_lt] at hlt
      omega
    · rw [if_neg hlt]
      rw [BitVec.slt_iff_toInt_lt] at hlt
      omega
  have hiff : meetSpan x0 w0 x1 w1 = true ↔
      max x0.toInt x1.toInt < min (x0.toInt + w0.toInt) (x1.toInt + w1.toInt) := by
    unfold meetSpan
    dsimp only
    rw [BitVec.slt_iff_toInt_lt, hleft, hright]
  refine ⟨hiff, fun h => ?_⟩
  have hlt := hiff.mp h
  have hw : w1.toInt < 2 ^ 15 := BitVec.toInt_lt
  unfold meetAxis
  dsimp only
  have hsub := toInt_sub_of_lt
    (x := if (x0 + w0).slt (x1 + w1) then x0 + w0 else x1 + w1)
    (y := if x1.slt x0 then x0 else x1) (by rw [hleft, hright]; omega)
    (by rw [hleft, hright]; omega)
  rw [hsub, hleft, hright]
  omega

theorem meet_spec {src dst : Grect} (hs : Spans src) (hd : Sound dst) :
    ((meet src dst).2 = true → (meet src dst).1.w ≠ 0 ∧
      ∀ p, (meet src dst).1.Has p ↔ src.Has p ∧ dst.Has p) ∧
    ((meet src dst).2 = false → ∀ p, src.Has p → ¬dst.Has p) := by
  have hx := meetAxis_spec hs.xlow hs.xhigh (le_of_lt hd.width.1) hd.right
  have hy := meetAxis_spec hs.ylow hs.yhigh (le_of_lt hd.width.2) hd.bottom
  constructor
  · intro h
    rcases (Bool.and_eq_true _ _ ▸ h : meetSpan src.x src.w dst.x dst.w = true ∧
      meetSpan src.y src.h dst.y dst.h = true) with ⟨h1, h2⟩
    have hx1 := hx.1.mp h1
    have hx2 := hx.2 h1
    have hy2 := hy.2 h2
    constructor
    · intro h0
      have hw : (meetAxis src.x src.w dst.x dst.w).2.toInt = 0 := by
        rw [show (meetAxis src.x src.w dst.x dst.w).2 = 0 from h0]
        rfl
      omega
    · intro p
      unfold meet Grect.Has
      dsimp only
      omega
  · intro h p hsp hdp
    unfold Grect.Has at hsp hdp
    have h1 := hx.1.mpr (by omega)
    have h2 := hy.1.mpr (by omega)
    have htrue : (meet src dst).2 = true := by
      unfold meet
      dsimp only
      rw [h1, h2]
      rfl
    rw [h] at htrue
    cases htrue

/-- The rectangles of a list that reach into the work area, cut by it. -/
def inWork (work : Grect) (l : List Grect) : List Grect :=
  l.filterMap fun g => if (meet work g).2 then some (meet work g).1 else none

section

variable {s : Screen}

theorem getVisbWg_spec (work : Grect) {p : Cell Root Nat} (l : List Nat) (fuel : Nat) (ret : Grect)
    (next : Nat) (hon : On s.link 0 p l) (hfuel : l.length < fuel) :
    (inWork work (rects s l) = [] ∧ ∃ ret' next',
      getVisbWg s work fuel (s.link p) ret next = .ok (ret', next') ∧ ret'.w = 0) ∨
    ∃ u a x, l = u ++ a :: x ∧ (meet work (s.grect a)).2 = true ∧
      inWork work (rects s l) = (meet work (s.grect a)).1 :: inWork work (rects s x) ∧
      getVisbWg s work fuel (s.link p) ret next =
        .ok ((meet work (s.grect a)).1, s.link (.elem a)) := by
  induction l generalizing p fuel ret next with
  | nil =>
    rcases Nat.exists_eq_succ_of_ne_zero (Nat.ne_of_gt hfuel) with ⟨f, rfl⟩
    rw [getVisbWg, if_pos (on_nil.mp hon)]
    exact .inl ⟨rfl, _, _, rfl, rfl⟩
  | cons a l ih =>
    rcases Nat.exists_eq_succ_of_ne_zero (Nat.ne_of_gt (Nat.zero_lt_of_lt hfuel)) with ⟨f, rfl⟩
    have hx := (on_cons a).mp hon
    rw [getVisbWg, hx.1, if_neg hx.2.1]
    dsimp only
    by_cases hm : (meet work (s.grect a)).2 = true
    · rw [if_pos hm]
      have hhead : inWork work (rects s (a :: l)) =
          (meet work (s.grect a)).1 :: inWork work (rects s l) :=
        List.filterMap_cons_some (if_pos hm)
      exact .inr ⟨[], a, l, rfl, hm, hhead, rfl⟩
    · rw [if_neg hm]
      have hskip : inWork work (rects s (a :: l)) = inWork work (rects s l) :=
        List.filterMap_cons_none (if_neg hm)
      rw [hskip]
      rcases ih f (meet work (s.grect a)).1 (s.link (.elem a)) hx.2.2
        (Nat.lt_of_succ_lt_succ hfuel) with h | ⟨u, b, x, hl, hb, hin, hget⟩
      · exact .inl h
      · refine .inr ⟨a :: u, b, x, ?_, hb, hin, hget⟩
        rw [hl]
        rfl

theorem bind_map_ok {ε α β γ : Type} {x : Except ε α} {f : α → Except ε β} {g : β → γ} {b : β}
    (h : x.bind f = .ok b) : (x.bind fun a => (f a).map g) = .ok (g b) := by
  cases x with
  | error e => cases h
  | ok a =>
    rw [Except.bind] at h ⊢
    rw [h]
    rfl

theorem visb_spec (whdl : BitVec 16) (w : Window) (hs : Spans w.wWork) (fuel : Nat) :
    ∀ (n : Nat) (l : List Nat) (p : Cell Root Nat) (s : Screen) (ret : Grect),
      On s.link 0 p l → (∀ g ∈ rects s l, Sound g) → l.length < fuel → l.length < n →
      (visb fuel whdl w (s.link p) ret s).bind (redrawLoop fuel whdl w n) =
        .ok (inWork w.wWork (rects s l)) := by
  intro n
  induction n with
  | zero =>
    intro l _ _ _ _ _ _ hn
    exact absurd hn (Nat.not_lt_zero _)
  | succ n ih =>
    intro l p s ret hon hsound hfuel hn
    rcases getVisbWg_spec w.wWork l fuel ret (s.nextwg whdl) hon hfuel with
      ⟨hin, ret', next', hget, hw⟩ | ⟨u, a, x, hl, hm, hin, hget⟩
    · rw [visb, hget, hin]
      simp only [Except.map, Except.bind, redrawLoop, hw, if_pos]
    · have hlen := congrArg List.length hl
      rw [List.length_append, List.length_cons] at hlen
      have ha : Sound (s.grect a) := hsound _ (List.mem_map_of_mem (hl ▸ by simp))
      have hw := ((meet_spec hs ha).1 hm).1
      have hrest : On s.link 0 (.elem a) x :=
        ((on_cons a).mp (on_behind u (a :: x) (hl ▸ hon))).2.2
      have hsx : ∀ g ∈ rects s x, Sound g := by
        intro g hg
        rcases List.mem_map.mp hg with ⟨b, hb, rfl⟩
        refine hsound _ (List.mem_map_of_mem ?_)
        rw [hl]
        exact List.mem_append_right _ (List.mem_cons_of_mem _ hb)
      -- The next call starts behind the rectangle that was found.
      have hnext := ih x (.elem a)
        { s with nextwg := Function.update s.nextwg whdl (s.link (.elem a)) }
        (meet w.wWork (s.grect a)).1 hrest hsx (by omega) (by omega)
      have hstart : visb fuel whdl w (s.link p) ret s = .ok ((meet w.wWork (s.grect a)).1,
          { s with nextwg := Function.update s.nextwg whdl (s.link (.elem a)) }) := by
        rw [visb, hget]
        rfl
      rw [hstart, hin, Except.bind, redrawLoop, if_neg hw, wfNext]
      dsimp only
      rw [Function.update_self]
      exact bind_map_ok hnext

/-- The rectangles an application gets are those of the list in its work area. -/
theorem delivered_spec {pool : List Nat} {L : Root → List Nat} (hrep : Rep s.link pool L)
    (whdl : BitVec 16) (w : Window) (hs : Spans w.wWork)
    (hsound : ∀ g ∈ rects s (L (.wg whdl)), Sound g) (fuel n : Nat) (ret : Grect)
    (hfuel : pool.length < fuel) (hn : pool.length < n) :
    delivered fuel n whdl w ret s = .ok (inWork w.wWork (rects s (L (.wg whdl)))) :=
  visb_spec whdl w hs fuel n (L (.wg whdl)) (.head (.wg whdl)) s ret (hrep.lists.on _) hsound
    (lt_of_le_of_lt (hrep.length _) hfuel) (lt_of_le_of_lt (hrep.length _) hn)

theorem inWork_spec {work : Grect} (hs : Spans work) {l : List Grect} (hl : ∀ g ∈ l, Sound g)
    (hd : l.Pairwise (Apart Grect.Has)) : (inWork work l).Pairwise (Apart Grect.Has) ∧
      ∀ p, (∃ q ∈ inWork work l, q.Has p) ↔ work.Has p ∧ ∃ g ∈ l, g.Has p := by
  constructor
  · refine List.pairwise_filterMap.mpr (hd.imp_of_mem ?_)
    intro g g' hg hg' hgg q hq q' hq' p hp hp'
    rcases Option.ite_none_right_eq_some.mp hq with ⟨hm, hq⟩
    rcases Option.ite_none_right_eq_some.mp hq' with ⟨hm', hq'⟩
    rw [← Option.some.inj hq] at hp
    rw [← Option.some.inj hq'] at hp'
    exact hgg p (((meet_spec hs (hl g hg)).1 hm).2 p |>.mp hp).2
      (((meet_spec hs (hl g' hg')).1 hm').2 p |>.mp hp').2
  · intro p
    constructor
    · intro h
      rcases h with ⟨q, hq, hp⟩
      rcases List.mem_filterMap.mp hq with ⟨g, hg, hgq⟩
      rcases Option.ite_none_right_eq_some.mp hgq with ⟨hm, hgq⟩
      rw [← Option.some.inj hgq] at hp
      have hboth := ((meet_spec hs (hl g hg)).1 hm).2 p |>.mp hp
      exact ⟨hboth.1, g, hg, hboth.2⟩
    · intro h
      rcases h with ⟨hw, g, hg, hp⟩
      cases hm : (meet work g).2 with
      | false => exact absurd hp ((meet_spec hs (hl g hg)).2 hm p hw)
      | true =>
        refine ⟨_, List.mem_filterMap.mpr ⟨g, hg, if_pos hm⟩, ?_⟩
        exact ((meet_spec hs (hl g hg)).1 hm).2 p |>.mpr ⟨hw, hp⟩

/-! ## Exactness -/

theorem exact_iff {pool : List Nat} {s' : Screen} {L : Root → List Nat} (h : Ready s pool)
    (hd : Done s pool s' L) : Exact s s' pool ↔ NoneLost s := by
  have hcs : ∀ v, ∀ c ∈ uppers s s.whdlx v, Sound c := by
    intro v c hc
    rcases List.mem_filterMap.mp hc with ⟨e, he, hce⟩
    exact h.sound e ((List.takeWhile_subset _) (List.mem_reverse.mp he)) c hce
  constructor
  · intro hex v hv g hg p hp hnot
    rcases hex.lists with ⟨L2, hrep2, _, hlist⟩
    have hsame : L2 (.wg v) = L (.wg v) :=
      linked_unique (hrep2.lists.on (.wg v)) (hd.rep.lists.on (.wg v))
    have hcover := ((hlist v hv g hg).2.2 p).mpr ⟨g, hg, hp, hnot⟩
    rw [hsame, hd.list v hv g hg] at hcover
    exact ((cutAll_overlaps_has p _ (hcs v) (h.sound v hv g hg)).mp hcover).2.2
  · intro hnone
    have hvis : ∀ v ∈ s.whdlx, ∀ g, outline s v = some g →
        ∀ p, (∃ q ∈ rects s' (L (.wg v)), q.Has p) ↔ VisibleAt s v p := by
      intro v hv g hg p
      rw [hd.list v hv g hg, cutAll_overlaps_has p _ (hcs v) (h.sound v hv g hg)]
      constructor
      · intro hp
        exact ⟨g, hg, hp.1, hp.2.1⟩
      · intro hp
        rcases hp with ⟨g', hg', hp, hnot⟩
        rw [hg] at hg'
        cases hg'
        exact ⟨hp, hnot, hnone v hv g hg p hp hnot⟩
    have hsound : ∀ v ∈ s.whdlx, ∀ g, outline s v = some g →
        ∀ q ∈ rects s' (L (.wg v)), Sound q := by
      intro v hv g hg
      rw [hd.list v hv g hg]
      exact cutAll_sound _ [g] (hcs v) (by simpa using h.sound v hv g hg)
    have hdis : ∀ v ∈ s.whdlx, ∀ g, outline s v = some g →
        (rects s' (L (.wg v))).Pairwise (Apart Grect.Has) := by
      intro v hv g hg
      rw [hd.list v hv g hg]
      exact cutAll_overlaps_disjoint _ (hcs v) (h.sound v hv g hg)
    refine ⟨⟨L, hd.rep, hd.empty, fun v hv g hg => ⟨fun q hq => (hsound v hv g hg q hq).full,
      hdis v hv g hg, hvis v hv g hg⟩⟩, fun e he => ?_, fun e he w hw fuel n ret hfuel hn => ?_⟩
    · rw [hd.covered e he]
      refine exists_congr fun g => and_congr_right fun hg => ?_
      rw [List.any_eq_true]
      refine exists_congr fun c => and_congr_right fun hc => ?_
      rw [Bool.not_eq_true', apart_iff (hcs e c hc) (h.sound e he g hg)]
    · cases hg : outline s e with
      | some g =>
        have hmask := mask_of_msb (outline_msb hg)
        rw [hmask]
        have hwork := h.work e he w hw
        have hspec := inWork_spec hwork (hsound e he g hg) (hdis e he g hg)
        refine ⟨_, delivered_spec hd.rep e w hwork (hsound e he g hg) fuel n ret hfuel hn,
          hspec.1, fun p => ?_⟩
        rw [hspec.2 p, hvis e he g hg p]
      | none =>
        -- The list of a window that is not on the screen is empty.
        have hnil : L (.wg (e &&& 0x7fff)) = [] := by
          refine hd.empty _ fun hin => ?_
          rw [List.inj_on_of_nodup_map h.nodup hin he (mask_of_msb (mask_msb e)), hg]
        have hwork := h.work e he w hw
        refine ⟨_, delivered_spec hd.rep _ w hwork ?_ fuel n ret hfuel hn, ?_, fun p => ?_⟩
        · rw [hnil]
          intro g hg
          cases hg
        · rw [hnil]
          exact List.Pairwise.nil
        · rw [hnil]
          constructor
          · intro hq
            rcases hq with ⟨q, hq, _⟩
            cases hq
          · intro hp
            rcases hp.2 with ⟨g, hg', _⟩
            rw [hg] at hg'
            cases hg'

theorem tile_ends {c r : Rect Int} {p : Int × Int} (hm : c.Meets r) (hp : ¬c.Has p)
    (hr : r.Has p) : (c.tile r p).right ≤ r.right ∧ (c.tile r p).bottom ≤ r.bottom := by
  have hmem := (Rect.mem_cut hm).mp (Rect.tile_mem_cut hr hp)
  have hm1 := hm.1.2
  have hm2 := hm.2.2
  rcases hmem with ⟨_, h⟩ | ⟨_, h⟩ | ⟨_, h⟩ | ⟨_, h⟩
  · rw [h]
    exact ⟨le_refl _, le_of_lt hm2⟩
  · rw [h]
    exact ⟨le_of_lt hm1, min_le_right _ _⟩
  · rw [h]
    exact ⟨le_refl _, min_le_right _ _⟩
  · rw [h]
    exact ⟨le_refl _, le_refl _⟩

theorem inReach_of_near (p : Int × Int) (cs : List (Rect Int)) (r : Rect Int) (hr : r.Has p)
    (hp : ∀ c ∈ cs, ¬c.Has p)
    (hnear : ∀ c ∈ cs, r.right - c.left < 2 ^ 15 ∧ r.bottom - c.top < 2 ^ 15) :
    InReach p cs r := by
  induction cs generalizing r with
  | nil => exact trivial
  | cons c cs ih =>
    have hc := hnear c List.mem_cons_self
    have hpc := hp c List.mem_cons_self
    constructor
    · intro _
      split
      · exact hc.2
      · exact fun _ _ => hc.1
    · refine ih _ (Rect.tile_has hr hpc) (fun d hd => hp d (List.mem_cons_of_mem _ hd)) ?_
      intro d hd
      have hd' := hnear d (List.mem_cons_of_mem _ hd)
      by_cases hm : c.Meets r
      · have hends := tile_ends hm hpc hr
        omega
      · rw [Rect.tile, if_neg hm]
        exact hd'

/-- Nothing is lost if no window ends `2 ^ 15` or more behind the near edge of
    one above it. -/
theorem noneLost_of_near (h : nearby s = true) : NoneLost s := by
  intro v hv g hg p hp hnot
  have hnear : ∀ c ∈ uppers s s.whdlx v,
      (toRect g).right - (toRect c).left < 2 ^ 15 ∧
      (toRect g).bottom - (toRect c).top < 2 ^ 15 := by
    intro c hc
    have hall := List.all_eq_true.mp h v hv
    rw [hg] at hall
    exact of_decide_eq_true (List.all_eq_true.mp hall c hc)
  refine inReach_of_near p _ _ hp (fun d hd => ?_) fun d hd => ?_
  · rcases List.mem_map.mp hd with ⟨c, hc, rfl⟩
    exact hnot c hc
  · rcases List.mem_map.mp hd with ⟨c, hc, rfl⟩
    exact hnear c hc

end

/-- `build_new_wgs` does not run out of the bound of its walks, and if there
    are rectangles enough, the lists are exact if and only if no visible point
    gets lost. -/
theorem visible_exact (s : Screen) (pool : List Nat) (fuel : Nat) (h : Ready s pool)
    (hfuel : pool.length < fuel) : buildNewWgs fuel s ≠ .error .fuel ∧
      ∀ s', buildNewWgs fuel s = .ok s' → (Exact s s' pool ↔ NoneLost s) := by
  have hspec := buildNewWgs_spec h hfuel
  constructor
  · intro herr
    rw [herr] at hspec
    cases hspec
  · intro s' hok
    rw [hok] at hspec
    rcases hspec with ⟨L, hd⟩
    exact exact_iff h hd

/-! ## Two stacks -/

/-- All rectangles are free. -/
def freeLink (n : Nat) : Cell Root Nat → Nat
  | .head .freelist => if n = 0 then 0 else 1
  | .head (.wg _) => 0
  | .elem a => if a < n then a + 1 else 0

theorem freeLink_on (n m k : Nat) (p : Cell Root Nat) (hk : k + m = n + 1) (hk0 : 0 < k)
    (hp : freeLink n p = if m = 0 then 0 else k) : On (freeLink n) 0 p (List.range' k m) := by
  induction m generalizing k p with
  | zero => exact on_nil.mpr (hp.trans (if_pos rfl))
  | succ m ih =>
    rw [if_neg (Nat.succ_ne_zero m)] at hp
    refine (on_cons k).mpr ⟨hp, by omega, ih (k + 1) (.elem k) (by omega) (by omega) ?_⟩
    by_cases hm : m = 0
    · rw [if_pos hm]
      exact if_neg (by omega)
    · rw [if_neg hm]
      exact if_pos (by omega)

theorem freeLink_rep (n : Nat) : ∃ L, Rep (freeLink n) (List.range' 1 n) L ∧
    ∀ w, L (.wg w) = [] := by
  refine ⟨fun i => if i = .freelist then List.range' 1 n else [], ⟨⟨fun i => ?_, ?_⟩, fun a => ?_⟩,
    fun w => if_neg (by simp)⟩
  · cases i with
    | freelist =>
      rw [if_pos rfl]
      exact freeLink_on n n 1 _ (by omega) (by omega) rfl
    | wg w =>
      rw [if_neg (by simp)]
      exact on_nil.mpr rfl
  · intro i j a hi hj
    by_cases hif : i = .freelist
    · by_cases hjf : j = .freelist
      · exact hif.trans hjf.symm
      · rw [if_neg hjf] at hj
        cases hj
    · rw [if_neg hif] at hi
      cases hi
  · constructor
    · intro h
      rcases h with ⟨i, hi⟩
      by_cases hif : i = .freelist
      · rwa [if_pos hif] at hi
      · rw [if_neg hif] at hi
        cases hi
    · intro h
      exact ⟨.freelist, by rwa [if_pos rfl]⟩

/-- A stack of windows, all rectangles free. -/
def freshScreen (n : Nat) (wnds : List Window) (whdlx : List (BitVec 16)) : Screen where
  nwindows := BitVec.ofNat 16 wnds.length
  windx whdl := wnds[whdl.toNat]?
  whdlx := whdlx
  link := freeLink n
  grect _ := ⟨0, 0, 0, 0⟩
  covered _ := false
  nextwg _ := 0

theorem of_all_option {α β : Type} {P : β → Prop} [DecidablePred P] {l : List α} {f : α → Option β}
    (h : (l.all fun a => (f a).all fun b => P b) = true) : ∀ a ∈ l, ∀ b, f a = some b → P b := by
  intro a ha b hb
  have hall := List.all_eq_true.mp h a ha
  rw [hb] at hall
  exact of_decide_eq_true hall

instance (g : Grect) (p : Int × Int) : Decidable (g.Has p) :=
  inferInstanceAs (Decidable ((_ ∧ _) ∧ _ ∧ _))

instance (g : Grect) : Decidable (Spans g) :=
  decidable_of_iff ((-2 ^ 15 ≤ g.x.toInt + g.w.toInt ∧ g.x.toInt + g.w.toInt < 2 ^ 15) ∧
    -2 ^ 15 ≤ g.y.toInt + g.h.toInt ∧ g.y.toInt + g.h.toInt < 2 ^ 15)
    ⟨fun h => ⟨h.1.1, h.1.2, h.2.1, h.2.2⟩, fun h => ⟨⟨h.xlow, h.xhigh⟩, h.ylow, h.yhigh⟩⟩

theorem freshScreen_ready (n : Nat) (wnds : List Window) (pre : List (BitVec 16)) (h0 : 0 ∉ pre)
    (hnd : ((pre ++ [0]).map (· &&& 0x7fff)).Nodup)
    (hwnd : ((pre ++ [0]).all fun e =>
      (whdlToWnd (freshScreen n wnds (pre ++ [0])) (e &&& 0x7fff)).isSome) = true)
    (hsound : ((pre ++ [0]).all fun e => (outline (freshScreen n wnds (pre ++ [0])) e).all
      fun g => Sound g) = true)
    (hwork : ((pre ++ [0]).all fun e =>
      (whdlToWnd (freshScreen n wnds (pre ++ [0])) (e &&& 0x7fff)).all
        fun w : Window => Spans w.wWork) = true) :
    Ready (freshScreen n wnds (pre ++ [0])) (List.range' 1 n) := by
  rcases freeLink_rep n with ⟨L, hrep, hnil⟩
  exact ⟨⟨pre, rfl, h0⟩, hnd, List.all_eq_true.mp hwnd, ⟨L, hrep, fun w _ => hnil w⟩,
    of_all_option hsound, of_all_option hwork⟩

def deskWindow : Window := ⟨⟨0, 0, 640, 480⟩, ⟨0, 0, 640, 480⟩, ⟨0, 19, 640, 461⟩⟩

/-- A frozen window, and two that lie over a corner of each other. -/
def pair : Screen :=
  freshScreen 12 [deskWindow, ⟨⟨20, 40, 300, 200⟩, ⟨20, 40, 302, 202⟩, ⟨20, 59, 300, 181⟩⟩,
    ⟨⟨100, 100, 300, 200⟩, ⟨100, 100, 302, 202⟩, ⟨100, 119, 300, 181⟩⟩,
    ⟨⟨0, 30, 100, 100⟩, ⟨0, 30, 102, 102⟩, ⟨0, 49, 100, 81⟩⟩] ([0x8003, 1, 2] ++ [0])

theorem pair_ready : Ready pair (List.range' 1 12) :=
  freshScreen_ready 12 _ [0x8003, 1, 2] (by decide) (by decide) (by decide +kernel)
    (by decide +kernel) (by decide +kernel)

theorem visible_exact_pair : ∃ s', buildNewWgs 13 pair = .ok s' ∧
    Exact pair s' (List.range' 1 12) := by
  cases hrun : buildNewWgs 13 pair with
  | error e =>
    have hok : (buildNewWgs 13 pair).isOk = true := by decide +kernel
    rw [hrun] at hok
    cases hok
  | ok s' =>
    refine ⟨s', rfl, ((visible_exact pair _ 13 pair_ready (by decide)).2 s' hrun).mpr ?_⟩
    exact noneLost_of_near (by decide +kernel)

/-- A window that an application opened far on the left. -/
def farLeft : Screen :=
  freshScreen 8 [deskWindow, ⟨⟨-32500, 100, 32765, 200⟩, ⟨-32500, 100, 32767, 202⟩,
    ⟨-32500, 119, 32765, 181⟩⟩] ([1] ++ [0])

/-- What is on the right of it belongs to the desktop, but is on no list. -/
theorem visible_lost : Ready farLeft (List.range' 1 8) ∧ ∃ s', buildNewWgs 9 farLeft = .ok s' ∧
    ¬Exact farLeft s' (List.range' 1 8) := by
  have hready : Ready farLeft (List.range' 1 8) :=
    freshScreen_ready 8 _ [1] (by decide) (by decide) (by decide +kernel) (by decide +kernel)
      (by decide +kernel)
  refine ⟨hready, ?_⟩
  cases hrun : buildNewWgs 9 farLeft with
  | error e =>
    have hok : (buildNewWgs 9 farLeft).isOk = true := by decide +kernel
    rw [hrun] at hok
    cases hok
  | ok s' =>
    have hspec : Gives (buildNewWgs 9 farLeft) fun s' => ∃ L,
        Done farLeft (List.range' 1 8) s' L := buildNewWgs_spec hready (by decide)
    rw [hrun] at hspec
    rcases hspec with ⟨L, hd⟩
    refine ⟨s', rfl, fun hex => ?_⟩
    have hnone := (exact_iff hready hd).mp hex
    have hnot : ∀ c ∈ uppers farLeft farLeft.whdlx 0, ¬c.Has (300, 150) := by
      intro c hc
      have hall : ((uppers farLeft farLeft.whdlx 0).all fun c =>
          !decide (c.Has (300, 150))) = true := by decide +kernel
      exact of_decide_eq_false (Bool.not_eq_true' _ ▸ List.all_eq_true.mp hall c hc)
    -- The desktop ends 33140 behind the left edge of the window.
    have hreach := hnone 0 (by decide) ⟨0, 0, 640, 480⟩ (by decide +kernel) (300, 150)
      (by decide +kernel) hnot
    exact absurd (hreach.1 (by decide +kernel)) (by decide +kernel)

end Win

end Aes

end MagiC
