import Mathlib.Data.List.Basic
import Mathlib.Order.Lattice
import Mathlib.Order.Defs.LinearOrder
import Mathlib.Tactic.Common

/-!
# Regions Made of Disjoint Pieces

A region is a list of pieces, no two of which have a point in common. Cutting
something out of it replaces each piece by smaller ones in its place, so the
region stays a list of disjoint pieces however often it is cut.

`Cutter` is what a function that cuts up a piece has to keep to. It need not
give back all that is left of the piece. `tile` names the piece a point would
be on afterwards, and a point stays in the region as long as its tile is among
the pieces each time, which is `Kept`.

## Main definitions

* `Kept`: A point is not lost in any cut.

## Theorems

* `Rect.tile_mem_cut`: And nothing is lost.
-/

namespace MagiC

namespace Tiling

section

variable {κ ρ π : Type}

/-- No point is in both. -/
def Apart (has : ρ → π → Prop) (q r : ρ) : Prop := ∀ p, has q p → ¬has r p

/-- A region, cut by one thing after the other. -/
def cutAll (f : κ → ρ → List ρ) : List κ → List ρ → List ρ
  | [], l => l
  | c :: cs, l => cutAll f cs (l.flatMap (f c))

/-- A function that replaces good pieces by good pieces of them, disjoint and
    outside of what they are cut by. -/
structure Cutter (has : ρ → π → Prop) (inside : κ → π → Prop) (good : ρ → Prop)
    (tile : κ → ρ → π → ρ) (f : κ → ρ → List ρ) (c : κ) : Prop where
  stays : ∀ r, good r → ∀ q ∈ f c r, good q
  part : ∀ r, good r → ∀ q ∈ f c r, ∀ p, has q p → has r p
  outside : ∀ r, good r → ∀ q ∈ f c r, ∀ p, has q p → ¬inside c p
  disjoint : ∀ r, good r → (f c r).Pairwise (Apart has)
  unique : ∀ r, good r → ∀ q ∈ f c r, ∀ p, has q p → q = tile c r p
  tile_has : ∀ r, good r → ∀ p, has r p → ¬inside c p → has (tile c r p) p

/-- The piece a point is on is among the pieces, in each cut. -/
def Kept (tile : κ → ρ → π → ρ) (f : κ → ρ → List ρ) (p : π) : List κ → ρ → Prop
  | [], _ => True
  | c :: cs, r => tile c r p ∈ f c r ∧ Kept tile f p cs (tile c r p)

variable {has : ρ → π → Prop} {inside : κ → π → Prop} {good : ρ → Prop}
  {tile : κ → ρ → π → ρ} {f : κ → ρ → List ρ}

theorem cutAll_append (cs ds : List κ) (l : List ρ) :
    cutAll f (cs ++ ds) l = cutAll f ds (cutAll f cs l) := by
  induction cs generalizing l with
  | nil => rfl
  | cons c cs ih => exact ih _

theorem cutAll_map {κ' ρ' : Type} {f' : κ' → ρ' → List ρ'} (a : κ → κ') (b : ρ → ρ')
    (good : ρ → Prop) (cs : List κ) (l : List ρ) (hl : ∀ r ∈ l, good r)
    (hgood : ∀ c ∈ cs, ∀ r, good r → ∀ q ∈ f c r, good q)
    (hf : ∀ c ∈ cs, ∀ r, good r → (f c r).map b = f' (a c) (b r)) :
    (cutAll f cs l).map b = cutAll f' (cs.map a) (l.map b) := by
  induction cs generalizing l with
  | nil => rfl
  | cons c cs ih =>
    have hl' : ∀ r ∈ l.flatMap (f c), good r := by
      intro q hq
      rcases List.mem_flatMap.mp hq with ⟨r, hr, hqr⟩
      exact hgood c List.mem_cons_self r (hl r hr) q hqr
    have hcut : (l.flatMap (f c)).map b = (l.map b).flatMap (f' (a c)) := by
      rw [List.map_flatMap, List.flatMap_map]
      exact List.flatMap_congr fun r hr => hf c List.mem_cons_self r (hl r hr)
    rw [cutAll, ih _ hl' (fun d hd => hgood d (List.mem_cons_of_mem _ hd))
      (fun d hd => hf d (List.mem_cons_of_mem _ hd)), hcut]
    rfl

/-- The pieces of a cut region are disjoint. -/
theorem cutAll_disjoint (cs : List κ) (l : List ρ)
    (hf : ∀ c ∈ cs, Cutter has inside good tile f c) (hl : ∀ r ∈ l, good r)
    (hd : l.Pairwise (Apart has)) : (cutAll f cs l).Pairwise (Apart has) := by
  induction cs generalizing l with
  | nil => exact hd
  | cons c cs ih =>
    have hc := hf c List.mem_cons_self
    refine ih _ (fun d hd => hf d (List.mem_cons_of_mem _ hd)) (fun q hq => ?_) ?_
    · rcases List.mem_flatMap.mp hq with ⟨r, hr, hqr⟩
      exact hc.stays r (hl r hr) q hqr
    · rw [List.pairwise_flatMap]
      refine ⟨fun r hr => hc.disjoint r (hl r hr), hd.imp_of_mem ?_⟩
      -- Pieces of disjoint pieces are disjoint.
      intro r s hr hs hrs q hq q' hq' p hp hp'
      exact hrs p (hc.part r (hl r hr) q hq p hp) (hc.part s (hl s hs) q' hq' p hp')

theorem mem_cutAll (cs : List κ) (l : List ρ) (q : ρ) :
    q ∈ cutAll f cs l ↔ ∃ r ∈ l, q ∈ cutAll f cs [r] := by
  induction cs generalizing l with
  | nil => simp [cutAll]
  | cons c cs ih =>
    rw [cutAll, ih]
    constructor
    · intro h
      rcases h with ⟨s, hs, hq⟩
      rcases List.mem_flatMap.mp hs with ⟨r, hr, hsr⟩
      refine ⟨r, hr, ?_⟩
      rw [cutAll, ih]
      exact ⟨s, by simpa using hsr, hq⟩
    · intro h
      rcases h with ⟨r, hr, hq⟩
      rw [cutAll, ih] at hq
      rcases hq with ⟨s, hs, hq⟩
      exact ⟨s, List.mem_flatMap.mpr ⟨r, hr, by simpa using hs⟩, hq⟩

theorem cutAll_has (cs : List κ) (r : ρ) (p : π) (hf : ∀ c ∈ cs, Cutter has inside good tile f c)
    (hr : good r) : (∃ q ∈ cutAll f cs [r], has q p) ↔
      has r p ∧ (∀ c ∈ cs, ¬inside c p) ∧ Kept tile f p cs r := by
  induction cs generalizing r with
  | nil => simp [cutAll, Kept]
  | cons c cs ih =>
    have hc := hf c List.mem_cons_self
    have hf' : ∀ d ∈ cs, Cutter has inside good tile f d :=
      fun d hd => hf d (List.mem_cons_of_mem _ hd)
    rw [cutAll]
    constructor
    · intro h
      rcases h with ⟨q, hq, hqp⟩
      rcases (mem_cutAll cs _ q).mp hq with ⟨s, hs, hqs⟩
      have hsr : s ∈ f c r := by simpa using hs
      rcases (ih s hf' (hc.stays r hr s hsr)).mp ⟨q, hqs, hqp⟩ with ⟨hsp, hout, hkept⟩
      have hst := hc.unique r hr s hsr p hsp
      refine ⟨hc.part r hr s hsr p hsp, ?_, hst ▸ hsr, hst ▸ hkept⟩
      intro d hd
      rcases List.mem_cons.mp hd with rfl | hd
      · exact hc.outside r hr s hsr p hsp
      · exact hout d hd
    · intro h
      rcases h with ⟨hrp, hout, hmem, hkept⟩
      have htp := hc.tile_has r hr p hrp (hout c List.mem_cons_self)
      rcases (ih _ hf' (hc.stays r hr _ hmem)).mpr
        ⟨htp, fun d hd => hout d (List.mem_cons_of_mem _ hd), hkept⟩ with ⟨q, hq, hqp⟩
      exact ⟨q, (mem_cutAll cs _ q).mpr ⟨_, by simpa using hmem, hq⟩, hqp⟩

theorem Cutter.sublist {g : κ → ρ → List ρ} {c : κ} (h : Cutter has inside good tile f c)
    (hg : ∀ r, (g c r).Sublist (f c r)) : Cutter has inside good tile g c where
  stays r hr q hq := h.stays r hr q ((hg r).subset hq)
  part r hr q hq := h.part r hr q ((hg r).subset hq)
  outside r hr q hq := h.outside r hr q ((hg r).subset hq)
  disjoint r hr := (h.disjoint r hr).sublist (hg r)
  unique r hr q hq := h.unique r hr q ((hg r).subset hq)
  tile_has := h.tile_has

end

/-! ## Rectangles -/

/-- A rectangle without its right and its lower edge. -/
@[ext]
structure Rect (α : Type) where
  left : α
  right : α
  top : α
  bottom : α
  deriving DecidableEq

namespace Rect

variable {α : Type} [LinearOrder α]

def Has (r : Rect α) (p : α × α) : Prop :=
  (r.left ≤ p.1 ∧ p.1 < r.right) ∧ r.top ≤ p.2 ∧ p.2 < r.bottom

/-- There is something between the edges. -/
def Full (r : Rect α) : Prop := r.left < r.right ∧ r.top < r.bottom

/-- Neither is beside, above or below the other. -/
def Meets (c r : Rect α) : Prop :=
  (r.left < c.right ∧ c.left < r.right) ∧ r.top < c.bottom ∧ c.top < r.bottom

instance (c r : Rect α) : Decidable (Meets c r) := inferInstanceAs (Decidable (_ ∧ _))

def above (c r : Rect α) : Rect α := { r with bottom := c.top }

def below (c r : Rect α) : Rect α := { r with top := c.bottom }

def before (c r : Rect α) : Rect α where
  left := r.left
  right := c.left
  top := max c.top r.top
  bottom := min c.bottom r.bottom

def behind (c r : Rect α) : Rect α where
  left := c.right
  right := r.right
  top := max c.top r.top
  bottom := min c.bottom r.bottom

/-- What a rectangle leaves of another one. -/
def cut (c r : Rect α) : List (Rect α) :=
  if Meets c r then
    (if r.top < c.top then [above c r] else []) ++ (if r.left < c.left then [before c r] else []) ++
      (if c.right < r.right then [behind c r] else []) ++
      (if c.bottom < r.bottom then [below c r] else [])
  else [r]

/-- Where in the rectangle that is cut a point is. -/
def tile (c r : Rect α) (p : α × α) : Rect α :=
  if Meets c r then
    if p.2 < c.top then above c r
    else if c.bottom ≤ p.2 then below c r
    else if p.1 < c.left then before c r
    else behind c r
  else r

variable {c r q : Rect α} {p : α × α}

theorem meets_of_has (hc : c.Has p) (hr : r.Has p) : Meets c r :=
  ⟨⟨lt_of_le_of_lt hr.1.1 hc.1.2, lt_of_le_of_lt hc.1.1 hr.1.2⟩,
    lt_of_le_of_lt hr.2.1 hc.2.2, lt_of_le_of_lt hc.2.1 hr.2.2⟩

theorem mem_cut (h : Meets c r) : q ∈ cut c r ↔ (r.top < c.top ∧ q = above c r) ∨
    (r.left < c.left ∧ q = before c r) ∨ (c.right < r.right ∧ q = behind c r) ∨
    c.bottom < r.bottom ∧ q = below c r := by
  rw [cut, if_pos h]
  simp only [List.mem_append, List.mem_ite_nil_right, List.mem_singleton, or_assoc]

theorem mem_cut_of_not_meets (h : ¬Meets c r) : q ∈ cut c r ↔ q = r := by
  rw [cut, if_neg h, List.mem_singleton]

theorem cut_part (hq : q ∈ cut c r) (hp : q.Has p) : r.Has p := by
  by_cases h : Meets c r
  · rcases (mem_cut h).mp hq with ⟨_, rfl⟩ | ⟨_, rfl⟩ | ⟨_, rfl⟩ | ⟨_, rfl⟩
    · exact ⟨hp.1, hp.2.1, lt_trans hp.2.2 h.2.2⟩
    · exact ⟨⟨hp.1.1, lt_trans hp.1.2 h.1.2⟩, le_trans (le_max_right _ _) hp.2.1,
        lt_of_lt_of_le hp.2.2 (min_le_right _ _)⟩
    · exact ⟨⟨le_trans (le_of_lt h.1.1) hp.1.1, hp.1.2⟩, le_trans (le_max_right _ _) hp.2.1,
        lt_of_lt_of_le hp.2.2 (min_le_right _ _)⟩
    · exact ⟨hp.1, le_trans (le_of_lt h.2.1) hp.2.1, hp.2.2⟩
  · exact (mem_cut_of_not_meets h).mp hq ▸ hp

theorem cut_outside (hq : q ∈ cut c r) (hp : q.Has p) : ¬c.Has p := by
  intro hc
  by_cases h : Meets c r
  · rcases (mem_cut h).mp hq with ⟨_, rfl⟩ | ⟨_, rfl⟩ | ⟨_, rfl⟩ | ⟨_, rfl⟩
    · exact absurd hp.2.2 (not_lt_of_ge hc.2.1)
    · exact absurd hp.1.2 (not_lt_of_ge hc.1.1)
    · exact absurd hc.1.2 (not_lt_of_ge hp.1.1)
    · exact absurd hc.2.2 (not_lt_of_ge hp.2.1)
  · exact h (meets_of_has hc ((mem_cut_of_not_meets h).mp hq ▸ hp))

theorem cut_full (hc : c.Full) (hr : r.Full) (hq : q ∈ cut c r) : q.Full := by
  by_cases h : Meets c r
  · have hrows : max c.top r.top < min c.bottom r.bottom :=
      lt_min (max_lt hc.2 h.2.1) (max_lt h.2.2 hr.2)
    rcases (mem_cut h).mp hq with ⟨hlt, rfl⟩ | ⟨hlt, rfl⟩ | ⟨hlt, rfl⟩ | ⟨hlt, rfl⟩
    · exact ⟨hr.1, hlt⟩
    · exact ⟨hlt, hrows⟩
    · exact ⟨hlt, hrows⟩
    · exact ⟨hr.1, hlt⟩
  · exact (mem_cut_of_not_meets h).mp hq ▸ hr

theorem cut_unique (hq : q ∈ cut c r) (hp : q.Has p) (hc : c.Full) : q = tile c r p := by
  by_cases h : Meets c r
  · rw [tile, if_pos h]
    rcases (mem_cut h).mp hq with ⟨_, rfl⟩ | ⟨_, rfl⟩ | ⟨_, rfl⟩ | ⟨_, rfl⟩
    · exact (if_pos hp.2.2).symm
    · have htop := not_lt_of_ge (le_trans (le_max_left _ _) hp.2.1)
      have hbot := not_le_of_gt (lt_of_lt_of_le hp.2.2 (min_le_left _ _))
      rw [if_neg htop, if_neg hbot]
      exact (if_pos hp.1.2).symm
    · have htop := not_lt_of_ge (le_trans (le_max_left _ _) hp.2.1)
      have hbot := not_le_of_gt (lt_of_lt_of_le hp.2.2 (min_le_left _ _))
      rw [if_neg htop, if_neg hbot, if_neg (not_lt_of_ge (le_trans (le_of_lt hc.1) hp.1.1))]
    · rw [if_neg (not_lt_of_ge (le_trans (le_of_lt hc.2) hp.2.1))]
      exact (if_pos hp.2.1).symm
  · rw [tile, if_neg h]
    exact (mem_cut_of_not_meets h).mp hq

theorem tile_has (hr : r.Has p) (hc : ¬c.Has p) : (tile c r p).Has p := by
  unfold tile
  split
  · split
    · rename_i htop
      exact ⟨hr.1, hr.2.1, htop⟩
    · rename_i htop
      have htop := le_of_not_gt htop
      split
      · rename_i hbot
        exact ⟨hr.1, hbot, hr.2.2⟩
      · rename_i hbot
        have hbot := lt_of_not_ge hbot
        split
        · rename_i hleft
          exact ⟨⟨hr.1.1, hleft⟩, max_le htop hr.2.1, lt_min hbot hr.2.2⟩
        · rename_i hleft
          -- Within the rows of the cutter and not before it, so behind it.
          have hright : c.right ≤ p.1 :=
            le_of_not_gt fun hlt => hc ⟨⟨le_of_not_gt hleft, hlt⟩, htop, hbot⟩
          exact ⟨⟨hright, hr.1.2⟩, max_le htop hr.2.1, lt_min hbot hr.2.2⟩
  · exact hr

theorem tile_mem_cut (hr : r.Has p) (hc : ¬c.Has p) : tile c r p ∈ cut c r := by
  have hp := tile_has hr hc
  by_cases h : Meets c r
  · refine (mem_cut h).mpr ?_
    unfold tile at hp ⊢
    rw [if_pos h] at hp ⊢
    split at hp
    · rename_i htop
      rw [if_pos htop]
      exact .inl ⟨lt_of_le_of_lt hr.2.1 htop, rfl⟩
    · rename_i htop
      rw [if_neg htop]
      split at hp
      · rename_i hbot
        rw [if_pos hbot]
        exact .inr (.inr (.inr ⟨lt_of_le_of_lt hbot hr.2.2, rfl⟩))
      · rename_i hbot
        rw [if_neg hbot]
        split at hp
        · rename_i hleft
          rw [if_pos hleft]
          exact .inr (.inl ⟨lt_of_le_of_lt hr.1.1 hleft, rfl⟩)
        · rename_i hleft
          rw [if_neg hleft]
          exact .inr (.inr (.inl ⟨lt_of_le_of_lt hp.1.1 hp.1.2, rfl⟩))
  · exact (mem_cut_of_not_meets h).mpr (if_neg h)

theorem cut_disjoint (hc : c.Full) : (cut c r).Pairwise (Apart Has) := by
  by_cases h : Meets c r
  · have hrows : ∀ {q : Rect α} {p : α × α}, q.top = max c.top r.top →
      q.bottom = min c.bottom r.bottom →
        q.Has p → c.top ≤ p.2 ∧ p.2 < c.bottom := by
      intro q p htop hbot hp
      exact ⟨le_trans (le_max_left _ _) (htop ▸ hp.2.1),
        lt_of_lt_of_le (hbot ▸ hp.2.2) (min_le_left _ _)⟩
    have hall : [above c r, before c r, behind c r, below c r].Pairwise (Apart Has) := by
      refine .cons ?_ (.cons ?_ (.cons ?_ (List.pairwise_singleton _ _)))
      · intro q hq p hp hqp
        simp only [List.mem_cons, List.not_mem_nil, or_false] at hq
        rcases hq with rfl | rfl | rfl
        · exact not_lt_of_ge (hrows rfl rfl hqp).1 hp.2.2
        · exact not_lt_of_ge (hrows rfl rfl hqp).1 hp.2.2
        · exact not_lt_of_ge (le_trans (le_of_lt hc.2) hqp.2.1) hp.2.2
      · intro q hq p hp hqp
        simp only [List.mem_cons, List.not_mem_nil, or_false] at hq
        rcases hq with rfl | rfl
        · exact not_lt_of_ge (le_trans (le_of_lt hc.1) hqp.1.1) hp.1.2
        · exact not_lt_of_ge hqp.2.1 (hrows rfl rfl hp).2
      · intro q hq p hp hqp
        rw [List.mem_singleton] at hq
        subst hq
        exact not_lt_of_ge hqp.2.1 (hrows rfl rfl hp).2
    have hone : ∀ (a : Prop) [Decidable a] (q : Rect α), (if a then [q] else []).Sublist [q] := by
      intro a _ q
      split
      · exact List.Sublist.refl _
      · exact List.nil_sublist _
    rw [cut, if_pos h]
    exact hall.sublist ((((hone _ _).append (hone _ _)).append (hone _ _)).append (hone _ _))
  · rw [cut, if_neg h]
    exact List.pairwise_singleton _ _

/-- Rectangles are cut properly. -/
theorem cut_cutter (hc : c.Full) : Cutter Has Has Full tile cut c where
  stays _ hr _ hq := cut_full hc hr hq
  part _ _ _ hq _ hp := cut_part hq hp
  outside _ _ _ hq _ hp := cut_outside hq hp
  disjoint _ _ := cut_disjoint hc
  unique _ _ _ hq _ hp := cut_unique hq hp hc
  tile_has _ _ _ hr hp := tile_has hr hp

end Rect

end Tiling

end MagiC
