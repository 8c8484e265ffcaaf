import MagiC.Aes.Overlap
import Mathlib.Data.List.Perm.Subperm

/-!
# Rebuilding the Rectangle Lists

What the loops of `build_new_wgs` do to the lists of the windows.

`Rep` says what hangs on `wg_freelist` and on each `w_wg`. Each `WGRECT` of the
pool is on one of them, before and after every routine, and a routine that
works on the list of one window leaves the rectangles of the others alone
(`Works`). A routine either succeeds or stops the system since there is no
rectangle left, it never runs out of the bound of its walks.

The list of a window is its outline, cut by the outlines of the windows above
it from the lowest to the topmost.

## Main definitions

* `uppers`: The outlines of the windows above one.

## Theorems

* `trim_spec`: A window that is not frozen comes to the top.
-/

namespace MagiC

namespace Aes

namespace Win

open Chains Msg Tiling

/-! ## Results and lists -/

/-- The result, unless there is no rectangle left. -/
def Gives {β : Type} (r : Except Stop β) (P : β → Prop) : Prop :=
  match r with
  | .ok b => P b
  | .error e => e = .fatal

/-- What hangs on `wg_freelist` and on the windows. Each element of the pool is
    on one list. -/
structure Rep (link : Cell Root Nat → Nat) (pool : List Nat) (L : Root → List Nat) : Prop where
  lists : Lists link 0 L
  pool : ∀ a, (∃ i, a ∈ L i) ↔ a ∈ pool

def rects (s : Screen) (l : List Nat) : List Grect := l.map s.grect

/-- What changes when the list of one window is worked on. -/
structure Works (v : BitVec 16) (pool : List Nat) (s : Screen) (L : Root → List Nat)
    (s' : Screen) (L' : Root → List Nat) : Prop where
  rep : Rep s'.link pool L'
  nwindows : s'.nwindows = s.nwindows
  windx : s'.windx = s.windx
  whdlx : s'.whdlx = s.whdlx
  list : ∀ w, w ≠ v → L' (.wg w) = L (.wg w)
  grect : ∀ w, w ≠ v → ∀ a ∈ L (.wg w), s'.grect a = s.grect a
  covered : ∀ w, w ≠ v → s'.covered w = s.covered w

section

variable {β γ : Type} {r : Except Stop β} {P Q : β → Prop}

theorem gives_bind {f : β → Except Stop γ} {R : γ → Prop} (h : Gives r P)
    (hf : ∀ b, P b → Gives (f b) R) : Gives (r >>= f) R := by
  cases r with
  | ok b => exact hf b h
  | error e => exact h

theorem gives_map {f : β → γ} {R : γ → Prop} (h : Gives r P) (hf : ∀ b, P b → R (f b)) :
    Gives (r.map f) R := by
  cases r with
  | ok b => exact hf b h
  | error e => exact h

theorem gives_mono (h : Gives r P) (hf : ∀ b, P b → Q b) : Gives r Q := by
  cases r with
  | ok b => exact hf b h
  | error e => exact h

end

section

variable {s : Screen} {pool : List Nat} {L : Root → List Nat} {v : BitVec 16}

theorem Works.trans {s1 s2 : Screen} {L1 L2 : Root → List Nat} (h1 : Works v pool s L s1 L1)
    (h2 : Works v pool s1 L1 s2 L2) : Works v pool s L s2 L2 where
  rep := h2.rep
  nwindows := h2.nwindows.trans h1.nwindows
  windx := h2.windx.trans h1.windx
  whdlx := h2.whdlx.trans h1.whdlx
  list w hw := (h2.list w hw).trans (h1.list w hw)
  grect w hw a ha := (h2.grect w hw a (h1.list w hw ▸ ha)).trans (h1.grect w hw a ha)
  covered w hw := (h2.covered w hw).trans (h1.covered w hw)

theorem Works.refl (h : Rep s.link pool L) : Works v pool s L s L where
  rep := h
  nwindows := rfl
  windx := rfl
  whdlx := rfl
  list _ _ := rfl
  grect _ _ _ _ := rfl
  covered _ _ := rfl

theorem Rep.apart {link : Cell Root Nat → Nat} {i j : Root} (h : Rep link pool L) (hij : i ≠ j)
    {a : Nat} (ha : a ∈ L i) : a ∉ L j := fun e => hij (h.lists.disjoint i j a ha e)

theorem pool_moved {i j : Root} (hij : i ≠ j) (l m : List Nat) (a : Nat)
    (h : a ∈ l ∨ a ∈ m ↔ a ∈ L i ∨ a ∈ L j) :
    (∃ k, a ∈ Function.update (Function.update L i l) j m k) ↔ ∃ k, a ∈ L k := by
  constructor
  · intro hex
    rcases hex with ⟨k, hk⟩
    by_cases hkj : k = j
    · rw [hkj, Function.update_self] at hk
      exact (h.mp (.inr hk)).elim (fun e => ⟨i, e⟩) fun e => ⟨j, e⟩
    · rw [Function.update_of_ne hkj] at hk
      by_cases hki : k = i
      · rw [hki, Function.update_self] at hk
        exact (h.mp (.inl hk)).elim (fun e => ⟨i, e⟩) fun e => ⟨j, e⟩
      · rw [Function.update_of_ne hki] at hk
        exact ⟨k, hk⟩
  · intro hex
    rcases hex with ⟨k, hk⟩
    have hmem : a ∈ l ∨ a ∈ m → ∃ k, a ∈ Function.update (Function.update L i l) j m k := by
      intro e
      rcases e with e | e
      · exact ⟨i, by rwa [Function.update_of_ne hij, Function.update_self]⟩
      · exact ⟨j, by rwa [Function.update_self]⟩
    by_cases hkj : k = j
    · exact hmem (h.mpr (.inr (hkj ▸ hk)))
    · by_cases hki : k = i
      · exact hmem (h.mpr (.inl (hki ▸ hk)))
      · exact ⟨k, by rwa [Function.update_of_ne hkj, Function.update_of_ne hki]⟩

theorem allocWgrect_spec (u x : List Nat) (nxt : Nat) (h : Rep s.link pool L)
    (hl : L (.wg v) = u ++ x) (hnxt : s.link (endCell (.head (.wg v)) u) = nxt) :
    Gives (allocWgrect s) fun r => ∃ l, L .freelist = r.1 :: l ∧
      r.2 = { s with link := r.2.link } ∧
      Rep (Function.update (Function.update r.2.link (endCell (.head (.wg v)) u) r.1)
        (.elem r.1) nxt)
        pool (Function.update (Function.update L .freelist l) (.wg v) (u ++ r.1 :: x)) := by
  unfold allocWgrect
  dsimp only
  by_cases h0 : s.link (.head .freelist) = 0
  · rw [if_pos h0]
    rfl
  rw [if_neg h0]
  rcases hfree : L .freelist with _ | ⟨a0, l⟩
  · exact absurd (on_nil.mp (hfree ▸ h.lists.on .freelist)) h0
  have hon := (on_cons a0).mp (hfree ▸ h.lists.on .freelist)
  rw [hon.1]
  refine ⟨l, rfl, rfl, ?_, fun a => ?_⟩
  · -- First the element leaves the free list, then it is on none.
    have hpop := lists_pop .freelist a0 l h.lists hfree
    have hnone : ∀ j, a0 ∉ Function.update L .freelist l j := by
      intro j
      by_cases hj : j = .freelist
      · rw [hj, Function.update_self]
        exact (List.nodup_cons.mp (hfree ▸ lists_nodup h.lists .freelist)).1
      · rw [Function.update_of_ne hj]
        exact h.apart (Ne.symm hj) (hfree ▸ List.mem_cons_self)
    have hins := lists_insert (.wg v) a0 u x hpop (by rwa [Function.update_of_ne (by simp)]) hnone
      hon.2.1
    have hcell : (endCell (.head (.wg v)) u : Cell Root Nat) ≠ .head .freelist := by
      rcases endCell_cases (Cell.head (Root.wg v)) u with ⟨he, _⟩ | ⟨y, _, he⟩
      · rw [he]
        simp
      · rw [he]
        simp
    rwa [Function.update_of_ne hcell, hnxt] at hins
  · rw [← h.pool a]
    refine pool_moved (by simp) _ _ a ?_
    rw [hfree, hl]
    simp only [List.mem_append, List.mem_cons]
    tauto

/-! ## Cutting one rectangle -/

/-- Between the pieces: those that were made are in front of the rectangle. -/
def Cutting (v : BitVec 16) (pool : List Nat) (s : Screen) (L : Root → List Nat) (u x : List Nat)
    (wg : Nat) (gs : List Grect) (r : Cell Root Nat × Screen) : Prop :=
  ∃ n L', Works v pool s L r.2 L' ∧ r.1 = endCell (.head (.wg v)) (u ++ n) ∧
    L' (.wg v) = u ++ n ++ wg :: x ∧ rects r.2 n = gs ∧
    (∀ a ∈ u ++ wg :: x, r.2.grect a = s.grect a) ∧ r.2.covered = s.covered

theorem piece_spec {w : BitVec 16} {u x : List Nat} {wg c : Nat} {gs : List Grect}
    {r : Cell Root Nat × Screen} (side : Grect → Grect → Option Grect) (hw : w ≠ v)
    (hc : c ∈ L (.wg w)) (h : Cutting v pool s L u x wg gs r) :
    Gives (piece side c wg r)
      (Cutting v pool s L u x wg (gs ++ (side (s.grect c) (s.grect wg)).toList)) := by
  rcases h with ⟨n, L', hworks, hr1, hl, hgs, hkeep, hcov⟩
  have hcut := hworks.grect w hw c hc
  have hwg := hkeep wg (List.mem_append_right _ List.mem_cons_self)
  unfold piece
  rw [hcut, hwg]
  cases hside : side (s.grect c) (s.grect wg) with
  | none =>
    refine ⟨n, L', hworks, hr1, hl, ?_, hkeep, hcov⟩
    rw [Option.toList_none, List.append_nil]
    exact hgs
  | some g =>
    have hnxt : r.2.link (endCell (.head (.wg v)) (u ++ n)) = wg :=
      ((on_cons wg).mp (on_behind (u ++ n) (wg :: x) (hl ▸ hworks.rep.lists.on (.wg v)))).1
    refine gives_map (allocWgrect_spec (u ++ n) (wg :: x) wg hworks.rep hl hnxt) fun b hb => ?_
    rcases b with ⟨a0, s1⟩
    rcases hb with ⟨l, hfree, hs1, hrep⟩
    dsimp only at hfree hs1 hrep ⊢
    have ha0 : ∀ i, i ≠ .freelist → a0 ∉ L' i := fun i hi =>
      hworks.rep.apart (Ne.symm hi) (hfree ▸ List.mem_cons_self)
    have hother : ∀ i, i ≠ .freelist → ∀ a ∈ L' i,
        Function.update s1.grect a0 g a = r.2.grect a := by
      intro i hi a ha
      have hne : a ≠ a0 := fun e => ha0 i hi (e ▸ ha)
      rw [Function.update_of_ne hne, hs1]
    refine ⟨n ++ [a0], _, ⟨hr1 ▸ hrep, ?_, ?_, ?_, fun w' hw' => ?_, fun w' hw' a ha => ?_,
      fun w' hw' => ?_⟩, ?_, ?_, ?_, fun a ha => ?_, ?_⟩
    · exact hs1 ▸ hworks.nwindows
    · exact hs1 ▸ hworks.windx
    · exact hs1 ▸ hworks.whdlx
    · rw [Function.update_of_ne (by simpa using hw'), Function.update_of_ne (by simp)]
      exact hworks.list w' hw'
    · have ha' : a ∈ L' (.wg w') := hworks.list w' hw' ▸ ha
      exact (hother _ (by simp) a ha').trans (hworks.grect w' hw' a ha)
    · rw [hs1]
      exact hworks.covered w' hw'
    · dsimp only
      rw [← List.append_assoc]
      exact (endCell_concat _ _ _).symm
    · rw [Function.update_self]
      simp only [List.append_assoc, List.singleton_append]
    · have hn : rects { s1 with grect := Function.update s1.grect a0 g } n = rects r.2 n := by
        refine List.map_congr_left fun a ha => hother (.wg v) (by simp) a ?_
        rw [hl]
        exact List.mem_append_left _ (List.mem_append_right _ ha)
      have hlast : rects { s1 with grect := Function.update s1.grect a0 g } [a0] = [g] := by
        simp only [rects, List.map_cons, List.map_nil, Function.update_self]
      calc rects _ (n ++ [a0]) = rects { s1 with grect := Function.update s1.grect a0 g } n ++
            rects { s1 with grect := Function.update s1.grect a0 g } [a0] := List.map_append
        _ = gs ++ [g] := by rw [hn, hlast, hgs]
    · refine (hother (.wg v) (by simp) a ?_).trans (hkeep a ha)
      rw [hl]
      rcases List.mem_append.mp ha with hu | hx
      · exact List.mem_append_left _ (List.mem_append_left _ hu)
      · exact List.mem_append_right _ hx
    · rw [hs1]
      exact hcov

/-- What becomes of one rectangle of a list: the list in front of it and behind
    it stays. -/
def Cut (v : BitVec 16) (pool : List Nat) (s : Screen) (L : Root → List Nat) (u x : List Nat)
    (wg : Nat) (c : Grect) (r : Option (Cell Root Nat) × Screen) : Prop :=
  ∃ n L', Works v pool s L r.2 L' ∧ L' (.wg v) = u ++ n ++ x ∧
    rects r.2 n = overlaps c (s.grect wg) ∧ (∀ a ∈ u ++ x, r.2.grect a = s.grect a) ∧
    r.2.covered = s.covered ∧
    r.1.getD (.elem wg) = endCell (.head (.wg v)) (u ++ n) ∧
    (r.1.isSome = !apart c (s.grect wg))

theorem calcWgrectOverlaps_spec {w : BitVec 16} {u x : List Nat} {wg c : Nat} (hw : w ≠ v)
    (hrep : Rep s.link pool L) (hc : c ∈ L (.wg w)) (hl : L (.wg v) = u ++ wg :: x) :
    Gives (calcWgrectOverlaps c wg (endCell (.head (.wg v)) u) s)
      (Cut v pool s L u x wg (s.grect c)) := by
  unfold calcWgrectOverlaps
  by_cases hap : apart (s.grect c) (s.grect wg) = true
  · rw [if_pos hap]
    refine ⟨[wg], L, Works.refl hrep, by simpa using hl, ?_, fun _ _ => rfl, rfl, ?_, ?_⟩
    · rw [overlaps, if_pos hap]
      rfl
    · exact (endCell_concat _ _ _).symm
    · rw [hap]
      rfl
  rw [if_neg hap]
  have hstart : Cutting v pool s L u x wg [] (endCell (.head (.wg v)) u, s) :=
    ⟨[], L, Works.refl hrep, by rw [List.append_nil], by simpa using hl, rfl, fun _ _ => rfl, rfl⟩
  refine gives_bind (piece_spec oben hw hc hstart) fun r1 h1 => ?_
  refine gives_bind (piece_spec links hw hc h1) fun r2 h2 => ?_
  refine gives_bind (piece_spec rechts hw hc h2) fun r3 h3 => ?_
  refine gives_bind (piece_spec unten hw hc h3) fun r4 h4 => ?_
  rcases h4 with ⟨n, L', hworks, hr1, hlist, hgs, hkeep, hcov⟩
  -- The rectangle itself is taken out and freed.
  have htake := lists_take (.wg v) wg (u ++ n) x hworks.rep.lists hlist
  have hnd := List.nodup_append.mp (hlist ▸ lists_nodup hworks.rep.lists (.wg v))
  have hnone : ∀ j, wg ∉ Function.update L' (.wg v) (u ++ n ++ x) j := by
    intro j
    by_cases hj : j = .wg v
    · rw [hj, Function.update_self, List.mem_append]
      intro e
      rcases e with e | e
      · exact hnd.2.2 wg e wg List.mem_cons_self rfl
      · exact (List.nodup_cons.mp hnd.2.1).1 e
    · rw [Function.update_of_ne hj]
      refine hworks.rep.apart (Ne.symm hj) ?_
      rw [hlist]
      exact List.mem_append_right _ List.mem_cons_self
  have hnull := ((on_cons wg).mp (on_behind (u ++ n) (wg :: x)
    (hlist ▸ hworks.rep.lists.on (.wg v)))).2.1
  have hpush := lists_push .freelist wg htake hnone hnull
  refine ⟨n, _, ⟨⟨hr1 ▸ hpush, fun a => ?_⟩, hworks.nwindows, hworks.windx, hworks.whdlx,
    fun w' hw' => ?_, hworks.grect, hworks.covered⟩, ?_, ?_, ?_, hcov, hr1, ?_⟩
  · rw [← hworks.rep.pool a, Function.update_of_ne (by simp)]
    refine pool_moved (by simp) _ _ a ?_
    rw [hlist]
    simp only [List.mem_append, List.mem_cons]
    tauto
  · rw [Function.update_of_ne (by simp), Function.update_of_ne (by simpa using hw')]
    exact hworks.list w' hw'
  · rw [Function.update_of_ne (by simp), Function.update_self]
  · rw [overlaps, if_neg hap]
    exact hgs
  · intro a ha
    refine hkeep a ?_
    rcases List.mem_append.mp ha with hu | hx
    · exact List.mem_append_left _ hu
    · exact List.mem_append_right _ (List.mem_cons_of_mem _ hx)
  · rw [Bool.not_eq_true] at hap
    rw [hap]
    rfl

/-! ## Cutting the list of a window -/

def anyCovered (c : Grect) (l : List Grect) : Bool := l.any fun g => !apart c g

theorem cwioNext_spec {w : BitVec 16} {c : Nat} (hw : w ≠ v) (fuel : Nat) (u x : List Nat)
    (hrep : Rep s.link pool L) (hc : c ∈ L (.wg w)) (hl : L (.wg v) = u ++ x)
    (hfuel : x.length < fuel) :
    Gives (cwioNext v c fuel (endCell (.head (.wg v)) u) s) fun s' => ∃ n L',
      Works v pool s L s' L' ∧ L' (.wg v) = u ++ n ∧
      rects s' n = (rects s x).flatMap (overlaps (s.grect c)) ∧
      (∀ a ∈ u, s'.grect a = s.grect a) ∧
      s'.covered v = (s.covered v || anyCovered (s.grect c) (rects s x)) := by
  induction x generalizing u s L fuel with
  | nil =>
    rcases Nat.exists_eq_succ_of_ne_zero (Nat.ne_of_gt hfuel) with ⟨f, rfl⟩
    have hend := on_nil.mp (on_behind u [] (hl ▸ hrep.lists.on (.wg v)))
    rw [cwioNext, if_pos hend]
    exact ⟨[], L, Works.refl hrep, hl, rfl, fun _ _ => rfl, (Bool.or_false _).symm⟩
  | cons wg x ih =>
    rcases Nat.exists_eq_succ_of_ne_zero (Nat.ne_of_gt (Nat.zero_lt_of_lt hfuel)) with ⟨f, rfl⟩
    have hon := (on_cons wg).mp (on_behind u (wg :: x) (hl ▸ hrep.lists.on (.wg v)))
    rw [cwioNext, hon.1, if_neg hon.2.1]
    refine gives_bind (calcWgrectOverlaps_spec hw hrep hc hl) fun r hr => ?_
    rcases r with ⟨a3, s1⟩
    rcases hr with ⟨n, L1, hworks, hl1, hn, hkeep, hcov, ha3, hsome⟩
    dsimp only at hworks hn hkeep hcov ha3 hsome ⊢
    have hcut := hworks.grect w hw c hc
    have hx : rects s1 x = rects s x :=
      List.map_congr_left fun a ha => hkeep a (List.mem_append_right _ ha)
    -- The walk goes on behind the pieces, whether the bit was set or not.
    have hnext : ∀ s2, Works v pool s L s2 L1 → s2.grect = s1.grect →
        s2.covered v = (s.covered v || !apart (s.grect c) (s.grect wg)) →
        Gives (cwioNext v c f (endCell (.head (.wg v)) (u ++ n)) s2) fun s' => ∃ n' L',
          Works v pool s L s' L' ∧ L' (.wg v) = u ++ n' ∧
          rects s' n' = (rects s (wg :: x)).flatMap (overlaps (s.grect c)) ∧
          (∀ a ∈ u, s'.grect a = s.grect a) ∧
          s'.covered v = (s.covered v || anyCovered (s.grect c) (rects s (wg :: x))) := by
      intro s2 hs2 hgrect hcov2
      have hx2 : rects s2 x = rects s x := by
        rw [← hx, rects, hgrect]
        rfl
      refine gives_mono (ih f (u ++ n) hs2.rep (hs2.list w hw ▸ hc) hl1
        (Nat.lt_of_succ_lt_succ hfuel)) fun s' hs' => ?_
      rcases hs' with ⟨m, L', hworks', hl', hm, hkeep', hcov'⟩
      rw [hgrect, hcut, hx2] at hm hcov'
      refine ⟨n ++ m, L', hs2.trans hworks', ?_, ?_, fun a ha => ?_, ?_⟩
      · rw [hl', List.append_assoc]
      · have hn' : rects s' n = overlaps (s.grect c) (s.grect wg) := by
          rw [← hn]
          refine List.map_congr_left fun a ha => ?_
          rw [hkeep' a (List.mem_append_right _ ha), hgrect]
        calc rects s' (n ++ m) = rects s' n ++ rects s' m := List.map_append
          _ = _ := by rw [hn', hm]; rfl
      · rw [hkeep' a (List.mem_append_left _ ha), hgrect]
        exact hkeep a (List.mem_append_left _ ha)
      · rw [hcov', hcov2, Bool.or_assoc]
        rfl
    cases a3 with
    | none =>
      have hap : (!apart (s.grect c) (s.grect wg)) = false := hsome.symm
      rw [Option.getD_none] at ha3
      dsimp only
      rw [ha3]
      exact hnext s1 hworks rfl (by rw [hcov, hap, Bool.or_false])
    | some a3 =>
      have hap : (!apart (s.grect c) (s.grect wg)) = true := hsome.symm
      rw [Option.getD_some] at ha3
      dsimp only
      rw [ha3]
      refine hnext _ ⟨hworks.rep, hworks.nwindows, hworks.windx, hworks.whdlx, hworks.list,
        hworks.grect, fun w' hw' => ?_⟩ rfl ?_
      · dsimp only
        rw [Function.update_of_ne hw']
        exact hworks.covered w' hw'
      · dsimp only
        rw [Function.update_self, hap, Bool.or_true]

/-! ## Cutting the lists of the windows below -/

/-- What a window does to those of some handles. Frozen ones have no list. -/
structure Spread (pool : List Nat) (ws : List (BitVec 16)) (c : Grect) (s : Screen)
    (L : Root → List Nat) (s' : Screen) (L' : Root → List Nat) : Prop where
  rep : Rep s'.link pool L'
  nwindows : s'.nwindows = s.nwindows
  windx : s'.windx = s.windx
  whdlx : s'.whdlx = s.whdlx
  cut : ∀ v ∈ ws, v.msb = false →
    rects s' (L' (.wg v)) = (rects s (L (.wg v))).flatMap (overlaps c)
  sets : ∀ v ∈ ws, v.msb = false →
    s'.covered v = (s.covered v || anyCovered c (rects s (L (.wg v))))
  list : ∀ v, (v ∈ ws → v.msb = true) → L' (.wg v) = L (.wg v)
  grect : ∀ v, (v ∈ ws → v.msb = true) → ∀ a ∈ L (.wg v), s'.grect a = s.grect a
  covered : ∀ v, (v ∈ ws → v.msb = true) → s'.covered v = s.covered v

theorem Spread.rects_eq {ws : List (BitVec 16)} {c : Grect} {s' : Screen} {L' : Root → List Nat}
    (h : Spread pool ws c s L s' L') (hv : v ∈ ws → v.msb = true) :
    rects s' (L' (.wg v)) = rects s (L (.wg v)) := by
  rw [h.list v hv]
  exact List.map_congr_left (h.grect v hv)

theorem Spread.skip (c : Grect) (hrep : Rep s.link pool L) (hv : v.msb = true) :
    Spread pool [v] c s L s L where
  rep := hrep
  nwindows := rfl
  windx := rfl
  whdlx := rfl
  cut w hw hm := absurd hm (by rw [List.mem_singleton.mp hw, hv]; decide)
  sets w hw hm := absurd hm (by rw [List.mem_singleton.mp hw, hv]; decide)
  list _ _ := rfl
  grect _ _ _ _ := rfl
  covered _ _ := rfl

theorem Spread.cons {ws : List (BitVec 16)} {c : Grect} {s1 s2 : Screen} {L1 L2 : Root → List Nat}
    (h1 : Spread pool [v] c s L s1 L1) (h2 : Spread pool ws c s1 L1 s2 L2) (hv : v ∉ ws) :
    Spread pool (v :: ws) c s L s2 L2 where
  rep := h2.rep
  nwindows := h2.nwindows.trans h1.nwindows
  windx := h2.windx.trans h1.windx
  whdlx := h2.whdlx.trans h1.whdlx
  cut w hw hm := by
    rcases List.mem_cons.mp hw with rfl | hw
    · rw [h2.rects_eq fun e => absurd e hv, h1.cut w List.mem_cons_self hm]
    · have hne : w ∈ [v] → w.msb = true := fun e => absurd (List.mem_singleton.mp e ▸ hw) hv
      rw [h2.cut w hw hm, h1.rects_eq hne]
  sets w hw hm := by
    rcases List.mem_cons.mp hw with rfl | hw
    · rw [h2.covered w fun e => absurd e hv, h1.sets w List.mem_cons_self hm]
    · have hne : w ∈ [v] → w.msb = true := fun e => absurd (List.mem_singleton.mp e ▸ hw) hv
      rw [h2.sets w hw hm, h1.rects_eq hne, h1.covered w hne]
  list w hw := by
    rw [h2.list w fun e => hw (List.mem_cons_of_mem _ e)]
    exact h1.list w fun e => hw (List.mem_singleton.mp e ▸ List.mem_cons_self)
  grect w hw a ha := by
    have hw1 : w ∈ [v] → w.msb = true := fun e => hw (List.mem_singleton.mp e ▸ List.mem_cons_self)
    rw [h2.grect w (fun e => hw (List.mem_cons_of_mem _ e)) a (h1.list w hw1 ▸ ha)]
    exact h1.grect w hw1 a ha
  covered w hw := by
    rw [h2.covered w fun e => hw (List.mem_cons_of_mem _ e)]
    exact h1.covered w fun e => hw (List.mem_singleton.mp e ▸ List.mem_cons_self)

theorem Rep.length {link : Cell Root Nat → Nat} (h : Rep link pool L) (i : Root) :
    (L i).length ≤ pool.length :=
  (List.subperm_of_subset (lists_nodup h.lists i) fun a ha => (h.pool a).mp ⟨i, ha⟩).length_le

theorem calcWindOverlaps_spec {w : BitVec 16} {c : Nat} {fuel : Nat} (hw : w ≠ v)
    (hrep : Rep s.link pool L) (hc : c ∈ L (.wg w)) (hfuel : pool.length < fuel)
    (hv : v.msb = false) (hwnd : (whdlToWnd s v).isSome) :
    Gives (calcWindOverlaps fuel v c s) fun s' => ∃ L', Spread pool [v] (s.grect c) s L s' L' := by
  unfold calcWindOverlaps
  rcases Option.isSome_iff_exists.mp hwnd with ⟨wnd, hwnd⟩
  rw [hwnd]
  refine gives_mono (cwioNext_spec hw fuel [] (L (.wg v)) hrep hc rfl
    (lt_of_le_of_lt (hrep.length _) hfuel)) fun s' hs' => ?_
  rcases hs' with ⟨n, L', hworks, hl', hn, _, hcov⟩
  rw [List.nil_append] at hl'
  have hne : ∀ w', (w' ∈ [v] → w'.msb = true) → w' ≠ v := by
    intro w' hw' e
    subst e
    exact absurd hv (by rw [hw' List.mem_cons_self]; decide)
  refine ⟨L', hworks.rep, hworks.nwindows, hworks.windx, hworks.whdlx, fun w' hw' _ => ?_,
    fun w' hw' _ => ?_, fun w' hw' => hworks.list w' (hne w' hw'),
    fun w' hw' => hworks.grect w' (hne w' hw'), fun w' hw' => hworks.covered w' (hne w' hw')⟩
  · rw [List.mem_singleton.mp hw', hl']
    exact hn
  · rw [List.mem_singleton.mp hw']
    exact hcov

theorem swgCalcloop_spec {w : BitVec 16} {c fuel : Nat} (pre : List (BitVec 16))
    (hw : w ∉ pre ++ [0]) (hrep : Rep s.link pool L) (hc : c ∈ L (.wg w))
    (hfuel : pool.length < fuel) (hpre : 0 ∉ pre) (hnd : pre.Nodup)
    (hwnd : ∀ v ∈ pre ++ [0], v.msb = false → (whdlToWnd s v).isSome) :
    Gives (swgCalcloop fuel c (pre ++ [0]) s) fun s' => ∃ L',
      Spread pool (pre ++ [0]) (s.grect c) s L s' L' := by
  induction pre generalizing s L with
  | nil =>
    have hne : w ≠ 0 := fun e => hw (e ▸ List.mem_cons_self)
    refine gives_bind (calcWindOverlaps_spec hne hrep hc hfuel (by decide)
      (hwnd 0 List.mem_cons_self (by decide))) fun s' hs' => ?_
    exact hs'
  | cons v pre ih =>
    have hne : w ≠ v := fun e => hw (e ▸ List.mem_cons_self)
    have hv0 : v ≠ 0 := fun e => hpre (e ▸ List.mem_cons_self)
    have hvpre : v ∉ pre ++ [0] := by
      intro e
      rcases List.mem_append.mp e with e | e
      · exact (List.nodup_cons.mp hnd).1 e
      · exact hv0 (List.mem_singleton.mp e)
    have hstep : Gives (if v.msb then .ok s else calcWindOverlaps fuel v c s) fun s' => ∃ L',
        Spread pool [v] (s.grect c) s L s' L' := by
      by_cases hm : v.msb = true
      · rw [if_pos hm]
        exact ⟨L, Spread.skip _ hrep hm⟩
      · rw [if_neg hm]
        rw [Bool.not_eq_true] at hm
        exact calcWindOverlaps_spec hne hrep hc hfuel hm (hwnd v List.mem_cons_self hm)
    rw [List.cons_append, swgCalcloop]
    refine gives_bind hstep fun s1 hs1 => ?_
    rcases hs1 with ⟨L1, h1⟩
    have hw1 : w ∈ [v] → w.msb = true := fun e => absurd (List.mem_singleton.mp e) hne
    rw [if_neg hv0]
    refine gives_mono (ih (fun e => hw (List.mem_cons_of_mem _ e)) h1.rep
      (h1.list w hw1 ▸ hc) (fun e => hpre (List.mem_cons_of_mem _ e))
      (List.nodup_cons.mp hnd).2 fun v' hv' hm => ?_) fun s2 hs2 => ?_
    · rw [whdlToWnd, h1.nwindows, h1.windx]
      exact hwnd v' (List.mem_cons_of_mem _ hv') hm
    · rcases hs2 with ⟨L2, h2⟩
      rw [h1.grect w hw1 c hc] at h2
      exact ⟨L2, h1.cons h2 hvpre⟩

/-! ## From the desktop upwards -/

/-- What a window covers, if it is on the screen: neither frozen nor empty. -/
def outline (s : Screen) (whdl : BitVec 16) : Option Grect :=
  if whdl.msb then none
  else (whdlToWnd s whdl).bind fun w =>
    if w.wCurr.w = 0 then none else if w.wCurr.h = 0 then none else some w.wOverall

/-- The outlines of the windows above one, the lowest first. -/
def uppers (s : Screen) (ws : List (BitVec 16)) (v : BitVec 16) : List Grect :=
  (ws.takeWhile fun e => e ≠ v).reverse.filterMap (outline s)

theorem uppers_cons_self (ws : List (BitVec 16)) : uppers s (v :: ws) v = [] := by
  simp [uppers]

theorem uppers_cons_of_ne {e : BitVec 16} (ws : List (BitVec 16)) (h : e ≠ v) :
    uppers s (e :: ws) v = uppers s ws v ++ (outline s e).toList := by
  rw [uppers, List.takeWhile_cons_of_pos (by simpa using h), List.reverse_cons,
    List.filterMap_append]
  cases he : outline s e with
  | none => simp [uppers, he]
  | some g => simp [uppers, he]

theorem outline_msb {g : Grect} (h : outline s v = some g) : v.msb = false := by
  unfold outline at h
  by_cases hm : v.msb = true
  · rw [if_pos hm] at h
    cases h
  · rwa [Bool.not_eq_true] at hm

theorem outline_congr {s' : Screen} (h1 : s'.nwindows = s.nwindows) (h2 : s'.windx = s.windx) :
    outline s' v = outline s v := by
  rw [outline, outline, whdlToWnd, whdlToWnd, h1, h2]

/-- The lists of some windows are done. -/
structure Built (pool : List Nat) (ws : List (BitVec 16)) (s : Screen) (s' : Screen)
    (L' : Root → List Nat) : Prop where
  rep : Rep s'.link pool L'
  nwindows : s'.nwindows = s.nwindows
  windx : s'.windx = s.windx
  whdlx : s'.whdlx = s.whdlx
  list : ∀ v ∈ ws, ∀ g, outline s v = some g →
    rects s' (L' (.wg v)) = cutAll overlaps (uppers s ws v) [g]
  sets : ∀ v ∈ ws, ∀ g, outline s v = some g →
    s'.covered v = (uppers s ws v).any fun c => !apart c g
  empty : ∀ v, (v ∈ ws → outline s v = none) → L' (.wg v) = []
  covered : ∀ v, (v ∈ ws → outline s v = none) → s'.covered v = s.covered v

theorem Built.skip {ws : List (BitVec 16)} {s' : Screen} {L' : Root → List Nat}
    (h : Built pool ws s s' L') (hv : outline s v = none) : Built pool (v :: ws) s s' L' := by
  have hother : ∀ w ∈ v :: ws, ∀ g, outline s w = some g → w ∈ ws ∧ v ≠ w := by
    intro w hw g hg
    have hne : v ≠ w := by
      intro e
      rw [← e, hv] at hg
      cases hg
    exact ⟨(List.mem_cons.mp hw).resolve_left (Ne.symm hne), hne⟩
  refine ⟨h.rep, h.nwindows, h.windx, h.whdlx, fun w hw g hg => ?_, fun w hw g hg => ?_,
    fun w hw => h.empty w fun e => hw (List.mem_cons_of_mem _ e),
    fun w hw => h.covered w fun e => hw (List.mem_cons_of_mem _ e)⟩
  · rw [uppers_cons_of_ne ws (hother w hw g hg).2, hv, Option.toList_none, List.append_nil]
    exact h.list w (hother w hw g hg).1 g hg
  · rw [uppers_cons_of_ne ws (hother w hw g hg).2, hv, Option.toList_none, List.append_nil]
    exact h.sets w (hother w hw g hg).1 g hg

theorem Built.step {ws : List (BitVec 16)} {s0 s1 s2 : Screen} {L1 L2 : Root → List Nat}
    {g : Grect} {a0 : Nat} (h : Built pool ws s0 s L) (hv : v ∉ ws) (hg : outline s0 v = some g)
    (hclear : s0.covered v = false) (hworks : Works v pool s L s1 L1) (ha0 : L1 (.wg v) = [a0])
    (hgrect : s1.grect a0 = g) (hcov : s1.covered = s.covered)
    (hspread : Spread pool ws g s1 L1 s2 L2) : Built pool (v :: ws) s0 s2 L2 := by
  have hvm : v ∈ ws → v.msb = true := fun e => absurd e hv
  -- The lists of the others are as before.
  have hbefore : ∀ w, w ≠ v → rects s1 (L1 (.wg w)) = rects s (L (.wg w)) := by
    intro w hw
    rw [hworks.list w hw]
    exact List.map_congr_left (hworks.grect w hw)
  refine ⟨hspread.rep, hspread.nwindows.trans (hworks.nwindows.trans h.nwindows),
    hspread.windx.trans (hworks.windx.trans h.windx),
    hspread.whdlx.trans (hworks.whdlx.trans h.whdlx), fun w hw g' hg' => ?_, fun w hw g' hg' => ?_,
    fun w hw => ?_, fun w hw => ?_⟩
  · by_cases hwv : w = v
    · subst hwv
      rw [uppers_cons_self, hspread.rects_eq hvm, ha0, rects, List.map_cons, hgrect]
      rw [hg] at hg'
      cases hg'
      rw [List.map_nil, cutAll]
    · have hmem : w ∈ ws := (List.mem_cons.mp hw).resolve_left hwv
      rw [uppers_cons_of_ne ws (Ne.symm hwv), hg, hspread.cut w hmem (outline_msb hg'),
        hbefore w hwv, h.list w hmem g' hg', cutAll_append, Option.toList_some, cutAll, cutAll]
  · by_cases hwv : w = v
    · subst hwv
      rw [uppers_cons_self, hspread.covered w hvm, hcov,
        h.covered w fun e => absurd e hv, hclear]
      rfl
    · have hmem : w ∈ ws := (List.mem_cons.mp hw).resolve_left hwv
      rw [uppers_cons_of_ne ws (Ne.symm hwv), hg, hspread.sets w hmem (outline_msb hg'),
        hbefore w hwv, h.list w hmem g' hg', hcov, h.sets w hmem g' hg', Option.toList_some,
        List.any_append]
      -- As long as nothing is covered, the list is the outline itself.
      cases hany : (uppers s0 ws w).any fun c => !apart c g' with
      | true => simp only [Bool.true_or]
      | false =>
        have hall : ∀ c ∈ uppers s0 ws w, apart c g' = true := by
          intro c hc
          have := List.any_eq_false.mp hany c hc
          simpa using this
        rw [cutAll_apart _ _ hall]
        simp only [anyCovered, List.any_cons, List.any_nil, Bool.or_false]
  · by_cases hwv : w = v
    · subst hwv
      rw [hw List.mem_cons_self] at hg
      cases hg
    · have hnil := h.empty w fun e => hw (List.mem_cons_of_mem _ e)
      have hL1 : L1 (.wg w) = [] := (hworks.list w hwv).trans hnil
      by_cases hmem : w ∈ ws ∧ w.msb = false
      · have hcut := hspread.cut w hmem.1 hmem.2
        rw [hL1] at hcut
        exact List.map_eq_nil_iff.mp hcut
      · rw [hspread.list w fun e => by simpa [e] using hmem]
        exact hL1
  · by_cases hwv : w = v
    · subst hwv
      rw [hw List.mem_cons_self] at hg
      cases hg
    · have hw' : w ∈ ws → outline s0 w = none := fun e => hw (List.mem_cons_of_mem _ e)
      have hL1 : L1 (.wg w) = [] := (hworks.list w hwv).trans (h.empty w hw')
      by_cases hmem : w ∈ ws ∧ w.msb = false
      · rw [hspread.sets w hmem.1 hmem.2, hL1, hcov, h.covered w hw']
        exact Bool.or_false _
      · rw [hspread.covered w fun e => by simpa [e] using hmem, hcov]
        exact h.covered w hw'

theorem setWindWgrect_spec {fuel : Nat} {ws : List (BitVec 16)} {g : Grect}
    (hrep : Rep s.link pool L) (hl : L (.wg v) = []) (hg : outline s v = some g) (hv : v ∉ ws)
    (hfuel : pool.length < fuel)
    (hws : v = 0 ∧ ws = [] ∨ v ≠ 0 ∧ ∃ pre, ws = pre ++ [0] ∧ 0 ∉ pre ∧ pre.Nodup ∧
      ∀ w ∈ ws, w.msb = false → (whdlToWnd s w).isSome) :
    Gives (setWindWgrect fuel v (v :: ws) s) fun s2 => ∃ s1 L1 L2 a0,
      Works v pool s L s1 L1 ∧ L1 (.wg v) = [a0] ∧ s1.grect a0 = g ∧ s1.covered = s.covered ∧
      Spread pool ws g s1 L1 s2 L2 := by
  have hm := outline_msb hg
  rw [outline, hm, if_neg (by decide)] at hg
  rcases Option.bind_eq_some_iff.mp hg with ⟨w, hw, hg⟩
  unfold setWindWgrect
  rw [hw]
  dsimp only
  by_cases h1 : w.wCurr.w = 0
  · rw [if_pos h1] at hg
    cases hg
  by_cases h2 : w.wCurr.h = 0
  · rw [if_neg h1, if_pos h2] at hg
    cases hg
  rw [if_neg h1, if_neg h2] at hg ⊢
  cases hg
  have hend : s.link (.head (.wg v)) = 0 := on_nil.mp (hl ▸ hrep.lists.on (.wg v))
  refine gives_bind (allocWgrect_spec [] [] 0 hrep hl hend) fun b hb => ?_
  rcases b with ⟨a0, sa⟩
  rcases hb with ⟨l, hfree, hsa, hrepa⟩
  dsimp only at hfree hsa hrepa ⊢
  have hworks : Works v pool s L
      { sa with
        link := Function.update (Function.update sa.link (.head (.wg v)) a0) (.elem a0) 0
        grect := Function.update sa.grect a0 w.wOverall }
      (Function.update (Function.update L .freelist l) (.wg v) ([] ++ a0 :: [])) := by
    refine ⟨hrepa, ?_, ?_, ?_, fun w' hw' => ?_, fun w' hw' a ha => ?_, fun w' hw' => ?_⟩
    · rw [hsa]
    · rw [hsa]
    · rw [hsa]
    · rw [Function.update_of_ne (by simpa using hw'), Function.update_of_ne (by simp)]
    · have hne : a ≠ a0 := by
        intro e
        exact hrep.apart (i := .freelist) (j := .wg w') (by simp) (hfree ▸ List.mem_cons_self)
          (e ▸ ha)
      dsimp only
      rw [Function.update_of_ne hne, hsa]
    · rw [hsa]
  have hlist : Function.update (Function.update L .freelist l) (.wg v) ([] ++ a0 :: []) (.wg v) =
      [a0] := Function.update_self _ _ _
  have hcov : sa.covered = s.covered := by rw [hsa]
  rcases hws with ⟨hv0, rfl⟩ | ⟨hv0, pre, rfl, hpre, hnd, hwnd⟩
  · rw [if_pos hv0]
    refine ⟨_, _, _, a0, hworks, hlist, Function.update_self _ _ _, hcov, hworks.rep, rfl, rfl, rfl,
      fun _ h => absurd h List.not_mem_nil, fun _ h => absurd h List.not_mem_nil, fun _ _ => rfl,
      fun _ _ _ _ => rfl, fun _ _ => rfl⟩
  · rw [if_neg hv0]
    have hmem : a0 ∈ Function.update (Function.update L .freelist l) (.wg v) ([] ++ a0 :: [])
        (.wg v) := by
      rw [hlist]
      exact List.mem_cons_self
    refine gives_mono (swgCalcloop_spec pre hv hworks.rep hmem hfuel hpre
      hnd fun w' hw' hm' => ?_) fun s2 hs2 => ?_
    · rw [whdlToWnd, hworks.nwindows, hworks.windx]
      exact hwnd w' hw' hm'
    · rcases hs2 with ⟨L2, hs2⟩
      dsimp only at hs2
      rw [Function.update_self] at hs2
      exact ⟨_, _, L2, a0, hworks, hlist, Function.update_self _ _ _, hcov, hs2⟩

theorem setWindWgrect_none {fuel : Nat} {ws : List (BitVec 16)} (hv : v.msb = false)
    (hg : outline s v = none) : setWindWgrect fuel v ws s = .ok s := by
  rw [outline, hv, if_neg (by decide)] at hg
  unfold setWindWgrect
  cases hw : whdlToWnd s v with
  | none => rfl
  | some w =>
    rw [hw, Option.bind_some] at hg
    dsimp only
    by_cases h1 : w.wCurr.w = 0
    · rw [if_pos h1]
    by_cases h2 : w.wCurr.h = 0
    · rw [if_neg h1, if_pos h2]
    rw [if_neg h1, if_neg h2] at hg
    cases hg

/-- `bnw_swgloop`, when all lists are empty. -/
theorem bnwSwgloop_spec {fuel : Nat} (pre : List (BitVec 16)) (hrep : Rep s.link pool L)
    (hl : ∀ w, L (.wg w) = []) (hfuel : pool.length < fuel) (hpre : 0 ∉ pre) (hnd : pre.Nodup)
    (hwnd : ∀ w ∈ pre ++ [0], w.msb = false → (whdlToWnd s w).isSome)
    (hcov : ∀ w ∈ pre ++ [0], w.msb = false → s.covered w = false) :
    Gives (bnwSwgloop fuel (pre ++ [0]) s) fun s' => ∃ L', Built pool (pre ++ [0]) s s' L' := by
  -- One window, when the lists of those below are done.
  have hone : ∀ v ws s1 L1, v ∉ ws → Built pool ws s s1 L1 →
      (v = 0 ∧ ws = [] ∨ v ≠ 0 ∧ ∃ pre, ws = pre ++ [0] ∧ 0 ∉ pre ∧ pre.Nodup ∧
        ∀ w ∈ ws, w.msb = false → (whdlToWnd s w).isSome) →
      (v.msb = false → s.covered v = false) →
      Gives (if v.msb then .ok s1 else setWindWgrect fuel v (v :: ws) s1) fun s' =>
        ∃ L', Built pool (v :: ws) s s' L' := by
    intro v ws s1 L1 hv hb hws hclear
    have hsame : outline s1 v = outline s v := outline_congr hb.nwindows hb.windx
    by_cases hm : v.msb = true
    · rw [if_pos hm]
      refine ⟨L1, hb.skip ?_⟩
      rw [outline, if_pos hm]
    rw [if_neg hm]
    rw [Bool.not_eq_true] at hm
    cases hg : outline s v with
    | none =>
      rw [setWindWgrect_none hm (hsame.trans hg)]
      exact ⟨L1, hb.skip hg⟩
    | some g =>
      refine gives_mono (setWindWgrect_spec hb.rep (hb.empty v fun e => absurd e hv)
        (hsame.trans hg) hv hfuel ?_) fun s2 hs2 => ?_
      · simpa only [whdlToWnd, hb.nwindows, hb.windx] using hws
      · rcases hs2 with ⟨sm, Lm, L2, a0, hworks, ha0, hgr, hc, hspread⟩
        exact ⟨L2, hb.step hv hg (hclear hm) hworks ha0 hgr hc hspread⟩
  induction pre with
  | nil =>
    have hnone : Built pool [] s s L :=
      ⟨hrep, rfl, rfl, rfl, fun _ h => absurd h List.not_mem_nil,
        fun _ h => absurd h List.not_mem_nil, fun w _ => hl w, fun _ _ => rfl⟩
    exact hone 0 [] s L List.not_mem_nil hnone (.inl ⟨rfl, rfl⟩)
      fun h => hcov 0 List.mem_cons_self h
  | cons v pre ih =>
    have hnd' := List.nodup_cons.mp hnd
    have hv0 : v ≠ 0 := fun e => hpre (e ▸ List.mem_cons_self)
    have hpre' : 0 ∉ pre := fun e => hpre (List.mem_cons_of_mem _ e)
    have hv : v ∉ pre ++ [0] := by
      intro e
      rcases List.mem_append.mp e with e | e
      · exact hnd'.1 e
      · exact hv0 (List.mem_singleton.mp e)
    have hwnd' : ∀ w ∈ pre ++ [0], w.msb = false → (whdlToWnd s w).isSome :=
      fun w hw => hwnd w (List.mem_cons_of_mem _ hw)
    rw [List.cons_append, bnwSwgloop]
    refine gives_bind (ih hpre' hnd'.2 hwnd' fun w hw => hcov w (List.mem_cons_of_mem _ hw))
      fun s1 hs1 => ?_
    rcases hs1 with ⟨L1, hb⟩
    exact hone v (pre ++ [0]) s1 L1 hv hb (.inr ⟨hv0, pre, rfl, hpre', hnd'.2, hwnd'⟩)
      fun h => hcov v List.mem_cons_self h

/-! ## Freeing the lists -/

theorem wgfree_spec {fuel : Nat} (v : BitVec 16) (hrep : Rep s.link pool L)
    (hfuel : pool.length < fuel) : Gives (wgfree fuel v s) fun s' => ∃ L',
      Works v pool s L s' L' ∧ L' (.wg v) = [] ∧ s'.covered = s.covered := by
  unfold wgfree
  dsimp only
  cases hl : L (.wg v) with
  | nil =>
    have hend := on_nil.mp (hl ▸ hrep.lists.on (.wg v))
    rw [if_pos hend]
    exact ⟨L, Works.refl hrep, hl, rfl⟩
  | cons d0 l =>
    have hon := (on_cons d0).mp (hl ▸ hrep.lists.on (.wg v))
    have hlen := hrep.length (.wg v)
    rw [hl, List.length_cons] at hlen
    have hspill := lists_spill (.wg v) .freelist (by simp) hrep.lists (by rw [hl]; simp)
    rw [hl, hon.1] at hspill
    rw [hon.1, if_neg hon.2.1, findEnd_spec fuel hon.2.2 (by omega)]
    refine ⟨_, ⟨⟨hspill, fun a => ?_⟩, rfl, rfl, rfl, fun w hw => ?_, fun _ _ _ _ => rfl,
      fun _ _ => rfl⟩, Function.update_self _ _ _, rfl⟩
    · rw [← hrep.pool a]
      refine pool_moved (by simp) _ _ a ?_
      rw [hl]
      simp only [List.mem_append, List.not_mem_nil, or_false]
      tauto
    · rw [Function.update_of_ne (by simpa using hw), Function.update_of_ne (by simp)]

/-- The windows of some handles have no list any more. -/
structure Freed (pool : List Nat) (ws : List (BitVec 16)) (s : Screen) (L : Root → List Nat)
    (s' : Screen) (L' : Root → List Nat) : Prop where
  rep : Rep s'.link pool L'
  nwindows : s'.nwindows = s.nwindows
  windx : s'.windx = s.windx
  whdlx : s'.whdlx = s.whdlx
  list : ∀ w, L (.wg w) = [] ∨ w ∈ ws.map (· &&& 0x7fff) → L' (.wg w) = []
  clear : ∀ w, s.covered w = false ∨ w ∈ ws.map (· &&& 0x7fff) → s'.covered w = false

theorem Freed.cons {ws : List (BitVec 16)} {e : BitVec 16} {s1 s2 : Screen}
    {L1 L2 : Root → List Nat} (h1 : Freed pool [e] s L s1 L1) (h2 : Freed pool ws s1 L1 s2 L2) :
    Freed pool (e :: ws) s L s2 L2 where
  rep := h2.rep
  nwindows := h2.nwindows.trans h1.nwindows
  windx := h2.windx.trans h1.windx
  whdlx := h2.whdlx.trans h1.whdlx
  list w hw := by
    rw [List.map_cons, List.mem_cons] at hw
    rcases hw with hw | rfl | hw
    · exact h2.list w (.inl (h1.list w (.inl hw)))
    · exact h2.list _ (.inl (h1.list _ (.inr List.mem_cons_self)))
    · exact h2.list w (.inr hw)
  clear w hw := by
    rw [List.map_cons, List.mem_cons] at hw
    rcases hw with hw | rfl | hw
    · exact h2.clear w (.inl (h1.clear w (.inl hw)))
    · exact h2.clear _ (.inl (h1.clear _ (.inr List.mem_cons_self)))
    · exact h2.clear w (.inr hw)

theorem wgfree_freed {fuel : Nat} (e : BitVec 16) (hrep : Rep s.link pool L)
    (hfuel : pool.length < fuel) (hwnd : (whdlToWnd s (e &&& 0x7fff)).isSome) :
    Gives (match whdlToWnd s (e &&& 0x7fff) with
      | none => .ok s
      | some _ => (wgfree fuel (e &&& 0x7fff) s).map fun s =>
        { s with covered := Function.update s.covered (e &&& 0x7fff) false }) fun s' =>
      ∃ L', Freed pool [e] s L s' L' := by
  rcases Option.isSome_iff_exists.mp hwnd with ⟨w, hw⟩
  rw [hw]
  refine gives_map (wgfree_spec (e &&& 0x7fff) hrep hfuel) fun s' hs' => ?_
  rcases hs' with ⟨L', hworks, hl', hcov⟩
  refine ⟨L', hworks.rep, hworks.nwindows, hworks.windx, hworks.whdlx, fun v hv => ?_,
    fun v hv => ?_⟩
  · by_cases hve : v = e &&& 0x7fff
    · rw [hve]
      exact hl'
    · rw [hworks.list v hve]
      exact hv.resolve_right fun h => hve (List.mem_singleton.mp h)
  · dsimp only
    by_cases hve : v = e &&& 0x7fff
    · rw [hve]
      exact Function.update_self _ _ _
    · rw [Function.update_of_ne hve, hcov]
      exact hv.resolve_right fun h => hve (List.mem_singleton.mp h)

theorem bnwWgfreeloop_spec {fuel : Nat} (pre : List (BitVec 16)) (hrep : Rep s.link pool L)
    (hfuel : pool.length < fuel) (hpre : 0 ∉ pre)
    (hwnd : ∀ e ∈ pre ++ [0], (whdlToWnd s (e &&& 0x7fff)).isSome) :
    Gives (bnwWgfreeloop fuel (pre ++ [0]) s) fun s' => ∃ L',
      Freed pool (pre ++ [0]) s L s' L' := by
  induction pre generalizing s L with
  | nil =>
    exact gives_bind (wgfree_freed 0 hrep hfuel (hwnd 0 List.mem_cons_self)) fun s' hs' => hs'
  | cons e pre ih =>
    have he0 : e ≠ 0 := fun h => hpre (h ▸ List.mem_cons_self)
    rw [List.cons_append, bnwWgfreeloop]
    refine gives_bind (wgfree_freed e hrep hfuel (hwnd e List.mem_cons_self)) fun s1 hs1 => ?_
    rcases hs1 with ⟨L1, h1⟩
    rw [if_neg he0]
    refine gives_mono (ih h1.rep (fun h => hpre (List.mem_cons_of_mem _ h)) fun e' he' => ?_)
      fun s2 hs2 => ?_
    · rw [whdlToWnd, h1.nwindows, h1.windx]
      exact hwnd e' (List.mem_cons_of_mem _ he')
    · rcases hs2 with ⟨L2, h2⟩
      exact ⟨L2, h1.cons h2⟩

/-! ## The order of the windows -/

/-- Handles of windows that are not frozen, in their order. -/
def thawed (ws : List (BitVec 16)) : List (BitVec 16) := ws.filter fun e => !e.msb

theorem bnwTrmloop_spec (acc pre : List (BitVec 16)) (hacc : ∀ e ∈ acc, e.msb = true)
    (hpre : 0 ∉ pre) : ∃ pre', bnwTrmloop acc (pre ++ [0]) = pre' ++ [0] ∧
      pre'.Perm (acc ++ pre) ∧ thawed pre' = thawed (acc ++ pre) := by
  induction pre generalizing acc with
  | nil => exact ⟨acc, rfl, by rw [List.append_nil], by rw [List.append_nil]⟩
  | cons d2 pre ih =>
    rw [List.cons_append, bnwTrmloop]
    by_cases hm : d2.msb = true
    · rw [if_pos hm]
      have hacc' : ∀ e ∈ acc ++ [d2], e.msb = true := by
        intro e he
        rcases List.mem_append.mp he with he | he
        · exact hacc e he
        · rw [List.mem_singleton.mp he, hm]
      rcases ih (acc ++ [d2]) hacc' fun h => hpre (List.mem_cons_of_mem _ h) with ⟨pre', h⟩
      rw [List.append_assoc, List.singleton_append] at h
      exact ⟨pre', h⟩
    · have h0 : d2 ≠ 0 := fun h => hpre (h ▸ List.mem_cons_self)
      rw [if_neg hm, if_neg h0]
      refine ⟨d2 :: (acc ++ pre), by simp, ?_, ?_⟩
      · exact List.perm_middle.symm
      · -- The windows in front of it are all frozen.
        have hnil : thawed acc = [] := by
          refine List.filter_eq_nil_iff.mpr fun e he => ?_
          rw [hacc e he]
          decide
        have hd2 : thawed (d2 :: (acc ++ pre)) = d2 :: thawed (acc ++ pre) :=
          List.filter_cons_of_pos (by simpa using hm)
        rw [hd2, thawed, thawed, List.filter_append, List.filter_append,
          List.filter_cons_of_pos (by simpa using hm)]
        rw [thawed] at hnil
        rw [hnil, List.nil_append, List.nil_append]

theorem trim_spec (pre : List (BitVec 16)) (hpre : 0 ∉ pre) : ∃ pre',
    trim (pre ++ [0]) = pre' ++ [0] ∧ pre'.Perm pre ∧ thawed pre' = thawed pre := by
  cases pre with
  | nil => exact ⟨[], rfl, .refl _, rfl⟩
  | cons d0 pre =>
    rw [List.cons_append, trim]
    by_cases hm : d0.msb = true
    · rw [if_pos hm]
      refine bnwTrmloop_spec [d0] pre (fun e he => ?_) fun h => hpre (List.mem_cons_of_mem _ h)
      rw [List.mem_singleton.mp he, hm]
    · rw [if_neg hm]
      exact ⟨d0 :: pre, rfl, .refl _, rfl⟩

theorem uppers_thawed (ws : List (BitVec 16)) (hv : v.msb = false) :
    uppers s (thawed ws) v = uppers s ws v := by
  induction ws with
  | nil => rfl
  | cons e ws ih =>
    by_cases hm : e.msb = true
    · have hskip : thawed (e :: ws) = thawed ws := List.filter_cons_of_neg (by simp [hm])
      have hne : e ≠ v := by
        intro h
        rw [h, hv] at hm
        cases hm
      have hnone : outline s e = none := by
        rw [outline, if_pos hm]
      rw [hskip, uppers_cons_of_ne ws hne, hnone, Option.toList_none, List.append_nil]
      exact ih
    · have htake : thawed (e :: ws) = e :: thawed ws := List.filter_cons_of_pos (by simpa using hm)
      rw [htake]
      by_cases hne : e = v
      · rw [hne, uppers_cons_self, uppers_cons_self]
      · rw [uppers_cons_of_ne _ hne, uppers_cons_of_ne _ hne, ih]

end

end Win

end Aes

end MagiC
