import MagiC.Aes.Shown
import MagiC.Aes.Submenu
import MagiC.Lib.Nesting
import MagiC.Lib.Slist

/-!
# Opening and Closing Submenus

What the routines do to the list of the menu records and to the log.

Most of them do nothing to the list. A menu that is opened goes to the end of the list, and
that it is closed takes it from there again, if everything opened after it has been closed.

## Main definitions

* `Closed`: What has been opened has been closed.

## Theorems

* `smnPuclose_spec`: It is closed.
-/

namespace MagiC

namespace Aes

namespace Smn

namespace Sub

open Obj Partial Nesting Chains

/-- What may happen at any time. -/
def Aside : Act → Prop
  | .found _ _ _ => True
  | .chosen _ _ _ _ => True
  | _ => False

/-- A menu is shown and taken off the screen before it is deleted, or it could not be shown. -/
def Shows (u v : List Act) : Prop :=
  ∃ p, (u = [.opened p, .saved p] ∧ v = [.restored p, .freed p]) ∨
    (u = [.opened p, .freed p] ∧ v = [])

/-- Every menu opened has been closed, those opened last have been closed first. -/
abbrev Paired : List Act → Prop := Nested Aside Shows

/-- The log goes on from `l` to `l'` with something that is paired. -/
def Later (l l' : List Act) : Prop := ∃ m, l' = l ++ m ∧ Paired m

theorem Later.refl (l : List Act) : Later l l := ⟨[], (List.append_nil l).symm, .nil⟩

theorem Later.trans {l l' l'' : List Act} (h : Later l l') (h' : Later l' l'') : Later l l'' := by
  rcases h with ⟨m, rfl, hm⟩
  rcases h' with ⟨m', rfl, hm'⟩
  exact ⟨m ++ m', List.append_assoc l m m', hm.append hm'⟩

theorem Later.note (l : List Act) {a : Act} (ha : Aside a) : Later l (l ++ [a]) :=
  ⟨[a], rfl, .single ha .nil⟩

/-- What says which menu a record is for is the same. -/
structure Same (q q' : PopupS) : Prop where
  puTree : q'.puTree = q.puTree
  root : q'.root = q.root
  puScrbuf : q'.puScrbuf = q.puScrbuf

theorem Same.refl (q : PopupS) : Same q q := ⟨rfl, rfl, rfl⟩

theorem Same.trans {q q' q'' : PopupS} (h : Same q q') (h' : Same q' q'') : Same q q'' :=
  ⟨h'.puTree.trans h.puTree, h'.root.trans h.root, h'.puScrbuf.trans h.puScrbuf⟩

/-- Nothing has been opened or closed. -/
structure Quiet (w w' : World) : Prop where
  popList : w'.popList = w.popList
  puChild : w'.puChild = w.puChild
  live : w'.live = w.live
  same : ∀ p, Same (w.pops p) (w'.pops p)
  log : Later w.log w'.log

/-- Nothing has been opened, closed or written down. -/
structure Silent (w w' : World) : Prop where
  quiet : Quiet w w'
  log : w'.log = w.log
  result : w'.result = w.result

/-- The menu records in their order. -/
structure Stacked (w : World) (ps : List Nat) : Prop where
  linked : Chains.Linked w.puChild NULL w.popList ps
  live : ∀ p ∈ ps, p ∈ w.live

/-- What has been opened has been closed. -/
structure Closed (ps : List Nat) (w w' : World) : Prop where
  stacked : Stacked w' ps
  same : ∀ p ∈ ps, Same (w.pops p) (w'.pops p)
  log : Later w.log w'.log

/-- The menu `c` is left open. -/
structure Opened (ps : List Nat) (c : Nat) (w w' : World) : Prop where
  stacked : Stacked w' (ps ++ [c])
  same : ∀ p ∈ ps, Same (w.pops p) (w'.pops p)
  puScrbuf : (w'.pops c).puScrbuf = true
  log : ∃ l, Later w.log l ∧ Later (l ++ [.opened c, .saved c]) w'.log

section

variable {w w' w'' : World} {ps : List Nat} {p c : Nat}

theorem Quiet.refl (w : World) : Quiet w w := ⟨rfl, rfl, rfl, fun _ => Same.refl _, Later.refl _⟩

theorem Quiet.trans (h : Quiet w w') (h' : Quiet w' w'') : Quiet w w'' :=
  ⟨h'.popList.trans h.popList, h'.puChild.trans h.puChild, h'.live.trans h.live,
    fun p => (h.same p).trans (h'.same p), h.log.trans h'.log⟩

theorem Silent.trans (h : Silent w w') (h' : Silent w' w'') : Silent w w'' :=
  ⟨h.quiet.trans h'.quiet, h'.log.trans h.log, h'.result.trans h.result⟩

theorem Quiet.stacked (h : Quiet w w') (hs : Stacked w ps) : Stacked w' ps := by
  refine ⟨?_, fun p hp => h.live ▸ hs.live p hp⟩
  rw [h.popList, h.puChild]
  exact hs.linked

theorem Quiet.closed (h : Quiet w w') (hs : Stacked w ps) : Closed ps w w' :=
  ⟨h.stacked hs, fun p _ => h.same p, h.log⟩

theorem Closed.refl (hs : Stacked w ps) : Closed ps w w := (Quiet.refl w).closed hs

theorem Closed.trans (h : Closed ps w w') (h' : Closed ps w' w'') : Closed ps w w'' :=
  ⟨h'.stacked, fun p hp => (h.same p hp).trans (h'.same p hp), h.log.trans h'.log⟩

theorem Closed.opened (h : Closed ps w w') (h' : Opened ps c w' w'') : Opened ps c w w'' := by
  rcases h'.log with ⟨l, hl, hl'⟩
  exact ⟨h'.stacked, fun p hp => (h.same p hp).trans (h'.same p hp), h'.puScrbuf,
    l, h.log.trans hl, hl'⟩

theorem Opened.closed (h : Opened ps c w w') (h' : Closed (ps ++ [c]) w' w'') :
    Opened ps c w w'' := by
  rcases h.log with ⟨l, hl, hl'⟩
  exact ⟨h'.stacked, fun p hp => (h.same p hp).trans (h'.same p (List.mem_append_left _ hp)),
    (h'.same c (by simp)).puScrbuf.trans h.puScrbuf, l, hl, hl'.trans h'.log⟩

theorem Stacked.popList_eq (h : Stacked w ps) (h' : Stacked w' ps) : w'.popList = w.popList := by
  cases ps with
  | nil => exact h'.linked.1.trans h.linked.1.symm
  | cons p ps => exact h'.linked.1.1.trans h.linked.1.1.symm

end

section

variable {env : Env} {w : World} {ps : List Nat} {p c : Nat} {mgr : Mgr} {n : Nat}

theorem quiet_note (w : World) {a : Act} (ha : Aside a) : Quiet w { w with log := w.log ++ [a] } :=
  ⟨rfl, rfl, rfl, fun _ => Same.refl _, Later.note _ ha⟩

theorem silent_clock (w : World) (t : Nat) : Silent w { w with clock := t } :=
  ⟨⟨rfl, rfl, rfl, fun _ => Same.refl _, Later.refl _⟩, rfl, rfl⟩

theorem silent_trees (w : World) (f : Nat → Tree) : Silent w { w with trees := f } :=
  ⟨⟨rfl, rfl, rfl, fun _ => Same.refl _, Later.refl _⟩, rfl, rfl⟩

theorem silent_pops (w : World) (p : Nat) {q : PopupS} (hq : Same (w.pops p) q) :
    Silent w { w with pops := Function.update w.pops p q } := by
  refine ⟨⟨rfl, rfl, rfl, fun x => ?_, Later.refl _⟩, rfl, rfl⟩
  by_cases hx : x = p
  · subst hx
    show Same (w.pops x) (Function.update w.pops x q x)
    rw [Function.update_self]
    exact hq
  · show Same (w.pops x) (Function.update w.pops p q x)
    rw [Function.update_of_ne hx]
    exact Same.refl _

theorem tick_spec : Wlp tick (fun _ w' => Silent w w') w := by
  simp only [tick, wlp_bind, wlp_get, wlp_set, wlp_pure]
  exact silent_clock w _

theorem grafMkstate_silent : Wlp (grafMkstate env) (fun _ w' => Silent w w') w := by
  simp only [grafMkstate, wlp_bind, wlp_pure]
  exact tick_spec

theorem grafMkstate_spec : Wlp (grafMkstate env) (fun _ w' => Quiet w w') w :=
  wlp_mono grafMkstate_silent fun _ _ h => h.quiet

theorem evntMulti_spec : Wlp (evntMulti env) (fun _ w' => Quiet w w') w := by
  simp only [evntMulti, wlp_bind, wlp_pure]
  exact wlp_mono tick_spec fun _ _ h => h.quiet

theorem waitUntilMbuttonsReleased_spec (n : Nat) :
    Wlp (waitUntilMbuttonsReleased env n) (fun _ w' => Silent w w') w := by
  induction n generalizing w with
  | zero => exact wlp_throw _
  | succ n ih =>
    rw [waitUntilMbuttonsReleased, wlp_bind]
    refine wlp_mono grafMkstate_silent fun e w₁ h₁ => ?_
    refine wlp_ite (fun _ => ?_) (fun _ => ?_)
    · rw [wlp_pure]
      exact h₁
    · exact wlp_mono ih fun _ w₂ h₂ => h₁.trans h₂

theorem onPopup_spec {f : PopupS → PopupS} (hf : Same (w.pops p) (f (w.pops p))) :
    Wlp (onPopup p f) (fun _ w' => Silent w w') w := by
  rw [onPopup, wlp_modify]
  exact silent_pops w p hf

theorem onObjects_spec (tree : Nat) (f : Tree → Tree) :
    Wlp (onObjects tree f) (fun _ w' => Silent w w') w := by
  rw [onObjects, wlp_modify]
  exact silent_trees w _

theorem onTree_spec {f : Popup → Menu → Except Fault (Popup × Menu)}
    (hf : ∀ q m q' m', f q m = .ok (q', m') → q'.root = q.root) :
    Wlp (onTree p f) (fun _ w' => Silent w w') w := by
  simp only [onTree, wlp_bind, wlp_get, wlp_lift, wlp_set]
  intro r hr
  refine Silent.trans (silent_pops w p (q := { w.pops p with toPopup := r.1 }) ⟨rfl, ?_, rfl⟩)
    (silent_trees _ _)
  exact hf _ _ _ _ hr

theorem smnTrudinsert_root {q q' : Popup} {m m' : Menu} (hrun : smnTrudinsert q m = .ok (q', m')) :
    q'.root = q.root := by
  rcases Outcome.ok_of_bind hrun with ⟨⟨q₁, m₁⟩, hup, hdn⟩
  exact (insertDn_keeps hdn).2.trans (insertUp_keeps hup).2

theorem smnTrset_root {height : Nat} {q q' : Popup} {m m' : Menu}
    (hrun : smnTrset height q m = .ok (q', m')) : q'.root = q.root := by
  unfold smnTrset at hrun
  dsimp only at hrun
  split_ifs at hrun
  · cases hrun
    rfl
  · rcases Outcome.ok_of_bind hrun with ⟨m₁, -, hrun⟩
    rcases Outcome.ok_of_bind hrun with ⟨m₂, -, hrun⟩
    rcases Outcome.ok_of_bind hrun with ⟨⟨q₃, m₃⟩, hins, hrun⟩
    cases hrun
    exact (smnTrudinsert_root hins).trans rfl

theorem smnTrudchange_root {height n : Nat} {q q' : Popup} {m m' : Menu}
    (hrun : smnTrudchange height q m n = .ok (q', m')) : q'.root = q.root := by
  rcases Outcome.ok_of_bind hrun with ⟨m₁, -, hrun⟩
  rcases Outcome.ok_of_bind hrun with ⟨m₂, -, hrun⟩
  rcases Outcome.ok_of_bind hrun with ⟨⟨q₃, m₃⟩, hins, hrun⟩
  cases hrun
  exact (smnTrudinsert_root hins).trans rfl

theorem lastPopup_spec {child : Nat → Nat} {a q : Nat} {l : List Nat}
    (hl : Chains.Linked child NULL a l) (hne : l ≠ []) (hrun : lastPopup child n a = .ok q) :
    ∃ u, l = u ++ [q] := by
  induction n generalizing a l with
  | zero => cases hrun
  | succ n ih =>
    rcases l with - | ⟨x, l⟩
    · exact absurd rfl hne
    rcases (linked_cons x).mp hl with ⟨rfl, -, hl⟩
    rw [lastPopup] at hrun
    split_ifs at hrun with hnull
    · cases hrun
      -- nothing is behind it
      rw [hnull] at hl
      exact ⟨[], by rw [linked_null hl]; rfl⟩
    · rcases linked_head hl hnull with ⟨m, rfl, -⟩
      rcases ih hl (List.cons_ne_nil _ _) hrun with ⟨u, hu⟩
      exact ⟨a :: u, by rw [hu]; rfl⟩

theorem parentPopup_spec {child : Nat → Nat} {a q : Nat} {u : List Nat}
    (hl : Chains.Linked child NULL a (u ++ [p])) (hap : a ≠ p)
    (hrun : parentPopup child p n a = .ok q) : ∃ v, u = v ++ [q] := by
  induction n generalizing a u with
  | zero => cases hrun
  | succ n ih =>
    rcases u with - | ⟨x, u⟩
    · exact absurd hl.1.1 hap
    rcases (linked_cons x).mp hl with ⟨rfl, hx, hl⟩
    rw [parentPopup, if_neg hx] at hrun
    split_ifs at hrun with hp
    · cases hrun
      refine ⟨[], ?_⟩
      -- the record behind it is the first of the others
      rw [hp] at hl
      have hnd := linked_nodup hl
      rcases u with - | ⟨y, u⟩
      · rfl
      · have hpy : p = y := hl.1.1
        subst hpy
        simp at hnd
    · rcases ih hl hp hrun with ⟨v, hv⟩
      exact ⟨a :: v, by rw [hv]; rfl⟩

theorem linkPopup_spec (hs : Stacked w ps) (hp0 : p ≠ NULL) (hpl : p ∈ w.live) (hp : p ∉ ps) :
    Wlp (linkPopup p) (fun _ w' => Stacked w' (ps ++ [p]) ∧ w'.pops = w.pops ∧ w'.log = w.log ∧
      w'.result = w.result) w := by
  have hlive : ∀ q ∈ ps ++ [p], q ∈ w.live := by
    intro q hq
    rcases List.mem_append.mp hq with hq | hq
    · exact hs.live q hq
    · exact List.mem_singleton.mp hq ▸ hpl
  simp only [linkPopup, wlp_bind, wlp_get]
  refine wlp_ite (fun hnull => ?_) (fun hnull => ?_)
  · have hnil : ps = [] := linked_null (hnull ▸ hs.linked)
    subst hnil
    rw [wlp_set]
    refine ⟨⟨(linked_cons p).mpr ⟨rfl, hp0, ?_⟩, hlive⟩, rfl, rfl, rfl⟩
    show Chains.Linked _ NULL (Function.update w.puChild p NULL p) []
    rw [Function.update_self]
    exact linked_nil _ _
  · simp only [wlp_bind, wlp_lift, wlp_set]
    intro q hq
    have hne : ps ≠ [] := fun hnil => hnull (hnil ▸ hs.linked).1
    rcases lastPopup_spec hs.linked hne hq with ⟨u, rfl⟩
    have hpq : q ≠ p := fun heq => hp (by simp [heq])
    have hnd := linked_nodup hs.linked
    refine ⟨⟨?_, hlive⟩, trivial, trivial, trivial⟩
    have hsnoc : Chains.Linked (Function.update (Function.update w.puChild q p) p NULL) NULL
        w.popList (u ++ [q, p]) := by
      refine linked_snoc q p hs.linked hp0 ?_ (Function.update_self _ _ _) fun z hz => ?_
      · rw [Function.update_of_ne hpq, Function.update_self]
      · have hzp : z ≠ p := fun heq => hp (by simp [← heq, hz])
        have hzq : z ≠ q := fun heq => by
          subst heq
          exact (List.nodup_append.mp hnd).2.2 z hz z (by simp) rfl
        rw [Function.update_of_ne hzp, Function.update_of_ne hzq]
    rw [List.append_assoc]
    exact hsnoc

theorem unlinkPopup_spec (hs : Stacked w (ps ++ [p])) :
    Wlp (unlinkPopup p) (fun _ w' => Stacked w' ps ∧ w'.pops = w.pops ∧ w'.log = w.log ∧
      w'.result = w.result ∧ w'.live = w.live) w := by
  have hlast := linked_last p hs.linked
  have hlive : ∀ q ∈ ps, q ∈ w.live := fun q hq => hs.live q (List.mem_append_left _ hq)
  simp only [unlinkPopup, wlp_bind, wlp_get]
  refine wlp_ite (fun hfirst => ?_) (fun hfirst => ?_)
  · rw [wlp_set]
    refine ⟨⟨?_, hlive⟩, rfl, rfl, rfl, rfl⟩
    have hnil : ps = [] := by
      rcases ps with - | ⟨q, ps⟩
      · rfl
      · have hqp : w.popList = q := hs.linked.1.1
        have hnd := linked_nodup hs.linked
        rw [← hqp, ← hfirst] at hnd
        simp at hnd
    subst hnil
    show Chains.Linked w.puChild NULL (w.puChild p) []
    rw [hlast]
    exact linked_nil _ _
  · simp only [wlp_bind, wlp_lift, wlp_set]
    intro q hq
    rcases parentPopup_spec hs.linked (Ne.symm hfirst) hq with ⟨u, rfl⟩
    refine ⟨⟨?_, hlive⟩, trivial, trivial, trivial, trivial⟩
    have hl : Chains.Linked w.puChild NULL w.popList (u ++ [q, p]) := by
      have h := hs.linked
      rwa [List.append_assoc] at h
    have hnd := linked_nodup hl
    refine linked_chop q p hl ((Function.update_self _ _ _).trans hlast) fun z hz => ?_
    have hzq : z ≠ q := fun heq => by
      subst heq
      exact (List.nodup_append.mp hnd).2.2 z hz z (by simp) rfl
    exact Function.update_of_ne hzq _ _

theorem smalloc_spec : Wlp (smalloc env) (fun p w' => p = NULL ∧ Silent w w' ∨
    p ≠ NULL ∧ p ∉ w.live ∧ ∃ w₁, Silent w w₁ ∧ w' = { w₁ with live := p :: w₁.live }) w := by
  simp only [smalloc, wlp_bind, wlp_get]
  refine wlp_mono tick_spec fun t w₁ h₁ => ?_
  cases env.memory t with
  | none =>
    rw [wlp_pure]
    exact Or.inl ⟨rfl, h₁⟩
  | some p =>
    refine wlp_ite (fun _ => ?_) (fun hp => ?_)
    · rw [wlp_pure]
      exact Or.inl ⟨rfl, h₁⟩
    · simp only [wlp_bind, wlp_set, wlp_pure]
      rw [not_or, h₁.quiet.live] at hp
      exact Or.inr ⟨hp.1, hp.2, w₁, h₁, rfl⟩

/-- A new menu record at the end of the list. -/
structure New (ps : List Nat) (p : Nat) (w w' : World) : Prop where
  stacked : Stacked w' (ps ++ [p])
  fresh : p ∉ ps
  same : ∀ q ∈ ps, Same (w.pops q) (w'.pops q)
  puScrbuf : (w'.pops p).puScrbuf = false
  log : w'.log = w.log ++ [.opened p]

theorem smnPunew_spec (hs : Stacked w ps) (tree root : Nat) (istart : Int) :
    Wlp (smnPunew env tree root istart)
      (fun p w' => p = NULL ∧ Quiet w w' ∨ p ≠ NULL ∧ New ps p w w') w := by
  simp only [smnPunew, wlp_bind]
  refine wlp_mono smalloc_spec fun p w₁ h₁ => ?_
  rcases h₁ with ⟨hp, h₁⟩ | ⟨hp, hpl, w₂, h₂, rfl⟩
  · rw [if_pos hp, wlp_pure]
    exact Or.inl ⟨rfl, h₁.quiet⟩
  · have hfresh : p ∉ ps := fun hmem => hpl (hs.live p hmem)
    have hs₂ := h₂.quiet.stacked hs
    have hs₁ : Stacked { w₂ with live := p :: w₂.live } ps :=
      ⟨hs₂.linked, fun q hq => List.mem_cons_of_mem p (hs₂.live q hq)⟩
    rw [if_neg hp, wlp_bind]
    refine wlp_mono (linkPopup_spec hs₁ hp List.mem_cons_self hfresh) fun _ w₃ h₃ => ?_
    rcases h₃ with ⟨hs₃, hpops, hlog, -⟩
    simp only [note, wlp_bind, wlp_modify, wlp_pure]
    refine Or.inr ⟨hp, ⟨hs₃.linked, hs₃.live⟩, hfresh, fun q hq => ?_, ?_, ?_⟩
    · have hqp : q ≠ p := fun heq => hfresh (heq ▸ hq)
      show Same (w.pops q) (Function.update w₃.pops p _ q)
      rw [Function.update_of_ne hqp, hpops]
      exact h₂.quiet.same q
    · show (Function.update w₃.pops p _ p).puScrbuf = false
      rw [Function.update_self]
      rfl
    · show w₃.log ++ [Act.opened p] = _
      rw [hlog]
      exact congrArg (· ++ [Act.opened p]) h₂.log

theorem smnTrxy_spec (xpos ypos : Word) (rect : Grect) (alignx : Bool) :
    Wlp (smnTrxy env n p xpos ypos rect alignx) (fun _ w' => Silent w w') w := by
  simp only [smnTrxy, wlp_bind, wlp_get, wlp_lift]
  intro x _ y _
  refine wlp_mono (onPopup_spec ⟨rfl, rfl, rfl⟩) fun _ w₁ h₁ => ?_
  exact wlp_mono (onObjects_spec _ _) fun _ w₂ h₂ => h₁.trans h₂

/-- The screen has been saved for a menu. -/
structure Saved (p : Nat) (w w' : World) : Prop where
  popList : w'.popList = w.popList
  puChild : w'.puChild = w.puChild
  live : w'.live = w.live
  same : ∀ q, q ≠ p → Same (w.pops q) (w'.pops q)
  puScrbuf : (w'.pops p).puScrbuf = true
  log : w'.log = w.log ++ [.saved p]

theorem savescr_spec : Wlp (smnSavescr env p false) (fun ok w' =>
    if ok then Saved p w w' else Silent w w') w := by
  simp only [smnSavescr, Bool.false_eq_true, if_false, savescr, wlp_bind]
  refine wlp_mono tick_spec fun t w₁ h₁ => ?_
  refine wlp_ite (fun _ => ?_) (fun _ => ?_)
  · simp only [onPopup, note, wlp_bind, wlp_modify, wlp_pure, if_true]
    refine ⟨h₁.quiet.popList, h₁.quiet.puChild, h₁.quiet.live, fun q hq => ?_, ?_, ?_⟩
    · show Same (w.pops q) (Function.update w₁.pops p _ q)
      rw [Function.update_of_ne hq]
      exact h₁.quiet.same q
    · show (Function.update w₁.pops p _ p).puScrbuf = true
      rw [Function.update_self]
    · exact congrArg (· ++ [Act.saved p]) h₁.log
  · simp only [wlp_pure, Bool.false_eq_true, if_false]
    exact h₁

theorem arrange_spec (scroll x y : Word) (rect : Grect) (alignx : Bool) :
    Wlp (arrange env n p scroll x y rect alignx) (fun ok w' =>
      ∃ w₁, Silent w w₁ ∧ if ok then Saved p w₁ w' else Silent w₁ w') w := by
  simp only [arrange, wlp_bind]
  refine wlp_mono (onPopup_spec ⟨rfl, rfl, rfl⟩) fun _ w₁ h₁ => ?_
  have hset : Wlp (fill env p scroll) (fun _ w₂ => Silent w₁ w₂) w₁ := by
    refine wlp_ite (fun _ => ?_) (fun _ => ?_)
    · exact onTree_spec fun q m q' m' hrun => smnTrset_root hrun
    · rw [wlp_pure]
      exact ⟨Quiet.refl _, rfl, rfl⟩
  refine wlp_mono hset fun _ w₂ h₂ => ?_
  refine wlp_mono (smnTrxy_spec x y rect alignx) fun _ w₃ h₃ => ?_
  exact wlp_mono savescr_spec fun ok w₄ h₄ => ⟨w₃, (h₁.trans h₂).trans h₃, h₄⟩

/-- The last menu record is deleted. -/
structure Deleted (ps : List Nat) (p : Nat) (w w' : World) : Prop where
  stacked : Stacked w' ps
  same : ∀ q ∈ ps, Same (w.pops q) (w'.pops q)
  log : w'.log = w.log ++ [.freed p]
  result : w'.result = w.result

theorem smnPudelete_spec (hs : Stacked w (ps ++ [p])) (hbuf : (w.pops p).puScrbuf = false) :
    Wlp (smnPudelete env p) (fun _ w' => Deleted ps p w w') w := by
  have hp : p ∉ ps := fun hmem =>
    (List.nodup_append.mp (linked_nodup hs.linked)).2.2 p hmem p (by simp) rfl
  simp only [smnPudelete, wlp_bind]
  refine wlp_mono (onTree_spec fun q m q' m' hrun => ?_) fun _ w₁ h₁ => ?_
  · rcases Outcome.ok_of_bind hrun with ⟨m₁, -, hrun⟩
    cases hrun
    rfl
  have hs₁ := h₁.quiet.stacked hs
  -- there is no copy of the screen any more
  have hdrop : Wlp (dropScrbuf p) (fun _ w₂ => w₂ = w₁) w₁ := by
    simp only [dropScrbuf, wlp_bind, wlp_get]
    rw [if_neg (by rw [(h₁.quiet.same p).puScrbuf, hbuf]; exact Bool.false_ne_true), wlp_pure]
  refine wlp_mono hdrop fun _ w₂ h₂ => ?_
  subst h₂
  refine wlp_mono (unlinkPopup_spec hs₁) fun _ w₃ h₃ => ?_
  rcases h₃ with ⟨hs₃, hpops, hlog, hresult, hlive⟩
  simp only [smfree, note, wlp_bind, wlp_get]
  refine wlp_ite (fun _ => ?_) (fun _ => wlp_throw _)
  simp only [wlp_set, wlp_modify]
  refine ⟨⟨hs₃.linked, fun q hq => ?_⟩, fun q _ => ?_, ?_, hresult.trans h₁.result⟩
  · have hqp : q ≠ p := fun heq => hp (heq ▸ hq)
    exact (List.mem_erase_of_ne hqp).mpr (hs₃.live q hq)
  · show Same (w.pops q) (w₃.pops q)
    rw [hpops]
    exact h₁.quiet.same q
  · show w₃.log ++ [Act.freed p] = _
    rw [hlog, h₁.log]

theorem New.opened {w₁ w₂ w' : World} (h : New ps p w w₁) (hq : Silent w₁ w₂)
    (hsaved : Saved p w₂ w') : Opened ps p w w' := by
  have hs := hq.quiet.stacked h.stacked
  refine ⟨⟨?_, fun q hmem => hsaved.live ▸ hs.live q hmem⟩, fun q hmem => ?_, hsaved.puScrbuf,
    w.log, Later.refl _, ?_⟩
  · rw [hsaved.popList, hsaved.puChild]
    exact hs.linked
  · have hqp : q ≠ p := fun heq => h.fresh (heq ▸ hmem)
    exact (h.same q hmem).trans ((hq.quiet.same q).trans (hsaved.same q hqp))
  · rw [hsaved.log, hq.log, h.log, List.append_assoc]
    exact Later.refl _

theorem New.failed {w₁ w₂ w' : World} (h : New ps p w w₁) (hq : Silent w₁ w₂)
    (hd : Deleted ps p w₂ w') : Closed ps w w' := by
  refine ⟨hd.stacked, fun q hmem => ?_, [.opened p, .freed p], ?_, ?_⟩
  · exact (h.same q hmem).trans ((hq.quiet.same q).trans (hd.same q hmem))
  · rw [hd.log, hq.log, h.log, List.append_assoc]
    rfl
  · have hshows : Shows [.opened p, .freed p] [] := ⟨p, Or.inr ⟨rfl, rfl⟩⟩
    exact Nested.around hshows .nil

theorem openAt_spec (hs : Stacked w ps) (pat : AttachS) (rect : Grect) :
    Wlp (openAt env n pat rect) (fun c w' => c = NULL ∧ Closed ps w w' ∨
      c ≠ NULL ∧ Opened ps c w w') w := by
  simp only [openAt, wlp_bind]
  refine wlp_mono (smnPunew_spec hs pat.atTree pat.atRoot pat.atStart) fun p w₁ h₁ => ?_
  rcases h₁ with ⟨hp, h₁⟩ | ⟨hp, h₁⟩
  · rw [if_pos hp, wlp_pure]
    exact Or.inl ⟨rfl, h₁.closed hs⟩
  · rw [if_neg hp, wlp_bind]
    refine wlp_mono (onObjects_spec _ _) fun _ w₂ h₂ => ?_
    rw [wlp_bind]
    refine wlp_mono (arrange_spec _ _ _ _ _) fun ok w₄ h₄ => ?_
    rcases h₄ with ⟨w₃, h₃, h₄⟩
    cases ok with
    | true =>
      rw [if_pos rfl] at h₄ ⊢
      rw [wlp_pure]
      exact Or.inr ⟨hp, h₁.opened (h₂.trans h₃) h₄⟩
    | false =>
      rw [if_neg Bool.false_ne_true] at h₄ ⊢
      have h₁₄ := (h₂.trans h₃).trans h₄
      rw [wlp_bind]
      refine wlp_mono (smnPudelete_spec (h₁₄.quiet.stacked h₁.stacked)
        ((h₁₄.quiet.same p).puScrbuf.trans h₁.puScrbuf)) fun _ w₅ h₅ => ?_
      rw [wlp_pure]
      exact Or.inl ⟨rfl, h₁.failed h₁₄ h₅⟩

/-- A menu is opened, or nothing is. -/
theorem smnPuopen_spec (hs : Stacked w ps) (tree : Nat) (item : Option Nat) :
    Wlp (smnPuopen env n tree item) (fun c w' => c = NULL ∧ Closed ps w w' ∨
      c ≠ NULL ∧ Opened ps c w w') w := by
  have hnothing : Wlp (pure NULL : M Nat) (fun c w' => c = NULL ∧ Closed ps w w' ∨
      c ≠ NULL ∧ Opened ps c w w') w := by
    rw [wlp_pure]
    exact Or.inl ⟨rfl, Closed.refl hs⟩
  simp only [smnPuopen, wlp_bind, wlp_get]
  cases item with
  | none => exact hnothing
  | some item =>
    refine wlp_ite (fun _ => ?_) (fun _ => hnothing)
    cases mnAtGet env (w.trees tree) item with
    | none => exact hnothing
    | some pat => exact openAt_spec hs pat _

/-- The log has got longer, and the records are for the same menus. -/
structure Grown (ps : List Nat) (w w' : World) : Prop where
  same : ∀ q ∈ ps, Same (w.pops q) (w'.pops q)
  log : w.log <+: w'.log

theorem Later.longer {l l' : List Act} (h : Later l l') : l <+: l' := by
  rcases h with ⟨m, rfl, -⟩
  exact List.prefix_append l m

theorem Closed.grown {w' : World} (h : Closed ps w w') : Grown ps w w' := ⟨h.same, h.log.longer⟩

theorem Opened.grown {w' : World} (h : Opened ps c w w') : Grown ps w w' := by
  rcases h.log with ⟨l, hl, hl'⟩
  exact ⟨h.same, hl.longer.trans ((List.prefix_append l _).trans hl'.longer)⟩

/-- The screen behind an open menu has been restored. -/
structure Uncovered (ps : List Nat) (c : Nat) (w₀ w : World) : Prop where
  stacked : Stacked w (ps ++ [c])
  same : ∀ q ∈ ps, Same (w₀.pops q) (w.pops q)
  puScrbuf : (w.pops c).puScrbuf = false
  log : ∃ l m, Later w₀.log l ∧ Paired m ∧
    w.log = l ++ ([.opened c, .saved c] ++ m ++ [.restored c])

theorem Opened.not_mem {w₀ : World} (h : Opened ps c w₀ w) : c ∉ ps := fun hmem =>
  (List.nodup_append.mp (linked_nodup h.stacked.linked)).2.2 c hmem c (by simp) rfl

theorem restorescr_spec {w₀ : World} (h : Opened ps c w₀ w) : Wlp (smnSavescr env c true)
    (fun _ w' => Uncovered ps c w₀ w' ∧ Grown ps w w' ∧ w'.result = w.result) w := by
  simp only [smnSavescr, if_true, restorescr, wlp_bind, wlp_get]
  rw [if_pos h.puScrbuf]
  simp only [onPopup, note, wlp_bind, wlp_modify, wlp_pure, and_true]
  have hsame : ∀ q ∈ ps, Same (w.pops q)
      (Function.update w.pops c { w.pops c with puScrbuf := false } q) := by
    intro q hq
    have hqc : q ≠ c := fun heq => h.not_mem (heq ▸ hq)
    rw [Function.update_of_ne hqc]
    exact Same.refl _
  rcases h.log with ⟨l, hl, m, hm, hpaired⟩
  refine ⟨⟨⟨h.stacked.linked, h.stacked.live⟩, fun q hq => (h.same q hq).trans (hsame q hq), ?_,
    l, m, hl, hpaired, ?_⟩, hsame, List.prefix_append _ _⟩
  · show (Function.update w.pops c _ c).puScrbuf = false
    rw [Function.update_self]
  · rw [hm]
    simp only [List.append_assoc]

theorem Uncovered.closed {w₀ w' : World} (h : Uncovered ps c w₀ w) (hd : Deleted ps c w w') :
    Closed ps w₀ w' := by
  refine ⟨hd.stacked, fun q hq => (h.same q hq).trans (hd.same q hq), ?_⟩
  -- what has been begun with the menu is ended
  rcases h.log with ⟨l, m, hl, hpaired, hlog⟩
  have hshows : Shows [.opened c, .saved c] [.restored c, .freed c] := ⟨c, Or.inl ⟨rfl, rfl⟩⟩
  refine hl.trans ⟨[.opened c, .saved c] ++ m ++ [.restored c, .freed c], ?_,
    hpaired.around hshows⟩
  rw [hd.log, hlog]
  simp only [List.append_assoc, List.cons_append, List.nil_append]

theorem Deleted.grown {w' : World} (h : Deleted ps p w w') : Grown ps w w' := by
  refine ⟨h.same, ?_⟩
  rw [h.log]
  exact List.prefix_append _ _

theorem Grown.trans {w' w'' : World} (h : Grown ps w w') (h' : Grown ps w' w'') :
    Grown ps w w'' :=
  ⟨fun q hq => (h.same q hq).trans (h'.same q hq), h.log.trans h'.log⟩

/-- An open menu is closed. -/
theorem smnPuclose_spec {w₀ : World} (h : Opened ps c w₀ w) :
    Wlp (smnPuclose env c) (fun _ w' => Closed ps w₀ w' ∧ Grown ps w w' ∧ w'.result = w.result)
      w := by
  have hc0 : c ≠ NULL := fun h0 => h.stacked.linked.2 (by simp [h0])
  rw [smnPuclose, if_neg hc0, wlp_bind]
  refine wlp_mono (restorescr_spec h) fun _ w₁ h₁ => ?_
  refine wlp_mono (smnPudelete_spec h₁.1.stacked h₁.1.puScrbuf) fun _ w₂ h₂ => ?_
  exact ⟨h₁.1.closed h₂, h₁.2.1.trans h₂.grown, h₂.result.trans h₁.2.2⟩

end

end Sub

end Smn

end Aes

end MagiC
