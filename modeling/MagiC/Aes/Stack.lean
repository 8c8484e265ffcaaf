import MagiC.Aes.Opening
import MagiC.Aes.Order

/-!
# Popup Menus as a Stack

Whatever comes from outside, a popup menu leaves the list of the menu records as it was. What
has been opened has been closed in the reverse order, with the screen restored before, and what
is reported is an entry that the mouse has been over and that is not disabled.

The local variables know of the menu of an entry, if there is one. As long as there is one no
other is opened, and the routine is not left without closing it.

## Main definitions

* `Good`: The entry reported has been found and is not disabled.

## Theorems

* `smnPopup_stack`: So does the call.
-/

namespace MagiC

namespace Aes

namespace Smn

namespace Sub

open Obj Partial Nesting

/-- The mouse has been found over an entry of the menu. -/
def Found (p : Nat) (w : World) (o : Nat) : Prop :=
  o ≠ (w.pops p).root ∧ Act.found (w.pops p).puTree (w.pops p).root o ∈ w.log

/-- The entry reported has been found, and it was not disabled when it was chosen. -/
def Good (w : World) : Prop :=
  ∃ tree root o state, w.result.mnTree = tree ∧ w.result.mnMenu = (root : Nat) ∧
    w.result.mnItem = (o : Nat) ∧ o ≠ root ∧ Act.found tree root o ∈ w.log ∧
    Act.chosen tree root o state ∈ w.log ∧ state &&& DISABLED = 0

/-- The menu of an entry is open, or there is none. -/
def Child (ps : List Nat) (w₀ w : World) (c : Nat) : Prop :=
  c = NULL ∧ Closed ps w₀ w ∨ c ≠ NULL ∧ Opened ps c w₀ w

/-- What holds of the variables between the parts of the routine. -/
structure Inv (ps : List Nat) (p : Nat) (w₀ w : World) (v : Vars) : Prop where
  mem : p ∈ ps
  child : Child ps w₀ w v.popchild
  openpop : v.openpop = true → v.popchild = NULL
  mobj : ∀ o, v.mobj = some o → Found p w o
  lastmobj : ∀ o, v.lastmobj = some o → Found p w o
  popobj : ∀ o, v.popobj = some o → Found p w o

/-- The menu is left, and nothing has been chosen in it. -/
def Quitted (w : World) (v : Vars) : Prop :=
  v.popchild = NULL ∧ (v.popres = -1 ∨ v.popres = -2 ∨ v.mobj = none ∧ Good w)

/-- The object that the mouse was over is reported. -/
def Picked (p : Nat) (w : World) (v : Vars) : Prop :=
  v.popchild = NULL ∧ ∃ o, v.mobj = some o ∧ w.result.mnTree = (w.pops p).puTree ∧
    w.result.mnMenu = ((w.pops p).root : Nat) ∧ w.result.mnItem = (o : Nat)

/-- What a part can rely on. -/
def Ready (p : Nat) (w : World) (v : Vars) : Label → Prop
  | .enter => v.popchild ≠ NULL ∧ v.quit = false
  | .finish => Quitted w v ∨ Picked p w v
  | .button => v.quit = true → Quitted w v
  | .timer => v.quit = true → Quitted w v
  | .next => v.quit = true → Quitted w v
  | .start => v.quit = false
  | .wait => v.quit = false
  | .uvw => v.quit = false
  | .xyz => v.quit = false

/-- What holds at the beginning of a part. -/
structure At (ps : List Nat) (p : Nat) (w₀ w : World) (l : Label) (v : Vars) : Prop where
  inv : Inv ps p w₀ w v
  ready : Ready p w v l

/-- What the look at the object under the mouse changes. -/
structure Looked (v v' : Vars) : Prop where
  popchild : v'.popchild = v.popchild
  mobj : v'.mobj = v.mobj
  lastmobj : v'.lastmobj = v.lastmobj
  quit : v'.quit = v.quit
  openpop : v'.openpop = true → v.openpop = true ∨ v.popchild = NULL
  popobj : v'.popobj = v.popobj ∨ v'.popobj = v.mobj

section

variable {env : Env} {w₀ w w' : World} {ps : List Nat} {p c : Nat} {mgr : Mgr} {n : Nat}
  {v v' : Vars}

theorem Found.grown {o : Nat} (h : Found p w o) (hp : p ∈ ps) (hg : Grown ps w w') :
    Found p w' o := by
  have hs := hg.same p hp
  rw [Found, hs.root, hs.puTree]
  exact ⟨h.1, hg.log.subset h.2⟩

theorem Child.quiet (h : Child ps w₀ w c) (hq : Quiet w w') : Child ps w₀ w' c := by
  rcases h with ⟨hc, h⟩ | ⟨hc, h⟩
  · exact Or.inl ⟨hc, h.trans (hq.closed h.stacked)⟩
  · exact Or.inr ⟨hc, h.closed (hq.closed h.stacked)⟩

theorem Quiet.grown (h : Quiet w w') : Grown ps w w' := ⟨fun q _ => h.same q, h.log.longer⟩

theorem Inv.quiet (h : Inv ps p w₀ w v) (hq : Quiet w w') : Inv ps p w₀ w' v :=
  ⟨h.mem, h.child.quiet hq, h.openpop, fun o ho => (h.mobj o ho).grown h.mem hq.grown,
    fun o ho => (h.lastmobj o ho).grown h.mem hq.grown,
    fun o ho => (h.popobj o ho).grown h.mem hq.grown⟩

theorem Inv.looked (h : Inv ps p w₀ w v) (hl : Looked v v') : Inv ps p w₀ w v' := by
  refine ⟨h.mem, hl.popchild ▸ h.child, fun hopen => ?_, fun o ho => h.mobj o (hl.mobj ▸ ho),
    fun o ho => h.lastmobj o (hl.lastmobj ▸ ho), fun o ho => ?_⟩
  · rw [hl.popchild]
    rcases hl.openpop hopen with hv | hv
    · exact h.openpop hv
    · exact hv
  · rcases hl.popobj with heq | heq
    · exact h.popobj o (heq ▸ ho)
    · exact h.mobj o (heq ▸ ho)

theorem Inv.idle (h : Inv ps p w₀ w v) : Inv ps p w₀ w v.idle :=
  ⟨h.mem, h.child, fun hopen => absurd hopen Bool.false_ne_true, h.mobj, h.lastmobj, h.popobj⟩

theorem Inv.without (h : Inv ps p w₀ w v) (hc : Closed ps w₀ w') (hg : Grown ps w w')
    (hv : v'.popchild = NULL) (hm : v'.mobj = v.mobj) (hl : v'.lastmobj = v.lastmobj)
    (hp : v'.popobj = v.popobj) : Inv ps p w₀ w' v' :=
  ⟨h.mem, Or.inl ⟨hv, hc⟩, fun _ => hv, fun o ho => (h.mobj o (hm ▸ ho)).grown h.mem hg,
    fun o ho => (h.lastmobj o (hl ▸ ho)).grown h.mem hg,
    fun o ho => (h.popobj o (hp ▸ ho)).grown h.mem hg⟩

theorem smnObfind_spec (e : Evnt) : Wlp (smnObfind env p e)
    (fun r w' => Quiet w w' ∧ ∀ o, r = some o → Found p w' o) w := by
  simp only [smnObfind, wlp_bind, wlp_get]
  cases env.objcFind (w.trees (w.pops p).puTree) (w.pops p).root e.x e.y with
  | none =>
    rw [wlp_pure]
    exact ⟨Quiet.refl w, fun o ho => by cases ho⟩
  | some o =>
    refine wlp_ite (fun _ => ?_) (fun hne => ?_)
    · rw [wlp_pure]
      exact ⟨Quiet.refl w, fun o ho => by cases ho⟩
    · simp only [note, wlp_bind, wlp_modify, wlp_pure]
      refine ⟨quiet_note w trivial, fun o' ho' => ?_⟩
      rw [← Option.some.inj ho']
      exact ⟨(not_or.mp hne).2, List.mem_append_right _ List.mem_cons_self⟩

theorem smnIselect_spec (tree : Nat) (obj ignobj : Option Nat) (addit : Bool) :
    Wlp (smnIselect tree obj ignobj addit) (fun _ w' => Quiet w w') w := by
  cases obj with
  | none =>
    rw [smnIselect, wlp_pure]
    exact Quiet.refl w
  | some o =>
    refine wlp_ite (fun _ => ?_) (fun _ => ?_)
    · rw [wlp_pure]
      exact Quiet.refl w
    · exact wlp_mono (onObjects_spec _ _) fun _ _ h => h.quiet

theorem deselect_spec (tree : Nat) (lastmobj mobj : Option Nat) (desel : Bool) :
    Wlp (deselect tree lastmobj mobj desel) (fun _ w' => Quiet w w') w := by
  refine wlp_ite (fun _ => smnIselect_spec _ _ _ _) (fun _ => ?_)
  rw [wlp_pure]
  exact Quiet.refl w

theorem looked_events (v : Vars) (e : Word) : Looked v { v with events := e } :=
  ⟨rfl, rfl, rfl, rfl, Or.inl, Or.inl rfl⟩

theorem askSubmenu_looked (t : Tree) (obj : Nat) (v : Vars) :
    Looked v (askSubmenu env t obj v) := by
  unfold askSubmenu
  split_ifs with hopen
  · rw [smnIsattach, Bool.and_eq_true, Bool.and_eq_true, Bool.and_eq_true] at hopen
    exact ⟨rfl, rfl, rfl, rfl, fun _ => Or.inr (of_decide_eq_true hopen.2.1.1), Or.inr rfl⟩
  · exact looked_events v _

theorem smnEvobject_spec (desel : Bool) (v : Vars) : Wlp (smnEvobject env mgr p desel v)
    (fun v' w' => Quiet w w' ∧ Looked v v') w := by
  simp only [smnEvobject, wlp_bind, wlp_get]
  refine wlp_mono (deselect_spec _ _ _ _) fun _ w₁ h₁ => ?_
  cases v.mobj with
  | none =>
    rw [wlp_pure]
    refine ⟨h₁, ?_⟩
    unfold Vars.outside
    split_ifs
    · exact looked_events v _
    · exact looked_events v _
  | some o =>
    simp only [overObject, wlp_bind, wlp_get]
    refine wlp_ite (fun _ => ?_) (fun _ => ?_)
    · simp only [wlp_bind, wlp_pure]
      refine wlp_mono (smnIselect_spec _ _ _ _) fun _ w₂ h₂ => ?_
      exact ⟨h₁.trans h₂, looked_events v _⟩
    · simp only [wlp_bind, wlp_get, wlp_pure]
      refine wlp_mono (smnIselect_spec _ _ _ _) fun _ w₂ h₂ => ?_
      exact ⟨h₁.trans h₂, askSubmenu_looked _ _ v⟩

theorem smnIsmstate_spec : Wlp (smnIsmstate env v)
    (fun r w' => Quiet w w' ∧ ∃ e, r.2 = { v with mkb := e }) w := by
  simp only [smnIsmstate, wlp_bind, wlp_pure]
  exact wlp_mono grafMkstate_spec fun e w₁ h₁ => ⟨h₁, e, rfl⟩

theorem scrollBy_spec (obj : Option Nat) : Wlp (scrollBy env p obj) (fun _ w' => Quiet w w') w := by
  simp only [scrollBy, wlp_bind, wlp_get]
  refine wlp_ite (fun _ => wlp_throw _) (fun _ => wlp_ite (fun _ => ?_) (fun _ => ?_))
  · exact wlp_mono (onPopup_spec ⟨rfl, rfl, rfl⟩) fun _ _ h => h.quiet
  · simp only [wlp_bind, wlp_get]
    refine wlp_mono (onTree_spec fun q m q' m' hrun => smnTrudchange_root hrun) fun _ w₁ h₁ => ?_
    exact wlp_mono (onObjects_spec _ _) fun _ w₂ h₂ => (h₁.trans h₂).quiet

theorem smnDoupdn_spec (n : Nat) (obj : Option Nat) :
    Wlp (smnDoupdn env p n obj) (fun _ w' => Quiet w w') w := by
  induction n generalizing w obj with
  | zero => exact wlp_throw _
  | succ n ih =>
    simp only [smnDoupdn, wlp_bind]
    refine wlp_mono (scrollBy_spec obj) fun _ w₁ h₁ => ?_
    refine wlp_mono evntMulti_spec fun r w₂ h₂ => ?_
    have hleft : Wlp (leftArrow env n r.1) (fun _ w₃ => Quiet w₂ w₃) w₂ := by
      refine wlp_ite (fun _ => wlp_mono (waitUntilMbuttonsReleased_spec n) fun _ _ h => h.quiet)
        (fun _ => ?_)
      rw [wlp_pure]
      exact Quiet.refl _
    refine wlp_mono hleft fun _ w₃ h₃ => ?_
    have h := (h₁.trans h₂).trans h₃
    refine wlp_ite (fun _ => ?_) (fun _ => wlp_ite (fun _ => ?_) (fun _ => ?_))
    · rw [wlp_pure]
      exact h
    · simp only [wlp_bind, wlp_get]
      exact wlp_mono (ih _) fun _ w₄ h₄ => h.trans h₄
    · exact wlp_mono (ih _) fun _ w₄ h₄ => h.trans h₄

section

variable (h : Inv ps p w₀ w v)

include h

theorem dropChild_spec : Wlp (dropChild env v)
    (fun v' w' => v' = { v with popchild := NULL } ∧ Closed ps w₀ w' ∧ Grown ps w w' ∧
      w'.result = w.result) w := by
  simp only [dropChild, wlp_bind, wlp_pure, true_and]
  rcases h.child with ⟨hc, hclosed⟩ | ⟨-, hopened⟩
  · rw [smnPuclose, if_pos hc, wlp_pure]
    exact ⟨hclosed, (Quiet.refl w).grown, rfl⟩
  · exact smnPuclose_spec hopened

theorem closeChild_spec : Wlp (closeChild env v)
    (fun v' w' => Inv ps p w₀ w' v' ∧ Closed ps w₀ w' ∧ v'.popchild = NULL ∧ v'.quit = v.quit ∧
      v'.mobj = v.mobj) w := by
  refine wlp_ite (fun hnull => ?_) (fun _ => ?_)
  · rw [wlp_pure]
    rcases h.child with ⟨-, hclosed⟩ | ⟨hc, -⟩
    · exact ⟨h, hclosed, hnull, rfl, rfl⟩
    · exact absurd hnull hc
  · simp only [wlp_bind, wlp_pure]
    refine wlp_mono (dropChild_spec h) fun v₁ w₁ h₁ => ?_
    rcases h₁ with ⟨rfl, hclosed, hg, -⟩
    exact ⟨h.without hclosed hg rfl rfl rfl rfl, hclosed, rfl, rfl, rfl⟩

theorem start_spec (hq : v.quit = false) : Wlp (start env mgr p v)
    (fun r w' => At ps p w₀ w' r.1 r.2) w := by
  simp only [start, wlp_bind, wlp_get, wlp_pure]
  refine wlp_mono grafMkstate_spec fun e w₁ h₁ => ?_
  refine wlp_mono (smnObfind_spec e) fun mobj w₂ h₂ => ?_
  refine wlp_mono (smnEvobject_spec false _) fun v₃ w₃ h₃ => ?_
  have h' := h.quiet (h₁.trans h₂.1)
  have hinv : Inv ps p w₀ w₂ { v with
      events := MU_M1 ||| MU_BUTTON
      dragrect := (w.pops p).puRect
      mkb := e
      reqmstate := if mgr.isSome ∧ e.bstate &&& 1 ≠ 0 then 0 else 1
      mobj := mobj } :=
    ⟨h'.mem, h'.child, h'.openpop, h₂.2, h'.lastmobj, h'.popobj⟩
  exact ⟨(hinv.looked h₃.2).quiet h₃.1, h₃.2.quit.trans hq⟩

theorem dragged_inv : Inv ps p w₀ w (dragged v) ∧ (dragged v).quit = v.quit := by
  unfold dragged
  dsimp only
  split_ifs
  · exact ⟨⟨h.mem, h.child, h.openpop, h.mobj, h.lastmobj, h.lastmobj⟩, rfl⟩
  · exact ⟨⟨h.mem, h.child, fun hopen => absurd hopen Bool.false_ne_true, h.mobj, h.lastmobj,
      h.lastmobj⟩, rfl⟩
  · exact ⟨⟨h.mem, h.child, h.openpop, h.mobj, h.lastmobj, h.popobj⟩, rfl⟩
  · exact ⟨⟨h.mem, h.child, fun hopen => absurd hopen Bool.false_ne_true, h.mobj, h.popobj,
      h.popobj⟩, rfl⟩

theorem left_spec : Wlp (left env mgr p v)
    (fun v' w' => Inv ps p w₀ w' v' ∧ v'.quit = v.quit) w := by
  have h₁ : Inv ps p w₀ w (if v.openpop then v.idle else v) ∧
      (if v.openpop then v.idle else v).quit = v.quit := by
    split_ifs
    · exact ⟨h.idle, rfl⟩
    · exact ⟨h, rfl⟩
  unfold left
  dsimp only
  generalize (if v.openpop then v.idle else v) = v₁ at *
  have h₂ : Inv ps p w₀ w (if v₁.popisopen then dragged v₁ else v₁) ∧
      (if v₁.popisopen then dragged v₁ else v₁).quit = v.quit := by
    split_ifs
    · exact ⟨(dragged_inv h₁.1).1, (dragged_inv h₁.1).2.trans h₁.2⟩
    · exact h₁
  generalize (if v₁.popisopen then dragged v₁ else v₁) = v₂ at *
  refine wlp_ite (fun _ => ?_) (fun _ => ?_)
  · rw [wlp_pure]
    exact h₂
  · simp only [wlp_bind, wlp_pure]
    refine wlp_mono (closeChild_spec h₂.1) fun v₃ w₃ h₃ => ?_
    rcases h₃ with ⟨hinv, -, -, hquit, -⟩
    refine wlp_mono (smnEvobject_spec true v₃) fun v₄ w₄ h₄ => ?_
    have hinv₄ := (hinv.looked h₄.2).quiet h₄.1
    have hquit₄ := (h₄.2.quit.trans hquit).trans h₂.2
    split_ifs
    · exact ⟨⟨hinv₄.mem, hinv₄.child, hinv₄.openpop, hinv₄.mobj, hinv₄.lastmobj, hinv₄.popobj⟩,
        hquit₄⟩
    · exact ⟨hinv₄, hquit₄⟩

theorem Inv.mkb (e : Evnt) : Inv ps p w₀ w { v with mkb := e } :=
  ⟨h.mem, h.child, h.openpop, h.mobj, h.lastmobj, h.popobj⟩

theorem moved_spec (hq : v.quit = false) : Wlp (moved env v)
    (fun r w' => At ps p w₀ w' r.1 r.2) w := by
  simp only [moved, wlp_bind, wlp_pure]
  refine wlp_mono smnIsmstate_spec fun r w₁ h₁ => ?_
  rcases r with ⟨b, v₁⟩
  rcases h₁ with ⟨hquiet, e, rfl⟩
  have hinv := (h.quiet hquiet).mkb e
  dsimp only
  split_ifs with hb hopen hin
  · exact ⟨hinv, hq⟩
  · exact ⟨hinv.idle, hin.1, hq⟩
  · exact ⟨hinv.idle, fun hquit => absurd (hq.symm.trans hquit) Bool.false_ne_true⟩
  · exact ⟨hinv, hq⟩

theorem wait_spec (hq : v.quit = false) : Wlp (wait env mgr p v)
    (fun r w' => At ps p w₀ w' r.1 r.2) w := by
  simp only [wait, wlp_bind, wlp_modify]
  have h₀ : Quiet w { w with result := { w.result with mnKeystate := 0 } } :=
    ⟨rfl, rfl, rfl, fun _ => Same.refl _, Later.refl _⟩
  refine wlp_mono evntMulti_spec fun r w₁ h₁ => ?_
  refine wlp_mono (smnObfind_spec r.2) fun mobj w₂ h₂ => ?_
  have h' := h.quiet ((h₀.trans h₁).trans h₂.1)
  have hinv : Inv ps p w₀ w₂ { v with
      which := r.1, mkb := r.2, lastmobj := v.mobj, mobj := mobj } :=
    ⟨h'.mem, h'.child, h'.openpop, h₂.2, h'.mobj, h'.popobj⟩
  have hleft : Wlp (whenM1 env mgr p { v with
      which := r.1, mkb := r.2, lastmobj := v.mobj, mobj := mobj })
      (fun v' w' => Inv ps p w₀ w' v' ∧ v'.quit = v.quit) w₂ := by
    refine wlp_ite (fun _ => left_spec hinv) (fun _ => ?_)
    rw [wlp_pure]
    exact ⟨hinv, rfl⟩
  refine wlp_mono hleft fun v₃ w₃ h₃ => ?_
  have hq₃ := h₃.2.trans hq
  refine wlp_ite (fun _ => moved_spec h₃.1 hq₃) (fun _ => ?_)
  rw [wlp_pure]
  exact ⟨h₃.1, fun hquit => absurd (hq₃.symm.trans hquit) Bool.false_ne_true⟩

end

theorem parents_spec (n parent : Nat) (h : Inv ps p w₀ w v) (hq : v.quit = false) :
    Wlp (parents env n parent v) (fun r w' => At ps p w₀ w' r.1 r.2) w := by
  induction n generalizing w v parent with
  | zero => exact wlp_throw _
  | succ n ih =>
    refine wlp_ite (fun _ => ?_) (fun _ => ?_)
    · rw [wlp_pure]
      exact ⟨h, fun hquit => absurd (hq.symm.trans hquit) Bool.false_ne_true⟩
    · simp only [wlp_bind, wlp_get]
      refine wlp_mono smnIsmstate_spec fun r w₁ h₁ => ?_
      rcases r with ⟨b, v₁⟩
      rcases h₁ with ⟨hquiet, e, rfl⟩
      have hinv := (h.quiet hquiet).mkb e
      refine wlp_ite (fun _ => ?_) (fun _ => wlp_ite (fun _ => ?_) (fun _ => ?_))
      · rw [wlp_pure]
        exact ⟨hinv, hq⟩
      · simp only [wlp_bind, wlp_pure]
        refine wlp_mono (dropChild_spec hinv) fun v₂ w₂ h₂ => ?_
        rcases h₂ with ⟨rfl, hclosed, hg, -⟩
        exact ⟨hinv.without hclosed hg rfl rfl rfl rfl, fun _ => ⟨rfl, Or.inr (Or.inl rfl)⟩⟩
      · exact ih _ hinv hq

theorem elsewhere_spec (n : Nat) (h : Inv ps p w₀ w v) (hq : v.quit = false) :
    Wlp (elsewhere env n p v) (fun r w' => At ps p w₀ w' r.1 r.2) w := by
  simp only [elsewhere, wlp_bind, wlp_get]
  refine wlp_mono smnIsmstate_spec fun r w₁ h₁ => ?_
  rcases r with ⟨b, v₁⟩
  rcases h₁ with ⟨hquiet, e, rfl⟩
  have hinv := (h.quiet hquiet).mkb e
  refine wlp_ite (fun _ => ?_) (fun _ => parents_spec n _ hinv hq)
  rw [wlp_pure]
  exact ⟨hinv, hq⟩

theorem toBar_spec (h : Inv ps p w₀ w v) : Wlp (dropChild env v >>= fun v =>
    (pure (.finish, { v with
      openpop := false, popisopen := false, quit := true, popres := -1 }) : M (Label × Vars)))
    (fun r w' => At ps p w₀ w' r.1 r.2) w := by
  simp only [wlp_bind, wlp_pure]
  refine wlp_mono (dropChild_spec h) fun v₁ w₁ h₁ => ?_
  rcases h₁ with ⟨rfl, hclosed, hg, -⟩
  exact ⟨h.without hclosed hg rfl rfl rfl rfl, Or.inl ⟨rfl, Or.inl rfl⟩⟩

theorem uvw_spec (n : Nat) (h : Inv ps p w₀ w v) (hq : v.quit = false) :
    Wlp (uvw env n mgr p v) (fun r w' => At ps p w₀ w' r.1 r.2) w := by
  simp only [uvw, wlp_bind, wlp_get]
  rcases mgr with - | ⟨bar, rect⟩
  · exact elsewhere_spec n h hq
  · refine wlp_ite (fun _ => ?_) (fun _ => elsewhere_spec n h hq)
    cases env.objcFind (w.trees bar) 2 v.mkb.x v.mkb.y with
    | none => exact toBar_spec h
    | some title =>
      refine wlp_ite (fun _ => ?_) (fun _ => toBar_spec h)
      rw [wlp_pure]
      exact ⟨⟨h.mem, h.child, h.openpop, h.mobj, h.lastmobj, h.popobj⟩,
        fun hquit => absurd (hq.symm.trans hquit) Bool.false_ne_true⟩

theorem clickedArrow_spec (n : Nat) (h : Inv ps p w₀ w v) (hq : v.quit = false) :
    Wlp (clickedArrow env n mgr p v) (fun r w' => At ps p w₀ w' r.1 r.2) w := by
  simp only [clickedArrow, wlp_bind, wlp_pure]
  refine wlp_mono (smnDoupdn_spec n _) fun _ w₁ h₁ => ?_
  refine wlp_mono grafMkstate_spec fun e w₂ h₂ => ?_
  refine wlp_mono (smnObfind_spec e) fun mobj w₃ h₃ => ?_
  have h' := h.quiet ((h₁.trans h₂).trans h₃.1)
  have hinv : Inv ps p w₀ w₃ { v with mkb := e, mobj := mobj, lastmobj := none } :=
    ⟨h'.mem, h'.child, h'.openpop, h₃.2, (fun o ho => by cases ho), h'.popobj⟩
  refine wlp_mono (smnEvobject_spec false _) fun v₄ w₄ h₄ => ?_
  have hinv₄ := (hinv.looked h₄.2).quiet h₄.1
  have hq₄ : v₄.quit = false := h₄.2.quit.trans hq
  split_ifs
  · exact ⟨⟨hinv₄.mem, hinv₄.child, hinv₄.openpop, hinv₄.mobj, hinv₄.lastmobj, hinv₄.popobj⟩, hq₄⟩
  · exact ⟨hinv₄, fun hquit => absurd (hq₄.symm.trans hquit) Bool.false_ne_true⟩

theorem clickedEntry_spec (h : Inv ps p w₀ w v) :
    Wlp (clickedEntry env p v) (fun r w' => At ps p w₀ w' r.1 r.2) w := by
  simp only [clickedEntry, wlp_bind, wlp_modify, wlp_pure]
  refine wlp_mono (closeChild_spec h) fun v₁ w₁ h₁ => ?_
  rcases h₁ with ⟨hinv, -, hnull, -, -⟩
  generalize hr : MENU.mk (w₁.pops p).puTree (w₁.pops p).root _ (w₁.pops p).puScroll v₁.mkb.kstate
    = result
  have h₂ : Quiet w₁ { w₁ with result := result } :=
    ⟨rfl, rfl, rfl, fun _ => Same.refl _, Later.refl _⟩
  have hinv₂ := hinv.quiet h₂
  refine ⟨⟨hinv₂.mem, hinv₂.child, hinv₂.openpop, hinv₂.mobj, hinv₂.lastmobj, hinv₂.popobj⟩, ?_⟩
  rcases Option.eq_none_or_eq_some v₁.mobj with hm | ⟨o, hm⟩
  · exact Or.inl ⟨hnull, Or.inl (if_pos hm)⟩
  · refine Or.inr ⟨hnull, o, hm, ?_, ?_, ?_⟩
    · exact congrArg MENU.mnTree hr.symm
    · exact congrArg MENU.mnMenu hr.symm
    · rw [hm] at hr
      exact congrArg MENU.mnItem hr.symm

theorem xyz_spec (n : Nat) (h : Inv ps p w₀ w v) (hq : v.quit = false) :
    Wlp (xyz env n mgr p v) (fun r w' => At ps p w₀ w' r.1 r.2) w := by
  have hinv : Inv ps p w₀ w (if v.openpop ∨ v.popisopen then
      { v.idle with mobj := if v.popisopen then v.popobj else v.mobj } else v) ∧
      (if v.openpop ∨ v.popisopen then
        { v.idle with mobj := if v.popisopen then v.popobj else v.mobj } else v).quit = false := by
    split_ifs
    · exact ⟨⟨h.mem, h.child, fun hopen => absurd hopen Bool.false_ne_true, h.popobj, h.lastmobj,
        h.popobj⟩, hq⟩
    · exact ⟨h.idle, hq⟩
    · exact ⟨h, hq⟩
  unfold xyz
  dsimp only
  generalize (if v.openpop ∨ v.popisopen then
      { v.idle with mobj := if v.popisopen then v.popobj else v.mobj } else v) = v₁ at *
  simp only [wlp_bind, wlp_get]
  exact wlp_ite (fun _ => clickedArrow_spec n hinv.1 hinv.2) (fun _ => clickedEntry_spec hinv.1)

theorem button_spec (h : Inv ps p w₀ w v) (hq : v.quit = true → Quitted w v) :
    Wlp (button env v) (fun r w' => At ps p w₀ w' r.1 r.2) w := by
  refine wlp_ite (fun _ => ?_) (fun hquit => ?_)
  · rw [wlp_pure]
    exact ⟨h, hq⟩
  have hquit : v.quit = false := Bool.eq_false_iff.mpr hquit
  refine wlp_ite (fun _ => ?_) (fun _ => ?_)
  · rw [wlp_pure]
    exact ⟨⟨h.mem, h.child, h.openpop, h.mobj, h.lastmobj, h.popobj⟩, hquit⟩
  · simp only [wlp_bind, wlp_pure]
    refine wlp_mono smnIsmstate_spec fun r w₁ h₁ => ?_
    rcases r with ⟨b, v₁⟩
    rcases h₁ with ⟨hquiet, e, rfl⟩
    have hinv := (h.quiet hquiet).mkb e
    split_ifs
    · exact ⟨⟨hinv.mem, hinv.child, hinv.openpop, hinv.mobj, hinv.lastmobj, hinv.popobj⟩, hquit⟩
    · exact ⟨hinv, fun hq' => absurd (hquit.symm.trans hq') Bool.false_ne_true⟩

theorem expired_spec (n : Nat) (h : Inv ps p w₀ w v) (hopen : v.openpop = true) :
    Wlp (expired env n p v) (fun v' w' => Inv ps p w₀ w' v' ∧ v'.quit = v.quit) w := by
  have hnull := h.openpop hopen
  have hclosed : Closed ps w₀ w := by
    rcases h.child with ⟨-, hclosed⟩ | ⟨hc, -⟩
    · exact hclosed
    · exact absurd hnull hc
  unfold expired
  dsimp only
  refine wlp_ite (fun _ => ?_) (fun _ => ?_)
  · simp only [wlp_bind, wlp_get, wlp_pure]
    refine wlp_mono (smnPuopen_spec hclosed.stacked _ _) fun c w₁ h₁ => ?_
    rcases h₁ with ⟨rfl, h₁⟩ | ⟨hc, h₁⟩
    · rw [if_pos rfl]
      exact ⟨h.without (hclosed.trans h₁) h₁.grown rfl rfl rfl rfl, rfl⟩
    · rw [if_neg hc]
      exact ⟨⟨h.mem, Or.inr ⟨hc, hclosed.opened h₁⟩,
        fun hopen' => absurd hopen' Bool.false_ne_true,
        fun o ho => (h.mobj o ho).grown h.mem h₁.grown,
        fun o ho => (h.lastmobj o ho).grown h.mem h₁.grown,
        fun o ho => (h.mobj o ho).grown h.mem h₁.grown⟩, rfl⟩
  · rw [wlp_pure]
    exact ⟨⟨h.mem, h.child, fun hopen' => absurd hopen' Bool.false_ne_true, h.mobj, h.lastmobj,
      fun o ho => by cases ho⟩, rfl⟩

theorem stopped_spec (h : Inv ps p w₀ w v) : Wlp (stopped env mgr p v)
    (fun v' w' => Inv ps p w₀ w' v' ∧ v'.quit = v.quit) w := by
  have hinv : Inv ps p w₀ w { v.idle with lastmobj := v.popobj } :=
    ⟨h.mem, h.child, fun hopen => absurd hopen Bool.false_ne_true, h.mobj, h.popobj, h.popobj⟩
  simp only [stopped, wlp_bind]
  refine wlp_mono (closeChild_spec hinv) fun v₁ w₁ h₁ => ?_
  refine wlp_mono (smnEvobject_spec true v₁) fun v₂ w₂ h₂ => ?_
  exact ⟨(h₁.1.looked h₂.2).quiet h₂.1, h₂.2.quit.trans h₁.2.2.2.1⟩

theorem at_next {w' : World} {v' : Vars} (hq : v.quit = false)
    (h : Inv ps p w₀ w' v' ∧ v'.quit = v.quit) : At ps p w₀ w' .next v' :=
  ⟨h.1, fun hquit => absurd ((h.2.trans hq).symm.trans hquit) Bool.false_ne_true⟩

theorem timer_spec (n : Nat) (h : Inv ps p w₀ w v) (hq : v.quit = true → Quitted w v) :
    Wlp (timer env n mgr p v) (fun r w' => At ps p w₀ w' r.1 r.2) w := by
  refine wlp_ite (fun _ => ?_) (fun hquit => ?_)
  · rw [wlp_pure]
    exact ⟨h, hq⟩
  have hquit : v.quit = false := Bool.eq_false_iff.mpr (not_or.mp hquit).1
  refine wlp_ite (fun hopen => ?_) (fun _ => wlp_ite (fun _ => ?_) (fun _ => ?_))
  · simp only [wlp_bind, wlp_pure]
    exact wlp_mono (expired_spec n h hopen) fun v₁ w₁ h₁ => at_next hquit h₁
  · -- the times do not matter
    have hdrag : ∀ t x y, Inv ps p w₀ w { v with dragtime := t, dragx := x, dragy := y } :=
      fun _ _ _ => ⟨h.mem, h.child, h.openpop, h.mobj, h.lastmobj, h.popobj⟩
    dsimp only
    refine wlp_ite (fun _ => wlp_ite (fun _ => ?_) (fun _ => ?_)) (fun _ => ?_)
    · rw [wlp_pure]
      exact at_next hquit ⟨hdrag _ _ _, rfl⟩
    · simp only [wlp_bind, wlp_pure]
      exact wlp_mono (stopped_spec (hdrag _ _ _)) fun v₁ w₁ h₁ => at_next hquit h₁
    · simp only [wlp_bind, wlp_pure]
      exact wlp_mono (stopped_spec (hdrag _ _ _)) fun v₁ w₁ h₁ => at_next hquit h₁
  · rw [wlp_pure]
    exact ⟨h, hq⟩

/-- A part leads to the beginning of another one. -/
theorem part_spec (n : Nat) {l : Label} (h : At ps p w₀ w l v) :
    Wlp (part env n mgr p v l) (fun r w' => At ps p w₀ w' r.1 r.2) w := by
  cases l with
  | start => exact start_spec h.inv h.ready
  | wait => exact wait_spec h.inv h.ready
  | uvw => exact uvw_spec n h.inv h.ready
  | xyz => exact xyz_spec n h.inv h.ready
  | button => exact button_spec h.inv h.ready
  | timer => exact timer_spec n h.inv h.ready
  | next =>
    rw [part, wlp_pure]
    split_ifs with hquit
    · exact ⟨h.inv, Or.inl (h.ready hquit)⟩
    · exact ⟨h.inv, Bool.eq_false_iff.mpr hquit⟩
  | enter =>
    rw [part, wlp_pure]
    exact h
  | finish =>
    rw [part, wlp_pure]
    exact h

theorem Good.later (h : Good w) (hr : w'.result = w.result) (hlog : w.log <+: w'.log) :
    Good w' := by
  rcases h with ⟨tree, root, o, state, ht, hm, hi, hne, hfound, hchosen, hstate⟩
  exact ⟨tree, root, o, state, hr ▸ ht, hr ▸ hm, hr ▸ hi, hne, hlog.subset hfound,
    hlog.subset hchosen, hstate⟩

/-- What comes back from a menu. -/
def Outcome (w : World) (popres : Int) : Prop := popres = -1 ∨ popres = -2 ∨ Good w

theorem cameBack_spec {popres : Int} (h : Inv ps p w₀ w v) (hq : v.quit = false)
    (hout : Outcome w popres) : Wlp (cameBack env p popres v) (fun v' w' => Inv ps p w₀ w' v' ∧
      (v'.quit = true → v'.popres = -1 ∨ v'.popres = -2 ∨ v'.mobj = none ∧ Good w')) w := by
  refine wlp_ite (fun _ => ?_) (fun _ => ?_)
  · rw [wlp_pure]
    refine ⟨⟨h.mem, h.child, h.openpop, (fun o ho => by cases ho), h.lastmobj, h.popobj⟩,
      fun _ => ?_⟩
    rcases hout with hout | hout | hout
    · exact Or.inl hout
    · exact Or.inr (Or.inl hout)
    · exact Or.inr (Or.inr ⟨rfl, hout⟩)
  · simp only [wlp_bind, wlp_pure]
    refine wlp_mono grafMkstate_spec fun e w₁ h₁ => ?_
    refine wlp_mono (smnObfind_spec e) fun mobj w₂ h₂ => ?_
    have h' := h.quiet (h₁.trans h₂.1)
    exact ⟨⟨h'.mem, h'.child, h'.openpop, h₂.2, h'.lastmobj, h'.popobj⟩,
      fun hquit => absurd (hq.symm.trans hquit) Bool.false_ne_true⟩

theorem back_spec {popres : Int} (n : Nat) (h : Inv ps p w₀ w v) (hq : v.quit = false)
    (hout : Outcome w popres) : Wlp (back env n mgr p popres v)
      (fun v' w' => At ps p w₀ w' .button v') w := by
  simp only [back, wlp_bind]
  refine wlp_mono (cameBack_spec h hq hout) fun v₁ w₁ h₁ => ?_
  refine wlp_mono (dropChild_spec h₁.1) fun v₂ w₂ h₂ => ?_
  rcases h₂ with ⟨rfl, hclosed, hg, hresult⟩
  have hinv : Inv ps p w₀ w₂ { v₁ with popchild := NULL } :=
    h₁.1.without hclosed hg rfl rfl rfl rfl
  refine wlp_ite (fun hquit => ?_) (fun hquit => wlp_ite (fun _ => ?_) (fun _ => ?_))
  · rw [wlp_pure]
    refine ⟨hinv, fun _ => ⟨rfl, ?_⟩⟩
    rcases h₁.2 hquit with hres | hres | hres
    · exact Or.inl hres
    · exact Or.inr (Or.inl hres)
    · exact Or.inr (Or.inr ⟨hres.1, hres.2.later hresult hg.log⟩)
  · simp only [wlp_bind, wlp_get, wlp_lift, wlp_pure]
    intro above _
    split_ifs
    · exact ⟨⟨hinv.mem, hinv.child, hinv.openpop, hinv.mobj, hinv.lastmobj, hinv.popobj⟩,
        fun _ => ⟨rfl, Or.inr (Or.inl rfl)⟩⟩
    · exact ⟨hinv, fun hquit' => absurd hquit' hquit⟩
  · refine wlp_mono (smnEvobject_spec true _) fun v₃ w₃ h₃ => ?_
    exact ⟨(hinv.looked h₃.2).quiet h₃.1, fun hquit' => absurd (h₃.2.quit ▸ hquit') hquit⟩

theorem entered_eq (t : Tree) (v : Vars) :
    v.entered t = v ∨ v.entered t = { v with lastmobj := v.popobj } := by
  unfold Vars.entered
  split
  · exact Or.inl rfl
  · split_ifs
    · exact Or.inr rfl
    · exact Or.inl rfl

theorem enter_spec (h : Inv ps p w₀ w v) : Wlp (enter p v)
    (fun v' w' => Inv ps p w₀ w' v' ∧ v'.popchild = v.popchild ∧ v'.quit = v.quit) w := by
  simp only [enter, wlp_bind, wlp_get, wlp_pure]
  refine wlp_mono (onPopup_spec ⟨rfl, rfl, rfl⟩) fun _ w₁ h₁ => ?_
  have h' := h.quiet h₁.quiet
  rcases entered_eq (w₁.trees (w₁.pops p).puTree) v with heq | heq
  · rw [heq]
    exact ⟨h', rfl, rfl⟩
  · rw [heq]
    exact ⟨⟨h'.mem, h'.child, h'.openpop, h'.mobj, h'.popobj, h'.popobj⟩, rfl, rfl⟩

theorem finish_spec (h : At ps p w₀ w .finish v) : Wlp (finish p v)
    (fun popres w' => Closed ps w₀ w' ∧ Outcome w' popres) w := by
  have hready : Quitted w v ∨ Picked p w v := h.ready
  have hnull : v.popchild = NULL := by
    rcases hready with hr | hr
    · exact hr.1
    · exact hr.1
  have hclosed : Closed ps w₀ w := by
    rcases h.inv.child with ⟨-, hclosed⟩ | ⟨hc, -⟩
    · exact hclosed
    · exact absurd hnull hc
  simp only [finish, wlp_bind, wlp_get]
  rcases Option.eq_none_or_eq_some v.mobj with hm | ⟨o, hm⟩
  · rw [hm]
    rw [wlp_pure]
    rcases hready with ⟨-, hres | hres | hres⟩ | ⟨-, o, ho, -⟩
    · exact ⟨hclosed, Or.inl hres⟩
    · exact ⟨hclosed, Or.inr (Or.inl hres)⟩
    · exact ⟨hclosed, Or.inr (Or.inr hres.2)⟩
    · exact absurd (hm.symm.trans ho) (by simp)
  · rw [hm]
    have hfound := h.inv.mobj o hm
    refine wlp_ite (fun hcond => ?_) (fun hcond => ?_)
    · refine wlp_ite (fun hstate => ?_) (fun _ => ?_)
      · simp only [note, wlp_bind, wlp_modify, wlp_pure]
        refine ⟨hclosed.trans ((quiet_note w (a := Act.chosen _ _ o _) trivial).closed
          hclosed.stacked), Or.inr (Or.inr ?_)⟩
        rcases hready with ⟨-, hres | hres | hres⟩ | ⟨-, o', ho', htree, hmenu, hitem⟩
        · exact absurd hres hcond.2.1
        · exact absurd hres hcond.2.2
        · exact absurd (hres.1.symm.trans hm) (by simp)
        · rw [hm] at ho'
          cases ho'
          exact ⟨_, _, o, _, htree, hmenu, hitem, hfound.1, List.mem_append_left _ hfound.2,
            List.mem_append_right _ List.mem_cons_self, hstate⟩
      · rw [wlp_pure]
        exact ⟨hclosed, Or.inl rfl⟩
    · rw [wlp_pure]
      refine ⟨hclosed, ?_⟩
      rcases hready with ⟨-, hres | hres | hres⟩ | -
      · exact Or.inl hres
      · exact Or.inr (Or.inl hres)
      · exact absurd (hres.1.symm.trans hm) (by simp)
      · -- an entry is not the box
        have hroot : (w.pops p).root ≠ o := hfound.1.symm
        rcases not_and_or.mp hcond with hc | hc
        · exact absurd hroot hc
        · rcases not_and_or.mp hc with hc | hc
          · exact Or.inl (not_not.mp hc)
          · exact Or.inr (Or.inl (not_not.mp hc))

theorem at_start (hs : Stacked w ps) (hp : p ∈ ps) : At ps p w w .start {} :=
  ⟨⟨hp, Or.inl ⟨rfl, Closed.refl hs⟩, fun _ => rfl, (fun _ ho => by cases ho),
    (fun _ ho => by cases ho), (fun _ ho => by cases ho)⟩, rfl⟩

/-- The routine closes what it opens. -/
theorem smnDopopup_spec (n : Nat) {l : Label} (h : At ps p w₀ w l v) :
    Wlp (smnDopopup env mgr n p l v) (fun popres w' => Closed ps w₀ w' ∧ Outcome w' popres) w := by
  induction n generalizing ps p w₀ w l v with
  | zero => exact wlp_throw _
  | succ n ih =>
    have hpart : Wlp (part env n mgr p v l >>= fun r => smnDopopup env mgr n p r.1 r.2)
        (fun popres w' => Closed ps w₀ w' ∧ Outcome w' popres) w := by
      rw [wlp_bind]
      exact wlp_mono (part_spec n h) fun r w₁ h₁ => ih h₁
    cases l with
    | finish => exact finish_spec h
    | enter =>
      have hready : v.popchild ≠ NULL ∧ v.quit = false := h.ready
      simp only [smnDopopup, wlp_bind]
      refine wlp_mono (enter_spec h.inv) fun v₁ w₁ h₁ => ?_
      rcases h₁ with ⟨hinv, hchild, hquit⟩
      -- the menu of the entry is one more on the stack
      rcases hinv.child with ⟨hc, -⟩ | ⟨hc, hopened⟩
      · exact absurd (hchild ▸ hc) hready.1
      refine wlp_mono (ih (at_start hopened.stacked (by simp))) fun popres w₂ h₂ => ?_
      have hg : Grown ps w₁ w₂ := ⟨fun q hq => h₂.1.same q (List.mem_append_left _ hq),
        h₂.1.log.longer⟩
      have hinv₂ : Inv ps p w₀ w₂ v₁ :=
        ⟨hinv.mem, Or.inr ⟨hc, hopened.closed h₂.1⟩, hinv.openpop,
          fun o ho => (hinv.mobj o ho).grown hinv.mem hg,
          fun o ho => (hinv.lastmobj o ho).grown hinv.mem hg,
          fun o ho => (hinv.popobj o ho).grown hinv.mem hg⟩
      exact wlp_mono (back_spec n hinv₂ (hquit.trans hready.2) h₂.2) fun v₃ w₃ h₃ => ih h₃
    | start => exact hpart
    | wait => exact hpart
    | uvw => exact hpart
    | xyz => exact hpart
    | button => exact hpart
    | timer => exact hpart
    | next => exact hpart

theorem showPopup_spec {w₁ w₂ : World} (n : Nat) {ok : Bool} (h : New ps p w w₁)
    (hq : Silent w₁ w₂) (hok : if ok then Saved p w₂ w' else Silent w₂ w') :
    Wlp (showPopup env n p ok >>= fun popres => smnPudelete env p >>= fun _ => pure popres)
      (fun popres w₃ => Closed ps w w₃ ∧ Outcome w₃ popres) w' := by
  simp only [wlp_bind]
  cases ok with
  | false =>
    rw [if_neg Bool.false_ne_true] at hok
    have h₁ := hq.trans hok
    rw [showPopup, if_neg Bool.false_ne_true, wlp_pure]
    refine wlp_mono (smnPudelete_spec (h₁.quiet.stacked h.stacked)
      ((h₁.quiet.same p).puScrbuf.trans h.puScrbuf)) fun _ w₃ h₃ => ?_
    rw [wlp_pure]
    exact ⟨h.failed h₁ h₃, Or.inr (Or.inl rfl)⟩
  | true =>
    rw [if_pos rfl] at hok
    have hopened := h.opened hq hok
    rw [showPopup, if_pos rfl]
    simp only [wlp_bind]
    refine wlp_mono (smnDopopup_spec n (at_start hopened.stacked (by simp)))
      fun popres w₃ h₃ => ?_
    refine wlp_mono (restorescr_spec (hopened.closed h₃.1)) fun _ w₄ h₄ => ?_
    rw [wlp_pure]
    refine wlp_mono (smnPudelete_spec h₄.1.stacked h₄.1.puScrbuf) fun _ w₅ h₅ => ?_
    rw [wlp_pure]
    refine ⟨h₄.1.closed h₅, ?_⟩
    rcases h₃.2 with hres | hres | hres
    · exact Or.inl hres
    · exact Or.inr (Or.inl hres)
    · exact Or.inr (Or.inr (hres.later (h₅.result.trans h₄.2.2)
        (h₄.2.1.trans h₅.grown).log))

theorem userPopup_spec (hs : Stacked w ps) (n : Nat) (xpos ypos : Word) (mdesc : MENU) :
    Wlp (userPopup env n xpos ypos mdesc)
      (fun popres w' => Closed ps w w' ∧ Outcome w' popres) w := by
  simp only [userPopup, wlp_bind, wlp_lift, wlp_pure]
  refine wlp_mono (waitUntilMbuttonsReleased_spec n) fun _ w₁ h₁ => ?_
  intro root _
  have hs₁ := h₁.quiet.stacked hs
  refine wlp_mono (smnPunew_spec hs₁ _ _ _) fun p w₂ h₂ => ?_
  have hrun : Wlp (runPopup env n p xpos ypos mdesc.mnScroll)
      (fun popres w₃ => Closed ps w₁ w₃ ∧ Outcome w₃ popres) w₂ := by
    rcases h₂ with ⟨hp, h₂⟩ | ⟨hp, h₂⟩
    · rw [runPopup, if_pos hp, wlp_pure]
      exact ⟨h₂.closed hs₁, Or.inl rfl⟩
    · rw [runPopup, if_neg hp, wlp_bind]
      refine wlp_mono (arrange_spec _ _ _ _ _) fun ok w₃ h₃ => ?_
      rcases h₃ with ⟨w₄, h₄, hok⟩
      exact showPopup_spec n h₂ h₄ hok
  refine wlp_mono hrun fun popres w₃ h₃ => ?_
  refine wlp_mono (waitUntilMbuttonsReleased_spec n) fun _ w₄ h₄ => ?_
  refine ⟨((h₁.quiet.closed hs).trans h₃.1).trans (h₄.quiet.closed h₃.1.stacked), ?_⟩
  rcases h₃.2 with hres | hres | hres
  · exact Or.inl hres
  · exact Or.inr (Or.inl hres)
  · exact Or.inr (Or.inr (hres.later h₄.result h₄.quiet.log.longer))

/-- A popup menu leaves the list of the menu records as it was, everything opened has been closed
    in the reverse order, and what is reported is an entry that was not disabled, or nothing. -/
theorem smnPopup_stack (hs : Stacked w ps) (hlog : w.log = []) (n mgrpopup : Nat) (xpos ypos : Word)
    (mdesc : MENU) {res : Int}
    (hrun : smnPopup env n xpos ypos mdesc none mgrpopup w = .ok (res, w')) :
    w'.popList = w.popList ∧ Chains.Linked w'.puChild NULL w'.popList ps ∧ Paired w'.log ∧
      (∀ p, w'.log.count (.opened p) = w'.log.count (.freed p)) ∧
      (res = 1 ∧ Good w' ∨ res = 0 ∧ w'.result.mnTree = NULL ∧ w'.result.mnItem = -1) := by
  have hspec : Wlp (smnPopup env n xpos ypos mdesc none mgrpopup) (fun res w' => Closed ps w w' ∧
      (res = 1 ∧ Good w' ∨ res = 0 ∧ w'.result.mnTree = NULL ∧ w'.result.mnItem = -1)) w := by
    simp only [smnPopup, anyPopup, wlp_bind]
    refine wlp_mono (userPopup_spec hs n xpos ypos mdesc) fun popres w₁ h₁ => ?_
    refine wlp_ite (fun _ => ?_) (fun hpos => ?_)
    · simp only [wlp_bind, wlp_modify, wlp_pure]
      have hquiet : Quiet w₁ { w₁ with result :=
          { w₁.result with mnTree := NULL, mnMenu := -1, mnItem := -1, mnScroll := 0 } } :=
        ⟨rfl, rfl, rfl, fun _ => Same.refl _, Later.refl _⟩
      exact ⟨h₁.1.trans (hquiet.closed h₁.1.stacked), Or.inr ⟨rfl, trivial, trivial⟩⟩
    · rw [wlp_pure]
      refine ⟨h₁.1, Or.inl ⟨rfl, ?_⟩⟩
      rcases h₁.2 with hres | hres | hres
      · omega
      · omega
      · exact hres
  rcases wlp_run hspec hrun with ⟨hclosed, hres⟩
  rcases hclosed.log with ⟨l, hl, hpaired⟩
  rw [hlog, List.nil_append] at hl
  subst hl
  refine ⟨hs.popList_eq hclosed.stacked, hclosed.stacked.linked, hpaired, fun p => ?_, hres⟩
  refine hpaired.count_eq (fun a ha => ?_) (fun u v huv => ?_)
  · constructor
    · rintro rfl
      exact ha
    · rintro rfl
      exact ha
  · rcases huv with ⟨q, ⟨rfl, rfl⟩ | ⟨rfl, rfl⟩⟩
    · simp [List.count_cons]
    · simp [List.count_cons]

end

/-- Menus that belong to entries of others, by their numbers. The mouse stays on an entry until
    the timer comes, and is in the next menu then. In the end the button is clicked. -/
def nestedEnv (click : Nat) (attached : Nat → AttachS) : Env where
  events t := (if click ≤ t then MU_BUTTON else if t % 7 = 3 then MU_TIMER else MU_M2,
    ⟨100, 100, 0, 0⟩)
  memory t := some (t + 1)
  scrgSav _ := true
  objcFind _ _ _ _ := some 1
  objToG _ _ := ⟨0, 0, 0, 0⟩
  apAttached := some attached
  bigWchar := 8
  bigHchar := 16
  deskG := ⟨0, 0, 640, 400⟩
  height := 16
  drag := 0

/-- No menu is shown. The entries of the trees have objects of the types given. -/
def nestedWorld (clock : Nat) (obType : Nat → Word) : World where
  clock := clock
  trees n :=
    { objs := demoTree 3 (by decide)
      obFlags := fun _ => SUBMENU
      obState := fun _ => NORMAL
      obY := fun _ => 0
      obHeight := fun _ => 300
      text := fun _ => []
      room := fun _ => 4
      obX := fun _ => 0
      obWidth := fun _ => 300
      obType := fun _ => obType n }
  pops _ := newPopup ⟨⟨demoTree 3 (by decide), fun _ => 0, fun _ => 0, fun _ => 0, fun _ => 0,
    fun _ => [], fun _ => 0⟩, fun _ => 0, fun _ => 0, fun _ => 0⟩ 0 0 0
  puChild _ := NULL
  popList := NULL
  live := []
  result := ⟨NULL, 0, 0, 0, 0⟩
  log := []

/-- The entries of the menu 7 have the menu 8. -/
def attachedEnv : Env := nestedEnv 12 fun _ => ⟨8, 0, 0, 0, 1⟩

def attachedWorld : World := nestedWorld 6 fun n => if n = 7 then 0x8000 ||| G_STRING else G_STRING

/-- A second menu is opened before the click. -/
theorem smnPopup_stack_attached : ∃ w', smnPopup attachedEnv 40 0 0 ⟨7, 0, 1, 0, 0⟩ none 0
      attachedWorld = .ok (1, w') ∧ Act.opened 8 ∈ w'.log ∧ Act.opened 13 ∈ w'.log ∧
    w'.popList = NULL ∧ Chains.Linked w'.puChild NULL w'.popList [] ∧
      Paired w'.log ∧ (∀ p, w'.log.count (.opened p) = w'.log.count (.freed p)) ∧
      ((1 : Int) = 1 ∧ Good w' ∨ (1 : Int) = 0 ∧ w'.result.mnTree = NULL ∧
        w'.result.mnItem = -1) := by
  have hs : Stacked attachedWorld [] :=
    ⟨Chains.linked_nil _ _, fun p hp => absurd hp List.not_mem_nil⟩
  have hone : (smnPopup attachedEnv 40 0 0 ⟨7, 0, 1, 0, 0⟩ none 0 attachedWorld).toOption.map
      (fun r => (r.1, decide (Act.opened 8 ∈ r.2.log), decide (Act.opened 13 ∈ r.2.log))) =
        some (1, true, true) := by
    decide +kernel
  cases hrun : smnPopup attachedEnv 40 0 0 ⟨7, 0, 1, 0, 0⟩ none 0 attachedWorld with
  | error e =>
    rw [hrun] at hone
    exact absurd hone (by simp [Except.toOption])
  | ok r =>
    rcases r with ⟨res, w'⟩
    rw [hrun] at hone
    rcases Prod.mk.inj (Option.some.inj hone) with ⟨rfl, h⟩
    rcases Prod.mk.inj h with ⟨h8, h13⟩
    exact ⟨w', rfl, of_decide_eq_true h8, of_decide_eq_true h13,
      smnPopup_stack hs rfl 40 0 0 0 ⟨7, 0, 1, 0, 0⟩ hrun⟩

end Sub

end Smn

end Aes

end MagiC
