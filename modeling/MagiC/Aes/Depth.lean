import MagiC.Aes.Stack

/-!
# The Depth of Popup Menus

How many popup menus are on top of each other.

The function that counts them is named where it should be called, so `smn_isattach` agrees to
an entry of the fourth menu as well, if it has a menu. That menu is opened later, by the timer,
and the routine is called again later still, when the mouse comes to it.

Here the recursion is taken apart into steps, with a stack of the menus that wait for another
one. So something can be said of every state, also in a run that never ends.

## Main definitions

* `Visits`: The states of a run in which the fourth menu is not asked for another one.

## Theorems

* `depth_bounded`: There are never more than four menus.
-/

namespace MagiC

namespace Aes

namespace Smn

namespace Sub

open Obj Partial

/-- A state: the menus that wait for another one, and the one at work. -/
structure Conf where
  stack : List (Nat × Vars)
  p : Nat
  l : Label
  v : Vars
  w : World

section

variable (env : Env) (mgr : Mgr)

/-- A part of `smnDopopup`, with the stack instead of the recursion. -/
def stepConf (n : Nat) (c : Conf) : Except Fault Conf :=
  match c.l, c.stack with
  | .enter, st => do
    let r ← enter c.p c.v c.w
    return ⟨(c.p, r.1) :: st, r.1.popchild, .start, {}, r.2⟩
  | .finish, [] => .ok c
  | .finish, (p, v) :: st => do
    let r ← finish c.p c.v c.w
    let r' ← back env n mgr p r.1 v r.2
    return ⟨st, p, .button, r'.1, r'.2⟩
  | l, st => do
    let r ← part env n mgr c.p c.v l c.w
    return ⟨st, c.p, r.1.1, r.1.2, r.2⟩

/-- Steps in a row. -/
inductive Run : Conf → Conf → Prop where
  | refl (c : Conf) : Run c c
  | step {a b c : Conf} (n : Nat) (h : stepConf env mgr n a = .ok b) (hr : Run b c) : Run a c

end

/-- The mouse is over an entry with a menu that can be shown. -/
def Over (env : Env) (p : Nat) (v : Vars) (w : World) : Prop :=
  ∃ obj, v.mobj = some obj ∧
    smnIsattach env (w.trees (w.pops p).puTree) obj v.popchild = true

/-- While there are four menus, the mouse is not over an entry of the fourth one that has another
    menu. -/
def Calm (env : Env) (c : Conf) : Prop := c.stack.length + 1 = 4 → ¬ Over env c.p c.v c.w

/-- The states of a run in which the mouse is not over such an entry before any of the steps. -/
inductive Visits (env : Env) (mgr : Mgr) (c₀ : Conf) : Conf → Prop where
  | start : Visits env mgr c₀ c₀
  | step {b c : Conf} (n : Nat) (hb : Visits env mgr c₀ b) (h : Calm env b)
      (hs : stepConf env mgr n b = .ok c) : Visits env mgr c₀ c

/-- The first menu has been created and is shown. -/
def Begins (env : Env) (c : Conf) : Prop :=
  ∃ w w₁ p n tree root istart scroll x y rect alignx,
    Stacked w [] ∧ smnPunew env tree root istart w = .ok (p, w₁) ∧ p ≠ NULL ∧
      arrange env n p scroll x y rect alignx w₁ = .ok (true, c.w) ∧
      c.stack = [] ∧ c.p = p ∧ c.l = .start ∧ c.v = {}

section

variable {env : Env} {mgr : Mgr} {n : Nat} {a b c : Conf} {w w' w₀ : World} {v : Vars} {p : Nat}
  {l : Label} {ps : List Nat}

theorem Run.trans (h : Run env mgr a b) (h' : Run env mgr b c) : Run env mgr a c := by
  induction h with
  | refl => exact h'
  | step n hs _ ih => exact .step n hs (ih h')

theorem ok_pair {α σ ε β : Type} {x : StateT σ (Except ε) α} {f : α → StateT σ (Except ε) β}
    {s s' : σ} {r : β} (h : (x >>= f) s = .ok (r, s')) :
    ∃ a t, x s = .ok (a, t) ∧ f a t = .ok (r, s') := by
  have h' : (x s >>= fun q => f q.1 q.2) = .ok (r, s') := h
  rcases Outcome.ok_of_bind h' with ⟨q, hq, hf⟩
  exact ⟨q.1, q.2, hq, hf⟩

theorem stepConf_part (st : List (Nat × Vars)) (he : l ≠ .enter) (hf : l ≠ .finish) :
    stepConf env mgr n ⟨st, p, l, v, w⟩ =
      (part env n mgr p v l w >>= fun r => .ok ⟨st, p, r.1.1, r.1.2, r.2⟩) := by
  cases l with
  | enter => exact absurd rfl he
  | finish => exact absurd rfl hf
  | start | wait | uvw | xyz | button | timer | next => rfl

theorem smnDopopup_part (he : l ≠ .enter) (hf : l ≠ .finish) : smnDopopup env mgr (n + 1) p l v =
    (part env n mgr p v l >>= fun r => smnDopopup env mgr n p r.1 r.2) := by
  cases l with
  | enter => exact absurd rfl he
  | finish => exact absurd rfl hf
  | start | wait | uvw | xyz | button | timer | next => rfl

/-- The steps do what the routine does: it ends where they come to the end of this menu. -/
theorem smnDopopup_run {res : Int} (h : smnDopopup env mgr n p l v w = .ok (res, w'))
    (st : List (Nat × Vars)) : ∃ v₁ w₁, Run env mgr ⟨st, p, l, v, w⟩ ⟨st, p, .finish, v₁, w₁⟩ ∧
      finish p v₁ w₁ = .ok (res, w') := by
  induction n generalizing p l v w w' res st with
  | zero => cases h
  | succ n ih =>
    by_cases hf : l = .finish
    · subst hf
      exact ⟨v, w, .refl _, h⟩
    by_cases he : l = .enter
    · subst he
      -- The steps of the other menu come between the call and its end.
      rcases ok_pair h with ⟨v₁, w₁, henter, h⟩
      rcases ok_pair h with ⟨popres, w₂, hsub, h⟩
      rcases ok_pair h with ⟨v₃, w₃, hback, h⟩
      rcases ih hsub ((p, v₁) :: st) with ⟨v₂, w₄, hrun, hfin⟩
      rcases ih h st with ⟨v₅, w₅, hrun', hfin'⟩
      refine ⟨v₅, w₅, .step n ?_ (hrun.trans (.step n ?_ hrun')), hfin'⟩
      · simp only [stepConf, henter]
        rfl
      · simp only [stepConf, hfin, Outcome.ok_bind, hback]
        rfl
    · rw [smnDopopup_part he hf] at h
      rcases ok_pair h with ⟨r, w₁, hr, h⟩
      rcases ih h st with ⟨v₁, w₂, hrun, hfin⟩
      exact ⟨v₁, w₂, .step n (by rw [stepConf_part st he hf, hr]; rfl) hrun, hfin⟩

/-! ## Opening -/

/-- No menu of an entry is opened, and none is going to be. -/
structure Plain (v v' : Vars) : Prop where
  popchild : v'.popchild = v.popchild ∨ v'.popchild = NULL
  openpop : v'.openpop = true → v.openpop = true

/-- No menu is opened, and only one of the entry the mouse is over is going to be. -/
structure Stays (env : Env) (p : Nat) (v v' : Vars) (w' : World) : Prop where
  popchild : v'.popchild = v.popchild ∨ v'.popchild = NULL
  openpop : v'.openpop = true → v.openpop = true ∨ Over env p v' w'

theorem Plain.trans {v v' v'' : Vars} (h : Plain v v') (h' : Plain v' v'') : Plain v v'' where
  popchild := by
    rcases h'.popchild with hc | hc
    · exact h.popchild.imp hc.trans hc.trans
    · exact Or.inr hc
  openpop := fun ho => h.openpop (h'.openpop ho)

theorem Plain.stays {v v' : Vars} (h : Plain v v') : Stays env p v v' w :=
  ⟨h.popchild, fun ho => Or.inl (h.openpop ho)⟩

theorem Plain.then {v v' v'' : Vars} (h : Plain v v') (h' : Stays env p v' v'' w) :
    Stays env p v v'' w where
  popchild := by
    rcases h'.popchild with hc | hc
    · exact h.popchild.imp hc.trans hc.trans
    · exact Or.inr hc
  openpop := fun ho => (h'.openpop ho).imp_left h.openpop

theorem plain_refl (v : Vars) : Plain v v := ⟨Or.inl rfl, id⟩

/-- What is neither asked nor opened does not matter. -/
theorem Stays.which (h : Stays env p v v' w) (x : Word) :
    Stays env p v { v' with which := x } w := ⟨h.popchild, h.openpop⟩

theorem smnIselect_pops (tree : Nat) (obj ignobj : Option Nat) (addit : Bool) :
    Wlp (smnIselect tree obj ignobj addit) (fun _ w' => w'.pops = w.pops) w := by
  cases obj with
  | none => exact (wlp_pure _).mpr rfl
  | some o =>
    refine wlp_ite (fun _ => (wlp_pure _).mpr rfl) (fun _ => ?_)
    simp only [onObjects, wlp_modify]

theorem askSubmenu_stays {obj : Nat} (hobj : v.mobj = some obj) :
    Stays env p v (askSubmenu env (w.trees (w.pops p).puTree) obj v) w := by
  unfold askSubmenu
  split
  · rename_i hask
    rw [Bool.and_eq_true] at hask
    exact ⟨Or.inl rfl, fun _ => Or.inr ⟨obj, hobj, hask.2⟩⟩
  · exact ⟨Or.inl rfl, Or.inl⟩

theorem smnEvobject_stays (desel : Bool) (v : Vars) :
    Wlp (smnEvobject env mgr p desel v) (fun v' w' => Stays env p v v' w') w := by
  simp only [smnEvobject, wlp_bind, wlp_get]
  refine wlp_mono (deselect_spec _ _ _ _) fun _ w₁ _ => ?_
  cases hobj : v.mobj with
  | none =>
    rw [wlp_pure]
    unfold Vars.outside
    split_ifs
    · exact ⟨Or.inl rfl, Or.inl⟩
    · exact ⟨Or.inl rfl, Or.inl⟩
  | some o =>
    simp only [overObject, wlp_bind, wlp_get]
    refine wlp_ite (fun _ => ?_) (fun _ => ?_)
    · simp only [wlp_bind, wlp_pure]
      exact wlp_mono (smnIselect_spec _ _ _ _) fun _ _ _ => ⟨Or.inl rfl, Or.inl⟩
    · simp only [wlp_bind, wlp_get, wlp_pure]
      refine wlp_mono (smnIselect_pops _ _ _ _) fun _ w₂ h₂ => ?_
      rw [← h₂]
      exact askSubmenu_stays hobj

theorem smnIsmstate_plain : Wlp (smnIsmstate env v) (fun r w' =>
    (∃ e, r.2 = { v with mkb := e }) ∧ w'.trees = w.trees ∧ w'.pops = w.pops) w := by
  simp only [smnIsmstate, grafMkstate, tick, wlp_bind, wlp_get, wlp_set, wlp_pure]
  exact ⟨⟨_, rfl⟩, trivial, trivial⟩

theorem Stays.moved {w' : World} {v'' : Vars} (h : Stays env p v v' w)
    (he : ∃ e, v'' = { v' with mkb := e })
    (ht : w'.trees = w.trees) (hp : w'.pops = w.pops) : Stays env p v v'' w' := by
  rcases he with ⟨e, rfl⟩
  refine ⟨h.popchild, fun ho => (h.openpop ho).imp_right fun hover => ?_⟩
  unfold Over at hover ⊢
  rw [ht, hp]
  exact hover

theorem dropChild_plain : Wlp (dropChild env v) (fun v' _ => Plain v v') w := by
  simp only [dropChild, wlp_bind, wlp_pure]
  exact fun _ _ _ => ⟨Or.inr rfl, id⟩

theorem closeChild_plain : Wlp (closeChild env v) (fun v' _ => Plain v v') w := by
  refine wlp_ite (fun _ => ?_) (fun _ => ?_)
  · rw [wlp_pure]
    exact plain_refl v
  · simp only [wlp_bind, wlp_pure]
    exact wlp_mono dropChild_plain fun _ _ h =>
      ⟨h.popchild, fun ho => absurd ho Bool.false_ne_true⟩

theorem idle_plain (v : Vars) : Plain v v.idle :=
  ⟨Or.inl rfl, fun ho => absurd ho Bool.false_ne_true⟩

theorem dragged_plain (v : Vars) : Plain v (dragged v) := by
  unfold dragged
  dsimp only
  split_ifs
  · exact ⟨Or.inl rfl, id⟩
  · exact ⟨Or.inl rfl, fun ho => absurd ho Bool.false_ne_true⟩
  · exact ⟨Or.inl rfl, id⟩
  · exact ⟨Or.inl rfl, fun ho => absurd ho Bool.false_ne_true⟩

theorem left_stays : Wlp (left env mgr p v) (fun v' w' => Stays env p v v' w') w := by
  have h₁ : Plain v (if v.openpop then v.idle else v) := by
    split_ifs
    · exact idle_plain v
    · exact plain_refl v
  unfold left
  dsimp only
  generalize (if v.openpop then v.idle else v) = v₁ at *
  have h₂ : Plain v (if v₁.popisopen then dragged v₁ else v₁) := by
    split_ifs
    · exact h₁.trans (dragged_plain v₁)
    · exact h₁
  generalize (if v₁.popisopen then dragged v₁ else v₁) = v₂ at *
  refine wlp_ite (fun _ => ?_) (fun _ => ?_)
  · rw [wlp_pure]
    exact h₂.stays
  · simp only [wlp_bind, wlp_pure]
    refine wlp_mono closeChild_plain fun v₃ w₃ h₃ => ?_
    refine wlp_mono (smnEvobject_stays true v₃) fun v₄ w₄ h₄ => ?_
    have h : Stays env p v v₄ w₄ := (h₂.trans h₃).then h₄
    split_ifs
    · exact h.which 0
    · exact h

theorem wait_stays : Wlp (wait env mgr p v) (fun r w' => Stays env p v r.2 w') w := by
  simp only [wait, wlp_bind, wlp_modify]
  intro r w₁ _ mobj w₂ _
  have hleft : Wlp (whenM1 env mgr p { v with
      which := r.1, mkb := r.2, lastmobj := v.mobj, mobj := mobj })
        (fun v' w' => Stays env p v v' w') w₂ := by
    refine wlp_ite (fun _ => wlp_mono left_stays fun _ _ h => ⟨h.popchild, h.openpop⟩)
      (fun _ => ?_)
    rw [wlp_pure]
    exact ⟨Or.inl rfl, Or.inl⟩
  refine wlp_mono hleft fun v₃ w₃ h₃ => ?_
  refine wlp_ite (fun _ => ?_) (fun _ => ?_)
  · simp only [moved, wlp_bind, wlp_pure]
    refine wlp_mono smnIsmstate_plain fun q w₄ h₄ => ?_
    have h := h₃.moved h₄.1 h₄.2.1 h₄.2.2
    -- A menu that was about to be opened is not opened any more if the mouse has gone away.
    split_ifs
    · exact h
    · exact ⟨h.popchild, fun ho => absurd ho Bool.false_ne_true⟩
    · exact ⟨h.popchild, fun ho => absurd ho Bool.false_ne_true⟩
    · exact h
  · rw [wlp_pure]
    exact h₃

theorem smnIsmstate_same : Wlp (smnIsmstate env v) (fun r _ => Plain v r.2) w :=
  wlp_mono smnIsmstate_plain fun r _ h => by
    rcases h.1 with ⟨e, he⟩
    rw [he]
    exact ⟨Or.inl rfl, id⟩

theorem parents_plain (n parent : Nat) : Wlp (parents env n parent v)
    (fun r _ => Plain v r.2) w := by
  induction n generalizing w v parent with
  | zero => exact wlp_throw _
  | succ n ih =>
    refine wlp_ite (fun _ => ?_) (fun _ => ?_)
    · rw [wlp_pure]
      exact plain_refl v
    · simp only [wlp_bind, wlp_get]
      refine wlp_mono smnIsmstate_same fun r w₁ h₁ => ?_
      refine wlp_ite (fun _ => ?_) (fun _ => wlp_ite (fun _ => ?_) (fun _ => ?_))
      · rw [wlp_pure]
        exact h₁
      · simp only [wlp_bind, wlp_pure]
        refine wlp_mono dropChild_plain fun v₂ w₂ h₂ => ?_
        have h := h₁.trans h₂
        exact ⟨h.popchild, h.openpop⟩
      · exact wlp_mono (ih _) fun _ _ h₂ => h₁.trans h₂

theorem uvw_plain (n : Nat) : Wlp (uvw env n mgr p v) (fun r _ => Plain v r.2) w := by
  have helse : Wlp (elsewhere env n p v) (fun r _ => Plain v r.2) w := by
    simp only [elsewhere, wlp_bind, wlp_get]
    refine wlp_mono smnIsmstate_same fun r w₁ h₁ => ?_
    refine wlp_ite (fun _ => ?_) (fun _ => wlp_mono (parents_plain n _) fun _ _ h => h₁.trans h)
    rw [wlp_pure]
    exact h₁
  have hbar : Wlp (dropChild env v >>= fun v => (pure (.finish, { v with
      openpop := false, popisopen := false, quit := true, popres := -1 }) : M (Label × Vars)))
      (fun r _ => Plain v r.2) w := by
    simp only [wlp_bind, wlp_pure]
    exact wlp_mono dropChild_plain fun _ _ h =>
      ⟨h.popchild, fun ho => absurd ho Bool.false_ne_true⟩
  simp only [uvw, wlp_bind, wlp_get]
  rcases mgr with - | ⟨bar, rect⟩
  · exact helse
  · refine wlp_ite (fun _ => ?_) (fun _ => helse)
    cases env.objcFind (w.trees bar) 2 v.mkb.x v.mkb.y with
    | none => exact hbar
    | some title =>
      refine wlp_ite (fun _ => ?_) (fun _ => hbar)
      rw [wlp_pure]
      exact ⟨Or.inl rfl, id⟩

theorem xyz_stays (n : Nat) : Wlp (xyz env n mgr p v) (fun r w' => Stays env p v r.2 w') w := by
  have h₁ : Plain v (if v.openpop ∨ v.popisopen then
      { v.idle with mobj := if v.popisopen then v.popobj else v.mobj } else v) := by
    split_ifs
    · exact ⟨Or.inl rfl, fun ho => absurd ho Bool.false_ne_true⟩
    · exact ⟨Or.inl rfl, fun ho => absurd ho Bool.false_ne_true⟩
    · exact plain_refl v
  unfold xyz
  dsimp only
  generalize (if v.openpop ∨ v.popisopen then
      { v.idle with mobj := if v.popisopen then v.popobj else v.mobj } else v) = v₁ at *
  simp only [wlp_bind, wlp_get]
  refine wlp_ite (fun _ => ?_) (fun _ => ?_)
  · simp only [clickedArrow, wlp_bind, wlp_pure]
    intro _ w₂ _ e w₃ _ mobj w₄ _
    refine wlp_mono (smnEvobject_stays false _) fun v₄ w₅ h₄ => ?_
    have h : Stays env p v v₄ w₅ := h₁.then ⟨h₄.popchild, h₄.openpop⟩
    split_ifs
    · exact h.which 0
    · exact h
  · simp only [clickedEntry, wlp_bind, wlp_modify, wlp_pure]
    refine wlp_mono closeChild_plain fun v₂ w₂ h₂ => ?_
    have h := h₁.trans h₂
    exact ⟨h.popchild, fun ho => Or.inl (h.openpop ho)⟩

theorem button_plain : Wlp (button env v) (fun r _ => Plain v r.2) w := by
  refine wlp_ite (fun _ => ?_) (fun _ => wlp_ite (fun _ => ?_) (fun _ => ?_))
  · rw [wlp_pure]
    exact plain_refl v
  · rw [wlp_pure]
    exact ⟨Or.inl rfl, id⟩
  · simp only [wlp_bind, wlp_pure]
    refine wlp_mono smnIsmstate_same fun r w₁ h₁ => ?_
    split_ifs
    · exact ⟨h₁.popchild, h₁.openpop⟩
    · exact h₁

theorem timer_stays (n : Nat) (hopen : v.openpop = false) :
    Wlp (timer env n mgr p v) (fun r w' => Stays env p v r.2 w') w := by
  have hstop : ∀ v' : Vars, Plain v { v'.idle with lastmobj := v'.popobj } →
      Wlp (stopped env mgr p v' >>= fun u => (pure (.next, u) : M (Label × Vars)))
        (fun r w' => Stays env p v r.2 w') w := by
    intro v' hv
    simp only [stopped, wlp_bind, wlp_pure]
    refine wlp_mono closeChild_plain fun v₁ w₁ h₁ => ?_
    exact wlp_mono (smnEvobject_stays true v₁) fun v₂ w₂ h₂ => (hv.trans h₁).then h₂
  refine wlp_ite (fun _ => ?_) (fun _ => wlp_ite (fun hc => ?_) (fun _ =>
    wlp_ite (fun _ => wlp_ite (fun _ => wlp_ite (fun _ => ?_) (fun _ => ?_)) (fun _ => ?_))
      (fun _ => ?_)))
  · rw [wlp_pure]
    exact ⟨Or.inl rfl, Or.inl⟩
  · exact absurd (hopen.symm.trans hc) Bool.false_ne_true
  · rw [wlp_pure]
    exact ⟨Or.inl rfl, Or.inl⟩
  · exact hstop _ ⟨Or.inl rfl, fun ho => absurd ho Bool.false_ne_true⟩
  · exact hstop _ ⟨Or.inl rfl, fun ho => absurd ho Bool.false_ne_true⟩
  · rw [wlp_pure]
    exact ⟨Or.inl rfl, Or.inl⟩

/-- A part opens a menu only if it was to be opened before. -/
theorem part_opens (n : Nat) (hopen : v.openpop = false) (hf : l ≠ .enter) :
    Wlp (part env n mgr p v l) (fun r w' => Stays env p v r.2 w') w := by
  have hpure : ∀ l', Wlp (pure (l', v) : M (Label × Vars))
      (fun r w' => Stays env p v r.2 w') w := by
    intro l'
    rw [wlp_pure]
    exact ⟨Or.inl rfl, Or.inl⟩
  cases l with
  | start =>
    simp only [part, start, wlp_bind, wlp_get, wlp_pure]
    intro e w₁ _ mobj w₂ _
    exact wlp_mono (smnEvobject_stays false _) fun _ _ h => ⟨h.popchild, h.openpop⟩
  | wait => exact wait_stays
  | uvw => exact wlp_mono (uvw_plain n) fun _ _ h => h.stays
  | xyz => exact xyz_stays n
  | button => exact wlp_mono button_plain fun _ _ h => h.stays
  | timer => exact timer_stays n hopen
  | next => exact hpure _
  | enter => exact absurd rfl hf
  | finish => exact hpure _

/-! ## Menus on top of each other -/

/-- What holds of the menus that wait, the menus in the list up to the one at work, and the
    state in which this one was begun. There was room for one more when each was entered. -/
inductive Running : List (Nat × Vars) → List Nat → World → Prop where
  | first (p : Nat) (w : World) : Running [] [p] w
  | more {st : List (Nat × Vars)} {ps : List Nat} {w₀ w₁ : World} {p : Nat} {v : Vars}
      (h : Running st ps w₀) (hinv : Inv ps p w₀ w₁ v) (hc : v.popchild ≠ NULL)
      (hq : v.quit = false) (hlen : ps.length < 4) :
      Running ((p, v) :: st) (ps ++ [v.popchild]) w₁

theorem Running.length {st : List (Nat × Vars)} (h : Running st ps w₀) :
    ps.length = st.length + 1 := by
  induction h with
  | first => rfl
  | more _ _ _ _ _ ih => rw [List.length_append, ih]; rfl

/-- There are four menus at most, and three if the one at work has opened another one. If it is
    going to, there are three or the mouse is over the entry. -/
structure Bounded (env : Env) (c : Conf) (ps : List Nat) (w₀ : World) : Prop where
  running : Running c.stack ps w₀
  begun : At ps c.p w₀ c.w c.l c.v
  le : ps.length ≤ 4
  lt : c.v.popchild ≠ NULL → ps.length < 4
  asked : c.v.openpop = true → ps.length < 4 ∨ Over env c.p c.v c.w

theorem Child.opened (h : Child ps w₀ w p) (hp : p ≠ NULL) : Opened ps p w₀ w := by
  rcases h with ⟨hn, -⟩ | ⟨-, ho⟩
  · exact absurd hn hp
  · exact ho

theorem Child.closed (h : Child ps w₀ w p) (hp : p = NULL) : Closed ps w₀ w := by
  rcases h with ⟨-, hc⟩ | ⟨hn, -⟩
  · exact hc
  · exact absurd hp hn

theorem Bounded.stacked (h : Bounded env c ps w₀) : ∃ qs, Stacked c.w qs ∧ qs.length ≤ 4 := by
  by_cases hc : c.v.popchild = NULL
  · exact ⟨ps, (h.begun.inv.child.closed hc).stacked, h.le⟩
  · refine ⟨ps ++ [c.v.popchild], (h.begun.inv.child.opened hc).stacked, ?_⟩
    have hlt := h.lt hc
    rw [List.length_append, List.length_singleton]
    omega

/-- A step keeps what holds of the menus. -/
theorem step_running (h : Bounded env b ps w₀) (hcalm : Calm env b)
    (hstep : stepConf env mgr n b = .ok c) : ∃ qs w₁, Bounded env c qs w₁ := by
  rcases b with ⟨st, p, l, v, w⟩
  by_cases he : l = .enter
  · subst he
    have hready : v.popchild ≠ NULL ∧ v.quit = false := h.begun.ready
    have hlt := h.lt hready.1
    rcases Outcome.ok_of_bind hstep with ⟨r, hr, hc⟩
    rcases r with ⟨v₁, w₁⟩
    rcases wlp_run (enter_spec h.begun.inv) hr with ⟨hinv, hchild, hquit⟩
    cases hc
    have hne : v₁.popchild ≠ NULL := hchild ▸ hready.1
    have hopened := hinv.child.opened hne
    -- The menu of the entry is one more on the stack.
    refine ⟨ps ++ [v₁.popchild], w₁, .more h.running hinv hne (hquit.trans hready.2) hlt,
      at_start hopened.stacked (by simp), ?_, fun hn => absurd rfl hn,
      fun ho => absurd ho Bool.false_ne_true⟩
    rw [List.length_append, List.length_singleton]
    omega
  by_cases hf : l = .finish
  · subst hf
    rcases st with - | ⟨⟨p', v'⟩, st⟩
    · cases hstep
      exact ⟨ps, w₀, h⟩
    · rcases Outcome.ok_of_bind hstep with ⟨r, hr, hstep⟩
      rcases Outcome.ok_of_bind hstep with ⟨r', hr', hc⟩
      rcases r with ⟨popres, w₂⟩
      rcases r' with ⟨v₃, w₃⟩
      cases hc
      rcases wlp_run (finish_spec h.begun) hr with ⟨hclosed, hout⟩
      cases h.running with
      | more hrun hinv hne hquit hlt =>
        -- The menu that has waited goes on where it was.
        have hg : Grown _ w₀ w₂ := ⟨fun q hq => hclosed.same q (List.mem_append_left _ hq),
          hclosed.log.longer⟩
        have hinv₂ : Inv _ p' _ w₂ v' :=
          ⟨hinv.mem, Or.inr ⟨hne, (hinv.child.opened hne).closed hclosed⟩, hinv.openpop,
            fun o ho => (hinv.mobj o ho).grown hinv.mem hg,
            fun o ho => (hinv.lastmobj o ho).grown hinv.mem hg,
            fun o ho => (hinv.popobj o ho).grown hinv.mem hg⟩
        have hat := wlp_run (back_spec n hinv₂ hquit hout) hr'
        exact ⟨_, _, hrun, hat, Nat.le_of_lt hlt, fun _ => hlt, fun _ => Or.inl hlt⟩
  · rw [stepConf_part st he hf] at hstep
    rcases Outcome.ok_of_bind hstep with ⟨r, hr, hc⟩
    cases hc
    have hat := wlp_run (part_spec n h.begun) hr
    by_cases hopen : v.openpop = true
    · -- The mouse was over the entry when it was asked, so this is not the fourth menu.
      have hlt : ps.length < 4 := by
        rcases h.asked hopen with hlt | hover
        · exact hlt
        · refine Nat.lt_of_le_of_ne h.le fun hfour => hcalm ?_ hover
          rw [← hfour]
          exact h.running.length.symm
      exact ⟨ps, w₀, h.running, hat, h.le, fun _ => hlt, fun _ => Or.inl hlt⟩
    · have hfalse := Bool.eq_false_iff.mpr hopen
      have hs := wlp_run (part_opens n hfalse he) hr
      refine ⟨ps, w₀, h.running, hat, h.le, fun hne => ?_, fun ho => Or.inr ?_⟩
      · rcases hs.popchild with hc | hc
        · exact h.lt (hc ▸ hne)
        · exact absurd hc hne
      · exact (hs.openpop ho).resolve_left hopen

theorem begins_bounded (h : Begins env c) : ∃ ps, Bounded env c ps c.w := by
  rcases h with ⟨w, w₁, p, n, tree, root, istart, scroll, x, y, rect, alignx, hs, hnew, hp,
    harr, hst, rfl, hl, hv⟩
  rcases wlp_run (smnPunew_spec hs tree root istart) hnew with ⟨hn, -⟩ | ⟨-, hnew⟩
  · exact absurd hn hp
  rcases wlp_run (arrange_spec scroll x y rect alignx) harr with ⟨w₂, hq, hsaved⟩
  have hopened := hnew.opened hq hsaved
  refine ⟨[c.p], ?_, ?_, Nat.le_of_ble_eq_true rfl, fun hne => absurd (hv ▸ rfl) hne,
    fun ho => ?_⟩
  · rw [hst]
    exact .first _ _
  · rw [hl, hv]
    exact at_start hopened.stacked (by simp)
  · rw [hv] at ho
    exact absurd ho Bool.false_ne_true

end

/-- If the mouse is never over an entry of the fourth menu that has another menu, there are never
    more than four, and the routine is never more than four levels deep. -/
theorem depth_bounded {env : Env} {mgr : Mgr} {c₀ c : Conf} (h₀ : Begins env c₀)
    (h : Visits env mgr c₀ c) :
    (∃ ps, Stacked c.w ps ∧ ps.length ≤ 4) ∧ c.stack.length + 1 ≤ 4 := by
  have hb : ∃ ps w₀, Bounded env c ps w₀ := by
    induction h with
    | start =>
      rcases begins_bounded h₀ with ⟨ps, hb⟩
      exact ⟨ps, _, hb⟩
    | step n _ hcalm hstep ih =>
      rcases ih with ⟨ps, w₀, hb⟩
      exact step_running hb hcalm hstep
  rcases hb with ⟨ps, w₀, hb⟩
  exact ⟨hb.stacked, hb.running.length ▸ hb.le⟩

/-- A menu whose entry has the same menu again. -/
def cyclicEnv : Env := nestedEnv 100 fun _ => ⟨7, 0, 0, 0, 1⟩

def cyclicWorld : World := nestedWorld 0 fun _ => 0x8000 ||| G_STRING

/-- The entries of three menus have the next one, and those of the fourth have none. -/
def chainEnv : Env := nestedEnv 100 fun n => ⟨8 + n, 0, 0, 0, 1⟩

def chainWorld : World := nestedWorld 0 fun n =>
  if n < 10 then 0x8000 ||| (BitVec.ofNat 16 (n - 7) <<< 8) ||| G_STRING else G_STRING

section

variable (env : Env) (w : World)

/-- The first menu is created and shown, and then there are so many steps. -/
def steps : Nat → Except Fault Conf
  | 0 => do
    let r ← smnPunew env 7 0 0 w
    let r' ← arrange env 50 r.1 0 0 0 ⟨0, 0, 0, 0⟩ false r.2
    if r.1 ≠ NULL ∧ r'.1 = true then .ok ⟨[], r.1, .start, {}, r'.2⟩ else .error .outside
  | k + 1 => steps k >>= stepConf env none 50

/-- The mouse is not over an entry of the fourth menu that has another one. -/
def calm (c : Conf) : Bool :=
  decide (c.stack.length + 1 ≠ 4) ||
    c.v.mobj.all fun obj => !smnIsattach env (c.w.trees (c.w.pops c.p).puTree) obj c.v.popchild

end

section

variable {env : Env} {w : World} {c : Conf} {k : Nat}

theorem calm_iff : calm env c = true ↔ Calm env c := by
  unfold calm Calm Over
  cases c.v.mobj <;> simp [imp_iff_not_or]

theorem steps_begins (hw : w.popList = NULL ∧ w.live = []) (h : steps env w 0 = .ok c) :
    Begins env c := by
  rcases Outcome.ok_of_bind h with ⟨⟨p, w₁⟩, hnew, h⟩
  rcases Outcome.ok_of_bind h with ⟨⟨ok, w₂⟩, harr, h⟩
  dsimp only at h harr
  split at h
  · rename_i hp
    cases h
    rw [hp.2] at harr
    refine ⟨w, w₁, p, 50, 7, 0, 0, 0, 0, 0, _, _, ⟨?_, fun _ hq =>
      absurd hq List.not_mem_nil⟩, hnew, hp.1, harr, rfl, rfl, rfl, rfl⟩
    rw [hw.1]
    exact Chains.linked_nil _ _
  · cases h

theorem steps_run (hw : w.popList = NULL ∧ w.live = []) (h : steps env w k = .ok c) :
    ∃ c₀, Begins env c₀ ∧ Run env none c₀ c := by
  induction k generalizing c with
  | zero => exact ⟨c, steps_begins hw h, .refl c⟩
  | succ k ih =>
    rcases Outcome.ok_of_bind h with ⟨b, hb, hc⟩
    rcases ih hb with ⟨c₀, hbegin, hrun⟩
    exact ⟨c₀, hbegin, hrun.trans (.step 50 hc (.refl c))⟩

theorem steps_visits (hw : w.popList = NULL ∧ w.live = [])
    (hcalm : ∀ j < k, (steps env w j).toOption.all (calm env) = true)
    (h : steps env w k = .ok c) : ∃ c₀, Begins env c₀ ∧ Visits env none c₀ c := by
  induction k generalizing c with
  | zero => exact ⟨c, steps_begins hw h, .start⟩
  | succ k ih =>
    rcases Outcome.ok_of_bind h with ⟨b, hb, hc⟩
    rcases ih (fun j hj => hcalm j (Nat.lt_succ_of_lt hj)) hb with ⟨c₀, hbegin, hvisit⟩
    have hk := hcalm k (Nat.lt_succ_self k)
    rw [hb] at hk
    exact ⟨c₀, hbegin, .step 50 hvisit (calm_iff.mp hk) hc⟩

end

/-- After 28 steps the fourth menu is open, and the mouse is over an entry of it. -/
theorem depth_bounded_chain : ∃ c₀ c, Begins chainEnv c₀ ∧ Visits chainEnv none c₀ c ∧
    c.stack.length + 1 = 4 ∧ c.v.mobj = some 1 ∧
      (∃ ps, Stacked c.w ps ∧ ps.length ≤ 4) ∧ c.stack.length + 1 ≤ 4 := by
  have hcalm : ∀ j < 28, (steps chainEnv chainWorld j).toOption.all (calm chainEnv) = true := by
    decide +kernel
  have heval : (steps chainEnv chainWorld 28).toOption.map (fun c =>
      (c.stack.length, c.v.mobj)) = some (3, some 1) := by
    decide +kernel
  cases h : steps chainEnv chainWorld 28 with
  | error e =>
    rw [h] at heval
    exact absurd heval (by simp [Except.toOption])
  | ok c =>
    rw [h] at heval
    have hc := Prod.mk.inj (Option.some.inj heval)
    rcases steps_visits ⟨rfl, rfl⟩ hcalm h with ⟨c₀, hbegin, hvisit⟩
    exact ⟨c₀, c, hbegin, hvisit, by rw [hc.1], hc.2, depth_bounded hbegin hvisit⟩

/-- After 28 steps there are five menus, and the routine is five levels deep. -/
theorem depth_five : ∃ c₀ c, Begins cyclicEnv c₀ ∧ Run cyclicEnv none c₀ c ∧
    (∃ ps, Stacked c.w ps ∧ ps.length = 5) ∧ c.stack.length + 1 = 5 := by
  have heval : (steps cyclicEnv cyclicWorld 28).toOption.map (fun c => (c.stack.length, c.w.popList,
      [1, 6, 13, 20, 27].map c.w.puChild, c.w.live)) =
        some (4, 1, [6, 13, 20, 27, 0], [27, 20, 13, 6, 1]) := by
    decide +kernel
  cases h : steps cyclicEnv cyclicWorld 28 with
  | error e =>
    rw [h] at heval
    exact absurd heval (by simp [Except.toOption])
  | ok c =>
    rw [h] at heval
    have hc := Option.some.inj heval
    simp only [Prod.mk.injEq, List.map_cons, List.map_nil, List.cons.injEq, and_true] at hc
    rcases hc with ⟨hdepth, hpop, ⟨h1, h6, h13, h20, h27⟩, hlive⟩
    rcases steps_run ⟨rfl, rfl⟩ h with ⟨c₀, hbegin, hrun⟩
    refine ⟨c₀, c, hbegin, hrun, ⟨[1, 6, 13, 20, 27], ⟨?_, ?_⟩, rfl⟩, by rw [hdepth]⟩
    · rw [hpop]
      simp only [Chains.linked_cons, h1, h6, h13, h20, h27, true_and]
      exact ⟨by decide, by decide, by decide, by decide, by decide, Chains.linked_nil _ _⟩
    · rw [hlive]
      decide

end Sub

end Smn

end Aes

end MagiC
