import MagiC.Dos.Drives
import MagiC.Dos.Givenup

/-!
# Locking and Unmounting Drives

`D_Dlock` and `Sunmount` of `magidos.s`.

`Sunmount` locks the drives with one device code, which unmounts them, and then unlocks
those it has locked. A drive that the caller had locked before is locked once more without
being unmounted, and its lock is gone afterwards. The loop over the drives has one turn
(`driveLoop_zero`), so the other drives of the device stay mounted.

## Main definitions

* `Refused`: Drives that cannot be locked.

## Theorems

* `sunmount_iff`: When `Sunmount` is all or nothing.
-/

namespace MagiC

namespace Dos

def ENSLOCK : Int := -59

section

variable (k : Kernel) (act : Slot) (procid : Slot → BitVec 16) (drvClose : Fin NUM_DRIVES → Int)

/-- `D_Dlock`. What the file systems say about being closed is `drvClose`. -/
def dDlock (mode : BitVec 16) (drv : Nat) : Except Stray (Kernel × Int) :=
  if h : drv < NUM_DRIVES then
    if drv = DRIVE_U then .ok (k, EDRIVE)
    else if mode.getLsbD 0 then
      match k.dlockx ⟨drv, h⟩ with
      | none => dlock k act ⟨drv, h⟩ (drvClose ⟨drv, h⟩)
      | some p =>
        if p = act then .ok (k, 0)
        else if mode.getLsbD 1 then
          .ok (k, if 0 < (procid p).toInt then (procid p).toInt else N_PROCS + 1)
        else .ok (k, ELOCKED)
    else if k.dlockx ⟨drv, h⟩ = some act then .ok (setDlock k ⟨drv, h⟩ none, 0)
    else .ok (k, ENSLOCK)
  else .ok (k, EDRIVE)

/-- A turn of `sunm_loop`: a drive with the device code, or the drive itself when there
is none, is locked and its number put down. It ends with what `Dlock` says. -/
def sunmDrive (devcode : Nat → BitVec 32) (a5 : Nat) (drv : Fin NUM_DRIVES)
    (s : Kernel × List Nat) :
    ExceptT (Kernel × List Nat × Int) (Except Stray) (Kernel × List Nat) :=
  match s.1.dmdx drv with
  | none => pure s
  | some a0 =>
    if (if devcode a5 = 0#32 then a0 = a5 else devcode a0 = devcode a5) then do
      let r ← dDlock s.1 act procid drvClose 1 drv
      if r.2 ≠ 0 then throw (r.1, s.2, r.2) else pure (r.1, s.2 ++ [(drv : Nat)])
    else pure s

/-- `sunm_unlloop`: the drives that have been put down are unlocked, the last one first. -/
def sunmUnlloop : List Nat → Kernel → Except Stray Kernel
  | [], k => .ok k
  | drv :: l, k => do
    let r ← dDlock k act procid drvClose 0 drv
    sunmUnlloop l r.1

def sunmount (devcode : Nat → BitVec 32) (a5 : Nat) : Except Stray (Kernel × Int) := do
  let r ← (driveLoop (2 ^ 16) (sunmDrive act procid drvClose devcode a5) 0 (k, [])).run
  let r := match r with
    | .ok (k, l) => (k, l, 0)
    | .error r => r
  let k ← sunmUnlloop act procid drvClose r.2.1.reverse r.1
  pure (k, r.2.2)

/-- A mounted drive of the device, or the drive itself when it has no device code. -/
def Target (devcode : Nat → BitVec 32) (a5 : Nat) (drv : Fin NUM_DRIVES) : Prop :=
  ∃ a, k.dmdx drv = some a ∧ if devcode a5 = 0#32 then a = a5 else devcode a = devcode a5

/-- A mounted drive that cannot be locked: it is `U:`, another process has locked it, or
it is not locked, and a file is open on it or the file system does not let go of it. -/
def Refused (drv : Fin NUM_DRIVES) : Prop :=
  (drv : Nat) = DRIVE_U ∨
    match k.dlockx drv with
    | some p => p ≠ act
    | none => drvClose drv < 0 ∨
      ∃ a, k.dmdx drv = some a ∧ ∃ c ∈ walked, ∃ f, OnDrive k a c f

/-- `Sunmount` says that all is well if and only if no drive of the device refuses, then
none is mounted any more, and the locks are as before in any case. -/
def AllOrNothing (devcode : Nat → BitVec 32) (a5 : Nat) (r : Kernel × Int) : Prop :=
  (r.2 = 0 ↔ ∀ drv, Target k devcode a5 drv → ¬ Refused k act drvClose drv) ∧
  (r.2 = 0 → ∀ drv, Target k devcode a5 drv → r.1.dmdx drv = none) ∧
  r.1.dlockx = k.dlockx

end

/-- Nothing of the device but drive A is mounted, or that refuses. -/
def OnlyA (k : Kernel) (act : Slot) (drvClose : Fin NUM_DRIVES → Int)
    (devcode : Nat → BitVec 32) (a5 : Nat) : Prop :=
  Target k devcode a5 0 ∧ Refused k act drvClose 0 ∨
  (∀ drv, drv ≠ 0 → ¬ Target k devcode a5 drv) ∧
    (Target k devcode a5 0 → k.dlockx 0 ≠ some act)

section

variable {k : Kernel} {act : Slot} {procid : Slot → BitVec 16} {drvClose : Fin NUM_DRIVES → Int}
  {devcode : Nat → BitVec 32} {a5 a : Nat} {drv : Fin NUM_DRIVES} {dmd : Option Nat}

/-- The table of the drives and that of their locks. -/
def drives (k : Kernel) : (Fin NUM_DRIVES → Option Nat) × (Fin NUM_DRIVES → Option Slot) :=
  (k.dmdx, k.dlockx)

theorem drives_onDrvx (p : Slot) (d : Nat) (f : Int → Int) :
    drives (onDrvx k p d f) = drives k := by
  unfold onDrvx
  split
  · rfl
  · rfl

theorem drives_freeStdpaths (d m : Option Nat) (p : Option Slot) :
    drives (freeStdpaths k d m p) = drives k := by
  unfold freeStdpaths
  refine foldl_keeps drives (fun k p => ?_) _ _
  rw [fspLoop2_zero, drives_onDrvx]

theorem drives_freePath (h : Nat) : drives (freePath k dmd h) = drives k := by
  unfold freePath
  split
  · rfl
  · split
    · rfl
    · rfl
    · rfl
    · split
      · rfl
      · simp only
        split
        · rfl
        · rfl

theorem drives_freePathx : drives (freePathx k act dmd) = drives k := by
  unfold freePathx
  simp only
  rw [foldl_keeps drives, drives_freeStdpaths, foldl_keeps drives fun k h => drives_freePath h]
  intro k a
  split
  · rfl
  · split
    · rfl
    · exact drives_freeStdpaths _ _ _

theorem freePathx_dmdx : (freePathx k act dmd).dmdx = k.dmdx :=
  (Prod.mk.inj drives_freePathx).1

theorem freePathx_dlockx : (freePathx k act dmd).dlockx = k.dlockx :=
  (Prod.mk.inj drives_freePathx).2

theorem dropDrive_dmdx : (dropDrive k drv).dmdx = Function.update k.dmdx drv none := rfl

theorem dropDrive_dlockx : (dropDrive k drv).dlockx = k.dlockx := rfl

theorem setDlock_self (p : Option Slot) : (setDlock k drv p).dlockx drv = p := by
  unfold setDlock
  simp only [Function.update_self]

theorem setDlock_undone (h : k.dlockx drv = none) (p : Option Slot) :
    setDlock (setDlock k drv p) drv none = k := by
  unfold setDlock
  simp only [Function.update_idem]
  rw [← h, Function.update_eq_self]

theorem dDlock_lock (hu : (drv : Nat) ≠ DRIVE_U) : dDlock k act procid drvClose 1 drv =
    match k.dlockx drv with
    | none => dlock k act drv (drvClose drv)
    | some p => if p = act then .ok (k, 0) else .ok (k, ELOCKED) := by
  unfold dDlock
  rw [dif_pos drv.isLt, if_neg hu, if_pos (show (1 : BitVec 16).getLsbD 0 = true by decide)]
  cases k.dlockx drv with
  | none => rfl
  | some p =>
    simp only
    rw [if_neg (show ¬ (1 : BitVec 16).getLsbD 1 = true by decide)]

theorem dlock_refused {c : Int} (hm : k.dmdx drv = some a) (hl : k.dlockx drv = none)
    (h : c < 0 ∨ ∃ c ∈ walked, ∃ f, OnDrive k a c f) :
    ∃ d0, d0 ≠ 0 ∧ dlock k act drv c = .ok (k, d0) := by
  have hm' : (setDlock k drv (some act)).dmdx drv = some a := hm
  unfold dlock
  rw [hl, if_neg (by simp)]
  simp only [hm']
  unfold chkOfls
  rcases chkOfls_spec (k := setDlock k drv (some act)) (m := a) walked with
    ⟨hopen, _⟩ | ⟨hopen, hnone⟩
  · refine ⟨EACCDN, by decide, ?_⟩
    rw [hopen]
    simp only
    rw [if_pos (by decide), setDlock_undone hl]
  · have hc : c < 0 := by
      rcases h with hc | ⟨e, he, f, hf⟩
      · exact hc
      · exact absurd hf (hnone e he f)
    refine ⟨c, Int.ne_of_lt hc, ?_⟩
    rw [hopen]
    simp only
    rw [if_neg (by decide), if_pos hc, setDlock_undone hl]

theorem dlock_taken {c : Int} (hm : k.dmdx drv = some a) (hl : k.dlockx drv = none)
    (h : ¬ (c < 0 ∨ ∃ c ∈ walked, ∃ f, OnDrive k a c f)) :
    dlock k act drv c =
      .ok (dropDrive (freePathx (setDlock k drv (some act)) act (some a)) drv, 0) := by
  have hm' : (setDlock k drv (some act)).dmdx drv = some a := hm
  unfold dlock
  rw [hl, if_neg (by simp)]
  simp only [hm']
  unfold chkOfls
  rcases chkOfls_spec (k := setDlock k drv (some act)) (m := a) walked with
    ⟨_, hex⟩ | ⟨hopen, _⟩
  · exact absurd (Or.inr hex) h
  · rw [hopen]
    simp only
    rw [if_neg (by decide), if_neg fun hc => h (Or.inl hc)]

theorem refused_iff (hm : k.dmdx drv = some a) (hu : (drv : Nat) ≠ DRIVE_U)
    (hl : k.dlockx drv = none) :
    Refused k act drvClose drv ↔ drvClose drv < 0 ∨ ∃ c ∈ walked, ∃ f, OnDrive k a c f := by
  unfold Refused
  rw [hl]
  constructor
  · rintro (h | h | ⟨a', ha', hex⟩)
    · exact absurd h hu
    · exact Or.inl h
    · have haa : a' = a := Option.some.inj (ha'.symm.trans hm)
      subst haa
      exact Or.inr hex
  · rintro (h | hex)
    · exact Or.inr (Or.inl h)
    · exact Or.inr (Or.inr ⟨a, hm, hex⟩)

/-- A drive that cannot be locked is left as it is. -/
theorem dDlock_refused (procid : Slot → BitVec 16) (hm : k.dmdx drv = some a)
    (h : Refused k act drvClose drv) :
    ∃ d0, d0 ≠ 0 ∧ dDlock k act procid drvClose 1 drv = .ok (k, d0) := by
  by_cases hu : (drv : Nat) = DRIVE_U
  · refine ⟨EDRIVE, by decide, ?_⟩
    unfold dDlock
    rw [dif_pos drv.isLt, if_pos hu]
  · rw [dDlock_lock hu]
    cases hl : k.dlockx drv with
    | some p =>
      have hp : p ≠ act := by
        have hr := h.resolve_left hu
        rw [hl] at hr
        exact hr
      exact ⟨ELOCKED, by decide, if_neg hp⟩
    | none =>
      exact dlock_refused hm hl ((refused_iff hm hu hl).mp h)

theorem dDlock_held (hu : (drv : Nat) ≠ DRIVE_U) (hl : k.dlockx drv = some act) :
    dDlock k act procid drvClose 1 drv = .ok (k, 0) := by
  rw [dDlock_lock hu, hl]
  exact if_pos rfl

theorem dDlock_taken (procid : Slot → BitVec 16) (hm : k.dmdx drv = some a)
    (h : ¬ Refused k act drvClose drv)
    (hl : k.dlockx drv = none) :
    ∃ k', dDlock k act procid drvClose 1 drv = .ok (k', 0) ∧
      k'.dmdx = Function.update k.dmdx drv none ∧
      k'.dlockx = Function.update k.dlockx drv (some act) := by
  have hu : ¬ (drv : Nat) = DRIVE_U := fun hu => h (Or.inl hu)
  refine ⟨dropDrive (freePathx (setDlock k drv (some act)) act (some a)) drv, ?_, ?_, ?_⟩
  · rw [dDlock_lock hu, hl]
    simp only
    rw [dlock_taken hm hl fun hr => h ((refused_iff hm hu hl).mpr hr)]
  · rw [dropDrive_dmdx, freePathx_dmdx, setDlock_dmdx]
  · rw [dropDrive_dlockx, freePathx_dlockx]
    rfl

theorem dlockx_of_not_refused (h : ¬ Refused k act drvClose drv) :
    k.dlockx drv = none ∨ k.dlockx drv = some act := by
  cases hl : k.dlockx drv with
  | none => exact Or.inl rfl
  | some p =>
    by_cases hp : p = act
    · exact Or.inr (congrArg some hp)
    · refine absurd (Or.inr ?_) h
      rw [hl]
      exact hp

theorem dDlock_unlock (hu : (drv : Nat) ≠ DRIVE_U) (hl : k.dlockx drv = some act) :
    dDlock k act procid drvClose 0 drv = .ok (setDlock k drv none, 0) := by
  unfold dDlock
  rw [dif_pos drv.isLt, if_neg hu, if_neg (show ¬ (0 : BitVec 16).getLsbD 0 = true by decide)]
  exact if_pos hl

theorem sunmount_eq : sunmount k act procid drvClose devcode a5 = (do
    let r ← (sunmDrive act procid drvClose devcode a5 0 (k, [])).run
    let r := match r with
      | .ok (k, l) => (k, l, 0)
      | .error r => r
    let k ← sunmUnlloop act procid drvClose r.2.1.reverse r.1
    pure (k, r.2.2)) := by
  unfold sunmount
  rw [driveLoop_zero]

theorem sunmDrive_skip (h : ¬ Target k devcode a5 drv) (l : List Nat) :
    (sunmDrive act procid drvClose devcode a5 drv (k, l)).run = .ok (.ok (k, l)) := by
  unfold sunmDrive
  cases hm : k.dmdx drv with
  | none => rfl
  | some a =>
    simp only
    rw [if_neg fun hc => h ⟨a, hm, hc⟩]
    rfl

theorem sunmDrive_lock {j : Kernel} {d0 : Int} (h : Target k devcode a5 drv) (l : List Nat)
    (hd : dDlock k act procid drvClose 1 drv = .ok (j, d0)) :
    (sunmDrive act procid drvClose devcode a5 drv (k, l)).run =
      .ok (if d0 ≠ 0 then .error (j, l, d0) else .ok (j, l ++ [(drv : Nat)])) := by
  rcases h with ⟨a, hm, hc⟩
  unfold sunmDrive
  simp only [hm]
  rw [if_pos hc, hd]
  by_cases h0 : d0 = 0
  · subst h0
    rfl
  · have h0' : d0 ≠ 0 := h0
    rw [if_pos h0']
    show (if d0 ≠ 0 then throw (j, l, d0) else pure (j, l ++ [(drv : Nat)]) :
      ExceptT (Kernel × List Nat × Int) (Except Stray) (Kernel × List Nat)).run = _
    rw [if_pos h0']
    rfl

theorem sunmount_skip (h : ¬ Target k devcode a5 0) :
    sunmount k act procid drvClose devcode a5 = .ok (k, 0) := by
  rw [sunmount_eq, sunmDrive_skip h]
  rfl

theorem sunmount_refused {j : Kernel} {d0 : Int} (h : Target k devcode a5 0)
    (hd : dDlock k act procid drvClose 1 ((0 : Fin NUM_DRIVES) : Nat) = .ok (j, d0)) (h0 : d0 ≠ 0) :
    sunmount k act procid drvClose devcode a5 = .ok (j, d0) := by
  rw [sunmount_eq, sunmDrive_lock h [] hd, if_pos h0]
  rfl

theorem sunmount_locked {j : Kernel} (h : Target k devcode a5 0)
    (hd : dDlock k act procid drvClose 1 ((0 : Fin NUM_DRIVES) : Nat) = .ok (j, 0))
    (hl : j.dlockx 0 = some act) :
    sunmount k act procid drvClose devcode a5 = .ok (setDlock j 0 none, 0) := by
  have hun : dDlock j act procid drvClose 0 ((0 : Fin NUM_DRIVES) : Nat) =
      .ok (setDlock j 0 none, 0) := dDlock_unlock (by decide) hl
  have hloop : sunmUnlloop act procid drvClose [((0 : Fin NUM_DRIVES) : Nat)] j =
      .ok (setDlock j 0 none) := by
    unfold sunmUnlloop
    rw [hun]
    rfl
  rw [sunmount_eq, sunmDrive_lock h [] hd, if_neg fun h => h rfl]
  show (do
    let k ← sunmUnlloop act procid drvClose [((0 : Fin NUM_DRIVES) : Nat)] j
    pure (k, (0 : Int))) = Except.ok (setDlock j 0 none, (0 : Int))
  rw [hloop]
  rfl

theorem allOrNothing_zero {j : Kernel} : AllOrNothing k act drvClose devcode a5 (j, 0) ↔
    (∀ drv, Target k devcode a5 drv → ¬ Refused k act drvClose drv) ∧
      (∀ drv, Target k devcode a5 drv → j.dmdx drv = none) ∧ j.dlockx = k.dlockx := by
  constructor
  · rintro ⟨hr, hm, hl⟩
    exact ⟨hr.mp rfl, hm rfl, hl⟩
  · rintro ⟨hr, hm, hl⟩
    exact ⟨iff_of_true rfl hr, fun _ => hm, hl⟩

theorem still_mounted {j : Kernel} (hj : j.dmdx drv = k.dmdx drv)
    (h : ∀ drv, Target k devcode a5 drv → j.dmdx drv = none) : ¬ Target k devcode a5 drv := by
  intro ht
  have hnone := h drv ht
  rcases ht with ⟨a, hm, _⟩
  rw [hj, hm] at hnone
  cases hnone

/-- `Sunmount` is all or nothing if and only if no other drive of the device than A is
mounted and the caller has not locked A, or A refuses. -/
theorem sunmount_iff (k : Kernel) (act : Slot) (procid : Slot → BitVec 16)
    (drvClose : Fin NUM_DRIVES → Int) (devcode : Nat → BitVec 32) (a5 : Nat) :
    (∃ r, sunmount k act procid drvClose devcode a5 = .ok r ∧
      AllOrNothing k act drvClose devcode a5 r) ↔ OnlyA k act drvClose devcode a5 := by
  by_cases ht : Target k devcode a5 0
  · obtain ⟨a, hm, _⟩ := id ht
    by_cases hr : Refused k act drvClose 0
    · -- drive A refuses, and nothing has happened
      obtain ⟨d0, h0, hd⟩ := dDlock_refused procid hm hr
      refine iff_of_true ⟨(k, d0), sunmount_refused ht hd h0, ?_, ?_, rfl⟩ (Or.inl ⟨ht, hr⟩)
      · exact iff_of_false h0 fun hall => hall 0 ht hr
      · exact fun h => absurd h h0
    · rcases dlockx_of_not_refused hr with hl | hl
      · -- drive A is locked, unmounted and unlocked, and every other one is left mounted
        obtain ⟨j, hd, hdmdx, hlock⟩ := dDlock_taken procid hm hr hl
        have hkeep : ∀ drv, drv ≠ 0 → (setDlock j 0 none).dmdx drv = k.dmdx drv := by
          intro drv hne
          rw [setDlock_dmdx, hdmdx, Function.update_of_ne hne]
        rw [sunmount_locked ht hd (by rw [hlock, Function.update_self])]
        simp only [Except.ok.injEq, exists_eq_left', allOrNothing_zero]
        constructor
        · rintro ⟨_, hgone, _⟩
          refine Or.inr ⟨fun drv hne => still_mounted (hkeep drv hne) hgone, fun _ => ?_⟩
          rw [hl]
          exact (Option.some_ne_none act).symm
        · intro honly
          rcases honly with ⟨_, h⟩ | ⟨hothers, _⟩
          · exact absurd h hr
          · have h0 : ∀ drv, Target k devcode a5 drv → drv = 0 := by
              intro drv h
              by_contra hne
              exact hothers drv hne h
            refine ⟨fun drv h => h0 drv h ▸ hr, fun drv h => ?_, ?_⟩
            · rw [h0 drv h, setDlock_dmdx, hdmdx, Function.update_self]
            · show Function.update j.dlockx 0 none = k.dlockx
              rw [hlock, Function.update_idem, ← hl, Function.update_eq_self]
      · -- the caller has locked drive A, and loses the lock
        rw [sunmount_locked ht (dDlock_held (by decide) hl) hl]
        simp only [Except.ok.injEq, exists_eq_left', allOrNothing_zero]
        refine iff_of_false ?_ ?_
        · rintro ⟨_, _, h⟩
          have h0 : k.dlockx 0 = none := (congrFun h 0).symm.trans (setDlock_self none)
          rw [hl] at h0
          cases h0
        · rintro (⟨_, h⟩ | ⟨_, h⟩)
          · exact hr h
          · exact h ht hl
  · rw [sunmount_skip ht]
    simp only [Except.ok.injEq, exists_eq_left', allOrNothing_zero]
    constructor
    · rintro ⟨_, hgone, _⟩
      exact Or.inr ⟨fun drv _ => still_mounted rfl hgone, fun h => absurd h ht⟩
    · intro honly
      rcases honly with ⟨h, _⟩ | ⟨hothers, _⟩
      · exact absurd h ht
      · have hno : ∀ drv, ¬ Target k devcode a5 drv := by
          intro drv h
          by_cases h0 : drv = 0
          · exact ht (h0 ▸ h)
          · exact hothers drv h0 h
        exact ⟨fun drv h => absurd h (hno drv), fun drv h => absurd h (hno drv), trivial⟩

end

/-- Drive C is mounted, and no file is open. -/
def noFile : Kernel :=
  { oneFile 0 with
    procx := fun p => ((oneFile 0).procx p).map fun pd => { pd with handle := fun _ => Fh.empty } }

/-- Drive A is mounted, and locked by the process in slot 0. -/
def lockedA : Kernel :=
  { noFile with
    dmdx := fun d => if d = 0 then some 1 else none
    dlockx := fun d => if d = 0 then some 0 else none }

theorem entry_noFile (c : Cell) : entry noFile c = none := by
  unfold entry noFile oneFile
  by_cases hp : c.1 = 0
  · simp [hp, Fh.empty]
  · simp [hp]

/-- Drive C is not unmounted though it can be locked, and the lock that the caller has on
drive A is lost. -/
theorem sunmount_keeps :
    (¬ Refused noFile 0 (fun _ => 0) 2 ∧
      ∃ k', sunmount noFile 0 (fun _ => 1) (fun _ => 0) (fun _ => 7) 1 = .ok (k', 0) ∧
        k'.dmdx 2 = some 1 ∧ ¬ AllOrNothing noFile 0 (fun _ => 0) (fun _ => 7) 1 (k', 0)) ∧
    ∃ k', sunmount lockedA 0 (fun _ => 1) (fun _ => 0) (fun _ => 7) 1 = .ok (k', 0) ∧
      k'.dmdx 0 = some 1 ∧ lockedA.dlockx 0 = some 0 ∧ k'.dlockx 0 = none := by
  refine ⟨⟨?_, ?_⟩, ?_⟩
  · rintro (hu | hneg | ⟨a, -, c, -, f, hon⟩)
    · exact absurd hu (by decide)
    · exact absurd hneg (by decide)
    · rw [OnDrive, entry_noFile] at hon
      cases hon.1
  · have hskip : ¬ Target noFile (fun _ => 7) 1 0 := by
      rintro ⟨a, ha, _⟩
      cases ha
    refine ⟨noFile, sunmount_skip hskip, rfl, fun h => ?_⟩
    have hsame : noFile.dmdx 2 = noFile.dmdx 2 := rfl
    exact still_mounted hsame (allOrNothing_zero.mp h).2.1 ⟨1, rfl, rfl⟩
  · have ht : Target lockedA (fun _ => 7) 1 0 := ⟨1, rfl, rfl⟩
    exact ⟨_, sunmount_locked ht (dDlock_held (by decide) rfl) rfl, rfl, rfl, setDlock_self none⟩

end Dos

end MagiC
