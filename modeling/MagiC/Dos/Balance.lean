import MagiC.Dos.Locks

/-!
# Calls Give Back Their Locks

A call that takes a path locks the directories it searches, and has given back
every one of them when it is done. As long as no disk is changed this is true of
the calls on files and directories, of renaming and of linking.

It is not true of two exits. Opening a file leaves the directory of a link locked
that it does not follow: one whose text is empty or too long, or one link too
many. And setting a default path leaves the directory locked for which there is
no path handle.

## Main definitions

* `pathOf`, `Moved`: The default path of a process, and a reference that goes
  from the old one to the new one.

## Theorems

* `pathToDD_finds`: The lock on what a search finds.
-/

namespace MagiC

namespace Dos

/-- No file system says that its disk has been changed. -/
structure Quiet (x : Xfs) : Prop where
  path2DD : ∀ n e, x.path2DD n = .err e → e ≠ E_CHNG
  drvOpen : ∀ n e, x.drvOpen n = .error e → e ≠ E_CHNG
  fopen : ∀ n e, x.fopen n = .err e → e ≠ E_CHNG ∧ e ≠ EDRIVE
  call : ∀ n v, x.call n = .val v → v ≠ E_CHNG ∧ v ≠ EDRIVE

/-- Every directory is counted as often as before. -/
def Balanced (k k' : Kernel) : Prop := ∀ d, (k'.dd d).refcnt = (k.dd d).refcnt

/-- The lock on the directory of the last link. -/
def withReldir (E : Nat → Nat) (reldir : Option Nat) : Nat → Nat :=
  match reldir with
  | some d => more E d
  | none => E

/-- Opening a file comes to a link that it does not follow: one with a text of
length zero or of more than 256 characters, or one more than `links`. -/
inductive Stuck (x : Xfs) (fuel : Nat) (act : Slot) :
    (links : Nat) → Kernel → (n : Nat) → (path : List Char) → (reldir : Option Nat) → Prop
  | text {links k n path reldir k' n' d len text}
      (found : pathToDD x fuel act 5 k n path reldir = some (k', n', .ok d))
      (link : x.fopen n' = .link len text) (bad : linkValid len = false) :
      Stuck x fuel act links k n path reldir
  | many {k n path reldir k' n' d len text}
      (found : pathToDD x fuel act 5 k n path reldir = some (k', n', .ok d))
      (link : x.fopen n' = .link len text) : Stuck x fuel act 0 k n path reldir
  | next {links k n path reldir k' n' d len text}
      (found : pathToDD x fuel act 5 k n path reldir = some (k', n', .ok d))
      (link : x.fopen n' = .link len text) (good : linkValid len = true)
      (stuck : Stuck x fuel act links (unlockReldir k' reldir) (n' + 1) text (some d.dir)) :
      Stuck x fuel act (links + 1) k n path reldir

/-- Opening a file, for which there is a handle, comes to a link that it does not
follow. -/
def LosesLink (x : Xfs) (fuel : Nat) (act : Slot) (k : Kernel) (n : Nat) (path : List Char) :
    Prop :=
  ∃ k' i, newHdl k act = some (k', i) ∧
    Stuck x fuel act 7 (setEntry k' (act, i) (some (k'.devFds 0))) n path none

/-- The default path of a process for a drive, unless it is the root or
invalid. -/
def pathOf (k : Kernel) (p : Slot) (drive : Fin NUM_DRIVES) : Option Nat :=
  if drvxOf k p drive ≤ 0 then none else k.pathx (drvxOf k p drive).toNat

/-- One reference goes from the old default path of a process to the new one. -/
def Moved (p : Slot) (drive : Fin NUM_DRIVES) (k k' : Kernel) : Prop :=
  ∀ d, (k'.dd d).refcnt + refs (pathOf k p drive) d
    = (k.dd d).refcnt + refs (pathOf k' p drive) d

/-- There is a path handle for a directory, or none is needed. -/
def Storable (k : Kernel) (given d : Nat) : Prop :=
  isRoot k given d = true ∨ (isdefault k (some d)).isSome = true ∨
    (isdefault k none).isSome = true

/-- The directory that a path leads to cannot become a default path: all the path
handles are in use for others. -/
def Unstored (x : Xfs) (fuel : Nat) (act : Slot) (k : Kernel) (n : Nat) (path : List Char) :
    Prop :=
  ∃ k' n' f, pathToDD x fuel act 5 k n path none = some (k', n', .ok f) ∧
    ¬ Storable k' f.drive f.dir

/-- How setting a default path ends: without an error one reference has gone from
the old path to the new one and the other paths are as before; with an error
every directory is counted as before. -/
def PathSet (act : Slot) (k : Kernel) (r : Kernel × Nat × Int) : Prop :=
  if r.2.2 = 0 then ∃ drv, Moved act drv k r.1 ∧ ∀ e, e ≠ drv → drvxOf r.1 act e = drvxOf k act e
  else Balanced k r.1

/-- A call comes back with the locks that were held before it. -/
def Keeps (k : Kernel) (call : Kernel → Nat → List Char → Option (Kernel × Nat × Int)) : Prop :=
  ∀ E k' n text r, Locks k E k' → call k' n text = some r → Locks k E r.1

section

variable {x : Xfs} {k k' : Kernel} {p act : Slot} {n d fuel depth drive : Nat} {E : Nat → Nat}
  {e : Int}

theorem Locks.balanced (h : Locks k (fun _ => 0) k') : Balanced k k' := by
  intro d
  have hd := h.refcnt d
  omega

theorem Locks.not_balanced (h : Locks k (more (fun _ => 0) d) k') : ¬ Balanced k k' := by
  intro hb
  have hd := h.refcnt d
  rw [more_self, hb d] at hd
  omega

theorem Locks.condUnlock (h : Locks k (more E d) k') (he : e ≠ E_CHNG ∧ e ≠ EDRIVE) :
    Locks k E (condUnlockDd k' e d) := by
  unfold condUnlockDd
  rw [if_neg (not_or.mpr he)]
  exact h.unlock

theorem withReldir_found {reldir : Option Nat} (r : Except Int Found) :
    found (withReldir E reldir) r = withReldir (found E r) reldir := by
  cases reldir with
  | none => rfl
  | some d =>
    cases r with
    | error e => rfl
    | ok f => exact more_comm d f.dir

theorem Locks.unlockReldir {reldir : Option Nat} (h : Locks k (withReldir E reldir) k') :
    Locks k E (unlockReldir k' reldir) := by
  cases reldir with
  | none => exact h
  | some d => exact h.unlock

theorem search_locks {path : List Char} {reldir : Option Nat} {k₁ : Kernel} {n₁ : Nat} {r}
    (h : Locks k (withReldir E reldir) k')
    (hr : pathToDD x fuel p depth k' n path reldir = some (k₁, n₁, r)) :
    Locks k (found E r) (Dos.unlockReldir k₁ reldir) := by
  have hfound := pathToDD_locks h hr
  rw [withReldir_found] at hfound
  exact hfound.unlockReldir

theorem startDd_error {P : Int → Prop} (hkernel : P EPTHNF ∧ P ELOOP ∧ P ELOCKED ∧ P EDRIVE)
    (hdrive : ∀ n e, x.drvOpen n = .error e → P e) {path : List Char} {reldir : Option Nat}
    (h : (startDd x k p n path reldir).2 = .error e) : P e := by
  have hstart : ∀ {drive : Nat} {rest : List Char},
      (startDrive x k p n drive rest).2 = .error e → P e := by
    intro drive rest h
    unfold startDrive at h
    split at h
    · next k₁ e₁ hc =>
      cases h
      have hc' := congrArg Prod.snd hc
      unfold chkdrv at hc'
      split at hc'
      · simp only at hc'
        split at hc'
        · cases hc'
          exact hkernel.2.2.1
        · split at hc'
          · cases hc'
          · next ho =>
            cases hc'
            exact hdrive _ _ ho
          · cases hc'
          · cases hc'
            exact hkernel.2.2.2
      · cases hc'
        exact hkernel.2.2.2
    · split at h
      · cases h
      · simp only at h
        split at h
        · cases h
        · split at h
          · cases h
            exact hkernel.1
          · cases h
  unfold startDd at h
  split at h
  · exact hstart h
  · simp only at h
    split at h
    · cases h
    · cases h
  · exact hstart h

theorem pathToDD_error {P : Int → Prop} (hkernel : P EPTHNF ∧ P ELOOP ∧ P ELOCKED ∧ P EDRIVE)
    (hpath : ∀ n e, x.path2DD n = .err e → P e) (hdrive : ∀ n e, x.drvOpen n = .error e → P e) :
    ∀ {depth : Nat} {k : Kernel} {n : Nat} {path : List Char} {reldir : Option Nat} {r},
      pathToDD x fuel p depth k n path reldir = some r → ∀ e, r.2.2 = .error e → P e := by
  have herr : ∀ e, P e → P (pthddErr e) := by
    intro e he
    unfold pthddErr
    split
    · exact hkernel.1
    · exact he
  have hloop : ∀ {follow : Kernel → Nat → List Char → Nat →
        Option (Kernel × Nat × Except Int Found)} {drive : Nat} {fuel : Nat} {k : Kernel}
      {n dir : Nat} {rest : List Char} {locked : Bool} {r},
      pthddLoop x follow drive fuel k n dir rest locked = some r →
      ∀ e, r.2.2 = .error e → P e := by
    intro follow drive fuel
    induction fuel with
    | zero =>
      intro k n dir rest locked r h
      rw [pthddLoop] at h
      cases h
    | succ fuel ih =>
      intro k n dir rest locked r h e he
      rw [pthddLoop] at h
      simp only at h
      split at h
      · cases h
        cases he
      · cases h
        cases he
        exact hkernel.1
      · next e' ha =>
        cases h
        cases he
        exact herr e' (hpath n e' ha)
      · split at h
        · split at h
          · exact ih h e he
          · cases h
            cases he
            exact hkernel.1
        · cases h
          cases he
          exact hkernel.1
      · split at h
        · cases h
        · split at h
          · cases h
            cases he
            exact hkernel.1
          · exact ih h e he
  intro depth k n path reldir r h e he
  cases depth with
  | zero =>
    rw [pathToDD] at h
    cases h
    cases he
    exact hkernel.2.1
  | succ depth =>
    rw [pathToDD] at h
    split at h
    · next k₁ e' hs =>
      cases h
      cases he
      exact herr e' (startDd_error hkernel hdrive (congrArg Prod.snd hs))
    · exact hloop h e he

theorem pathToDD_quiet (hq : Quiet x) {path : List Char} {reldir : Option Nat} {r}
    (h : pathToDD x fuel p depth k n path reldir = some r) : r.2.2 ≠ .error E_CHNG := by
  intro he
  have hkernel : EPTHNF ≠ E_CHNG ∧ ELOOP ≠ E_CHNG ∧ ELOCKED ≠ E_CHNG ∧ EDRIVE ≠ E_CHNG := by
    decide
  exact pathToDD_error hkernel hq.path2DD hq.drvOpen h E_CHNG he rfl

/-- One round of a call on a file, from one link to the next. -/
theorem fxfAgain_locks (hq : Quiet x)
    {sfirst : Option (Kernel → Nat → List Char → Option (Kernel × Nat × Int))}
    (hs : ∀ f, sfirst = some f → Keeps k f) :
    ∀ {links : Nat} {k' : Kernel} {n : Nat} {path : List Char} {reldir : Option Nat} {r},
      Locks k (withReldir E reldir) k' →
      fxfAgain x fuel act sfirst links k' n path reldir = some r → Locks k E r.1.1 := by
  have hval : ∀ e : Int, e = 0 ∨ e = ELOOP → e ≠ E_CHNG ∧ e ≠ EDRIVE := by
    intro e he
    rcases he with he | he <;> rw [he] <;> decide
  intro links
  induction links using Nat.strong_induction_on with
  | _ links ih =>
    intro k' n path reldir r hk h
    rw [fxfAgain] at h
    split at h
    · cases h
    · next k₁ n₁ r₁ hp =>
      have hround := search_locks hk hp
      simp only at h
      split at h
      · cases h
        exact hround
      · next dir =>
        split at h
        · next v hv =>
          cases h
          exact hround.condUnlock (hq.call _ _ hv)
        · cases h
          exact hround.condUnlock (hval 0 (Or.inl rfl))
        · next text follow _ =>
          split at h
          · cases h
          · next k₂ n₂ r₂ hf =>
            cases h
            exact (hs follow rfl _ _ _ _ _ hround hf).condUnlock (hval 0 (Or.inl rfl))
        · split at h
          · -- The directory of the link stays locked until the next search is done.
            have hnext : Locks k (withReldir E (some dir.dir)) _ := hround
            exact ih _ (Nat.lt_succ_self _) hnext h
          · cases h
            exact hround.condUnlock (hval ELOOP (Or.inr rfl))

theorem fxfTagain_locks (hq : Quiet x)
    {sfirst : Option (Kernel → Nat → List Char → Option (Kernel × Nat × Int))}
    (hs : ∀ f, sfirst = some f → Keeps k f) {tries : Nat} :
    Keeps k (fxfTagain x fuel act sfirst tries) := by
  induction tries with
  | zero =>
    intro E k' n path r _ h
    rw [fxfTagain] at h
    cases h
  | succ tries ih =>
    intro E k' n path r hk h
    rw [fxfTagain] at h
    split at h
    · next k₁ n₁ e last he =>
      have hstart : Locks k (withReldir E none) k' := hk
      have hround := fxfAgain_locks hq hs hstart he
      split at h
      · exact ih _ _ _ _ _ hround h
      · cases h
        exact hround
    · cases h

theorem fxfunct_locks (hq : Quiet x) (sfirst : Bool) : Keeps k (fxfunct x fuel act sfirst) := by
  intro E k' n path r hk h
  refine fxfTagain_locks hq ?_ E k' n path r hk h
  intro f hf
  cases sfirst with
  | false => cases hf
  | true =>
    cases hf
    exact fxfTagain_locks hq fun f hf => by cases hf

theorem frename_locks {tries : Nat} : ∀ {E : Nat → Nat} {k' : Kernel} {n : Nat}
    {alt neu : List Char} {r}, Locks k E k' →
    frename x fuel act tries k' n alt neu = some r → Locks k E r.1 := by
  induction tries with
  | zero =>
    intro E k' n alt neu r _ h
    rw [frename] at h
    cases h
  | succ tries ih =>
    intro E k' n alt neu r hk h
    have hagain : ∀ {j : Kernel} {m : Nat} {e : Int}, Locks k E j →
        (if e = E_CHNG then frename x fuel act tries j m alt neu else some (j, m, e))
          = some r → Locks k E r.1 := by
      intro j m e hs hr
      split at hr
      · exact ih hs hr
      · cases hr
        exact hs
    rw [frename] at h
    simp only at h
    split at h
    · cases h
    · next k₁ n₁ e ha =>
      have hfail : Locks k E k₁ := pathToDD_locks hk ha
      exact hagain hfail h
    · next k₁ n₁ a ha =>
      have hold : Locks k (more E a.dir) k₁ := pathToDD_locks hk ha
      split at h
      · cases h
      · next k₂ n₂ e hb =>
        have hfail : Locks k (more E a.dir) k₂ := pathToDD_locks hold hb
        exact hagain hfail.unlock h
      · next k₂ n₂ b hb =>
        have hboth : Locks k (more (more E a.dir) b.dir) k₂ := pathToDD_locks hold hb
        have hback : Locks k E (unlockDd (unlockDd k₂ b.dir) a.dir) := hboth.unlock.unlock
        split at h
        · split at h
          · exact hagain hback h
          · exact hagain hback h
        · exact hagain hback h

theorem dxfunc_locks (hq : Quiet x) {tries : Nat} : Keeps k (dxfunc x fuel act tries) := by
  induction tries with
  | zero =>
    intro E k' n path r _ h
    rw [dxfunc] at h
    cases h
  | succ tries ih =>
    intro E k' n path r hk h
    have hagain : ∀ {j : Kernel} {m : Nat} {e : Int}, Locks k E j →
        (if e = E_CHNG then dxfunc x fuel act tries j m path else some (j, m, e))
          = some r → Locks k E r.1 := by
      intro j m e hs hr
      split at hr
      · exact ih _ _ _ _ _ hs hr
      · cases hr
        exact hs
    rw [dxfunc] at h
    simp only at h
    split at h
    · cases h
    · next k₁ n₁ e ha =>
      have hfail : Locks k E k₁ := pathToDD_locks hk ha
      exact hagain hfail h
    · next k₁ n₁ d ha =>
      have hdir : Locks k (more E d.dir) k₁ := pathToDD_locks hk ha
      split at h
      · next v hv =>
        exact hagain (hdir.condUnlock (hq.call _ _ hv)) h
      · have hlink : ELINK ≠ E_CHNG ∧ ELINK ≠ EDRIVE := by decide
        exact hagain (hdir.condUnlock hlink) h

theorem not_stuck_error {links : Nat} {path : List Char} {reldir : Option Nat}
    (h : pathToDD x fuel act 5 k n path reldir = some (k', d, .error e)) :
    ¬ Stuck x fuel act links k n path reldir := by
  intro hs
  cases hs with
  | text hf => rw [h] at hf; cases hf
  | many hf => rw [h] at hf; cases hf
  | next hf => rw [h] at hf; cases hf

theorem not_stuck_end {links n' : Nat} {path : List Char} {reldir : Option Nat} {f : Found}
    (h : pathToDD x fuel act 5 k n path reldir = some (k', n', .ok f))
    (hlink : ∀ len text, x.fopen n' ≠ .link len text) :
    ¬ Stuck x fuel act links k n path reldir := by
  intro hs
  cases hs with
  | text hf hl => rw [h] at hf; cases hf; exact hlink _ _ hl
  | many hf hl => rw [h] at hf; cases hf; exact hlink _ _ hl
  | next hf hl => rw [h] at hf; cases hf; exact hlink _ _ hl

theorem opened_dd (f : Nat) (new : Fd) : (opened k f new).dd = k.dd := by
  unfold opened
  split
  · unfold countFd
    split <;> rfl
  · rfl

/-- One round of opening a file, from one link to the next. The directory of a
link that is not followed stays locked. -/
theorem fopAgain_locks (hq : Quiet x) : ∀ {links : Nat} {k' : Kernel} {n : Nat}
    {path : List Char} {reldir : Option Nat} {r}, Locks k (withReldir E reldir) k' →
    fopAgain x fuel act links k' n path reldir = some r →
    (Stuck x fuel act links k' n path reldir ∧ ∃ d, Locks k (more E d) r.1) ∨
      (¬ Stuck x fuel act links k' n path reldir ∧ Locks k E r.1) := by
  intro links
  induction links using Nat.strong_induction_on with
  | _ links ih =>
    intro k' n path reldir r hk h
    rw [fopAgain] at h
    split at h
    · cases h
    · next k₁ n₁ r₁ hp =>
      have hround := search_locks hk hp
      simp only at h
      split at h
      · cases h
        exact Or.inr ⟨not_stuck_error hp, hround⟩
      · next dir =>
        have hdir : Locks k (more E dir.dir) (unlockReldir k₁ reldir) := hround
        split at h
        · next f new ha =>
          cases h
          have hopen := hdir.of_dd (opened_dd f new)
          refine Or.inr ⟨not_stuck_end hp fun len text hl => ?_, hopen.unlock⟩
          rw [ha] at hl
          cases hl
        · next e ha =>
          cases h
          refine Or.inr ⟨not_stuck_end hp fun len text hl => ?_,
            hdir.condUnlock (hq.fopen _ _ ha)⟩
          rw [ha] at hl
          cases hl
        · next len text ha =>
          cases hv : linkValid len with
          | false =>
            rw [hv] at h
            cases h
            exact Or.inl ⟨.text hp ha hv, dir.dir, hdir⟩
          | true =>
            rw [hv] at h
            cases links with
            | zero =>
              cases h
              exact Or.inl ⟨.many hp ha, dir.dir, hdir⟩
            | succ links =>
              have hnext : Locks k (withReldir E (some dir.dir)) (unlockReldir k₁ reldir) := hdir
              rcases ih _ (Nat.lt_succ_self _) hnext h with ⟨hs, hl⟩ | ⟨hs, hl⟩
              · exact Or.inl ⟨.next hp ha hv hs, hl⟩
              · refine Or.inr ⟨fun hstuck => ?_, hl⟩
                cases hstuck with
                | text hf hl hbad =>
                  rw [hp] at hf
                  cases hf
                  rw [ha] at hl
                  cases hl
                  rw [hv] at hbad
                  cases hbad
                | next hf hl _ hrest =>
                  rw [hp] at hf
                  cases hf
                  rw [ha] at hl
                  cases hl
                  exact hs hrest

theorem fopAgain_quiet (hq : Quiet x) : ∀ {links : Nat} {k : Kernel} {n : Nat}
    {path : List Char} {reldir : Option Nat} {r},
    fopAgain x fuel act links k n path reldir = some r → ∀ last, r.2.2 ≠ .err E_CHNG last := by
  intro links
  induction links using Nat.strong_induction_on with
  | _ links ih =>
    intro k n path reldir r h
    rw [fopAgain] at h
    split at h
    · cases h
    · next k₁ n₁ r₁ hp =>
      simp only at h
      split at h
      · next e =>
        cases h
        intro last he
        have hne := pathToDD_quiet hq hp
        rw [(FopEnd.err.inj he).1] at hne
        exact hne rfl
      · split at h
        · cases h
          intro last he
          cases he
        · next e ha =>
          cases h
          intro last he
          exact (hq.fopen _ _ ha).1 (FopEnd.err.inj he).1
        · split at h
          · exact ih _ (Nat.lt_succ_self _) h
          · cases h
            intro last he
            exact absurd (FopEnd.err.inj he).1 (by decide)

theorem fopTagain_locks (hq : Quiet x) {tries : Nat} {path : List Char} {r}
    (h : fopTagain x fuel act tries k n path = some r) :
    (Stuck x fuel act 7 k n path none ∧ ∃ d, Locks k (more (fun _ => 0) d) r.1) ∨
      (¬ Stuck x fuel act 7 k n path none ∧ Locks k (fun _ => 0) r.1) := by
  have hstart : Locks k (withReldir (fun _ => 0) none) k := Locks.refl k
  cases tries with
  | zero =>
    rw [fopTagain] at h
    cases h
  | succ tries =>
    rw [fopTagain] at h
    split at h
    · next k₁ n₁ e last he =>
      have hne : e ≠ E_CHNG := fun hc => fopAgain_quiet hq he last (by rw [hc])
      rw [if_neg hne] at h
      cases h
      exact fopAgain_locks hq hstart he
    · exact fopAgain_locks hq hstart h

theorem newHdl_dd {i : Fin HANDLES} (h : newHdl k act = some (k', i)) : k'.dd = k.dd := by
  unfold newHdl newHdlFrom at h
  split at h
  · cases h
  · split at h
    · cases h
      rfl
    · cases h
      rfl

theorem fopen_balanced (hq : Quiet x) {path : List Char} {r}
    (h : fopen x fuel act k n path = some r) :
    Balanced k r.1 ↔ ¬ LosesLink x fuel act k n path := by
  unfold fopen at h
  split at h
  · next hnew =>
    cases h
    refine ⟨fun _ hlost => ?_, fun _ _ => rfl⟩
    rcases hlost with ⟨k', i, hi, _⟩
    rw [hnew] at hi
    cases hi
  · next k₁ i hnew =>
    -- The state the first search starts in has the directories of the call's.
    have hkeep : (setEntry k₁ (act, i) (some (k₁.devFds 0))).dd = k₁.dd := rfl
    have hdd := hkeep.trans (newHdl_dd hnew)
    have hiff : ∀ {s : Kernel × Nat × FopEnd},
        fopTagain x fuel act fuel (setEntry k₁ (act, i) (some (k₁.devFds 0))) n path = some s →
        (Balanced k s.1 ↔ ¬ LosesLink x fuel act k n path) := by
      intro s hs
      have hsame : Balanced k s.1 ↔ Balanced (setEntry k₁ (act, i) (some (k₁.devFds 0))) s.1 := by
        unfold Balanced
        rw [hdd]
      rw [hsame]
      rcases fopTagain_locks hq hs with ⟨hstuck, d, hl⟩ | ⟨hstuck, hl⟩
      · exact ⟨fun hb => absurd hb hl.not_balanced, fun hno => absurd ⟨k₁, i, hnew, hstuck⟩ hno⟩
      · refine ⟨fun _ hlost => ?_, fun _ => hl.balanced⟩
        rcases hlost with ⟨k', j, hj, hs'⟩
        rw [hnew] at hj
        cases hj
        exact hstuck hs'
    split at h
    · cases h
    · next k₂ n₂ f hf =>
      cases h
      exact hiff hf
    · next k₂ n₂ e last hf =>
      cases h
      exact hiff hf

theorem dropOld_refcnt (drv : Fin NUM_DRIVES) (e : Nat) :
    ((dropOld act k drv).dd e).refcnt = (k.dd e).refcnt - refs (pathOf k act drv) e := by
  unfold dropOld pathOf
  simp only
  split
  · exact (Int.sub_zero _).symm
  · unfold dropPath
    cases hp : k.pathx (drvxOf k act drv).toNat with
    | none => exact (Int.sub_zero _).symm
    | some d => exact unlockDd_refcnt d e

theorem dropOld_procx (drv : Fin NUM_DRIVES) : (dropOld act k drv).procx = k.procx := by
  unfold dropOld
  simp only
  split
  · rfl
  · exact (still_unlockReldir _).procx

theorem isdefault_pos {o : Option Nat} {h : Nat} (hd : isdefault k o = some h) : 0 < h := by
  have hin := List.mem_of_find?_eq_some hd
  unfold pathHandles at hin
  rw [List.mem_range'_1] at hin
  omega

theorem changeDefdrv_dd (given : Nat) (drv : Fin NUM_DRIVES) :
    (changeDefdrv act k given drv).dd = k.dd := by
  unfold changeDefdrv
  split <;> rfl

theorem changeDefdrv_pathx (given : Nat) (drv : Fin NUM_DRIVES) :
    (changeDefdrv act k given drv).pathx = k.pathx := by
  unfold changeDefdrv
  split <;> rfl

theorem changeDefdrv_drvx (given : Nat) (drv : Fin NUM_DRIVES) :
    drvxOf (changeDefdrv act k given drv) = drvxOf k := by
  unfold changeDefdrv
  split
  · rfl
  · refine drvxOf_onPd act fun pd => ?_
    split <;> rfl

theorem changeDefdrv_procx {pd : Pd} (hp : k.procx p = some pd) (given : Nat)
    (drv : Fin NUM_DRIVES) : ∃ pd', (changeDefdrv act k given drv).procx p = some pd' := by
  unfold changeDefdrv
  split
  · exact ⟨pd, hp⟩
  · exact onPd_procx hp _ _

theorem pathOf_setDrvx {pd : Pd} (hp : k.procx p = some pd) (drv : Fin NUM_DRIVES) (h : Int) :
    pathOf (setDrvx k p drv h) p drv = if h ≤ 0 then none else k.pathx h.toNat := by
  have hnew : drvxOf (setDrvx k p drv h) p drv = h := by
    rw [drvxOf_setDrvx hp, if_pos ⟨rfl, rfl⟩]
  unfold pathOf
  rw [hnew]
  rfl

/-- The directory that was found, which is locked, becomes the default path: its
lock is the reference of the new path, and the old path has one less. -/
theorem setPath_moves {pd : Pd} (hp : k.procx act = some pd) {given : Nat}
    (hs : Storable k given d) :
    (setPath act k given d).2 = 0 ∧ ∃ drv : Fin NUM_DRIVES,
      (∀ e, ((setPath act k given d).1.dd e).refcnt + refs (pathOf k act drv) e + refs (some d) e
        = (k.dd e).refcnt + refs (pathOf (setPath act k given d).1 act drv) e) ∧
      ∀ e, e ≠ drv → drvxOf (setPath act k given d).1 act e = drvxOf k act e := by
  unfold setPath
  simp only
  generalize setDrive k given d = drv
  by_cases hroot : isRoot k given d = true
  · -- The root is no path handle, so that its lock is given back.
    rw [if_pos hroot]
    have hpd : (dropOld act (unlockDd k d) drv).procx act = some pd := by
      rw [dropOld_procx, still_unlockDd.procx, hp]
    refine ⟨rfl, drv, fun e => ?_, fun e he => ?_⟩
    · have hdd : ((setDrvx (dropOld act (unlockDd k d) drv) act drv 0).dd e).refcnt
          = ((dropOld act (unlockDd k d) drv).dd e).refcnt := rfl
      have hsame : pathOf (unlockDd k d) act drv = pathOf k act drv := by
        unfold pathOf drvxOf
        rw [still_unlockDd.procx, still_unlockDd.pathx]
      have hnone : refs none e = 0 := rfl
      rw [hdd, dropOld_refcnt, unlockDd_refcnt, hsame, pathOf_setDrvx hpd, if_pos (Int.le_refl 0),
        hnone]
      omega
    · rw [drvxOf_setDrvx hpd, if_neg fun h => he h.2]
      unfold drvxOf
      rw [dropOld_procx, still_unlockDd.procx]
  · rw [if_neg hroot]
    have hfound : ∃ h, ((isdefault k (some d)).orElse fun _ => isdefault k none) = some h
        ∧ 0 < h := by
      cases hdef : isdefault k (some d) with
      | some h => exact ⟨h, rfl, isdefault_pos hdef⟩
      | none =>
        cases hfree : isdefault k none with
        | some h => exact ⟨h, rfl, isdefault_pos hfree⟩
        | none =>
          rcases hs with hs | hs | hs
          · exact absurd hs hroot
          · rw [hdef] at hs
            cases hs
          · rw [hfree] at hs
            cases hs
    rcases hfound with ⟨h, hh, hpos⟩
    rw [hh]
    simp only
    have hpd : (storePath (dropOld act k drv) h d).procx act = some pd := by
      have hkeep : (storePath (dropOld act k drv) h d).procx = (dropOld act k drv).procx := rfl
      rw [hkeep, dropOld_procx, hp]
    have hex : ∃ pd', (changeDefdrv act (storePath (dropOld act k drv) h d) given drv).procx act
        = some pd' := changeDefdrv_procx hpd given drv
    rcases hex with ⟨pd', hpd'⟩
    refine ⟨trivial, drv, fun e => ?_, fun e he => ?_⟩
    · have hdd : ((setDrvx (changeDefdrv act (storePath (dropOld act k drv) h d) given drv) act drv
            h).dd e).refcnt
          = ((changeDefdrv act (storePath (dropOld act k drv) h d) given drv).dd e).refcnt := rfl
      have hstore : (storePath (dropOld act k drv) h d).dd = (dropOld act k drv).dd := rfl
      have hpath : (storePath (dropOld act k drv) h d).pathx h = some d :=
        Function.update_self h _ _
      have hcast : ((h : Int)).toNat = h := rfl
      rw [hdd, changeDefdrv_dd, hstore, dropOld_refcnt, pathOf_setDrvx hpd', if_neg (by omega),
        changeDefdrv_pathx, hcast, hpath]
      omega
    · rw [drvxOf_setDrvx hpd', if_neg fun h => he h.2, changeDefdrv_drvx]
      have hkeep : drvxOf (storePath (dropOld act k drv) h d) = drvxOf (dropOld act k drv) := rfl
      rw [hkeep]
      unfold drvxOf
      rw [dropOld_procx]

theorem setPath_full {given : Nat} (hs : ¬ Storable k given d) :
    setPath act k given d = (k, ENSMEM) := by
  unfold setPath
  simp only
  have hroot : isRoot k given d ≠ true := fun h => hs (Or.inl h)
  have hdef : isdefault k (some d) = none := by
    cases hd : isdefault k (some d) with
    | none => rfl
    | some h => exact absurd (Or.inr (Or.inl (by rw [hd]; rfl))) hs
  have hfree : isdefault k none = none := by
    cases hd : isdefault k none with
    | none => rfl
    | some h => exact absurd (Or.inr (Or.inr (by rw [hd]; rfl))) hs
  rw [if_neg hroot, hdef, hfree]
  rfl

theorem dsetpath_moves (hq : Quiet x) {pd : Pd} (hp : k.procx act = some pd) {tries : Nat}
    {path : List Char} {r} (h : dsetpath x fuel act tries k n path = some r) :
    PathSet act k r ↔ ¬ Unstored x fuel act k n path := by
  cases tries with
  | zero =>
    rw [dsetpath] at h
    cases h
  | succ tries =>
    rw [dsetpath] at h
    split at h
    · cases h
    · next k₁ n₁ e hsearch =>
      have hne : e ≠ E_CHNG := fun hc => pathToDD_quiet hq hsearch (by rw [hc])
      have hlocks : Locks k (fun _ => 0) k₁ := pathToDD_locks (Locks.refl k) hsearch
      have hstill : Still k k₁ := pathToDD_still hsearch
      have hdrvx : drvxOf k₁ = drvxOf k := by
        unfold drvxOf
        rw [hstill.procx]
      rw [if_neg hne] at h
      cases h
      refine ⟨fun _ hun => ?_, fun _ => ?_⟩
      · rcases hun with ⟨k', n', f, hf, _⟩
        rw [hsearch] at hf
        cases hf
      · unfold PathSet
        simp only
        split
        · refine ⟨0, fun d => ?_, fun e _ => by rw [hdrvx]⟩
          have hpath : pathOf k₁ act 0 = pathOf k act 0 := by
            unfold pathOf
            rw [hdrvx, hstill.pathx]
          rw [hpath, hlocks.balanced d]
        · exact hlocks.balanced
    · next k₁ n₁ f hsearch =>
      have hlocks : Locks k (more (fun _ => 0) f.dir) k₁ :=
        pathToDD_locks (Locks.refl k) hsearch
      have hstill : Still k k₁ := pathToDD_still hsearch
      have hdrvx : drvxOf k₁ = drvxOf k := by
        unfold drvxOf
        rw [hstill.procx]
      simp only at h
      cases h
      by_cases hs : Storable k₁ f.drive f.dir
      · have hp₁ : k₁.procx act = some pd := by rw [hstill.procx, hp]
        rcases setPath_moves hp₁ hs with ⟨hok, drv, hmoved, hother⟩
        refine ⟨fun _ hun => ?_, fun _ => ?_⟩
        · rcases hun with ⟨k', n', g, hg, hno⟩
          rw [hsearch] at hg
          cases hg
          exact hno hs
        · unfold PathSet
          rw [if_pos hok]
          refine ⟨drv, fun d => ?_, fun e he => ?_⟩
          · have hd := hmoved d
            have hpath : pathOf k₁ act drv = pathOf k act drv := by
              unfold pathOf
              rw [hdrvx, hstill.pathx]
            have hlock : (k₁.dd d).refcnt = (k.dd d).refcnt + refs (some f.dir) d := by
              rw [hlocks.refcnt d, more_eq]
              omega
            rw [hpath, hlock] at hd
            dsimp only
            omega
          · rw [hother e he, hdrvx]
      · have hfull : setPath act k₁ f.drive f.dir = (k₁, ENSMEM) := setPath_full hs
        have hmem : ENSMEM ≠ 0 := by decide
        refine ⟨fun hset => ?_, fun hno => absurd ⟨k₁, n₁, f, hsearch, hs⟩ hno⟩
        unfold PathSet at hset
        rw [hfull, if_neg hmem] at hset
        exact absurd hset hlocks.not_balanced

/-- As long as no disk is changed a search locks the directory it finds and
nothing else, and calls on files and directories, renaming and linking give back
every lock. Opening a file does so exactly when it comes to no link that it does
not follow, and setting a default path exactly when there is a path handle for
the directory. -/
theorem locks_balanced (hq : Quiet x) {pd : Pd} (hp : k.procx act = some pd) :
    (∀ depth n path reldir r, pathToDD x fuel act depth k n path reldir = some r →
      ∀ d, (r.1.dd d).refcnt = (k.dd d).refcnt + found (fun _ => 0) r.2.2 d) ∧
    (∀ sfirst n path r, fxfunct x fuel act sfirst k n path = some r → Balanced k r.1) ∧
    (∀ tries n alt neu r, frename x fuel act tries k n alt neu = some r → Balanced k r.1) ∧
    (∀ tries n path r, dxfunc x fuel act tries k n path = some r → Balanced k r.1) ∧
    (∀ n path r, fopen x fuel act k n path = some r →
      (Balanced k r.1 ↔ ¬ LosesLink x fuel act k n path)) ∧
    (∀ tries n path r, dsetpath x fuel act tries k n path = some r →
      (PathSet act k r ↔ ¬ Unstored x fuel act k n path)) := by
  refine ⟨?_, ?_, ?_, ?_, ?_, ?_⟩
  · intro depth n path reldir r h
    exact (pathToDD_locks (Locks.refl k) h).refcnt
  · intro sfirst n path r h
    exact (fxfunct_locks hq sfirst _ _ _ _ _ (Locks.refl k) h).balanced
  · intro tries n alt neu r h
    exact (frename_locks (Locks.refl k) h).balanced
  · intro tries n path r h
    exact (dxfunc_locks hq _ _ _ _ _ (Locks.refl k) h).balanced
  · intro n path r h
    exact fopen_balanced hq h
  · intro tries n path r h
    exact dsetpath_moves hq hp h

/-- The search for a directory that meets finitely many links and parents comes to its end. Then
    the directory that was found is locked, and no other. -/
theorem pathToDD_finds {L : Nat} (hL : ∀ m, L ≤ m → Ends (x.path2DD m)) (hfuel : L ≤ fuel)
    (depth n : Nat) (path : List Char) (reldir : Option Nat) :
    ∃ r, pathToDD x (fuel + 1) act depth k n path reldir = some r ∧
      ∀ d, (r.1.dd d).refcnt = (k.dd d).refcnt + found (fun _ => 0) r.2.2 d := by
  rcases pathToDD_returns hL hfuel with ⟨r, hr, -⟩
  exact ⟨r, hr, (pathToDD_locks (Locks.refl k) hr).refcnt⟩

end

/-- A file system with one directory, where every file is a link without a
text. -/
def emptyLink : Xfs where
  path2DD := fun _ => .dd (some 67) 2 ['X']
  drvOpen := fun _ => .ok (2, 1, 102)
  fopen := fun _ => .link 0 []
  call := fun _ => .val 0

theorem emptyLink_quiet : Quiet emptyLink where
  path2DD := fun n e h => by cases h
  drvOpen := fun n e h => by cases h
  fopen := fun n e h => by cases h
  call := fun n v h => by
    cases h
    decide

/-- Two processes that use all the path handles: the first one has a default path
on every drive, the second one on the first seven. -/
def allPaths : Kernel :=
  { oneFile 10 with
    procx := fun p => if 1 < (p : Nat) then none else some
      { mint := false, defdrv := 2, parent := none, app := none, prg := false, fork := false,
        drvx := fun d => if p = 0 then (d : Int) + 1 else if (d : Nat) < 7 then (d : Int) + 33
          else 0,
        handle := fun _ => Fh.empty }
    dd := fun d => ⟨(d - 1) % 32, if 1 ≤ d ∧ d < 40 then 1 else 0, false⟩
    dmd := fun m => ⟨1, Fin.ofNat 32 m, 100 + m⟩
    dmdx := fun d => some d
    pathx := fun h => some h
    pathcntx := fun _ => 1 }

/-- The same with a link on the way to the directory. -/
def oneLink : Xfs :=
  { emptyLink with
    path2DD := fun
      | 1 => .link 67 2 ['X'] ['X']
      | _ => .dd (some 67) 2 ['X'] }

theorem oneLink_quiet : Quiet oneLink where
  path2DD := fun n e h => by
    change (match n with
      | 1 => Path2DD.link 67 2 ['X'] ['X']
      | _ => .dd (some 67) 2 ['X']) = _ at h
    split at h
    · cases h
    · cases h
  drvOpen := emptyLink_quiet.drvOpen
  fopen := emptyLink_quiet.fopen
  call := emptyLink_quiet.call

/-- The link is followed with a second search. -/
theorem locks_balanced_allPaths :
    ∃ r, dxfunc oneLink 2 0 1 allPaths 0 ['C', ':', '\\', 'X'] = some r ∧
      Balanced allPaths r.1 := by
  have hrun : ∃ r, dxfunc oneLink 2 0 1 allPaths 0 ['C', ':', '\\', 'X'] = some r := ⟨_, rfl⟩
  rcases hrun with ⟨r, hr⟩
  have hp : (allPaths.procx 0).isSome := rfl
  rcases Option.isSome_iff_exists.mp hp with ⟨pd, hpd⟩
  exact ⟨r, hr, (locks_balanced oneLink_quiet hpd).2.2.2.1 1 0 _ r hr⟩

/-- A link that is not followed, and a directory without a path handle, stay
locked. -/
theorem allPaths_unbalanced : Quiet emptyLink ∧
    (∃ r, fopen emptyLink 1 0 allPaths 0 ['C', ':', '\\', 'X'] = some r ∧ r.2 = ELOOP ∧
      ¬ Balanced allPaths r.1) ∧
    ∃ r, dsetpath emptyLink 1 0 1 allPaths 0 ['C', ':', '\\', 'X'] = some r ∧
      r.2.2 = ENSMEM ∧ ¬ Balanced allPaths r.1 := by
  refine ⟨emptyLink_quiet, ⟨_, rfl, rfl, fun h => ?_⟩, ⟨_, rfl, ?_, fun h => ?_⟩⟩
  · exact absurd (h 67) (by decide)
  · decide
  · exact absurd (h 67) (by decide)

/-- A link is met before the directory. -/
theorem pathToDD_finds_link :
    ∃ r, pathToDD oneLink 3 0 5 allPaths 0 ['C', ':', '\\', 'X'] none = some r ∧ r.2.1 = 5 ∧
      ∀ d, (r.1.dd d).refcnt = (allPaths.dd d).refcnt + found (fun _ => 0) r.2.2 d := by
  have hends : ∀ m, 2 ≤ m → Ends (oneLink.path2DD m)
    | _ + 2, _ => trivial
  have hcalls : (pathToDD oneLink 3 0 5 allPaths 0 ['C', ':', '\\', 'X'] none).map
      (fun r => r.2.1) = some 5 := rfl
  have hfinds : ∃ r, pathToDD oneLink 3 0 5 allPaths 0 ['C', ':', '\\', 'X'] none = some r ∧
      ∀ d, (r.1.dd d).refcnt = (allPaths.dd d).refcnt + found (fun _ => 0) r.2.2 d :=
    pathToDD_finds hends (Nat.le_refl 2) 5 0 _ none
  rcases hfinds with ⟨r, hr, hfound⟩
  rw [hr] at hcalls
  exact ⟨r, hr, Option.some.inj hcalls, hfound⟩

end Dos

end MagiC
