import MagiC.Dos.Call

/-!
# What the Search for a Directory Leaves Alone

The walk along a path counts directories, and mounts the drives it comes to. The
processes, the files and the default paths stay as they are.

## Main definitions

* `Still`: Two states that differ in the directories and drives only.

## Theorems

* `fopTagain_still`: Opening a file leaves everything alone but the descriptor
  it comes back with.
-/

namespace MagiC

namespace Dos

/-- Two states that differ in the directories and drives only. -/
structure Still (k k' : Kernel) : Prop where
  procx : k'.procx = k.procx
  fd : k'.fd = k.fd
  pathx : k'.pathx = k.pathx
  pathcntx : k'.pathcntx = k.pathcntx
  dlockx : k'.dlockx = k.dlockx
  devFds : k'.devFds = k.devFds
  actAppl : k'.actAppl = k.actAppl
  appls : k'.appls = k.appls
  apPd : k'.apPd = k.apPd
  closes : k'.closes = k.closes

section

variable {x : Xfs} {k k' k'' : Kernel} {p act : Slot} {n n' d fuel depth drive : Nat}

theorem Still.refl (k : Kernel) : Still k k := ⟨rfl, rfl, rfl, rfl, rfl, rfl, rfl, rfl, rfl, rfl⟩

theorem Still.trans (h : Still k k') (h' : Still k' k'') : Still k k'' where
  procx := h'.procx.trans h.procx
  fd := h'.fd.trans h.fd
  pathx := h'.pathx.trans h.pathx
  pathcntx := h'.pathcntx.trans h.pathcntx
  dlockx := h'.dlockx.trans h.dlockx
  devFds := h'.devFds.trans h.devFds
  actAppl := h'.actAppl.trans h.actAppl
  appls := h'.appls.trans h.appls
  apPd := h'.apPd.trans h.apPd
  closes := h'.closes.trans h.closes

theorem Still.entry (h : Still k k') : entry k' = entry k := by
  funext c
  unfold Dos.entry
  rw [h.procx]

theorem still_onDd (g : Dd → Dd) : Still k (onDd k d g) :=
  ⟨rfl, rfl, rfl, rfl, rfl, rfl, rfl, rfl, rfl, rfl⟩

theorem still_lockDd : Still k (lockDd k d) := still_onDd _

theorem still_unlockDd : Still k (unlockDd k d) := by
  unfold unlockDd
  simp only
  split
  · exact (still_onDd _).trans (still_onDd _)
  · exact still_onDd _

theorem still_unlockIf (b : Bool) : Still k (unlockIf k b d) := by
  unfold unlockIf
  split
  · exact still_unlockDd
  · exact Still.refl k

theorem still_answered (a : Path2DD) : Still k (answered k a) := by
  unfold answered
  split
  · exact still_onDd _
  · exact still_onDd _
  · exact Still.refl k

theorem still_unlockReldir (q : Option Nat) : Still k (unlockReldir k q) := by
  cases q with
  | none => exact Still.refl k
  | some d => exact still_unlockDd

theorem still_condUnlockDd (e : Int) : Still k (condUnlockDd k e d) := by
  unfold condUnlockDd
  split
  · exact Still.refl k
  · exact still_unlockDd

theorem chkdrv_still : Still k (chkdrv x k n drive).1 := by
  unfold chkdrv
  split
  · simp only
    split
    · exact Still.refl k
    · split
      · exact Still.refl k
      · exact Still.refl k
      · exact ⟨rfl, rfl, rfl, rfl, rfl, rfl, rfl, rfl, rfl, rfl⟩
      · exact Still.refl k
  · exact Still.refl k

theorem startDrive_still (rest : List Char) : Still k (startDrive x k p n drive rest).1 := by
  have h : Still k (chkdrv x k n drive).1 := chkdrv_still
  unfold startDrive
  split
  · next k' e he =>
    rw [he] at h
    exact h
  · next k' m he =>
    rw [he] at h
    split
    · exact h
    · simp only
      split
      · exact h
      · split
        · exact h
        · exact h

theorem startDd_still (path : List Char) (reldir : Option Nat) :
    Still k (startDd x k p n path reldir).1 := by
  unfold startDd
  split
  · exact startDrive_still _
  · simp only
    split
    · exact Still.refl k
    · exact Still.refl k
  · exact startDrive_still _

theorem pthddLoop_still
    {follow : Kernel → Nat → List Char → Nat → Option (Kernel × Nat × Except Int Found)}
    (hfollow : ∀ k n text dir k' n' r, follow k n text dir = some (k', n', r) → Still k k')
    {fuel : Nat} : ∀ {k : Kernel} {n dir : Nat} {rest : List Char} {locked : Bool} {r},
    pthddLoop x follow drive fuel k n dir rest locked = some r → Still k r.1 := by
  induction fuel with
  | zero =>
    intro k n dir rest locked r h
    rw [pthddLoop] at h
    cases h
  | succ fuel ih =>
    intro k n dir rest locked r h
    have hstep : Still k (unlockIf (answered k (x.path2DD n)) locked dir) :=
      (still_answered _).trans (still_unlockIf _)
    rw [pthddLoop] at h
    simp only at h
    split at h
    · cases h
      exact hstep
    · cases h
      exact hstep
    · cases h
      exact hstep
    · split at h
      · split at h
        · exact hstep.trans (ih h)
        · cases h
          exact hstep
      · cases h
        exact hstep
    · split at h
      · cases h
      · next k₁ n₁ r₁ hf =>
        have hlink : ∀ e, Still k (unlockDd k₁ e) := fun e =>
          hstep.trans ((hfollow _ _ _ _ _ _ _ hf).trans still_unlockDd)
        split at h
        · cases h
          exact hlink _
        · exact (hlink _).trans (ih h)

/-- The search for a directory leaves everything alone but directories and
drives. -/
theorem pathToDD_still : ∀ {depth : Nat} {k : Kernel} {n : Nat} {path : List Char}
    {reldir : Option Nat} {r}, pathToDD x fuel p depth k n path reldir = some r →
    Still k r.1 := by
  intro depth
  induction depth with
  | zero =>
    intro k n path reldir r h
    rw [pathToDD] at h
    cases h
    exact Still.refl k
  | succ depth ih =>
    intro k n path reldir r h
    have hstart := startDd_still (x := x) (k := k) (p := p) (n := n) path reldir
    rw [pathToDD] at h
    split at h
    · next k' e he =>
      rw [he] at hstart
      cases h
      exact hstart
    · next k' s he =>
      rw [he] at hstart
      refine (hstart.trans still_lockDd).trans (pthddLoop_still ?_ h)
      intro k n text dir k' n' r hr
      exact ih hr

/-- What is known about opening a file: an error leaves everything alone, and a
descriptor comes from a state that was left alone. -/
def Opening (k : Kernel) (r : Kernel × Nat × FopEnd) : Prop :=
  match r.2.2 with
  | .err _ _ => Still k r.1
  | .ok f => ∃ k' new, Still k k' ∧ Still (opened k' f new) r.1

theorem Opening.of_still {r : Kernel × Nat × FopEnd} (h : Still k k') (hr : Opening k' r) :
    Opening k r := by
  unfold Opening at *
  split
  · next e last he =>
    rw [he] at hr
    exact h.trans hr
  · next f hf =>
    rw [hf] at hr
    rcases hr with ⟨j, new, hj, hopened⟩
    exact ⟨j, new, h.trans hj, hopened⟩

theorem fopAgain_still : ∀ {links : Nat} {k : Kernel} {n : Nat} {path : List Char}
    {reldir : Option Nat} {r}, fopAgain x fuel act links k n path reldir = some r →
    Opening k r := by
  intro links
  induction links with
  | zero =>
    intro k n path reldir r h
    rw [fopAgain] at h
    split at h
    · cases h
    · next k₁ n₁ r₁ hp =>
      have hstart := (pathToDD_still hp).trans (still_unlockReldir reldir)
      simp only at h
      split at h
      · cases h
        exact hstart
      · split at h
        · cases h
          exact ⟨_, _, hstart, still_unlockDd⟩
        · cases h
          exact hstart.trans (still_condUnlockDd _)
        · split at h
          · next hlinks =>
            cases hlinks
          · cases h
            exact hstart
  | succ links ih =>
    intro k n path reldir r h
    rw [fopAgain] at h
    split at h
    · cases h
    · next k₁ n₁ r₁ hp =>
      have hstart := (pathToDD_still hp).trans (still_unlockReldir reldir)
      simp only at h
      split at h
      · cases h
        exact hstart
      · split at h
        · cases h
          exact ⟨_, _, hstart, still_unlockDd⟩
        · cases h
          exact hstart.trans (still_condUnlockDd _)
        · split at h
          · next hlinks =>
            cases hlinks
            exact (ih h).of_still hstart
          · cases h
            exact hstart

theorem fopTagain_still : ∀ {tries : Nat} {k : Kernel} {n : Nat} {path : List Char} {r},
    fopTagain x fuel act tries k n path = some r → Opening k r := by
  intro tries
  induction tries with
  | zero =>
    intro k n path r h
    rw [fopTagain] at h
    cases h
  | succ tries ih =>
    intro k n path r h
    rw [fopTagain] at h
    split at h
    · next k₁ n₁ e last he =>
      have hopen : Still k k₁ := fopAgain_still he
      split at h
      · exact (ih h).of_still hopen
      · cases h
        exact hopen
    · exact fopAgain_still h

end

end Dos

end MagiC
