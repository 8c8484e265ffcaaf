import MagiC.Dos.Frame

/-!
# The Locks of a Search

What the calls with a path do to the counters of the directories.

`Locks k E k'` says that since the state `k` every directory has been counted as
often as `E` says and not given back since. Every step of the source is one lock
more or less, and the end of a search is that of the directory it found, or none.

## Main definitions

* `found`: The lock on a directory that was found.

## Theorems

* `Locks.lock`, `Locks.grant`, `Locks.unlock`: A lock more, and less.
-/

namespace MagiC

namespace Dos

/-- A lock more on a directory. -/
def more (E : Nat → Nat) (d : Nat) : Nat → Nat := Function.update E d (E d + 1)

/-- How often a directory is the given one. -/
def refs (dir : Option Nat) (d : Nat) : Int := if dir = some d then 1 else 0

/-- The locks that are held since a state. A directory that was in use then has
not been given back, and is on the same drive. -/
structure Locks (k : Kernel) (E : Nat → Nat) (k' : Kernel) : Prop where
  refcnt : ∀ d, (k'.dd d).refcnt = (k.dd d).refcnt + E d
  freed : ∀ d, 0 < (k.dd d).refcnt → (k'.dd d).freed = true → (k.dd d).freed = true
  dmd : ∀ d, 0 < (k.dd d).refcnt → (k'.dd d).dmd = (k.dd d).dmd

/-- The lock on a directory that was found. -/
def found (E : Nat → Nat) (r : Except Int Found) : Nat → Nat :=
  match r with
  | .ok f => more E f.dir
  | .error _ => E

section

variable {x : Xfs} {k k' j : Kernel} {p act : Slot} {n d fuel depth drive : Nat} {E : Nat → Nat}

theorem more_self : more E d d = E d + 1 := Function.update_self d _ _

theorem more_other {e : Nat} (h : e ≠ d) : more E d e = E e := Function.update_of_ne h _ _

theorem more_eq (e : Nat) : (more E d e : Int) = E e + refs (some d) e := by
  unfold refs
  by_cases he : d = e
  · rw [← he, more_self, if_pos rfl]
    rfl
  · rw [more_other (Ne.symm he), if_neg fun h => he (Option.some.inj h), Int.add_zero]

theorem more_comm (a b : Nat) : more (more E a) b = more (more E b) a := by
  funext e
  by_cases hab : a = b
  · rw [hab]
  · by_cases ha : e = a
    · rw [ha, more_other hab, more_self, more_self, more_other hab]
    · by_cases hb : e = b
      · rw [hb, more_self, more_other (Ne.symm hab), more_other (Ne.symm hab), more_self]
      · rw [more_other hb, more_other ha, more_other ha, more_other hb]

theorem Locks.refl (k : Kernel) : Locks k (fun _ => 0) k where
  refcnt := fun _ => (Int.add_zero _).symm
  freed := fun _ _ h => h
  dmd := fun _ _ => rfl

theorem onDd_self (g : Dd → Dd) : (onDd k d g).dd d = g (k.dd d) := Function.update_self d _ _

theorem onDd_other {e : Nat} (h : e ≠ d) (g : Dd → Dd) : (onDd k d g).dd e = k.dd e :=
  Function.update_of_ne h _ _

theorem Locks.more_of (h : Locks k E k') {g : Dd → Dd}
    (href : (g (k'.dd d)).refcnt = (k'.dd d).refcnt + 1)
    (hfreed : (g (k'.dd d)).freed = true → (k'.dd d).freed = true)
    (hdmd : 0 < (k'.dd d).refcnt → (g (k'.dd d)).dmd = (k'.dd d).dmd) :
    Locks k (more E d) (onDd k' d g) where
  refcnt := by
    intro e
    by_cases he : e = d
    · rw [he, onDd_self, more_self, href, h.refcnt d]
      omega
    · rw [onDd_other he, more_other he, h.refcnt e]
  freed := by
    intro e hpos hfree
    by_cases he : e = d
    · rw [he, onDd_self] at hfree
      rw [he] at hpos ⊢
      exact h.freed d hpos (hfreed hfree)
    · rw [onDd_other he] at hfree
      exact h.freed e hpos hfree
  dmd := by
    intro e hpos
    by_cases he : e = d
    · rw [he] at hpos ⊢
      have hin := h.refcnt d
      rw [onDd_self, hdmd (by omega), h.dmd d hpos]
    · rw [onDd_other he, h.dmd e hpos]

theorem Locks.lock (h : Locks k E k') (d : Nat) : Locks k (more E d) (lockDd k' d) :=
  h.more_of rfl (fun hf => hf) fun _ => rfl

theorem Locks.grant (h : Locks k E k') (d m : Nat) : Locks k (more E d) (grantDd k' d m) := by
  refine h.more_of rfl (fun hf => ?_) fun hpos => ?_
  · cases hf
  · exact if_neg (by omega)

theorem unlockDd_refcnt (d e : Nat) :
    ((unlockDd k d).dd e).refcnt = (k.dd e).refcnt - refs (some d) e := by
  unfold unlockDd refs
  simp only [Option.some.injEq]
  by_cases he : d = e
  · rw [if_pos he, ← he]
    split
    · unfold freeDd
      rw [onDd_self, onDd_self]
    · rw [onDd_self]
  · rw [if_neg he, Int.sub_zero]
    split
    · unfold freeDd
      rw [onDd_other (Ne.symm he), onDd_other (Ne.symm he)]
    · rw [onDd_other (Ne.symm he)]

theorem unlockDd_freed {e : Nat} (h : ((unlockDd k d).dd e).freed = true) :
    (k.dd e).freed = true ∨ ((unlockDd k d).dd e).refcnt = 0 := by
  unfold unlockDd at h ⊢
  simp only at h ⊢
  split at h
  · next hz =>
    rw [if_pos hz]
    by_cases he : e = d
    · refine Or.inr ?_
      unfold freeDd
      rw [he, onDd_self]
      exact hz
    · unfold freeDd at h
      rw [onDd_other he, onDd_other he] at h
      exact Or.inl h
  · by_cases he : e = d
    · rw [he, onDd_self] at h
      rw [he]
      exact Or.inl h
    · rw [onDd_other he] at h
      exact Or.inl h

theorem unlockDd_dmd (d e : Nat) : ((unlockDd k d).dd e).dmd = (k.dd e).dmd := by
  have hkeep : ∀ (j : Kernel) (g : Dd → Dd), (g (j.dd d)).dmd = (j.dd d).dmd →
      ((onDd j d g).dd e).dmd = (j.dd e).dmd := by
    intro j g hg
    by_cases he : e = d
    · rw [he, onDd_self, hg]
    · rw [onDd_other he]
  unfold unlockDd
  simp only
  split
  · unfold freeDd
    rw [hkeep _ _ rfl, hkeep _ _ rfl]
  · rw [hkeep _ _ rfl]

/-- A lock less. A directory that was in use is still counted, and not given
back. -/
theorem Locks.unlock (h : Locks k (more E d) k') : Locks k E (unlockDd k' d) := by
  have hcount : ∀ e, ((unlockDd k' d).dd e).refcnt = (k.dd e).refcnt + E e := by
    intro e
    rw [unlockDd_refcnt, h.refcnt e, more_eq]
    omega
  refine ⟨hcount, fun e hpos hfree => ?_, fun e hpos => ?_⟩
  · rcases unlockDd_freed hfree with hf | hz
    · exact h.freed e hpos hf
    · rw [hcount e] at hz
      omega
  · rw [unlockDd_dmd]
    exact h.dmd e hpos

theorem Locks.of_dd (h : Locks k E k') (hdd : j.dd = k'.dd) : Locks k E j where
  refcnt := fun d => by rw [hdd]; exact h.refcnt d
  freed := fun d hpos hf => h.freed d hpos (by rw [hdd] at hf; exact hf)
  dmd := fun d hpos => by rw [hdd]; exact h.dmd d hpos

theorem chkdrv_dd : (chkdrv x k n drive).1.dd = k.dd := by
  unfold chkdrv
  split
  · simp only
    split
    · rfl
    · split <;> rfl
  · rfl

theorem startDrive_dd (rest : List Char) : (startDrive x k p n drive rest).1.dd = k.dd := by
  have h : (chkdrv x k n drive).1.dd = k.dd := chkdrv_dd
  unfold startDrive
  split
  · next k' e he =>
    rw [he] at h
    exact h
  · next k' m he =>
    rw [he] at h
    split
    · exact h
    · simp only
      split
      · exact h
      · split
        · exact h
        · exact h

theorem startDd_dd (path : List Char) (reldir : Option Nat) :
    (startDd x k p n path reldir).1.dd = k.dd := by
  unfold startDd
  split
  · exact startDrive_dd _
  · simp only
    split
    · rfl
    · rfl
  · exact startDrive_dd _

/-- The directory an answer names. -/
def granted (a : Path2DD) : Option Nat :=
  match a with
  | .dd d _ _ => d
  | .link d _ _ _ => some d
  | _ => none

theorem answered_locks (h : Locks k E k') (a : Path2DD) :
    Locks k (match granted a with | some d => more E d | none => E) (answered k' a) := by
  unfold answered granted
  cases a with
  | dd d m rest =>
    cases d with
    | none => exact h
    | some d => exact h.grant d m
  | link d m text rest => exact h.grant d m
  | parent rest => exact h
  | err e => exact h

theorem step_locks {locked : Bool} {dir : Nat} (a : Path2DD)
    (h : Locks k (if locked then more E dir else E) k') :
    Locks k (match granted a with | some d => more E d | none => E)
      (unlockIf (answered k' a) locked dir) := by
  have hans := answered_locks h a
  cases locked with
  | false => exact hans
  | true =>
    simp only [if_true] at hans
    unfold unlockIf
    rw [if_pos rfl]
    cases hg : granted a with
    | none =>
      rw [hg] at hans
      exact hans.unlock
    | some d =>
      rw [hg] at hans
      simp only at hans ⊢
      rw [more_comm] at hans
      exact hans.unlock

theorem pthddLoop_spec
    {follow : Kernel → Nat → List Char → Nat → Option (Kernel × Nat × Except Int Found)}
    (hfollow : ∀ E k' n text dir r, Locks k E k' → follow k' n text dir = some r →
      Locks k (found E r.2.2) r.1) :
    ∀ {fuel n dir : Nat} {k' : Kernel} {rest : List Char} (locked : Bool) {r},
      Locks k (if locked then more E dir else E) k' →
      pthddLoop x follow drive fuel k' n dir rest locked = some r →
      Locks k (found E r.2.2) r.1 ∧ ((∀ d, 0 ≤ (k.dd d).refcnt) →
        ∀ f, r.2.2 = .ok f → (r.1.dd f.dir).freed = false) := by
  intro fuel
  induction fuel with
  | zero =>
    intro n dir k' rest locked r _ h
    rw [pthddLoop] at h
    cases h
  | succ fuel ih =>
    intro n dir k' rest locked r hk h
    have hstep := step_locks (x.path2DD n) hk
    rw [pthddLoop] at h
    simp only at h
    split at h
    · next d m rest' ha =>
      rw [ha] at hstep h
      cases h
      refine ⟨hstep, fun hpos f hf => ?_⟩
      cases hf
      have hcount := hstep.refcnt d
      have hgrant : ((answered k' (.dd (some d) m rest')).dd d).freed = false := by
        unfold answered grantDd
        simp only
        rw [onDd_self]
      have hnonneg := hpos d
      unfold granted at hcount
      simp only [more_self] at hcount
      unfold unlockIf at hcount ⊢
      cases locked with
      | false => exact hgrant
      | true =>
        simp only [if_true] at hcount ⊢
        -- It is counted, so that unlocking another one does not give it back.
        cases hfree : ((unlockDd (answered k' (.dd (some d) m rest')) dir).dd d).freed with
        | false => rfl
        | true =>
          rcases unlockDd_freed hfree with hf' | hz
          · rw [hgrant] at hf'
            cases hf'
          · omega
    · next m rest' ha =>
      rw [ha] at hstep h
      cases h
      exact ⟨hstep, fun _ _ hf => by cases hf⟩
    · next e ha =>
      rw [ha] at hstep h
      cases h
      exact ⟨hstep, fun _ _ hf => by cases hf⟩
    · next rest' ha =>
      rw [ha] at hstep h
      split at h
      · split at h
        · exact ih false hstep h
        · cases h
          exact ⟨hstep, fun _ _ hf => by cases hf⟩
      · cases h
        exact ⟨hstep, fun _ _ hf => by cases hf⟩
    · next d m text rest' ha =>
      rw [ha] at hstep h
      split at h
      · cases h
      · next k₁ n₁ r₁ hf =>
        have hlink := hfollow _ _ _ _ _ _ hstep hf
        cases r₁ with
        | error e =>
          cases h
          exact ⟨hlink.unlock, fun _ _ hf => by cases hf⟩
        | ok f =>
          -- The directory of the link is given back, the one it leads to is locked.
          have hswap : Locks k (more (more E f.dir) d) k₁ := by
            rw [more_comm]
            exact hlink
          exact ih true hswap.unlock h

/-- A search leaves the directory it found locked, and no other. -/
theorem pathToDD_locks : ∀ {depth n : Nat} {k' : Kernel} {path : List Char}
    {reldir : Option Nat} {E : Nat → Nat} {r}, Locks k E k' →
    pathToDD x fuel p depth k' n path reldir = some r → Locks k (found E r.2.2) r.1 := by
  intro depth
  induction depth with
  | zero =>
    intro n k' path reldir E r hk h
    rw [pathToDD] at h
    cases h
    exact hk
  | succ depth ih =>
    intro n k' path reldir E r hk h
    have hstart := hk.of_dd (startDd_dd (x := x) (k := k') (p := p) (n := n) path reldir)
    rw [pathToDD] at h
    split at h
    · next k₁ e he =>
      rw [he] at hstart
      cases h
      exact hstart
    · next k₁ s he =>
      rw [he] at hstart
      refine (pthddLoop_spec (E := E) ?_ true (hstart.lock s.dir) h).1
      intro E' k₂ n₂ text dir r₂ hk₂ hr₂
      exact ih hk₂ hr₂

theorem pathToDD_open (hpos : ∀ d, 0 ≤ (k.dd d).refcnt) {k' : Kernel} {path : List Char}
    {reldir : Option Nat} {r} (hk : Locks k E k')
    (h : pathToDD x fuel p depth k' n path reldir = some r) (f : Found) (hf : r.2.2 = .ok f) :
    (r.1.dd f.dir).freed = false := by
  cases depth with
  | zero =>
    rw [pathToDD] at h
    cases h
    cases hf
  | succ depth =>
    have hstart := hk.of_dd (startDd_dd (x := x) (k := k') (p := p) (n := n) path reldir)
    rw [pathToDD] at h
    split at h
    · cases h
      cases hf
    · next k₁ s he =>
      rw [he] at hstart
      refine (pthddLoop_spec (E := E) ?_ true (hstart.lock s.dir) h).2 hpos f hf
      intro E' k₂ n₂ text dir r₂ hk₂ hr₂
      exact pathToDD_locks hk₂ hr₂

/-- An answer that ends a walk. -/
def Ends (a : Path2DD) : Prop :=
  match a with
  | .dd _ _ _ => True
  | .link _ _ _ _ => False
  | .parent _ => False
  | .err _ => True

theorem pthddLoop_returns {L : Nat} (hL : ∀ m, L ≤ m → Ends (x.path2DD m))
    {follow : Kernel → Nat → List Char → Nat → Option (Kernel × Nat × Except Int Found)}
    (hfollow : ∀ k n text dir, ∃ r, follow k n text dir = some r ∧ n ≤ r.2.1) :
    ∀ {fuel n dir : Nat} {k : Kernel} {rest : List Char} {locked : Bool}, L ≤ fuel + n →
      ∃ r, pthddLoop x follow drive (fuel + 1) k n dir rest locked = some r ∧ n ≤ r.2.1 := by
  intro fuel
  induction fuel with
  | zero =>
    intro n dir k rest locked hfuel
    have hend := hL n (by omega)
    rw [pthddLoop]
    simp only
    split
    · exact ⟨_, rfl, Nat.le_succ n⟩
    · exact ⟨_, rfl, Nat.le_succ n⟩
    · exact ⟨_, rfl, Nat.le_succ n⟩
    · next rest' ha =>
      rw [ha] at hend
      exact hend.elim
    · next d m text rest' ha =>
      rw [ha] at hend
      exact hend.elim
  | succ fuel ih =>
    intro n dir k rest locked hfuel
    rw [pthddLoop]
    simp only
    split
    · exact ⟨_, rfl, Nat.le_succ n⟩
    · exact ⟨_, rfl, Nat.le_succ n⟩
    · exact ⟨_, rfl, Nat.le_succ n⟩
    · split
      · split
        · next m _ =>
          have hrest : L ≤ fuel + (n + 1) := by omega
          rcases ih hrest with ⟨r, hr, hle⟩
          exact ⟨r, hr, Nat.le_of_succ_le hle⟩
        · exact ⟨_, rfl, Nat.le_succ n⟩
      · exact ⟨_, rfl, Nat.le_succ n⟩
    · next d m text rest' ha =>
      rcases hfollow (unlockIf (answered k (x.path2DD n)) locked dir) (n + 1) text d with
        ⟨⟨k₁, n₁, r₁⟩, hf, hle⟩
      rw [hf]
      simp only at hle ⊢
      cases r₁ with
      | error e => exact ⟨_, rfl, Nat.le_of_succ_le hle⟩
      | ok f =>
        have hrest : L ≤ fuel + n₁ := by omega
        rcases ih hrest with ⟨r, hr, hle'⟩
        exact ⟨r, hr, by omega⟩

/-- A search that meets finitely many links and parents comes to its end. -/
theorem pathToDD_returns {L : Nat} (hL : ∀ m, L ≤ m → Ends (x.path2DD m)) (hfuel : L ≤ fuel) :
    ∀ {depth n : Nat} {k : Kernel} {path : List Char} {reldir : Option Nat},
      ∃ r, pathToDD x (fuel + 1) p depth k n path reldir = some r ∧ n ≤ r.2.1 := by
  intro depth
  induction depth with
  | zero =>
    intro n k path reldir
    exact ⟨_, rfl, Nat.le_refl n⟩
  | succ depth ih =>
    intro n k path reldir
    rw [pathToDD]
    split
    · exact ⟨_, rfl, Nat.le_succ n⟩
    · next k₁ s hs =>
      have hrest : L ≤ fuel + (n + 1) := by omega
      rcases pthddLoop_returns hL (fun k n text dir => ih) hrest with ⟨r, hr, hle⟩
      exact ⟨r, hr, Nat.le_of_succ_le hle⟩

end

end Dos

end MagiC
