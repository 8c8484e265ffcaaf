import MagiC.Lib.Runs
import MagiC.Xfs.Close
import Mathlib.Tactic.IntervalCases

/-!
# Sharing Modes

Who opens a file says what he wants to do with it, and what nobody else may do
meanwhile. `reopen_FD` tests every descriptor that is open: what is wanted must
not be denied there. What the new descriptor denies is not tested, so it is
possible to deny others what they are doing already.

`Meets` is what a request has to satisfy in addition. Then no two descriptors of
a file ever exclude each other, in any sequence of opening and closing, and a
request that would change that is refused.

## Main definitions

* `Excluded`: No descriptor has a permission that another one of its file denies.

## Theorems

* `sharing_excludes`: Descriptors of a file do not exclude each other.
-/

namespace MagiC

namespace Xfs

open Runs

def BOM_RPERM : Nat := 0

def BOM_WPERM : Nat := 1

def BOM_RDENY : Nat := 4

def BOM_WDENY : Nat := 5

def BOM_NOCHECK : Nat := 6

/-- A mode denies a permission that another one has. -/
def Denies (a b : BitVec 16) : Prop :=
  (a.getLsbD BOM_RDENY = true ∧ b.getLsbD BOM_RPERM = true) ∨
    (a.getLsbD BOM_WDENY = true ∧ b.getLsbD BOM_WPERM = true)

theorem masked_bit (m d : BitVec 16) (i : Nat) (hi : i < 8) :
    ((m.setWidth 8).rotateRight 4 &&& d.setWidth 8 &&& 3#8).getLsbD i =
      (i < 2 && m.getLsbD (i + 4) && d.getLsbD i) := by
  interval_cases i <;> simp

/-- The test compares the deny bits of one mode with the permission bits of the other. -/
theorem refuses_iff (m d : BitVec 16) :
    refuses m d = true ↔ m.getLsbD BOM_NOCHECK = false ∧ Denies m d := by
  have hzero : (m.setWidth 8).rotateRight 4 &&& d.setWidth 8 &&& 3#8 = 0#8 ↔ ¬ Denies m d := by
    constructor
    · intro h0 hd
      have hbit : ∀ i < 8, (i < 2 && m.getLsbD (i + 4) && d.getLsbD i) = false := by
        intro i hi
        rw [← masked_bit m d i hi, h0, BitVec.getLsbD_zero]
      rcases hd with ⟨hm, hd⟩ | ⟨hm, hd⟩
      · have h1 := hbit 0 (by omega)
        simp only [BOM_RDENY, BOM_RPERM] at hm hd
        simp only [Nat.zero_add, hm, hd] at h1
        exact absurd h1 (by decide)
      · have h1 := hbit 1 (by omega)
        simp only [BOM_WDENY, BOM_WPERM] at hm hd
        simp only [hm, hd] at h1
        exact absurd h1 (by decide)
    · intro hd
      refine BitVec.eq_of_getLsbD_eq fun i hi => ?_
      rw [masked_bit m d i hi, BitVec.getLsbD_zero]
      by_contra hbit
      simp only [Bool.not_eq_false, Bool.and_eq_true, decide_eq_true_eq] at hbit
      -- Only the two lowest bits are left.
      rcases Nat.lt_succ_iff_lt_or_eq.mp hbit.1.1 with h0 | h1
      · rw [Nat.lt_one_iff.mp h0] at hbit
        exact hd (.inl ⟨hbit.1.2, hbit.2⟩)
      · rw [h1] at hbit
        exact hd (.inr ⟨hbit.1.2, hbit.2⟩)
  have hbits : ((m.setWidth 8).rotateRight 4 &&& d.setWidth 8 &&& 3#8 != 0#8) = true ↔
      Denies m d := by
    rw [bne_iff_ne, ne_eq, hzero, not_not]
  simp only [refuses, Bool.and_eq_true, hbits, Bool.not_eq_true', BOM_NOCHECK]

def IsOpen (h : State) (p b : Nat) : Prop :=
  h.IsFd b ∧ (h.fd b).multi1 = p ∧ (h.fd b).owner ≠ 0

/-- No descriptor has a permission that another one of its file denies. -/
def Excluded (h : State) : Prop :=
  ∀ p a b, IsOpen h p a → IsOpen h p b → a ≠ b → ¬ Denies (h.fd a).mode (h.fd b).mode

/-- All descriptors that are open are tested. -/
def Checked (h : State) : Prop :=
  ∀ p b, IsOpen h p b → (h.fd b).mode.getLsbD BOM_NOCHECK = false

/-- To open the file of `p` with the mode `d0` would exclude somebody: a descriptor denies what is
    wanted, or has what is denied. -/
def Violates (h : State) (p : Nat) (d0 : BitVec 16) : Prop :=
  ∃ b, IsOpen h p b ∧ (Denies (h.fd b).mode d0 ∨ Denies d0 (h.fd b).mode)

/-- A request denies nothing that is in use, unless something that it wants is denied. -/
def Meets (h : State) (p : Nat) (d0 : BitVec 16) : Prop :=
  ∀ b, IsOpen h p b → Denies d0 (h.fd b).mode → ∃ c, IsOpen h p c ∧ Denies (h.fd c).mode d0

section

variable {h h' : State}

theorem tested_of_open {p b : Nat} (hb : IsOpen h p b) : Tested h p b := by
  by_cases hbp : b = p
  · subst hbp
    exact .inr ⟨rfl, hb.2.2⟩
  · exact .inl ⟨hb.1, hb.2.1, hbp⟩

theorem Frame.was_open {S : Nat → Prop} (f : Frame S h h') {p b : Nat} (hb : IsOpen h' p b)
    (hS : ¬ S b) : IsOpen h p b ∧ (h'.fd b).mode = (h.fd b).mode := by
  have hc := f.core b hb.1 hS
  have hm : (h'.fd b).multi1 = (h.fd b).multi1 := Fd.read_of Fd.core hc.2 Fd.multi1 fun _ => rfl
  have ho : (h'.fd b).owner = (h.fd b).owner := Fd.read_of Fd.core hc.2 Fd.owner fun _ => rfl
  refine ⟨⟨hc.1, hm ▸ hb.2.1, ho ▸ hb.2.2⟩, Fd.read_of Fd.core hc.2 Fd.mode fun _ => rfl⟩

/-- Every open descriptor was open before with the same mode. -/
def NoneOpened (h h' : State) : Prop :=
  ∀ p b, IsOpen h' p b → IsOpen h p b ∧ (h'.fd b).mode = (h.fd b).mode

theorem NoneOpened.excluded (hn : NoneOpened h h') (hex : Excluded h) (hck : Checked h) :
    Excluded h' ∧ Checked h' := by
  refine ⟨fun p a b ha hb hab => ?_, fun p b hb => ?_⟩
  · have ha' := hn p a ha
    have hb' := hn p b hb
    rw [ha'.2, hb'.2]
    exact hex p a b ha'.1 hb'.1 hab
  · have hb' := hn p b hb
    rw [hb'.2]
    exact hck p b hb'.1

theorem Frame.noneOpened {c : Nat} (f : Frame (· = c) h h')
    (hc : h'.IsFd c → (h'.fd c).owner = 0 ∨ (h.IsFd c ∧ (h'.fd c).owner = (h.fd c).owner ∧
      (h'.fd c).mode = (h.fd c).mode ∧ (h'.fd c).multi1 = (h.fd c).multi1)) : NoneOpened h h' := by
  intro p b hb
  by_cases hbc : b = c
  · subst hbc
    rcases hc hb.1 with h0 | ⟨hfd, ho, hmode, hm⟩
    · exact absurd h0 hb.2.2
    · exact ⟨⟨hfd, hm ▸ hb.2.1, ho ▸ hb.2.2⟩, hmode⟩
  · exact f.was_open hb hbc

theorem Reopened.excluded {pd p : Nat} {d0 : BitVec 16} {opened : Int} {r : Except Int Nat}
    (hr : Reopened h pd p d0 opened h' r) (hex : Excluded h) (hck : Checked h)
    (hd0 : d0.getLsbD BOM_NOCHECK = false) (hmeets : Meets h p d0) : Excluded h' ∧ Checked h' := by
  rcases hr.answer with ⟨_, hsame, _⟩ | ⟨hpass, a, hframe, _, _, hres⟩
  · rw [hsame]
    exact ⟨hex, hck⟩
  · rcases hres with ⟨_, _, hzero⟩ | ⟨_, _, hfd, hm, howner, hmode⟩
    · exact (hframe.noneOpened fun hfd => .inl (hzero hfd)).excluded hex hck
    · -- Nobody refuses, so nobody denies what is wanted, and nothing in use is denied.
      have hnodeny : ∀ b, IsOpen h p b → ¬ Denies (h.fd b).mode d0 := by
        intro b hb hden
        have hpassed := hpass b (tested_of_open hb)
        rw [(refuses_iff _ _).mpr ⟨hck p b hb, hden⟩] at hpassed
        exact Bool.noConfusion hpassed
      have hnotdenied : ∀ b, IsOpen h p b → ¬ Denies d0 (h.fd b).mode := by
        intro b hb hden
        rcases hmeets b hb hden with ⟨c, hc, hcd⟩
        exact hnodeny c hc hcd
      refine ⟨fun q b c hb hc hbc => ?_, fun q b hb => ?_⟩
      · by_cases hba : b = a
        · have hca : c ≠ a := fun hca => hbc (hba.trans hca.symm)
          have hc' := hframe.was_open hc hca
          have hqp : q = p := hb.2.1.symm.trans (hba ▸ hm)
          rw [hba, hmode, hc'.2]
          exact hnotdenied c (hqp ▸ hc'.1)
        · have hb' := hframe.was_open hb hba
          rw [hb'.2]
          by_cases hca : c = a
          · have hqp : q = p := hc.2.1.symm.trans (hca ▸ hm)
            rw [hca, hmode]
            exact hnodeny b (hqp ▸ hb'.1)
          · have hc' := hframe.was_open hc hca
            rw [hc'.2]
            exact hex q b c hb'.1 hc'.1 hbc
      · by_cases hba : b = a
        · rw [hba, hmode]
          exact hd0
        · have hb' := hframe.was_open hb hba
          rw [hb'.2]
          exact hck q b hb'.1

theorem Closed.excluded {c : Nat} {d0 : Int} (hc : Closed h c d0 h') (hex : Excluded h)
    (hck : Checked h) : Excluded h' ∧ Checked h' := by
  by_cases hgone : d0 = ECHNG ∨ d0 = EDRIVE
  · rw [hc.gone hgone]
    exact ⟨hex, hck⟩
  · exact (hc.frame.noneOpened fun hfd => .inl (hc.closed hgone hfd)).excluded hex hck

theorem meets_RPERM (p : Nat) : Meets h p RPERM := by
  intro b _ hden
  exact absurd hden (by simp [Denies, RPERM, BOM_RDENY, BOM_WDENY])

theorem Flushed.excluded {pd : Nat} (hf : Flushed h pd h') (hex : Excluded h) (hck : Checked h) :
    Excluded h' ∧ Checked h' := by
  have hread : RPERM.getLsbD BOM_NOCHECK = false := by decide
  cases hf with
  | idle => exact ⟨hex, hck⟩
  | left p a opened h' _ _ hr => exact hr.excluded hex hck hread (meets_RPERM p)
  | closed p a opened d0 h1 h' _ _ hr hc =>
    have h1 := hr.excluded hex hck hread (meets_RPERM p)
    exact hc.excluded h1.1 h1.2

theorem Dismissed.excluded {pd c : Nat} (hd : Dismissed h pd c h') (hex : Excluded h)
    (hck : Checked h) : Excluded h' ∧ Checked h' := by
  rcases hd.steps with ⟨h1, _, hflushed, hframe, hc⟩
  have hmid := hflushed.excluded hex hck
  exact (hframe.noneOpened hc).excluded hmid.1 hmid.2

end

/-- What is done with descriptors: a file or directory is opened through its prototype, and a
    descriptor of a directory or of a file is closed. -/
inductive Act where
  | reopen (pd p : Nat) (d0 : BitVec 16) (opened : Int)
  | closeDd (c : Nat) (d0 : Int)
  | dosdevClose (pd c : Nat) (changed : Option FlushIo) (closed : Int)

/-- A step of a process. The driver never fails to open a directory, and requests have the test
    made. -/
def act (h : State) : Act → State → Prop
  | .reopen pd p d0 opened, h' =>
    h.Proto p ∧ ((h.fd p).subdir = true → 0 ≤ opened) ∧ d0.getLsbD BOM_NOCHECK = false ∧
      ∃ r, reopenFd h pd p d0 opened = .ok (h', r)
  | .closeDd c d0, h' => h.IsFd c ∧ closeDd h c d0 = .ok (h', d0)
  | .dosdevClose pd c changed closed, h' =>
    h.IsFd c ∧ (h.fd (h.fd c).multi1).subdir = false ∧
      (∀ io, changed = some io → 0 ≤ io.opened) ∧
      ∃ d0, dosdevClose h pd c changed closed = .ok (h', d0)

/-- A step that denies nothing in use. -/
def fairAct (h : State) (a : Act) (h' : State) : Prop :=
  act h a h' ∧ ∀ pd p d0 opened, a = .reopen pd p d0 opened → Meets h p d0

/-- The descriptors are a forest, they are tested, and do not exclude each other. -/
def Shared (h : State) : Prop :=
  Forest h ∧ Excluded h ∧ Checked h

theorem fairAct_shared (h : State) (a : Act) (h' : State) (hs : Shared h) (hact : fairAct h a h') :
    Shared h' := by
  rcases hs with ⟨ok, hex, hck⟩
  rcases hact with ⟨hact, hmeets⟩
  cases a with
  | reopen pd p d0 opened =>
    rcases hact with ⟨hp, hdir, hd0, r, hrun⟩
    rcases reopenFd_spec ok pd hp d0 opened hdir with herr | ⟨h1, r1, hrun1, hres⟩
    · rw [hrun] at herr
      cases herr
    · rw [hrun] at hrun1
      cases hrun1
      exact ⟨hres.forest, hres.excluded hex hck hd0 (hmeets pd p d0 opened rfl)⟩
  | closeDd c d0 =>
    rcases hact with ⟨hc, hrun⟩
    rcases closeDd_spec ok hc d0 with ⟨h1, hrun1, hres⟩
    rw [hrun] at hrun1
    cases hrun1
    exact ⟨hres.forest, hres.excluded hex hck⟩
  | dosdevClose pd c changed closed =>
    rcases hact with ⟨hc, hfile, hio, d0, hrun⟩
    rcases dosdevClose_spec ok pd hc hfile changed hio closed with herr | ⟨h1, d1, hrun1, hres⟩
    · rw [hrun] at herr
      cases herr
    · rw [hrun] at hrun1
      cases hrun1
      exact ⟨hres.forest, hres.excluded hex hck⟩

theorem violation_refused (h : State) (hs : Shared h) (pd p : Nat) (d0 : BitVec 16) (opened : Int)
    (hp : h.Proto p) (hmeets : Meets h p d0) (hviolates : Violates h p d0) :
    reopenFd h pd p d0 opened = .ok (h, .error EACCDN) := by
  rcases hviolates with ⟨b, hb, hden⟩
  obtain ⟨c, hc, hcd⟩ : ∃ c, IsOpen h p c ∧ Denies (h.fd c).mode d0 := by
    rcases hden with hden | hden
    · exact ⟨b, hb, hden⟩
    · exact hmeets b hb hden
  have href := (refuses_iff _ _).mpr ⟨hs.2.2 p c hc, hcd⟩
  have htest := tested_of_open hc
  have hused : ¬ ((h.fd p).owner = 0 ∧ (h.fd p).multi = 0) := by
    rintro ⟨h0, hm⟩
    rcases htest with hclone | ⟨_, hne⟩
    · exact (hs.1.multi_zero hp).mp hm c hclone
    · exact hne h0
  rcases test_spec hs.1 hp d0 hused with ⟨hloop, _⟩ | ⟨_, hpass⟩
  · simp only [reopenFd, if_neg hused, hloop, bind, Except.bind, pure, Except.pure]
  · rw [hpass c htest] at href
    exact Bool.noConfusion href

/-- Whatever is opened and closed, as long as no request denies what somebody is doing, no
    descriptor has a permission that another one of its file denies, and a request that would
    change that is refused and changes nothing. -/
theorem sharing_excludes (s t : State) (as : List Act) (hs : Shared s)
    (hrun : Run fairAct s as t) :
    (∀ p a b, IsOpen t p a → IsOpen t p b → a ≠ b →
      ¬ Denies (t.fd b).mode (t.fd a).mode ∧ ¬ Denies (t.fd a).mode (t.fd b).mode) ∧
    ∀ pd p d0 opened, t.Proto p → Meets t p d0 → Violates t p d0 →
      reopenFd t pd p d0 opened = .ok (t, .error EACCDN) := by
  have ht := run_preserves fairAct Shared fairAct_shared s t as hrun hs
  refine ⟨fun p a b ha hb hab => ?_, fun pd p d0 opened hp hmeets hviolates => ?_⟩
  · exact ⟨ht.2.1 p b a hb ha hab.symm, ht.2.1 p a b ha hb hab⟩
  · exact violation_refused t ht pd p d0 opened hp hmeets hviolates

/-- The root of a drive, open for the process 7 with a mode. -/
def rootFd (mode : BitVec 16) : Fd :=
  { Fd.zero with mode, subdir := true, owner := 7, multi1 := 1 }

/-- A drive of which only the root is open, with another block of memory. -/
def rootOpen (mode : BitVec 16) : State :=
  mounted [1, 2] (rootFd mode) fun _ _ _ => none

theorem rootOpen_shared (mode : BitVec 16) (hmode : mode.getLsbD BOM_NOCHECK = false) :
    Shared (rootOpen mode) := by
  have hfd : ∀ a, (rootOpen mode).IsFd a → a = 1 := fun a ha => mounted_fd ha
  refine ⟨forest_mounted (by decide) (by decide) rfl rfl rfl rfl rfl rfl rfl, ?_, ?_⟩
  · intro p a b ha hb hab
    exact absurd ((hfd a ha.1).trans (hfd b hb.1).symm) hab
  · intro p b hb
    rw [hfd b hb.1]
    exact hmode

/-- The state in which a second process has opened the root, and denies writing. -/
def rootTwice : State :=
  match reopenFd (rootOpen RPERM) 8 1 (RPERM ||| WDENY) 0 with
  | .ok (t, _) => t
  | .error _ => rootOpen RPERM

/-- Two processes have the root open for reading, and a third one that wants to write is refused. -/
theorem sharing_excludes_readers :
    IsOpen rootTwice 1 1 ∧ IsOpen rootTwice 1 2 ∧
      ¬ Denies (rootTwice.fd 2).mode (rootTwice.fd 1).mode ∧
      reopenFd rootTwice 9 1 WPERM 0 = .ok (rootTwice, .error EACCDN) := by
  have hfirst : ∀ b, IsOpen (rootOpen RPERM) 1 b → b = 1 := fun b hb => mounted_fd hb.1
  have hstep : fairAct (rootOpen RPERM) (.reopen 8 1 (RPERM ||| WDENY) 0) rootTwice := by
    refine ⟨⟨⟨rfl, rfl⟩, fun _ => Int.le_refl 0, by decide, .ok 2, rfl⟩, ?_⟩
    intro pd p d0 opened ha b hb hden
    cases ha
    rw [hfirst b hb] at hden
    exact absurd hden (by simp [Denies, rootOpen, mounted, rootFd, RPERM, WDENY, BOM_RDENY,
      BOM_WDENY, BOM_RPERM, BOM_WPERM])
  have h1 : IsOpen rootTwice 1 1 := ⟨rfl, rfl, by decide⟩
  have h2 : IsOpen rootTwice 1 2 := ⟨rfl, rfl, by decide⟩
  have hsound := sharing_excludes (rootOpen RPERM) rootTwice [_] (rootOpen_shared _ (by decide))
    (.cons _ _ _ _ _ hstep (.nil _))
  have hdeny : Denies (rootTwice.fd 2).mode WPERM := .inr ⟨by decide, by decide⟩
  refine ⟨h1, h2, (hsound.1 1 1 2 h1 h2 (by decide)).1, ?_⟩
  refine hsound.2 9 1 WPERM 0 ⟨rfl, rfl⟩ (fun b _ hden => ?_) ⟨2, h2, .inl hdeny⟩
  exact absurd hden (by simp [Denies, WPERM, BOM_RDENY, BOM_WDENY])

/-- The root is open for reading when somebody opens it and denies reading. -/
theorem late_denial :
    Shared (rootOpen RPERM) ∧
      ∃ t, reopenFd (rootOpen RPERM) 8 1 (RPERM ||| RDENY) 0 = .ok (t, .ok 2) ∧
        IsOpen t 1 1 ∧ IsOpen t 1 2 ∧ Denies (t.fd 2).mode (t.fd 1).mode := by
  refine ⟨rootOpen_shared _ (by decide), _, rfl, ?_, ?_, ?_⟩
  · exact ⟨rfl, rfl, by decide⟩
  · exact ⟨rfl, rfl, by decide⟩
  · exact .inl ⟨by decide, by decide⟩

end Xfs

end MagiC
