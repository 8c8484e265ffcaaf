import MagiC.Lib.Runs
import MagiC.Xfs.Rename

/-!
# Runs of the DOS File System

The calls that make, link and free descriptors, in any order and by any
processes. What a caller promises is `Allowed`: it hands over prototypes where
the routine wants one, a directory stays referenced while it is used, and the
driver does not fail to open a directory.

A renamed file whose descriptor is there gets the descriptor through which the
new directory is open as its parent. That is the prototype of the new directory
only if nobody else had it open, and else a clone, which is freed at the end of
the call. `Steady` leaves that out, and then the forest is kept.

## Main definitions

* `Allowed`: What its caller promises.

## Theorems

* `forest_kept`: So does every run.
-/

namespace MagiC

namespace Xfs

open Runs

/-- A call: opening a file through its prototype, the prototype of an entry, opening a file
    through its directory, closing, renaming, collecting directories, and the counting of
    references to a directory. -/
inductive Op where
  | reopen (pd p : Nat) (d0 : BitVec 16) (opened : Int)
  | getDd (a4 d5 : Nat) (e : Entry) (long : Bool) (made : Int)
  | fopen (pd d : Nat) (d2 d7 : BitVec 16) (io : FopenIo)
  | dosdevClose (pd c : Nat) (changed : Option FlushIo) (closed : Int)
  | closeDd (c : Nat) (d0 : Int)
  | frename (pd o n : Nat) (io : FrenameIo)
  | garbcoll (root : Nat)
  | hold (c : Nat)
  | release (c : Nat)

/-- The state after a call. -/
def exec (h : State) : Op → Except Fault State
  | .reopen pd p d0 opened => (reopenFd h pd p d0 opened).map Prod.fst
  | .getDd a4 d5 e long made => (Xfs.getDd h a4 d5 e long made).map Prod.fst
  | .fopen pd d d2 d7 io => (dxfsFopen h pd d d2 d7 io).map Prod.fst
  | .dosdevClose pd c changed closed => (Xfs.dosdevClose h pd c changed closed).map Prod.fst
  | .closeDd c d0 => (Xfs.closeDd h c d0).map Prod.fst
  | .frename pd o n io => (dxfsFrename h pd o n io).map Prod.fst
  | .garbcoll root => (dxfsGarbcoll h root).map Prod.fst
  | .hold c => .ok (h.upd c fun f => { f with refcnt := f.refcnt + 1 })
  | .release c => .ok (h.upd c fun f => { f with refcnt := f.refcnt - 1 })

/-- What the caller promises. -/
def Allowed (h : State) : Op → Prop
  | .reopen _ p _ opened => h.Proto p ∧ ((h.fd p).subdir = true → 0 ≤ opened)
  | .getDd a4 d5 e _ _ => h.IsFd a4 ∧ (h.fd (h.fd a4).multi1).subdir = true ∧ Held h a4 ∧
      h.entries a4 d5 = some e
  | .fopen pd d _ _ io => pd ≠ 0 ∧ h.Proto d ∧ (h.fd d).subdir = true ∧ 0 ≤ io.openedDir ∧
      ∀ d5 e, io.entry = .ok (d5, e) → e.subdir = false ∧ ∀ a, At h d d5 a → (h.fd a).subdir = false
  | .dosdevClose _ c changed _ => h.IsFd c ∧ (h.fd (h.fd c).multi1).subdir = false ∧
      ∀ io, changed = some io → 0 ≤ io.opened
  | .closeDd c _ => h.IsFd c
  | .frename pd o n io => pd ≠ 0 ∧ h.Proto o ∧ (h.fd o).subdir = true ∧ h.Proto n ∧
      (h.fd n).subdir = true ∧ (n ∈ h.dmdx ∨ Held h n) ∧ 0 ≤ io.openedOld ∧ 0 ≤ io.openedNew ∧
      0 ≤ io.openedSub
  | .garbcoll root => root ∈ h.dmdx ∨ root = 0
  | .hold c => h.IsFd c ∧ 0 ≤ (h.fd c).refcnt
  | .release c => h.IsFd c ∧ 0 < (h.fd c).refcnt

/-- If there is a descriptor of the file that is renamed, nobody has the new directory open through
    its prototype. -/
def Steady (h : State) : Op → Prop
  | .frename _ o n io => ∀ d1 d3 a, io.old = .ok (d1, d3) → At h o d3 a → (h.fd n).owner = 0
  | _ => True

/-- The descriptors are a forest, and the reference counts of directories are none of the negative
    marks that the descriptors of devices have. -/
structure Wellformed (h : State) : Prop where
  forest : Forest h
  counts : Counts h

/-- A call, as its caller may make it. -/
def step (h : State) (op : Op) (h' : State) : Prop :=
  Allowed h op ∧ exec h op = .ok h'

/-- A call that is steady. -/
def steadyStep (h : State) (op : Op) (h' : State) : Prop :=
  step h op h' ∧ Steady h op

section

variable {h h' : State}

theorem Flushed.evolves {pd : Nat} (hf : Flushed h pd h') : Evolves h h' := by
  cases hf with
  | idle => exact .refl
  | left p a opened h' _ _ hr => exact hr.evolves
  | closed p a opened d0 h1 h' _ _ hr hc => exact hr.evolves.trans (.one hc.frame hc.forest)

theorem Dismissed.evolves {pd c : Nat} (hd : Dismissed h pd c h') : Evolves h h' := by
  rcases hd.steps with ⟨h1, _, hflushed, hframe, _⟩
  exact hflushed.evolves.trans (.one hframe hd.forest)

theorem Fopened.count {d : Nat} {io : FopenIo} (hf : Fopened h d io h') (hc : Counts h) :
    Counts h' := by
  rcases hf.evolves with hev | ⟨h1, d5, e, _, _, hev1, _, _, hev⟩
  · exact hev.count hc
  · have hc1 : Counts (enter h1 d d5 e) := hev1.count hc
    exact hev.count hc1

theorem FrenMoved.count {o n d1 d3 first d5 : Nat} {e : Entry} {io : FrenameIo} {r : Except Int Int}
    (hm : FrenMoved h o n d1 d3 first d5 e io h' r) (hc : Counts h) : Counts h' := by
  rcases hm.steps with ⟨h2, h3, _, _, _, _, _, hev, _, _, hmove, hdel⟩
  have hc2 : Counts h2 := by
    rcases hmove with ⟨a0, _, hmoved⟩ | ⟨_, hsame⟩
    · exact hmoved.count hc
    · rw [hsame]
      exact hc
  have hc3 := hev.count hc2
  cases hdel with
  | nothing _ => exact hc3
  | stopped c _ => exact hc3
  | failed _ => exact hc3
  | erased x y _ _ => exact hc3

theorem Renamed.wellformed {o n : Nat} {io : FrenameIo} (hr : Renamed h o n io h') (hc : Counts h) :
    Wellformed h' := by
  cases hr with
  | kept h' ok hev => exact ⟨ok, hev.count hc⟩
  | moved h1 h2 h' a4 d1 d3 first d5 e r _ hev1 _ _ _ _ _ _ _ _ _ _ hm ok hev =>
    exact ⟨ok, hev.count (hm.count (hev1.count hc))⟩

/-- What a call does to the forest. -/
inductive Result (h : State) : Op → State → Prop where
  | evolved (op : Op) (h' : State) : Forest h' → Evolves h h' → Result h op h'
  | fopened (pd d : Nat) (d2 d7 : BitVec 16) (io : FopenIo) (h' : State) : Fopened h d io h' →
      Result h (.fopen pd d d2 d7 io) h'
  | renamed (pd o n : Nat) (io : FrenameIo) (h' : State) : Renamed h o n io h' →
      Result h (.frename pd o n io) h'

theorem Result.wellformed {op : Op} (hr : Result h op h') (hc : Counts h) : Wellformed h' := by
  cases hr with
  | evolved op h' ok hev => exact ⟨ok, hev.count hc⟩
  | fopened pd d d2 d7 io h' hf => exact ⟨hf.forest, hf.count hc⟩
  | renamed pd o n io h' hren => exact hren.wellformed hc

/-- A steady call ends, or there is no block of memory left, or the walk over the directories above
    the new one does not end. -/
theorem exec_spec (hw : Wellformed h) (op : Op) (ha : Allowed h op) (hs : Steady h op) :
    exec h op = .error .noBlock ∨
      (exec h op = .error .hang ∧ ∃ pd o n io, op = .frename pd o n io) ∨
      ∃ h', exec h op = .ok h' ∧ Result h op h' := by
  have ok := hw.forest
  cases op with
  | reopen pd p d0 opened =>
    rcases ha with ⟨hp, hdir⟩
    rcases reopenFd_spec ok pd hp d0 opened hdir with herr | ⟨h1, r, hrun, hre⟩
    · exact .inl (by simp only [exec, herr, Except.map])
    · exact .inr (.inr ⟨h1, by simp only [exec, hrun, Except.map],
        .evolved _ h1 hre.forest hre.evolves⟩)
  | getDd a4 d5 e long made =>
    rcases ha with ⟨ha4, hdir, hheld, hentry⟩
    have hopen : h.entries a4 = h.dirs (h.fd (h.fd a4).multi1).dmd
      (h.fd (h.fd a4).multi1).stcl := by
      by_cases hself : (h.fd a4).multi1 = a4
      · rw [State.entries, hself]
      · rw [State.entries, ok.cloneDmd _ a4 ⟨ha4, rfl, Ne.symm hself⟩]
    rw [hopen] at hentry
    rcases getDd_spec ok d5 e long made ha4 rfl hdir hheld hentry with
      herr | ⟨h1, r, hrun, ok1, hev, _⟩
    · exact .inl (by simp only [exec, herr, Except.map])
    · exact .inr (.inr ⟨h1, by simp only [exec, hrun, Except.map], .evolved _ h1 ok1 hev⟩)
  | fopen pd d d2 d7 io =>
    rcases ha with ⟨hpd, hd, hdir, hopen, hfile⟩
    rcases dxfsFopen_spec ok d2 d7 io hpd hd hdir hopen hfile with herr | ⟨h1, r, hrun, hf⟩
    · exact .inl (by simp only [exec, herr, Except.map])
    · exact .inr (.inr ⟨h1, by simp only [exec, hrun, Except.map], .fopened pd d d2 d7 io h1 hf⟩)
  | dosdevClose pd c changed closed =>
    rcases ha with ⟨hc, hfile, hio⟩
    rcases dosdevClose_spec ok pd hc hfile changed hio closed with herr | ⟨h1, d0, hrun, hd⟩
    · exact .inl (by simp only [exec, herr, Except.map])
    · exact .inr (.inr ⟨h1, by simp only [exec, hrun, Except.map],
        .evolved _ h1 hd.forest hd.evolves⟩)
  | closeDd c d0 =>
    rcases closeDd_spec ok ha d0 with ⟨h1, hrun, hclosed⟩
    exact .inr (.inr ⟨h1, by simp only [exec, hrun, Except.map],
      .evolved _ h1 hclosed.forest (.one hclosed.frame hclosed.forest)⟩)
  | frename pd o n io =>
    rcases ha with ⟨hpd, ho, _, hn, hdir, hheld, hold, hnew, hsub⟩
    rcases dxfsFrename_spec ok hw.counts io hpd ho hn hdir hheld hold hnew hsub hs with
      herr | hhang | ⟨h1, d0, hrun, hren⟩
    · exact .inl (by simp only [exec, herr, Except.map])
    · exact .inr (.inl ⟨by simp only [exec, hhang, Except.map], pd, o, n, io, rfl⟩)
    · exact .inr (.inr ⟨h1, by simp only [exec, hrun, Except.map], .renamed pd o n io h1 hren⟩)
  | garbcoll root =>
    rcases dxfsGarbcoll_spec ok ha with ⟨h1, d0, hrun, ok1, hframe, _⟩
    exact .inr (.inr ⟨h1, by simp only [exec, hrun, Except.map],
      .evolved _ h1 ok1 (.one hframe ok1)⟩)
  | hold c =>
    have ok1 := ok.upd c (fun f => { f with refcnt := f.refcnt + 1 }) rfl rfl
    refine .inr (.inr ⟨_, rfl, .evolved _ _ ok1 (.one (Frame.upd h c _ rfl (.inr ?_)) ok1)⟩)
    have := ha.2
    show 0 ≤ (h.fd c).refcnt + 1
    omega
  | release c =>
    have ok1 := ok.upd c (fun f => { f with refcnt := f.refcnt - 1 }) rfl rfl
    refine .inr (.inr ⟨_, rfl, .evolved _ _ ok1 (.one (Frame.upd h c _ rfl (.inr ?_)) ok1)⟩)
    have := ha.2
    show 0 ≤ (h.fd c).refcnt - 1
    omega

theorem steadyStep_wellformed (h : State) (op : Op) (h' : State) (hw : Wellformed h)
    (hstep : steadyStep h op h') : Wellformed h' := by
  rcases hstep with ⟨⟨ha, hrun⟩, hs⟩
  rcases exec_spec hw op ha hs with herr | ⟨hhang, _⟩ | ⟨h1, hrun1, hres⟩
  · rw [hrun] at herr
    cases herr
  · rw [hrun] at hhang
    cases hhang
  · rw [hrun] at hrun1
    cases hrun1
    exact hres.wellformed hw.counts

theorem exec_listed (hw : Wellformed h) (op : Op) (ha : Allowed h op) (hs : Steady h op) :
    exec h op ≠ .error .notListed := by
  intro hno
  rcases exec_spec hw op ha hs with herr | ⟨hhang, _⟩ | ⟨h1, hrun1, _⟩
  · rw [hno] at herr
    cases herr
  · rw [hno] at hhang
    cases hhang
  · rw [hno] at hrun1
    cases hrun1

end

/-- Whatever calls are made, by any processes and in any order: as long as no descriptor of a
    renamed file moves to a directory that somebody has open, the descriptors stay a forest, and no
    element is ever missing on the list it is to be taken off. -/
theorem forest_kept (s t : State) (ops : List Op) (hs : Wellformed s)
    (hrun : Run steadyStep s ops t) :
    Wellformed t ∧ ∀ op, Allowed t op → Steady t op → exec t op ≠ .error .notListed := by
  have ht := run_preserves steadyStep Wellformed steadyStep_wellformed s t ops hrun hs
  exact ⟨ht, fun op ha hst => exec_listed ht op ha hst⟩

/-! ### A drive with one directory and two files -/

def subEntry : Entry where
  subdir := true
  readonly := false
  stcl := 5

def fileEntry : Entry where
  subdir := false
  readonly := false
  stcl := 9

/-- A drive that nobody uses. In its root there is a directory at 64 and a file at 128, and in the
    directory a file at 64. -/
def drive : State :=
  mounted [1, 2, 3, 4, 5, 6] { Fd.zero with subdir := true, multi1 := 1 } fun _ stcl pos =>
    if stcl = 0 ∧ pos = 64 then some subEntry
    else if stcl = 0 ∧ pos = 128 then some fileEntry
    else if stcl = 5 ∧ pos = 64 then some fileEntry
    else none

/-- A file is opened, and nothing fails. -/
def openIo (pos : Nat) : FopenIo where
  openedDir := 0
  entry := .ok (pos, fileEntry)
  long := false
  made := 0
  opened := 0
  closedDir := 0

/-- A file goes from one position to another one with a short name, and nothing fails. -/
def renameIo (old new : Nat) : FrenameIo where
  openedOld := 0
  openedNew := 0
  closedEarly := 0
  nameOk := true
  old := .ok (old, old)
  mint := false
  rewind := 0
  new := .error EFILNF
  place := .ok (new, new)
  long := false
  seek := 0
  wrote := 0
  made := 0
  openedSub := 0
  dots := 0
  closedSub := 0
  deleted := 0
  closedOld := 0
  closedNew := 0

/-- The state after some calls. -/
def after (h : State) : List Op → State
  | [] => h
  | op :: ops => after ((exec h op).toOption.getD h) ops

theorem drive_wellformed : Wellformed drive := by
  refine ⟨forest_mounted (by decide) (by decide) rfl rfl rfl rfl rfl rfl rfl, fun a ha _ => ?_⟩
  rw [mounted_fd ha]
  exact Int.le_refl 0

/-- A file of the root is opened and renamed while the root is not open. -/
theorem forest_kept_open_file :
    Wellformed (after drive [.fopen 8 1 RPERM RPERM (openIo 128),
      .frename 9 1 1 (renameIo 128 160)]) := by
  refine (forest_kept drive _ [.fopen 8 1 RPERM RPERM (openIo 128),
    .frename 9 1 1 (renameIo 128 160)]
    drive_wellformed ?_).1
  refine .cons _ (after drive [.fopen 8 1 RPERM RPERM (openIo 128)]) _ _ _ ⟨⟨?_, rfl⟩, trivial⟩
    (.cons _ _ _ _ _ ⟨⟨?_, rfl⟩, ?_⟩ (.nil _))
  · refine ⟨by decide, ⟨rfl, rfl⟩, rfl, by decide, fun d5 e hentry => ?_⟩
    cases hentry
    refine ⟨rfl, fun a ha => ?_⟩
    rw [mounted_fd ha.1.1.1] at ha
    exact absurd ha.2 (by decide)
  · exact ⟨by decide, ⟨rfl, rfl⟩, rfl, ⟨rfl, rfl⟩, rfl, .inl (by decide), by decide, by decide,
      by decide⟩
  · intro d1 d3 a _ _
    rfl

/-- A process has the root open, as if by `Dopendir`. -/
def stray1 : State :=
  after drive [.reopen 7 1 RPERM 0]

/-- A path leads to the directory. -/
def stray2 : State :=
  after stray1 [.getDd 1 64 subEntry false 0]

/-- A second process opens the file of the directory. -/
def stray3 : State :=
  after stray2 [.fopen 8 2 RPERM RPERM (openIo 64)]

/-- A third process moves that file to the root. -/
def stray4 : State :=
  after stray3 [.frename 9 2 1 (renameIo 64 160)]

theorem stray1_step : step drive (.reopen 7 1 RPERM 0) stray1 :=
  ⟨⟨⟨rfl, rfl⟩, fun _ => by decide⟩, rfl⟩

theorem stray2_step : step stray1 (.getDd 1 64 subEntry false 0) stray2 :=
  ⟨⟨rfl, rfl, .inl (by decide), rfl⟩, rfl⟩

theorem stray3_step : step stray2 (.fopen 8 2 RPERM RPERM (openIo 64)) stray3 := by
  refine ⟨⟨by decide, ⟨rfl, rfl⟩, rfl, by decide, fun d5 e hentry => ?_⟩, rfl⟩
  cases hentry
  refine ⟨rfl, fun a ha => ?_⟩
  -- The directory has no children yet.
  have hw1 := steadyStep_wellformed _ _ _ drive_wellformed ⟨stray1_step, trivial⟩
  have hw2 := steadyStep_wellformed _ _ _ hw1 ⟨stray2_step, trivial⟩
  have hin : a ∈ [1, 2, 3, 4, 5, 6] := hw2.forest.pool a (by
    rw [ha.1.1.1]
    exact Use.noConfusion)
  have hnone : ∀ b ∈ [1, 2, 3, 4, 5, 6], (stray2.fd b).parent ≠ 2 := by decide
  exact absurd ha.1.2 (hnone a hin)

theorem stray4_step : step stray3 (.frename 9 2 1 (renameIo 64 160)) stray4 :=
  ⟨⟨by decide, ⟨rfl, rfl⟩, rfl, ⟨rfl, rfl⟩, rfl, .inl (by decide), by decide, by decide, by decide⟩,
    rfl⟩

/-- A file moves to the root while somebody has that open. Its parent is a clone that is not there
    any more, and closing the file halts the system. -/
theorem dangling_parent :
    ∃ s t ops, Wellformed s ∧ Run step s ops t ∧ ¬ Wellformed t ∧
      t.Proto 3 ∧ (t.fd 3).parent = 4 ∧ t.use 4 = .free ∧
      Allowed t (.dosdevClose 8 3 none 0) ∧ exec t (.dosdevClose 8 3 none 0) =
        .error .notListed := by
  have hproto : stray4.Proto 3 := ⟨rfl, rfl⟩
  refine ⟨drive, stray4, [_, _, _, _], drive_wellformed, .cons _ _ _ _ _ stray1_step
    (.cons _ _ _ _ _ stray2_step
      (.cons _ _ _ _ _ stray3_step (.cons _ _ _ _ _ stray4_step (.nil _)))),
    fun hw => ?_, hproto, rfl, rfl, ⟨rfl, rfl, fun io hio => by cases hio⟩, rfl⟩
  -- The parent of the file is not even a descriptor.
  have hpar := (hw.forest.parent 3 hproto (by decide)).1.1
  exact Use.noConfusion hpar

end Xfs

end MagiC
