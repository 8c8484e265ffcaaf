import MagiC.Xfs.Open

/-!
# Closing Files

`dosdev_close` writes the directory entry of a file back, through a descriptor of
the directory that it opens and closes again, and frees the descriptor of the
file when the last handle on it has gone.

Opening the directory may be refused, since somebody else may have it open for
himself. Then the entry is not written, and the file is closed all the same. Only
a disk that has been changed leaves the directory open.

## Main definitions

* `Flushed`: What `fflush` does.

## Theorems

* `fflush_spec`: `fflush` keeps the forest.
-/

namespace MagiC

namespace Xfs

section

variable {h : State}

theorem Reopened.opened {pd p a : Nat} {d0 : BitVec 16} {opened : Int} {h' : State}
    (hr : Reopened h pd p d0 opened h' (.ok a)) :
    (∀ b, Tested h p b → refuses (h.fd b).mode d0 = false) ∧ Frame (· = a) h h' ∧
      (a = p ↔ (h.fd p).owner = 0) ∧ (a = p ∨ (h.IsFd a → ¬ Held h a)) ∧ h'.IsFd a ∧
      (h'.fd a).multi1 = p ∧ (h'.fd a).owner = pd ∧ (h'.fd a).mode = d0 := by
  rcases hr.answer with ⟨hno, _⟩ | ⟨hpass, b, hframe, hproto, hfresh, hres⟩
  · cases hno
  · rcases hres with ⟨_, hno, _⟩ | ⟨_, hrb, hrest⟩
    · cases hno
    · cases hrb
      exact ⟨hpass, hframe, hproto, hfresh, hrest⟩

theorem Reopened.refused {pd p : Nat} {d0 : BitVec 16} {opened c : Int} {h' : State}
    (hr : Reopened h pd p d0 opened h' (.error c)) (hopen : 0 ≤ opened) :
    c = EACCDN ∧ h' = h ∧ ∃ b, Tested h p b ∧ refuses (h.fd b).mode d0 = true := by
  rcases hr.answer with ⟨hc, hrest⟩ | ⟨_, _, _, _, _, ⟨hneg, _⟩ | ⟨_, hno, _⟩⟩
  · exact ⟨Except.error.inj hc, hrest⟩
  · omega
  · cases hno

theorem Reopened.frame {pd p : Nat} {d0 : BitVec 16} {opened : Int} {h' : State}
    {r : Except Int Nat} (hr : Reopened h pd p d0 opened h' r) : ∃ a, Frame (· = a) h h' := by
  rcases hr.answer with ⟨_, hsame, _⟩ | ⟨_, a, hframe, _⟩
  · rw [hsame]
    exact ⟨0, Frame.refl _ h⟩
  · exact ⟨a, hframe⟩

/-- What `fflush` does: nothing, or the directory is opened for reading, and closed again unless
    the disk has been changed. -/
inductive Flushed (h : State) (pd : Nat) : State → Prop where
  | idle : Flushed h pd h
  | left (p a : Nat) (opened : Int) (h' : State) : h.Proto p → (h.fd p).subdir = true →
      Reopened h pd p RPERM opened h' (.ok a) → Flushed h pd h'
  | closed (p a : Nat) (opened d0 : Int) (h1 h' : State) : h.Proto p →
      (h.fd p).subdir = true → Reopened h pd p RPERM opened h1 (.ok a) → Closed h1 a d0 h' →
      Flushed h pd h'

/-- `fflush` keeps the forest. -/
theorem fflush_spec (ok : Forest h) (pd : Nat) {a : Nat} (ha : h.IsFd a) (changed : Option FlushIo)
    (hio : ∀ io, changed = some io → 0 ≤ io.opened) :
    fflush h pd a changed = .error .noBlock ∨
      ∃ h' d0, fflush h pd a changed = .ok (h', d0) ∧ Forest h' ∧ Flushed h pd h' := by
  cases changed with
  | none => exact .inr ⟨h, 0, rfl, ok, .idle⟩
  | some io =>
    by_cases hpar : (h.fd (h.fd a).multi1).parent = 0
    · exact .inr ⟨h, 0, by simp only [fflush, if_pos hpar], ok, .idle⟩
    · have hp := ok.parent _ (ok.proto a ha) hpar
      have hopen := hio io rfl
      rcases reopenFd_spec ok pd hp.1 RPERM io.opened (fun _ => hopen) with herr |
        ⟨h1, r, hrun, hres⟩
      · left
        simp only [fflush, if_neg hpar, herr, bind, Except.bind]
      · right
        cases r with
        | error c =>
          have hsame := (hres.refused hopen).2.1
          subst hsame
          refine ⟨h1, c, ?_, ok, .idle⟩
          simp only [fflush, if_neg hpar, hrun, bind, Except.bind, pure, Except.pure]
        | ok a4 =>
          by_cases hgone : io.wrote = ECHNG ∨ io.wrote = EDRIVE
          · refine ⟨h1, io.wrote, ?_, hres.forest, .left _ a4 _ h1 hp.1 hp.2 hres⟩
            simp only [fflush, if_neg hpar, hrun, bind, Except.bind, if_pos hgone, pure,
              Except.pure]
          · obtain ⟨h2, hclose, hclosed⟩ :=
              closeDd_spec hres.forest hres.opened.2.2.2.2.1 io.closed
            refine ⟨h2, io.wrote, ?_, hclosed.forest,
              .closed _ a4 _ io.closed h1 h2 hp.1 hp.2 hres hclosed⟩
            simp only [fflush, if_neg hpar, hrun, bind, Except.bind, if_neg hgone, hclose, pure,
              Except.pure]

theorem Flushed.file (ok : Forest h) {pd c : Nat} {h' : State} (hf : Flushed h pd h')
    (hc : h.IsFd c) (hfile : (h.fd (h.fd c).multi1).subdir = false) (hheld : Held h c) :
    ∃ r, r ≠ c ∧ Frame (· = r) h h' := by
  -- What is opened is the prototype of a directory, or a descriptor that nobody held.
  have hother : ∀ {p a : Nat} {opened : Int} {h1 : State}, h.Proto p → (h.fd p).subdir = true →
      Reopened h pd p RPERM opened h1 (.ok a) → a ≠ c := by
    rintro p a opened h1 hp hdir hr rfl
    rcases hr.opened.2.2.2.1 with rfl | hfresh
    · rw [hp.2, hdir] at hfile
      exact Bool.noConfusion hfile
    · exact hfresh hc hheld
  cases hf with
  | idle =>
    exact ⟨0, Ne.symm (ok.ne_zero hc), Frame.refl _ h⟩
  | left p a opened h' hp hdir hr => exact ⟨a, hother hp hdir hr, hr.opened.2.1⟩
  | closed p a opened d0 h1 h' hp hdir hr hclosed =>
    exact ⟨a, hother hp hdir hr, hr.opened.2.1.comp hclosed.frame⟩

/-- What `dosdev_close` does with the descriptor `c`: after the directory entry has been written,
    it is unused or gone, or there is another handle on it. -/
structure Dismissed (h : State) (pd c : Nat) (h' : State) : Prop where
  forest : Forest h'
  steps : ∃ h1, Forest h1 ∧ Flushed h pd h1 ∧ Frame (· = c) h1 h' ∧
    (h'.IsFd c → (h'.fd c).owner = 0 ∨
      (h1.IsFd c ∧ (h'.fd c).owner = (h1.fd c).owner ∧ (h'.fd c).mode = (h1.fd c).mode ∧
        (h'.fd c).multi1 = (h1.fd c).multi1))

/-- `dosdev_close` keeps the forest. -/
theorem dosdevClose_spec (ok : Forest h) (pd : Nat) {c : Nat} (hc : h.IsFd c)
    (hfile : (h.fd (h.fd c).multi1).subdir = false) (changed : Option FlushIo)
    (hio : ∀ io, changed = some io → 0 ≤ io.opened) (closed : Int) :
    dosdevClose h pd c changed closed = .error .noBlock ∨
      ∃ h' d0, dosdevClose h pd c changed closed = .ok (h', d0) ∧ Dismissed h pd c h' := by
  have hsafe : ∀ {g : State}, Forest g → (g.fd (g.fd c).multi1).subdir = false → g.Proto c →
      (g.fd c).multi = 0 → (g.fd c).children = 0 ∧ (g.fd c).parent ≠ 0 := by
    intro g hg hgfile hp _
    rw [hp.2] at hgfile
    exact hg.childless hp hgfile
  by_cases href : (h.fd c).refcnt = 0
  · right
    rcases freeFd_spec ok hc (hsafe ok hfile) with ⟨h', hrun, hforest, hframe, howner, _⟩
    refine ⟨h', 0, ?_, hforest, h, ok, .idle, hframe, fun hfd => .inl (howner hfd)⟩
    simp only [dosdevClose, if_pos href, hrun, bind, Except.bind, pure, Except.pure]
  · rcases fflush_spec ok pd hc changed hio with herr | ⟨h1, d7, hflush, hok1, hflushed⟩
    · left
      simp only [dosdevClose, if_neg href, herr, bind, Except.bind]
    · right
      rcases hflushed.file ok hc hfile (.inr href) with ⟨r, hrc, hframe⟩
      have hc1 := hframe.keep c hc hrc.symm (.inr href)
      by_cases hneg : (h1.fd c).refcnt < 0
      · refine ⟨h1, if closed < 0 then closed else d7, ?_, hok1, h1, hok1, hflushed,
          Frame.refl _ h1, fun _ => .inr ⟨hc1, rfl, rfl, rfl⟩⟩
        simp only [dosdevClose, if_neg href, hflush, bind, Except.bind, if_pos hneg, pure,
          Except.pure]
      · -- The prototype of a file is still there, and still that of a file.
        have hm1 := Fd.read_of Fd.core (hframe.core c hc1 hrc.symm).2 Fd.multi1 fun _ => rfl
        have hp1 := hok1.proto c hc1
        have hfile1 : (h1.fd (h1.fd c).multi1).subdir = false := by
          have hplace := (hframe.proto _ hp1).2
          rw [Fd.read_of Fd.place hplace Fd.subdir fun _ => rfl, hm1]
          exact hfile
        have href1 : (h1.fd c).refcnt = (h.fd c).refcnt :=
          Fd.read_of Fd.core (hframe.core c hc1 hrc.symm).2 Fd.refcnt fun _ => rfl
        let h2 := h1.upd c fun f => { f with refcnt := f.refcnt - 1 }
        have hok2 : Forest h2 := hok1.upd c _ rfl rfl
        have hself : h2.fd c = { h1.fd c with refcnt := (h1.fd c).refcnt - 1 } := by
          rw [State.upd_fd, if_pos rfl]
        have hframe2 : Frame (· = c) h1 h2 := by
          refine Frame.upd h1 c _ rfl (.inr ?_)
          show 0 ≤ (h1.fd c).refcnt - 1
          omega
        by_cases hzero : (h2.fd c).refcnt = 0
        · have hfile2 : (h2.fd (h2.fd c).multi1).subdir = false := by
            have hm2 : (h2.fd c).multi1 = (h1.fd c).multi1 := by rw [hself]
            rw [hm2, State.upd_fd]
            split
            · rename_i hmc
              rw [hmc] at hfile1
              exact hfile1
            · exact hfile1
          have hc2 : h2.IsFd c := hc1
          obtain ⟨h', hrun, hforest, hframe3, howner, _⟩ :=
            freeFd_spec hok2 hc2 (hsafe hok2 hfile2)
          refine ⟨h', if closed < 0 then closed else d7, ?_, hforest, h1, hok1, hflushed,
            hframe2.comp hframe3, fun hfd => .inl (howner hfd)⟩
          simp only [dosdevClose, if_neg href, hflush, bind, Except.bind, if_neg hneg, pure,
            Except.pure, ne_eq, h2] at hrun hzero ⊢
          simp only [hzero, not_true_eq_false, if_false, hrun]
        · refine ⟨h2, if closed < 0 then closed else d7, ?_, hok2, h1, hok1, hflushed, hframe2,
            fun _ => .inr ⟨hc1, ?_, ?_, ?_⟩⟩
          · simp only [dosdevClose, if_neg href, hflush, bind, Except.bind, if_neg hneg, pure,
              Except.pure, ne_eq, h2] at hzero ⊢
            simp only [hzero, not_false_eq_true, if_true]
          · rw [hself]
          · rw [hself]
          · rw [hself]

end

end Xfs

end MagiC
