import MagiC.Xfs.Close

/-!
# Finding and Opening Files

A file that has a prototype is found on the list of children of its directory,
by the position of its entry. `_dxfs_fopen` opens the directory, finds or
creates the entry there, opens the file, and closes the directory again.

The steps on the way differ in which descriptor they touch, and none of them
moves a prototype. So they are all of one kind, `Evolves`: descriptors change in
fields that say nothing about their place, and a prototype that is new has an
entry in its directory that no other prototype has.

## Main definitions

* `Spares`: Descriptors that are held stay as they are.

## Theorems

* `fopOpen_spec`: Opening a file.
-/

namespace MagiC

namespace Xfs

open Chains

/-- The prototype `a` belongs to the entry at the position `d5` of the directory `p`. -/
def At (h : State) (p d5 a : Nat) : Prop :=
  h.Child p a ∧ (h.fd a).dirpos = d5

/-- No prototype moves, and one that is new has an entry that no other one has. -/
inductive Evolves (h : State) : State → Prop where
  | refl : Evolves h h
  | frame (S : Nat → Prop) (h1 h2 : State) : Evolves h h1 → Frame S h1 h2 → Forest h2 →
      Evolves h h2
  | added (a p d5 : Nat) (e : Entry) (h1 h2 : State) : Evolves h h1 → Added h1 h2 a p d5 e →
      Forest h2 → h1.Proto p → (∀ b, ¬ At h1 p d5 b) →
      h1.dirs (h1.fd p).dmd (h1.fd p).stcl d5 = some e → Evolves h h2

/-- Descriptors that are held and not in `T` stay as they are. -/
def Spares (T : Nat → Prop) (h h' : State) : Prop :=
  ∀ b, h.IsFd b → Held h b → ¬ T b → h'.IsFd b ∧ (h'.fd b).core = (h.fd b).core

/-- What is open stays as it is. -/
def SparesOpen (h h' : State) : Prop :=
  ∀ b, h.IsFd b → (h.fd b).owner ≠ 0 → h'.IsFd b ∧ (h'.fd b).core = (h.fd b).core

/-- A descriptor is open for the file of the prototype `p`. -/
structure Open (h : State) (a p : Nat) : Prop where
  fd : h.IsFd a
  multi1 : (h.fd a).multi1 = p
  owner : (h.fd a).owner ≠ 0

/-- The only prototype that is new belongs to the entry at `d5` of `n`, and what is open stays open
    and where it is. -/
structure Grown (n d5 : Nat) (h h' : State) : Prop where
  proto : ∀ a, h'.Proto a → (h.Proto a ∧ (h'.fd a).place = (h.fd a).place) ∨ At h' n d5 a
  stays : ∀ x p, Open h x p → Open h' x p ∧ (h'.fd p).place = (h.fd p).place

section

variable {h : State}

theorem Evolves.trans {h1 h2 : State} (h01 : Evolves h h1) (h12 : Evolves h1 h2) :
    Evolves h h2 := by
  induction h12 with
  | refl => exact h01
  | frame S g g' _ hframe hforest ih => exact ih.frame S g g' hframe hforest
  | added a p d5 e g g' _ hadd hforest hp hnew hentry ih =>
    exact ih.added a p d5 e g g' hadd hforest hp hnew hentry

theorem Evolves.one {S : Nat → Prop} {h' : State} (hf : Frame S h h') (ok' : Forest h') :
    Evolves h h' :=
  Evolves.refl.frame S h h' hf ok'

theorem Evolves.fixed {h' : State} (hev : Evolves h h') :
    h'.dirs = h.dirs ∧ h'.imbx = h.imbx ∧ h'.dmdx = h.dmdx := by
  induction hev with
  | refl => exact ⟨rfl, rfl, rfl⟩
  | frame S g g' _ hf _ ih => exact ⟨hf.dirs.trans ih.1, hf.imbx.trans ih.2.1, hf.dmdx.trans ih.2.2⟩
  | added a p d5 e g g' _ hadd _ _ _ _ ih =>
    exact ⟨hadd.dirs.trans ih.1, hadd.imbx.trans ih.2.1, hadd.dmdx.trans ih.2.2⟩

theorem Evolves.count {h' : State} (hev : Evolves h h') (hc : Counts h) : Counts h' := by
  induction hev with
  | refl => exact hc
  | frame S g g' _ hf _ ih => exact hf.count ih
  | added a p d5 e g g' _ hadd _ _ _ _ ih => exact hadd.count ih

theorem Spares.held {T : Nat → Prop} {h' : State} (hs : Spares T h h') {b : Nat} (hb : h.IsFd b)
    (hheld : Held h b) (hT : ¬ T b) : Held h' b := by
  have hc := (hs b hb hheld hT).2
  simp only [Held, Fd.read_of Fd.core hc Fd.owner fun _ => rfl,
    Fd.read_of Fd.core hc Fd.refcnt fun _ => rfl]
  exact hheld

theorem Spares.refl (T : Nat → Prop) (h : State) : Spares T h h :=
  fun _ hb _ _ => ⟨hb, rfl⟩

theorem Spares.trans {T U V : Nat → Prop} {h1 h2 : State} (h01 : Spares T h h1)
    (h12 : Spares U h1 h2) (hT : ∀ b, h.IsFd b → Held h b → T b → V b)
    (hU : ∀ b, h.IsFd b → Held h b → U b → V b) : Spares V h h2 := by
  intro b hb hheld hV
  have hb1 := h01 b hb hheld (mt (hT b hb hheld) hV)
  have hheld1 := h01.held hb hheld (mt (hT b hb hheld) hV)
  have hb2 := h12 b hb1.1 hheld1 (mt (hU b hb hheld) hV)
  exact ⟨hb2.1, hb2.2.trans hb1.2⟩

theorem Frame.spares {S : Nat → Prop} {h' : State} (hf : Frame S h h') : Spares S h h' := by
  intro b hb hheld hS
  have hb' := hf.keep b hb hS hheld
  exact ⟨hb', (hf.core b hb' hS).2⟩

theorem Added.spares {a p d5 : Nat} {e : Entry} {h' : State} (hadd : Added h h' a p d5 e) :
    Spares NoFd h h' := by
  intro b hb hheld _
  have hb' := hadd.keep b hb hheld
  exact ⟨hb'.1, (hadd.core b hb'.1 hb'.2).2⟩

theorem Frame.was_at {S : Nat → Prop} {h' : State} (hf : Frame S h h') {p d5 a : Nat}
    (ha : At h' p d5 a) : At h p d5 a ∧ (h'.fd a).place = (h.fd a).place := by
  have hb := hf.proto a ha.1.1
  have hpar := Fd.read_of Fd.place hb.2 Fd.parent fun _ => rfl
  have hpos := Fd.read_of Fd.place hb.2 Fd.dirpos fun _ => rfl
  exact ⟨⟨⟨hb.1, hpar.symm.trans ha.1.2⟩, hpos.symm.trans ha.2⟩, hb.2⟩

theorem SparesOpen.trans {h1 h2 : State} (h01 : SparesOpen h h1) (h12 : SparesOpen h1 h2) :
    SparesOpen h h2 := by
  intro b hb howner
  have hb1 := h01 b hb howner
  have howner1 := Fd.read_of Fd.core hb1.2 Fd.owner fun _ => rfl
  have hb2 := h12 b hb1.1 (howner1 ▸ howner)
  exact ⟨hb2.1, hb2.2.trans hb1.2⟩

theorem Open.spared {h' : State} {x p : Nat} (hx : Open h x p) (hs : SparesOpen h h') :
    Open h' x p := by
  have hx' := hs x hx.fd hx.owner
  have hm1 := Fd.read_of Fd.core hx'.2 Fd.multi1 fun _ => rfl
  have howner := Fd.read_of Fd.core hx'.2 Fd.owner fun _ => rfl
  exact ⟨hx'.1, hm1.trans hx.multi1, fun h0 => hx.owner (howner.symm.trans h0)⟩

theorem Grown.refl (n d5 : Nat) (h : State) : Grown n d5 h h :=
  ⟨fun _ ha => .inl ⟨ha, rfl⟩, fun _ _ hx => ⟨hx, rfl⟩⟩

theorem Grown.frame {S : Nat → Prop} {n d5 : Nat} {h1 h2 : State} (hg : Grown n d5 h h1)
    (hf : Frame S h1 h2) (hso : SparesOpen h1 h2) (ok2 : Forest h2) : Grown n d5 h h2 := by
  refine ⟨fun a ha => ?_, fun x p hx => ?_⟩
  · have h1 := hf.proto a ha
    rcases hg.proto a h1.1 with hold | hnew
    · exact .inl ⟨hold.1, h1.2.trans hold.2⟩
    · refine .inr ⟨⟨ha, ?_⟩, ?_⟩
      · rw [Fd.read_of Fd.place h1.2 Fd.parent fun _ => rfl]
        exact hnew.1.2
      · rw [Fd.read_of Fd.place h1.2 Fd.dirpos fun _ => rfl]
        exact hnew.2
  · have hx1 := hg.stays x p hx
    have hx2 := hx1.1.spared hso
    have hp := ok2.proto x hx2.fd
    rw [hx2.multi1] at hp
    exact ⟨hx2, (hf.proto p hp).2.trans hx1.2⟩

theorem Added.grown {a p d5 : Nat} {e : Entry} {h' : State} (hadd : Added h h' a p d5 e)
    (ok' : Forest h') (hat : At h' p d5 a) : Grown p d5 h h' := by
  rcases hadd.fields with ⟨l, n, hfields⟩
  refine ⟨fun b hb => ?_, fun x q hx => ?_⟩
  · by_cases hba : b = a
    · exact .inr (hba ▸ hat)
    · exact .inl (hadd.proto b hb hba)
  · have hkeep := hadd.keep x hx.fd (.inl hx.owner)
    have hcore := (hadd.core x hkeep.1 hkeep.2).2
    have hm := (Fd.read_of Fd.core hcore Fd.multi1 fun _ => rfl).trans hx.multi1
    have howner := Fd.read_of Fd.core hcore Fd.owner fun _ => rfl
    have hqa : q ≠ a := by
      rintro rfl
      exact (ok'.multi_zero hadd.new).mp (by rw [hfields]; rfl) x ⟨hkeep.1, hm, hkeep.2⟩
    have hq := ok'.proto x hkeep.1
    rw [hm] at hq
    exact ⟨⟨hkeep.1, hm, fun h0 => hx.owner (howner.symm.trans h0)⟩, (hadd.proto q hq hqa).2⟩

/-! ### The prototype of an entry -/

theorem childAt_list (d0 : Nat) (l : List Nat) :
    ∀ (n a : Nat), Linked (fun b => (h.fd b).next) 0 a l → l.length < n →
      (∃ b ∈ l, childAt h d0 n a = .ok (some b) ∧ (h.fd b).dirpos = d0) ∨
        (childAt h d0 n a = .ok none ∧ ∀ b ∈ l, (h.fd b).dirpos ≠ d0) := by
  induction l with
  | nil =>
    intro n a hl hn
    rcases Nat.exists_eq_succ_of_ne_zero (Nat.ne_of_gt hn) with ⟨k, rfl⟩
    have ha : a = 0 := hl.1
    right
    exact ⟨by simp only [childAt, ha, if_true], fun b hb => absurd hb List.not_mem_nil⟩
  | cons x xs ih =>
    intro n a hl hn
    obtain ⟨k, rfl⟩ := Nat.exists_eq_succ_of_ne_zero (Nat.ne_of_gt (Nat.lt_of_le_of_lt
      (Nat.zero_le _) hn))
    have hx := (linked_cons x).mp hl
    have hax := hx.1
    subst hax
    by_cases hpos : (h.fd a).dirpos = d0
    · left
      refine ⟨a, List.mem_cons_self, ?_, hpos⟩
      simp only [childAt, if_neg hx.2.1, if_pos hpos]
    · have hrun : childAt h d0 (k + 1) a = childAt h d0 k (h.fd a).next := by
        simp only [childAt, if_neg hx.2.1, if_neg hpos]
      rw [hrun]
      rcases ih k _ hx.2.2 (Nat.lt_of_succ_lt_succ hn) with ⟨b, hb, hr, hbpos⟩ | ⟨hr, hall⟩
      · exact .inl ⟨b, List.mem_cons_of_mem _ hb, hr, hbpos⟩
      · exact .inr ⟨hr, List.forall_mem_cons.mpr ⟨hpos, hall⟩⟩

/-- `file_is_open` finds the prototype of an entry. -/
theorem fileIsOpen_spec (ok : Forest h) {a4 p : Nat} (ha4 : h.IsFd a4)
    (hp : (h.fd a4).multi1 = p) (d0 : Nat) :
    (∃ a, fileIsOpen h a4 d0 = .ok (some a) ∧ At h p d0 a) ∨
      (fileIsOpen h a4 d0 = .ok none ∧ ∀ a, ¬ At h p d0 a) := by
  have hproto := ok.proto a4 ha4
  rw [hp] at hproto
  rcases ok.children p hproto with ⟨l, hl, hmem⟩
  have hshort := ok.short l (linked_nodup hl) fun a ha => by
    rw [((hmem a).mp ha).1.1]
    exact Use.noConfusion
  simp only [fileIsOpen, hp]
  rcases childAt_list d0 l h.turns _ hl hshort with ⟨b, hb, hr, hpos⟩ | ⟨hr, hall⟩
  · exact .inl ⟨b, hr, (hmem b).mp hb, hpos⟩
  · exact .inr ⟨hr, fun a ha => hall a ((hmem a).mpr ha.1) ha.2⟩

theorem Made.evolves {p d5 : Nat} {e : Entry} {made : Int} {h' : State}
    {r : Except Int Nat} (hm : Made h p d5 e made h' r) (hp : h.Proto p)
    (hnew : ∀ b, ¬ At h p d5 b) (hentry : h.dirs (h.fd p).dmd (h.fd p).stcl d5 = some e) :
    Evolves h h' ∧ Spares NoFd h h' ∧ Grown p d5 h h' ∧ ∀ a, r = .ok a → At h' p d5 a := by
  rcases hm.answer with ⟨_, hr, hframe⟩ | ⟨_, a, hr, hadd⟩
  · have hso : SparesOpen h h' := fun b hb howner => hframe.spares b hb (.inl howner) fun hno => hno
    refine ⟨.one hframe hm.forest, hframe.spares, (Grown.refl p d5 h).frame hframe hso hm.forest,
      fun a ha => ?_⟩
    rw [hr] at ha
    cases ha
  · rcases hadd.fields with ⟨l, n, hf⟩
    have hat : At h' p d5 a := by
      refine ⟨⟨hadd.new, ?_⟩, ?_⟩
      · rw [hf]
      · rw [hf]
    refine ⟨Evolves.refl.added a p d5 e h h' hadd hm.forest hp hnew hentry, hadd.spares,
      hadd.grown hm.forest hat, fun b hb => ?_⟩
    rw [hr] at hb
    cases hb
    exact hat

theorem getDd_spec (ok : Forest h) {a4 p : Nat} (d5 : Nat) (e : Entry) (long : Bool) (made : Int)
    (ha4 : h.IsFd a4) (hp : (h.fd a4).multi1 = p) (hdir : (h.fd p).subdir = true)
    (hheld : Held h a4) (hentry : h.dirs (h.fd p).dmd (h.fd p).stcl d5 = some e) :
    getDd h a4 d5 e long made = .error .noBlock ∨
      ∃ h' r, getDd h a4 d5 e long made = .ok (h', r) ∧ Forest h' ∧ Evolves h h' ∧
        Spares NoFd h h' ∧ Grown p d5 h h' ∧ (∀ a, r = .ok a → At h' p d5 a) ∧
        ∀ c, r = .error c → c = made := by
  have hproto := ok.proto a4 ha4
  rw [hp] at hproto
  rcases fileIsOpen_spec ok ha4 hp d5 with ⟨a, hfound, ha⟩ | ⟨hfound, hnone⟩
  · right
    refine ⟨h, .ok a, ?_, ok, .refl, Spares.refl _ h, .refl p d5 h, fun b hb => ?_,
      fun c hc => by cases hc⟩
    · simp only [getDd, hfound, bind, Except.bind, pure, Except.pure]
    · cases hb
      exact ha
  · rcases dir2protoFd_spec ok d5 e long made ha4 hp hdir hheld with herr | ⟨h', r, hrun, hmade⟩
    · left
      simp only [getDd, hfound, bind, Except.bind, herr]
    · right
      have hev := hmade.evolves hproto hnone hentry
      refine ⟨h', r, ?_, hmade.forest, hev.1, hev.2.1, hev.2.2.1, hev.2.2.2, fun c hc => ?_⟩
      · simp only [getDd, hfound, bind, Except.bind, hrun]
      · rcases hmade.answer with ⟨_, hr, _⟩ | ⟨_, a, hr, _⟩
        · rw [hr] at hc
          exact (Except.error.inj hc).symm
        · rw [hr] at hc
          cases hc

/-! ### Opening a file -/

theorem Reopened.spares {pd p : Nat} {d0 : BitVec 16} {opened : Int} {h' : State}
    {r : Except Int Nat} (hr : Reopened h pd p d0 opened h' r) : Spares (· = p) h h' := by
  rcases hr.answer with ⟨_, hsame, _⟩ | ⟨_, a, hframe, _, hfresh, _⟩
  · rw [hsame]
    exact Spares.refl _ h
  · intro b hb hheld hbp
    refine hframe.spares b hb hheld fun hba => ?_
    rcases hfresh with hap | hfresh
    · exact hbp (hba.trans hap)
    · exact hfresh (hba ▸ hb) (hba ▸ hheld)

theorem Reopened.evolves {pd p : Nat} {d0 : BitVec 16} {opened : Int} {h' : State}
    {r : Except Int Nat} (hr : Reopened h pd p d0 opened h' r) : Evolves h h' := by
  rcases hr.frame with ⟨a, hframe⟩
  exact .one hframe hr.forest

/-- What has been opened is a descriptor of the file at `d5` of `p`, and nobody held it. -/
structure Opened (h : State) (p d5 : Nat) (h' : State) (a3 : Nat) : Prop where
  fd : h'.IsFd a3
  held : Held h' a3
  file : (h'.fd (h'.fd a3).multi1).subdir = false
  fresh : ∀ b, h.IsFd b → Held h b → ¬ At h p d5 b → b ≠ a3

theorem countHandle (ok : Forest h) (a3 : Nat) :
    Forest (h.upd a3 fun f => { f with refcnt := 1 }) ∧
      Frame (· = a3) h (h.upd a3 fun f => { f with refcnt := 1 }) ∧
      Held (h.upd a3 fun f => { f with refcnt := 1 }) a3 := by
  refine ⟨ok.upd a3 _ rfl rfl, Frame.upd h a3 _ rfl (.inr Int.one_nonneg), .inr ?_⟩
  rw [State.upd_fd, if_pos rfl]
  exact Int.one_ne_zero

theorem Frame.stays_file {S : Nat → Prop} {h' : State} (hf : Frame S h h')
    (ok' : Forest h') {a q : Nat}
    (ha : h'.IsFd a) (hq : (h'.fd a).multi1 = q) (hfile : (h.fd q).subdir = false) :
    (h'.fd (h'.fd a).multi1).subdir = false := by
  have hp := ok'.proto a ha
  rw [hq] at hp ⊢
  rw [Fd.read_of Fd.place (hf.proto q hp).2 Fd.subdir fun _ => rfl]
  exact hfile

/-- Opening the file of an entry keeps the forest. -/
theorem fopOpen_spec (ok : Forest h) (pd : Nat) {a4 p d5 : Nat} {e : Entry} (d7 : BitVec 16)
    (io : FopenIo) (ha4 : h.IsFd a4) (hp : (h.fd a4).multi1 = p) (hdir : (h.fd p).subdir = true)
    (hheld : Held h a4) (hfile : e.subdir = false)
    (hkind : ∀ a, At h p d5 a → (h.fd a).subdir = false)
    (hentry : h.dirs (h.fd p).dmd (h.fd p).stcl d5 = some e) :
    fopOpen h pd a4 d5 e d7 io = .error .noBlock ∨
      ∃ h' r, fopOpen h pd a4 d5 e d7 io = .ok (h', r) ∧ Forest h' ∧ Evolves h h' ∧
        Spares (At h p d5) h h' ∧ ∀ a3, r = .ok a3 → Opened h p d5 h' a3 := by
  have hproto := ok.proto a4 ha4
  rw [hp] at hproto
  rcases fileIsOpen_spec ok ha4 hp d5 with ⟨a, hfound, ha⟩ | ⟨hfound, hnone⟩
  · -- The file is open: a further descriptor.
    have hafile := hkind a ha
    rcases reopenFd_spec ok pd ha.1.1 d7 io.opened (fun hd => by
      rw [hafile] at hd
      exact Bool.noConfusion hd) with herr | ⟨h1, r, hrun, hre⟩
    · left
      simp only [fopOpen, hfound, bind, Except.bind, herr]
    · right
      have hsp1 : Spares (At h p d5) h h1 := fun b hb hbh hat =>
        hre.spares b hb hbh fun hba => hat (hba ▸ ha)
      cases r with
      | error c =>
        refine ⟨h1, .error c, ?_, hre.forest, hre.evolves, hsp1, fun _ hno => by cases hno⟩
        simp only [fopOpen, hfound, bind, Except.bind, hrun, pure, Except.pure]
      | ok a3 =>
        rcases hre.opened with ⟨_, hf1, hisProto, hfresh, hfd3, hm3, _, _⟩
        rcases countHandle hre.forest a3 with ⟨hok2, hf2, hheld2⟩
        refine ⟨_, .ok a3,
          by simp only [fopOpen, hfound, bind, Except.bind, hrun, pure, Except.pure], hok2,
            hre.evolves.trans (.one hf2 hok2), ?_, fun b hb => ?_⟩
        · refine hsp1.trans hf2.spares (fun _ _ _ hat => hat) fun b hb hbh hba => ?_
          rcases hfresh with hap | hnew
          · exact hba ▸ hap ▸ ha
          · exact absurd (hba ▸ hbh) (hnew (hba ▸ hb))
        · cases hb
          have hfile1 := hf1.stays_file hre.forest hfd3 hm3 hafile
          refine ⟨hfd3, hheld2, hf2.stays_file hok2 hfd3 ?_ hfile1, fun b hb hbh hat hba => ?_⟩
          · rw [State.upd_fd, if_pos rfl]
          · rcases hfresh with hap | hnew
            · exact hat (hba ▸ hap ▸ ha)
            · exact hnew (hba ▸ hb) (hba ▸ hbh)
  · -- A new prototype.
    rcases dir2protoFd_spec ok d5 e io.long io.made ha4 hp hdir hheld with herr |
      ⟨h1, r, hrun, hmade⟩
    · left
      simp only [fopOpen, hfound, bind, Except.bind, herr]
    · right
      rcases hmade.evolves hproto hnone hentry with ⟨hev1, hsp1, _, _⟩
      have hsp1' : Spares (At h p d5) h h1 := fun b hb hbh _ => hsp1 b hb hbh fun hno => hno
      rcases hmade.answer with ⟨_, hr, _⟩ | ⟨_, a3, hr, hadd⟩
      · refine ⟨h1, .error io.made, ?_, hmade.forest, hev1, hsp1', fun _ hno => by cases hno⟩
        simp only [fopOpen, hfound, bind, Except.bind, hrun, hr, pure, Except.pure]
      · rcases hadd.fields with ⟨l, n, hfields⟩
        have hok2 := hmade.forest.upd a3 (fun f => { f with owner := pd, mode := d7 }) rfl rfl
        have hf2 := Frame.upd h1 a3 (fun f => { f with owner := pd, mode := d7 }) rfl (.inl rfl)
        have hnothold : ∀ b, h.IsFd b → Held h b → b ≠ a3 := fun b hb hbh => (hadd.keep b hb hbh).2
        have hself : (h1.upd a3 fun f => { f with owner := pd, mode := d7 }).fd a3 =
            { h1.fd a3 with owner := pd, mode := d7 } := by rw [State.upd_fd, if_pos rfl]
        by_cases hopen : io.opened = 0
        · rcases countHandle hok2 a3 with ⟨hok3, hf3, hheld3⟩
          have hf := hf2.comp hf3
          refine ⟨_, .ok a3, ?_, hok3, hev1.trans (.one hf hok3), ?_, fun b hb => ?_⟩
          · simp only [fopOpen, hfound, bind, Except.bind, hrun, hr, hopen, ne_eq,
              not_true_eq_false, if_false, pure, Except.pure]
          · exact hsp1'.trans hf.spares (fun _ _ _ hat => hat) fun b hb hbh hba =>
              absurd hba (hnothold b hb hbh)
          · cases hb
            refine ⟨hadd.new.1, hheld3, hf.stays_file hok3 hadd.new.1 (q := a3) ?_ ?_,
              fun b hb hbh _ => hnothold b hb hbh⟩
            · rw [State.upd_fd, if_pos rfl, hself]
              exact hadd.new.2
            · rw [hfields]
              exact hfile
        · have hfd2 : (h1.upd a3 fun f => { f with owner := pd, mode := d7 }).IsFd a3 := hadd.new.1
          obtain ⟨h3, hrun3, hok3, hf3, _, _⟩ := freeFd_spec hok2 hfd2 (fun _ _ => by
            rw [hself, hfields]
            exact ⟨rfl, ok.ne_zero hproto.1⟩)
          have hf := hf2.comp hf3
          refine ⟨h3, .error io.opened, ?_, hok3, hev1.trans (.one hf hok3), ?_,
            fun _ hno => by cases hno⟩
          · simp only [fopOpen, hfound, bind, Except.bind, hrun, hr, hopen, ne_eq,
              not_false_eq_true, if_true, hrun3, pure, Except.pure]
          · exact hsp1'.trans hf.spares (fun _ _ _ hat => hat) fun b hb hbh hba =>
              absurd hba (hnothold b hb hbh)

/-- The end of `_dxfs_fopen`: the directory is closed, and the file as well if that fails. -/
def fopClose (h : State) (a4 : Nat) (closedDir : Int) (r : Except Int Nat) :
    Except Fault (State × Except Int Nat) := do
  if diskGone r then return (h, r)
  else do
    let (h, d0) ← closeDd h a4 closedDir
    if d0 = 0 then return (h, r)
    else if d0 = ECHNG ∨ d0 = EDRIVE then return (h, .error d0)
    else match r with
      | .error c => return (h, .error c)
      | .ok a3 => do
        let h ← freeFd h a3
        return (h, .error d0)

theorem fopClose_spec (ok : Forest h) {a4 : Nat} (closedDir : Int) (r : Except Int Nat)
    (ha4 : h.IsFd a4) (hr : ∀ a3, r = .ok a3 →
      h.IsFd a3 ∧ Held h a3 ∧ (h.fd (h.fd a3).multi1).subdir = false ∧ a3 ≠ a4) :
    ∃ h' r', fopClose h a4 closedDir r = .ok (h', r') ∧ Forest h' ∧ Evolves h h' := by
  by_cases hgone : diskGone r = true
  · exact ⟨h, r, by simp only [fopClose, hgone, if_true, pure, Except.pure], ok, .refl⟩
  · rcases closeDd_spec ok ha4 closedDir with ⟨h3, hrun3, hclosed⟩
    have hev3 : Evolves h h3 := .one hclosed.frame hclosed.forest
    simp only [fopClose, if_neg hgone, hrun3, bind, Except.bind, pure, Except.pure]
    by_cases hzero : closedDir = 0
    · exact ⟨h3, r, by rw [if_pos hzero], hclosed.forest, hev3⟩
    · rw [if_neg hzero]
      by_cases hchng : closedDir = ECHNG ∨ closedDir = EDRIVE
      · exact ⟨h3, _, by rw [if_pos hchng], hclosed.forest, hev3⟩
      · rw [if_neg hchng]
        cases r with
        | error c => exact ⟨h3, _, rfl, hclosed.forest, hev3⟩
        | ok a3 =>
          rcases hr a3 rfl with ⟨hfd3, hheld3, hfile3, hne⟩
          -- The file is held, so closing the directory leaves it alone.
          have hkept := hclosed.frame.spares a3 hfd3 hheld3 hne
          have hm := Fd.read_of Fd.core hkept.2 Fd.multi1 fun _ => rfl
          have hfile := hclosed.frame.stays_file hclosed.forest hkept.1 hm hfile3
          obtain ⟨h4, hrun4, hok4, hf4, _, _⟩ := freeFd_spec hclosed.forest hkept.1 (by
            intro hp _
            rw [hp.2] at hfile
            exact hclosed.forest.childless hp hfile)
          exact ⟨h4, .error closedDir, by simp only [hrun4], hok4, hev3.trans (.one hf4 hok4)⟩

/-- The entry `e` is stored at the position `d5` of the directory `p`. -/
def enter (h : State) (p d5 : Nat) (e : Entry) : State :=
  h.setDir (h.fd p).dmd (h.fd p).stcl
    (Function.update (h.dirs (h.fd p).dmd (h.fd p).stcl) d5 (some e))

/-- What `_dxfs_fopen` does: no prototype moves, before the entry has been found and after it has
    been created. -/
structure Fopened (h : State) (d : Nat) (io : FopenIo) (h' : State) : Prop where
  forest : Forest h'
  evolves : Evolves h h' ∨ ∃ h1 d5 e, io.entry = .ok (d5, e) ∧ Forest h1 ∧ Evolves h h1 ∧
    h1.Proto d ∧ (h1.fd d).place = (h.fd d).place ∧ Evolves (enter h1 d d5 e) h'

/-- `_dxfs_fopen` keeps the forest. The entry that has been found is not that of a directory. -/
theorem dxfsFopen_spec (ok : Forest h) {pd d : Nat} (d2 d7 : BitVec 16) (io : FopenIo)
    (hpd : pd ≠ 0)
    (hd : h.Proto d) (hdir : (h.fd d).subdir = true) (hopen : 0 ≤ io.openedDir)
    (hfile : ∀ d5 e, io.entry = .ok (d5, e) → e.subdir = false ∧
      ∀ a, At h d d5 a → (h.fd a).subdir = false) :
    dxfsFopen h pd d d2 d7 io = .error .noBlock ∨
      ∃ h' r, dxfsFopen h pd d d2 d7 io = .ok (h', r) ∧ Fopened h d io h' := by
  rcases reopenFd_spec ok pd hd d2 io.openedDir (fun _ => hopen) with herr | ⟨h1, r, hrun, hre⟩
  · left
    simp only [dxfsFopen, herr, bind, Except.bind]
  · cases r with
    | error c =>
      right
      refine ⟨h1, .error c, ?_, hre.forest, .inl hre.evolves⟩
      simp only [dxfsFopen, hrun, bind, Except.bind, pure, Except.pure]
    | ok a4 =>
      rcases hre.opened with ⟨_, hf1, _, _, hfd4, hm4, howner4, _⟩
      have hd1 := hre.forest.proto a4 hfd4
      rw [hm4] at hd1
      have hdir1 : (h1.fd d).subdir = true :=
        (Fd.read_of Fd.place (hf1.proto d hd1).2 Fd.subdir fun _ => rfl).trans hdir
      have hheld4 : Held h1 a4 := .inl (howner4 ▸ hpd)
      have hdmd4 : (h1.fd a4).dmd = (h1.fd d).dmd := by
        by_cases had : a4 = d
        · rw [had]
        · exact hre.forest.cloneDmd d a4 ⟨hfd4, hm4, had⟩
      cases hentry : io.entry with
      | error c =>
        obtain ⟨h', r', hrun', hok', hev'⟩ :=
          fopClose_spec hre.forest io.closedDir (.error c) hfd4 fun _ hno => by cases hno
        right
        refine ⟨h', r', ?_, hok', .inl (hre.evolves.trans hev')⟩
        rw [← hrun']
        simp only [dxfsFopen, hrun, bind, Except.bind, hentry, pure, Except.pure]
        rfl
      | ok x =>
        rcases x with ⟨d5, e⟩
        rcases hfile d5 e hentry with ⟨hefile, hkind⟩
        let h2 := enter h1 d d5 e
        have hok2 : Forest h2 := hre.forest.setDir _ _ _
        have hstep : dxfsFopen h pd d d2 d7 io =
            (fopOpen h2 pd a4 d5 e d7 io).bind fun x => fopClose x.1 a4 io.closedDir x.2 := by
          simp only [dxfsFopen, hrun, bind, Except.bind, hentry, State.entries, hm4, hdmd4]
          rfl
        have hin : h2.dirs (h2.fd d).dmd (h2.fd d).stcl d5 = some e := by
          show (enter h1 d d5 e).dirs (h1.fd d).dmd (h1.fd d).stcl d5 = some e
          simp only [enter, State.setDir, Function.update_self]
        have hkind2 : ∀ a, At h2 d d5 a → (h2.fd a).subdir = false := by
          intro a ha
          have hwas := hf1.was_at (show At h1 d d5 a from ha)
          show (h1.fd a).subdir = false
          rw [Fd.read_of Fd.place hwas.2 Fd.subdir fun _ => rfl]
          exact hkind a hwas.1
        rcases fopOpen_spec hok2 pd d7 io (show h2.IsFd a4 from hfd4) hm4 hdir1 hheld4 hefile hkind2
          hin with herr | ⟨h3, r3, hrun3, hok3, hev3, hsp3, hopened⟩
        · left
          rw [hstep, herr]
          rfl
        · right
          -- The directory is none of the files.
          have hnot : ¬ At h2 d d5 a4 := by
            intro hat
            have hself : a4 = d := hat.1.1.2.symm.trans hm4
            have hfile4 := hkind2 a4 hat
            rw [hself] at hfile4
            exact Bool.noConfusion (hfile4.symm.trans hdir1)
          have ha4 := hsp3 a4 hfd4 hheld4 hnot
          obtain ⟨h', r', hrun', hok', hev'⟩ := fopClose_spec hok3 io.closedDir r3 ha4.1
            fun a3 ha3 => ⟨(hopened a3 ha3).fd, (hopened a3 ha3).held, (hopened a3 ha3).file,
              ((hopened a3 ha3).fresh a4 hfd4 hheld4 hnot).symm⟩
          refine ⟨h', r', ?_, hok', .inr ⟨h1, d5, e, hentry, hre.forest, hre.evolves, hd1,
            (hf1.proto d hd1).2, hev3.trans hev'⟩⟩
          rw [hstep, hrun3]
          exact hrun'

end

end Xfs

end MagiC
