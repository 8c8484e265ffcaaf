import MagiC.Xfs.Find

/-!
# Renaming Files

`dxfs_frename` writes the new entry, moves the descriptor of the file to the
list of its new directory, corrects the `..` of a directory and deletes the old
entry.

## Main definitions

* `Moved`: A prototype has gone to another directory.

## Theorems

* `Forest.move`: A prototype goes to another list.
-/

namespace MagiC

namespace Xfs

open Chains

/-- A descriptor without its links and its position in the tree. -/
def Fd.loose (f : Fd) : Fd :=
  { f.core with parent := 0, dirpos := 0 }

section

variable {h : State}

/-- A prototype of a directory has gone to another directory of the drive, as far as the fields
    that are not links say it. -/
structure Rehung (h h' : State) (c n d5 : Nat) : Prop where
  proto : h.Proto c
  parent : (h.fd c).parent ≠ 0
  target : h.Proto n
  dir : (h.fd n).subdir = true
  drive : (h.fd c).dmd = (h.fd n).dmd
  core : ∀ b, b ≠ c → (h'.fd b).core = (h.fd b).core
  self : (h'.fd c).core = Fd.core { h.fd c with parent := n, dirpos := d5 }
  use : h'.use = h.use
  imbx : h'.imbx = h.imbx
  dmdx : h'.dmdx = h.dmdx
  multi : ∀ b, (h'.fd b).multi = (h.fd b).multi
  next : ∀ b, h.Proto b → (h.fd b).parent = 0 → (h'.fd b).next = (h.fd b).next

namespace Rehung

variable {h' : State} {b c n p d5 : Nat} (hm : Rehung h h' c n d5)

include hm

theorem loose (b : Nat) : (h'.fd b).loose = (h.fd b).loose := by
  by_cases hbc : b = c
  · rw [hbc, Fd.loose, hm.self]
    rfl
  · rw [Fd.loose, hm.core b hbc]
    rfl

theorem read {α : Type} (r : Fd → α) (hr : ∀ f, r f.loose = r f)
    (b : Nat) : r (h'.fd b) = r (h.fd b) :=
  Fd.read_of Fd.loose (hm.loose b) r hr

theorem multi1 (b : Nat) : (h'.fd b).multi1 = (h.fd b).multi1 :=
  hm.read Fd.multi1 (fun _ => rfl) b

theorem subdir (b : Nat) : (h'.fd b).subdir = (h.fd b).subdir :=
  hm.read Fd.subdir (fun _ => rfl) b

theorem longname (b : Nat) : (h'.fd b).longname = (h.fd b).longname :=
  hm.read Fd.longname (fun _ => rfl) b

theorem dmd (b : Nat) : (h'.fd b).dmd = (h.fd b).dmd :=
  hm.read Fd.dmd (fun _ => rfl) b

theorem new_parent : (h'.fd c).parent = n :=
  Fd.read_of Fd.core hm.self Fd.parent fun _ => rfl

theorem old_parent (hbc : b ≠ c) :
    (h'.fd b).parent = (h.fd b).parent :=
  Fd.read_of Fd.core (hm.core b hbc) Fd.parent fun _ => rfl

theorem isFd_iff : h'.IsFd b ↔ h.IsFd b := by
  rw [State.IsFd, State.IsFd, hm.use]

theorem proto_iff : h'.Proto b ↔ h.Proto b := by
  rw [State.Proto, State.Proto, hm.use, hm.multi1]

theorem clone_iff : h'.Clone p b ↔ h.Clone p b := by
  rw [State.Clone, State.Clone, hm.use, hm.multi1]

theorem child_iff :
    h'.Child p b ↔ (h.Child p b ∧ b ≠ c) ∨ (b = c ∧ p = n) := by
  rw [State.Child, hm.proto_iff]
  by_cases hbc : b = c
  · subst hbc
    rw [hm.new_parent]
    constructor
    · rintro ⟨_, hp⟩
      exact .inr ⟨rfl, hp.symm⟩
    · rintro (⟨_, hno⟩ | ⟨_, hp⟩)
      · exact absurd rfl hno
      · exact ⟨hm.proto, hp.symm⟩
  · rw [hm.old_parent hbc]
    constructor
    · intro hb
      exact .inl ⟨hb, hbc⟩
    · rintro (⟨hb, _⟩ | ⟨hno, _⟩)
      · exact hb
      · exact absurd hno hbc

/-- Only the prototype that moves has another parent, and none of the two is a root. -/
theorem root_iff (ok : Forest h) :
    (h'.fd b).parent = 0 ↔ (h.fd b).parent = 0 := by
  by_cases hbc : b = c
  · rw [hbc, hm.new_parent]
    exact ⟨fun h0 => absurd h0 (ok.ne_zero hm.target.1), fun h0 => absurd h0 hm.parent⟩
  · rw [hm.old_parent hbc]

theorem proto_parent (ok : Forest h) (hb : h'.Proto b)
    (hpar : (h'.fd b).parent ≠ 0) :
    h'.Proto (h'.fd b).parent ∧ (h'.fd (h'.fd b).parent).subdir = true := by
  have hb' := hm.proto_iff.mp hb
  by_cases hbc : b = c
  · rw [hbc, hm.new_parent, hm.proto_iff, hm.subdir]
    exact ⟨hm.target, hm.dir⟩
  · rw [hm.old_parent hbc] at hpar ⊢
    rw [hm.proto_iff, hm.subdir]
    exact ok.parent b hb' hpar

theorem clone_parent (ok : Forest h) (hb : h'.Clone p b) :
    (h'.fd b).parent = 0 := by
  have hb' := hm.clone_iff.mp hb
  have hbc : b ≠ c := by
    rintro rfl
    exact hb'.2.2 (hm.proto.2.symm.trans hb'.2.1)
  rw [hm.old_parent hbc]
  exact ok.cloneParent p b hb'

theorem child_dmd (ok : Forest h) (hb : h'.Proto b)
    (hpar : (h'.fd b).parent ≠ 0) : (h'.fd b).dmd = (h'.fd (h'.fd b).parent).dmd := by
  have hb' := hm.proto_iff.mp hb
  by_cases hbc : b = c
  · rw [hbc, hm.new_parent, hm.dmd, hm.dmd]
    exact hm.drive
  · rw [hm.old_parent hbc] at hpar ⊢
    rw [hm.dmd, hm.dmd]
    exact ok.childDmd b hb' hpar

end Rehung

/-- A prototype goes to the list of another directory; it remains to be said that the lists are
    right. -/
theorem Forest.move (ok : Forest h) {h' : State} {c n d5 : Nat} (hm : Rehung h h' c n d5)
    (hchildren : ∀ p, h.Proto p → ∃ l, Linked (fun b => (h'.fd b).next) 0 (h'.fd p).children l ∧
      ∀ a, a ∈ l ↔ (h.Child p a ∧ a ≠ c) ∨ (a = c ∧ p = n)) : Forest h' := by
  refine
    { null := hm.imbx ▸ ok.null, pool := by rw [hm.use, hm.imbx]; exact ok.pool, proto := ?_,
      clones := ?_, children := ?_, parent := fun b => hm.proto_parent ok, root := ?_,
      rootProto := ?_, rootDir := ?_, rootNext := ?_, cloneParent := fun p b => hm.clone_parent ok,
      name := ?_, names := ?_, cloneDmd := ?_, childDmd := fun b => hm.child_dmd ok }
  · intro b hb
    rw [hm.multi1, hm.proto_iff]
    exact ok.proto b (hm.isFd_iff.mp hb)
  · intro p hp
    rw [hm.multi]
    exact listed_congr (ok.clones p (hm.proto_iff.mp hp)) (fun b _ => hm.multi b) fun _ =>
      hm.clone_iff.symm
  · intro p hp
    exact listed_congr (hchildren p (hm.proto_iff.mp hp)) (fun _ _ => rfl) fun _ =>
      hm.child_iff.symm
  · intro b hb
    rw [hm.root_iff ok, hm.dmdx]
    exact ok.root b (hm.proto_iff.mp hb)
  · intro b hb h0
    rw [hm.dmdx] at hb
    exact hm.proto_iff.mpr (ok.rootProto b hb h0)
  · intro b hb hpar
    rw [hm.subdir]
    exact ok.rootDir b (hm.proto_iff.mp hb) ((hm.root_iff ok).mp hpar)
  · intro b hb hpar
    have hb' := hm.proto_iff.mp hb
    have hpar' := (hm.root_iff ok).mp hpar
    rw [hm.next b hb' hpar']
    exact ok.rootNext b hb' hpar'
  · intro b hb hbn
    rw [hm.longname] at hbn ⊢
    rw [hm.use]
    exact ok.name b (hm.isFd_iff.mp hb) hbn
  · intro a b ha hb hn hab
    rw [hm.longname] at hn
    rw [hm.longname, hm.longname] at hab
    exact ok.names a b (hm.isFd_iff.mp ha) (hm.isFd_iff.mp hb) hn hab
  · intro p b hb
    rw [hm.dmd, hm.dmd]
    exact ok.cloneDmd p b (hm.clone_iff.mp hb)

/-- A prototype has gone to the entry at `d5` of the directory `n`. All other descriptors keep
    every field that is no link, and nothing that is held vanishes. -/
structure Moved (h h' : State) (a0 n d5 : Nat) : Prop where
  core : ∀ b, h'.IsFd b → b ≠ a0 → h.IsFd b ∧ (h'.fd b).core = (h.fd b).core
  proto : ∀ b, h'.Proto b → b ≠ a0 → h.Proto b ∧ (h'.fd b).place = (h.fd b).place
  self : h'.IsFd a0 ∧
    ∃ l, (h'.fd a0).core = Fd.core { h.fd a0 with parent := n, dirpos := d5, longname := l }
  keep : ∀ b, h.IsFd b → Held h b → h'.IsFd b
  count : Counts h → Counts h'
  imbx : h'.imbx = h.imbx
  dmdx : h'.dmdx = h.dmdx
  dirs : h'.dirs = h.dirs

/-- A prototype that has been taken off its list is put on that of the directory `n`. -/
def linkChild (h : State) (a0 n d5 : Nat) : State :=
  ((h.upd a0 fun f => { f with next := (h.fd n).children }).upd n fun f =>
    { f with children := a0 }).upd a0 fun f => { f with dirpos := d5, parent := n }

theorem linkChild_fd (h : State) (a0 n d5 b : Nat) :
    (linkChild h a0 n d5).fd b =
      if b = a0 then
        if a0 = n then
          { h.fd a0 with next := (h.fd n).children, children := a0, dirpos := d5, parent := n }
        else { h.fd a0 with next := (h.fd n).children, dirpos := d5, parent := n }
      else if b = n then { h.fd n with children := a0 }
      else h.fd b := by
  by_cases hba : b = a0
  · subst hba
    by_cases hbn : b = n
    · subst hbn
      simp [linkChild]
    · simp [linkChild, hbn]
  · by_cases hbn : b = n
    · subst hbn
      simp [linkChild, hba]
    · simp [linkChild, hba, hbn]

theorem Forest.relink (ok : Forest h) {a0 n : Nat} (d5 : Nat) (ha0 : h.Proto a0)
    (hpar : (h.fd a0).parent ≠ 0) (hn : h.Proto n) (hdir : (h.fd n).subdir = true)
    (hdmd : (h.fd a0).dmd = (h.fd n).dmd) :
    ∃ h1, Xfs.unlistNext h a0 = .ok h1 ∧ Forest (linkChild h1 a0 n d5) ∧
      Moved h (linkChild h1 a0 n d5) a0 n d5 := by
  rcases ok.unlistNext ha0 hpar with ⟨h1, hun, hr, huse, hmulti, hnext, hlists⟩
  have hfd := linkChild_fd h1 a0 n d5
  have hcore1 : ∀ b, b ≠ a0 → ((linkChild h1 a0 n d5).fd b).core = (h1.fd b).core := by
    intro b hb
    rw [hfd, if_neg hb]
    split
    · rename_i hbn
      rw [hbn]
      rfl
    · rfl
  have hcore : ∀ b, b ≠ a0 → ((linkChild h1 a0 n d5).fd b).core = (h.fd b).core :=
    fun b hb => (hcore1 b hb).trans (hr.core b)
  have hself : ((linkChild h1 a0 n d5).fd a0).core =
      Fd.core { h.fd a0 with parent := n, dirpos := d5 } := by
    have hc1 : Fd.core { h1.fd a0 with parent := n, dirpos := d5 } =
        Fd.core { h.fd a0 with parent := n, dirpos := d5 } :=
      congrArg (fun f : Fd => { f with parent := n, dirpos := d5 }) (hr.core a0)
    rw [hfd, if_pos rfl, ← hc1]
    split <;> rfl
  have hmulti' : ∀ b, ((linkChild h1 a0 n d5).fd b).multi = (h.fd b).multi := by
    intro b
    rw [← hmulti b, hfd]
    split
    · rename_i hb
      rw [hb]
      split <;> rfl
    · split
      · rename_i hb
        rw [hb]
      · rfl
  have hnext' : ∀ b, b ≠ a0 → ((linkChild h1 a0 n d5).fd b).next = (h1.fd b).next := by
    intro b hb
    rw [hfd, if_neg hb]
    split
    · rename_i hbn
      rw [hbn]
    · rfl
  have hchildren' : ∀ p, p ≠ n →
      ((linkChild h1 a0 n d5).fd p).children = (h1.fd p).children := by
    intro p hp
    by_cases hpa : p = a0
    · subst hpa
      rw [hfd, if_pos rfl, if_neg hp]
    · rw [hfd, if_neg hpa, if_neg hp]
  have huse' : (linkChild h1 a0 n d5).use = h.use := huse
  refine ⟨h1, hun, ?_, ?_⟩
  · refine ok.move ⟨ha0, hpar, hn, hdir, hdmd, hcore, hself, huse', hr.imbx, hr.dmdx, hmulti',
      fun b hb h0 => ?_⟩ fun p hp => ?_
    · have hba : b ≠ a0 := fun hba => hpar (hba ▸ h0)
      exact (hnext' b hba).trans (hnext b hb h0)
    · by_cases hpn : p = n
      · subst hpn
        -- The prototype is the new head of the list.
        have hhead : ((linkChild h1 a0 p d5).fd p).children = a0 := by
          rw [hfd]
          split
          · rename_i hpa
            rw [if_pos hpa.symm]
          · rw [if_pos rfl]
        rw [hhead]
        refine listed_push a0 (hlists p hp) (ok.ne_zero ha0.1) ?_ (fun b hb => hnext' b hb.2)
          fun b => by simp only [and_true, or_comm]
        rw [hfd, if_pos rfl]
        split <;> rfl
      · rw [hchildren' p hpn]
        exact listed_congr (hlists p hp) (fun b hb => hnext' b hb.2) fun b =>
          ⟨.inl, fun hb => hb.resolve_right fun hb => hpn hb.2⟩
  · refine ⟨fun b hb hba => ⟨?_, hcore b hba⟩, fun b hb hba => ⟨⟨?_, ?_⟩, ?_⟩, ⟨?_, _, hself⟩,
      fun b hb _ => ?_, fun hc b hb hsd => ?_, hr.imbx, hr.dmdx, hr.dirs⟩
    · rw [State.IsFd, huse'] at hb
      exact hb
    · rw [State.Proto, huse'] at hb
      exact hb.1
    · rw [← Fd.read_of Fd.core (hcore b hba) Fd.multi1 fun _ => rfl]
      exact hb.2
    · exact congrArg (fun f : Fd => { f with refcnt := 0, mode := 0, owner := 0, longname := 0 })
        (hcore b hba)
    · rw [State.IsFd, huse']
      exact ha0.1
    · rw [State.IsFd, huse']
      exact hb
    · rw [State.IsFd, huse'] at hb
      by_cases hba : b = a0
      · subst hba
        rw [Fd.read_of Fd.core hself Fd.subdir fun _ => rfl] at hsd
        rw [Fd.read_of Fd.core hself Fd.refcnt fun _ => rfl]
        exact hc b hb hsd
      · rw [Fd.read_of Fd.core (hcore b hba) Fd.subdir fun _ => rfl] at hsd
        rw [Fd.read_of Fd.core (hcore b hba) Fd.refcnt fun _ => rfl]
        exact hc b hb hsd

/-- The long name of a descriptor is freed. -/
def withoutName (h : State) (x : Nat) : State :=
  (h.upd x fun f => { f with longname := 0 }).setUse (h.fd x).longname .free

theorem Forest.withoutName (ok : Forest h) {x : Nat} (hx : h.IsFd x)
    (hlong : (h.fd x).longname ≠ 0) :
    Forest (Xfs.withoutName h x) ∧ Frame (· = x) h (Xfs.withoutName h x) ∧
      (Xfs.withoutName h x).IsFd x := by
  have hname := ok.name x hx hlong
  have hfd : ∀ b, (Xfs.withoutName h x).fd b = if b = x then { h.fd x with longname := 0 }
    else h.fd b := by
    intro b
    simp only [Xfs.withoutName, State.setUse_fd, State.upd_fd]
  have huse : ∀ b, (Xfs.withoutName h x).use b = if b = (h.fd x).longname then .free
    else h.use b := by
    intro b
    simp only [Xfs.withoutName, State.setUse_use, State.upd_use]
  have hisfd : ∀ b, (Xfs.withoutName h x).IsFd b ↔ h.IsFd b := by
    intro b
    rw [State.IsFd, huse]
    split
    · rename_i hb
      rw [State.IsFd, hb, hname]
      exact ⟨fun h => Use.noConfusion h, fun h => Use.noConfusion h⟩
    · exact Iff.rfl
  have hlongof : ∀ b, ((Xfs.withoutName h x).fd b).longname ≠ 0 →
      b ≠ x ∧ ((Xfs.withoutName h x).fd b).longname = (h.fd b).longname := by
    intro b hb
    rw [hfd] at hb ⊢
    split at hb
    · exact absurd rfl hb
    · rename_i hbx
      exact ⟨hbx, by rw [if_neg hbx]⟩
  refine ⟨?_,
    ⟨fun b hb hbx => ⟨(hisfd b).mp hb, ?_⟩, fun b hb => ?_, fun b hb _ _ => (hisfd b).mpr hb,
      fun hc b hb hsd => ?_, rfl, rfl, rfl⟩, (hisfd x).mpr hx⟩
  · refine ok.same rfl rfl hisfd (fun b hb => ?_) (fun b hb => ?_) (fun b hb hbn => ?_)
      fun b c hb hc hbn hbc => ?_
    · rw [huse] at hb
      split at hb
      · exact absurd rfl hb
      · exact ok.pool b hb
    · rw [hfd]
      split
      · rename_i hbx
        rw [hbx]
        rfl
      · rfl
    · -- The block that is freed was the name of one descriptor only.
      have hb' := hlongof b hbn
      rw [hb'.2] at hbn ⊢
      rw [huse, if_neg]
      · exact ok.name b hb hbn
      · intro hbx
        exact hb'.1 (ok.names b x hb hx hbn hbx)
    · have hb' := hlongof b hbn
      have hc' := hlongof c (hbc ▸ hbn)
      rw [hb'.2] at hbn hbc
      rw [hc'.2] at hbc
      exact ok.names b c hb hc hbn hbc
  · rw [hfd, if_neg hbx]
  · have hplace : ((Xfs.withoutName h x).fd b).place = (h.fd b).place := by
      rw [hfd]
      split
      · rename_i hbx
        rw [hbx]
        rfl
      · rfl
    refine ⟨⟨(hisfd b).mp hb.1, ?_⟩, hplace⟩
    rw [← Fd.read_of Fd.place hplace Fd.multi1 fun _ => rfl]
    exact hb.2
  · rw [hfd] at hsd ⊢
    split at hsd
    · rename_i hbx
      rw [if_pos hbx]
      exact hc x hx hsd
    · rename_i hbx
      rw [if_neg hbx]
      exact hc b ((hisfd b).mp hb) hsd

theorem Moved.name {h1 h2 : State} {a0 n d5 : Nat} (hm : Moved h h1 a0 n d5)
    (hf : Frame (· = a0) h1 h2) (hfd : h2.IsFd a0) {l : Nat}
    (hcore : (h2.fd a0).core = Fd.core { h1.fd a0 with longname := l }) : Moved h h2 a0 n d5 := by
  rcases hm.self with ⟨_, k, hself⟩
  refine ⟨fun b hb hba => ?_, fun b hb hba => ?_, ⟨hfd, l, ?_⟩, fun b hb hheld => ?_,
    fun hc => hf.count (hm.count hc), hf.imbx.trans hm.imbx, hf.dmdx.trans hm.dmdx,
    hf.dirs.trans hm.dirs⟩
  · have h2 := hf.core b hb hba
    have h1 := hm.core b h2.1 hba
    exact ⟨h1.1, h2.2.trans h1.2⟩
  · have h2 := hf.proto b hb
    have h1 := hm.proto b h2.1 hba
    exact ⟨h1.1, h2.2.trans h1.2⟩
  · calc (h2.fd a0).core = { (h1.fd a0).core with longname := l } := hcore
      _ = _ := by
        rw [hself]
        rfl
  · by_cases hba : b = a0
    · exact hba ▸ hfd
    · have hb1 := hm.keep b hb hheld
      refine hf.keep b hb1 hba ?_
      have hc := (hm.core b hb1 hba).2
      simp only [Held, Fd.read_of Fd.core hc Fd.owner fun _ => rfl,
        Fd.read_of Fd.core hc Fd.refcnt fun _ => rfl]
      exact hheld

/-- The descriptor of the renamed file goes to its new directory, which is opened through its
    prototype. -/
theorem reparent_spec (ok : Forest h) (hcount : Counts h) {a0 a5 : Nat} (d5 : Nat) (long : Bool)
    (ha0 : h.Proto a0) (hpar : (h.fd a0).parent ≠ 0) (ha5 : h.Proto a5)
    (hdir : (h.fd a5).subdir = true) (hdmd : (h.fd a0).dmd = (h.fd a5).dmd) :
    reparent h a0 a5 d5 long = .error .noBlock ∨
      ∃ h', reparent h a0 a5 d5 long = .ok h' ∧ Forest h' ∧ Moved h h' a0 a5 d5 := by
  rcases ok.relink d5 ha0 hpar ha5 hdir hdmd with ⟨h1, hun, hok2, hmoved⟩
  have hm1 : (h1.fd a5).multi1 = a5 := by
    rcases ok.unlistNext ha0 hpar with ⟨h1', hun', hr, _⟩
    rw [hun] at hun'
    cases hun'
    exact (hr.multi1 a5).trans ha5.2
  let h2 := linkChild h1 a0 a5 d5
  have hstep : reparent h a0 a5 d5 long =
      if (!(h2.fd a0).subdir) = true then .ok h2
      else if long = true then if (h2.fd a0).longname ≠ 0 then .ok h2 else nameBlock h2 a0
      else if (h2.fd a0).longname = 0 then .ok h2 else .ok (withoutName h2 a0) := by
    simp only [reparent, hun, bind, Except.bind, hm1]
    rfl
  rw [hstep]
  by_cases hfile : (!(h2.fd a0).subdir) = true
  · right
    exact ⟨h2, by rw [if_pos hfile], hok2, hmoved⟩
  · rw [if_neg hfile]
    have hsub : (h2.fd a0).subdir = true := by simpa using hfile
    by_cases hlong : long = true
    · rw [if_pos hlong]
      by_cases hold : (h2.fd a0).longname ≠ 0
      · right
        exact ⟨h2, by rw [if_pos hold], hok2, hmoved⟩
      · rw [if_neg hold]
        rcases nameBlock_spec hok2 hmoved.self.1 (hmoved.count hcount a0 hmoved.self.1 hsub) with
          herr | ⟨h3, hrun, hok3, hf3, hfd3, l, hcore3⟩
        · exact .inl herr
        · exact .inr ⟨h3, hrun, hok3, hmoved.name hf3 hfd3 hcore3⟩
    · rw [if_neg hlong]
      right
      by_cases hold : (h2.fd a0).longname = 0
      · exact ⟨h2, by rw [if_pos hold], hok2, hmoved⟩
      · rcases hok2.withoutName hmoved.self.1 hold with ⟨hok3, hf3, hfd3⟩
        refine ⟨withoutName h2 a0, by rw [if_neg hold], hok3, hmoved.name hf3 hfd3 (l := 0) ?_⟩
        show ((h2.upd a0 fun f => { f with longname := 0 }).fd a0).core = _
        rw [State.upd_fd, if_pos rfl]

/-! ### The renaming -/

theorem Reopened.sparesOpen {pd p : Nat} {d0 : BitVec 16} {opened : Int} {h' : State}
    {r : Except Int Nat} (hr : Reopened h pd p d0 opened h' r) : SparesOpen h h' := by
  rcases hr.answer with ⟨_, hsame, _⟩ | ⟨_, a, hframe, hproto, hfresh, _⟩
  · rw [hsame]
    exact fun b hb _ => ⟨hb, rfl⟩
  · intro b hb howner
    refine hframe.spares b hb (.inl howner) fun hba => ?_
    rcases hfresh with hap | hfresh
    · rw [hba, hap] at howner
      exact howner (hproto.mp hap)
    · exact hfresh (hba ▸ hb) (hba ▸ .inl howner)

theorem Reopened.sparesClosed {pd p a : Nat} {d0 : BitVec 16} {opened c : Int} {h1 h' : State}
    (hr : Reopened h pd p d0 opened h1 (.ok a)) (hc : Closed h1 a c h') : SparesOpen h h' := by
  rcases hr.opened with ⟨_, hframe, hproto, hfresh, _⟩
  intro b hb howner
  refine (hframe.comp hc.frame).spares b hb (.inl howner) fun hba => ?_
  rcases hfresh with hap | hfresh
  · rw [hba, hap] at howner
    exact howner (hproto.mp hap)
  · exact hfresh (hba ▸ hb) (hba ▸ .inl howner)

/-- The disk has been changed while the `..` is corrected. -/
def Disturbed (io : FrenameIo) (c : Int) : Prop :=
  (c = ECHNG ∨ c = EDRIVE) ∧ (c = io.made ∨ c = io.dots ∨ c = io.closedSub)

theorem disturbed_if {io : FrenameIo} {c d : Int} (hc : c = io.made ∨ c = io.dots ∨
    c = io.closedSub)
    (hd : (if c = ECHNG ∨ c = EDRIVE then some c else none) = some d) : Disturbed io d := by
  split at hd
  · rename_i hgone
    cases hd
    exact ⟨hgone, hc⟩
  · cases hd

theorem correctDots_spec (ok : Forest h) (pd : Nat) {a5 n : Nat} (d5 : Nat) (e : Entry)
    (io : FrenameIo)
    (ha5 : h.IsFd a5) (hn : (h.fd a5).multi1 = n) (hdir : (h.fd n).subdir = true)
    (howner : (h.fd a5).owner ≠ 0) (hentry : h.dirs (h.fd n).dmd (h.fd n).stcl d5 = some e)
    (hopen : 0 ≤ io.openedSub) :
    correctDots h pd a5 d5 e io = .error .noBlock ∨
      ∃ h' stop, correctDots h pd a5 d5 e io = .ok (h', stop) ∧ Forest h' ∧ Evolves h h' ∧
        SparesOpen h h' ∧ Grown n d5 h h' ∧ ∀ c, stop = some c → Disturbed io c := by
  rcases getDd_spec ok d5 e io.long io.made ha5 hn hdir (.inl howner) hentry with
    herr | ⟨h1, r1, hrun1, hok1, hev1, hsp1, hg1, hat, hmade⟩
  · left
    simp only [correctDots, herr, bind, Except.bind]
  · have hso1 : SparesOpen h h1 := fun b hb hbo => hsp1 b hb (.inl hbo) fun hno => hno
    cases r1 with
    | error c =>
      right
      refine ⟨h1, if c = ECHNG ∨ c = EDRIVE then some c else none, ?_, hok1, hev1, hso1,
        hg1, fun d hd => disturbed_if (.inl (hmade c rfl)) hd⟩
      simp only [correctDots, hrun1, bind, Except.bind, pure, Except.pure]
    | ok a =>
      rcases reopenFd_spec hok1 pd (hat a rfl).1.1 (RPERM ||| WPERM ||| WDENY) io.openedSub
        (fun _ => hopen) with herr | ⟨h2, r2, hrun2, hre⟩
      · left
        simp only [correctDots, hrun1, bind, Except.bind, herr]
      · right
        rcases hre.frame with ⟨_, hf2⟩
        cases r2 with
        | error c =>
          -- Somebody else has the directory open.
          have hc := (hre.refused hopen).1
          refine ⟨h2, if c = ECHNG ∨ c = EDRIVE then some c else none, ?_, hre.forest,
            hev1.trans hre.evolves, hso1.trans hre.sparesOpen,
            hg1.frame hf2 hre.sparesOpen hre.forest, fun d hd => ?_⟩
          swap
          · rw [hc] at hd
            cases hd
          simp only [correctDots, hrun1, bind, Except.bind, hrun2, pure, Except.pure]
        | ok a6 =>
          by_cases hgone : io.dots = ECHNG ∨ io.dots = EDRIVE
          · refine ⟨h2, some io.dots, ?_, hre.forest, hev1.trans hre.evolves,
              hso1.trans hre.sparesOpen,
              hg1.frame hf2 hre.sparesOpen hre.forest, fun d hd => ?_⟩
            swap
            · cases hd
              exact ⟨hgone, .inr (.inl rfl)⟩
            simp only [correctDots, hrun1, bind, Except.bind, hrun2, if_pos hgone, pure,
              Except.pure]
          · obtain ⟨h3, hrun3, hclosed⟩ :=
              closeDd_spec hre.forest hre.opened.2.2.2.2.1 io.closedSub
            refine ⟨h3, if io.closedSub = ECHNG ∨ io.closedSub = EDRIVE then some io.closedSub
              else none, ?_, hclosed.forest,
              (hev1.trans hre.evolves).trans (.one hclosed.frame hclosed.forest),
              hso1.trans (hre.sparesClosed hclosed), hg1.frame (hf2.trans hclosed.frame)
              (hre.sparesClosed hclosed) hclosed.forest,
              fun d hd => disturbed_if (.inr (.inr rfl)) hd⟩
            simp only [correctDots, hrun1, bind, Except.bind, hrun2, if_neg hgone, hrun3, pure,
              Except.pure]

end

/-- The `..` is corrected and the old name deleted. -/
def frenDelete (h : State) (pd a4 a5 : Nat) (e : Entry) (d1 d3 first d5 : Nat) (io : FrenameIo) :
    Except Fault (State × Except Int Int) := do
  let (h, stop) ←
    if e.subdir ∧ a4 ≠ a5 then correctDots h pd a5 d5 e io
    else pure (h, none)
  match stop, toDelete (a4 = a5) d1 d3 first d5 with
  | some c, _ => return (h, .error c)
  | none, none => return (h, .ok 0)
  | none, some (d1, d3) =>
    if io.deleted < 0 then return (h, .ok io.deleted)
    else
      let h := h.setDir (h.fd a4).dmd (h.fd (h.fd a4).multi1).stcl
        (eraseRun (h.entries a4) d1 d3)
      return (h, .ok io.deleted)

/-- The new name has been written: the descriptor of the file, if there is one, goes to its new
    directory, the `..` is corrected and the old name deleted. -/
def frenMove (h : State) (pd a4 a5 : Nat) (e : Entry) (d1 d3 first d5 : Nat) (io : FrenameIo) :
    Except Fault (State × Except Int Int) := do
  let h := h.setDir (h.fd a5).dmd (h.fd (h.fd a5).multi1).stcl
    (writeRun (h.entries a5) first d5 e)
  let h ←
    match ← fileIsOpen h a4 d3 with
    | some a0 => reparent h a0 a5 d5 io.long
    | none => pure h
  frenDelete h pd a4 a5 e d1 d3 first d5 io

theorem testParLoop_cases (h : State) (a4 d3 : Nat) :
    ∀ n a0, testParLoop h a4 d3 n a0 = .error .hang ∨ ∃ b, testParLoop h a4 d3 n a0 = .ok b := by
  intro n
  induction n with
  | zero =>
    intro a0
    exact .inl rfl
  | succ n ih =>
    intro a0
    simp only [testParLoop]
    split
    · exact .inr ⟨false, rfl⟩
    · split
      · exact .inr ⟨true, rfl⟩
      · exact ih _

theorem frenameOpen_start {h : State} (pd : Nat) {a4 a5 d1 d3 : Nat} {io : FrenameIo} {e : Entry}
    {b : Bool} (hname : io.nameOk = true) (hold : io.old = .ok (d1, d3))
    (hentry : h.entries a4 d3 = some e) (hro : ¬ (e.readonly = true ∧ (!io.mint) = true))
    (hloop : e.subdir = true → testParLoop h a4 d3 h.turns (h.fd a5).multi1 = .ok b)
    (hfile : ¬ e.subdir = true → b = false) :
    frenameOpen h pd a4 a5 io =
      if b = true then .ok (h, .ok EACCDN)
      else if io.rewind < 0 then .ok (h, .ok io.rewind)
      else
        match (match io.new with
          | .ok d => if a4 = a5 ∧ d = d3 then none else some EACCDN
          | .error c => if c = EFILNF then none else some c), io.place with
        | some c, _ => .ok (h, .ok c)
        | none, .error c => .ok (h, .ok c)
        | none, .ok (first, d5) =>
          if io.seek < 0 then .ok (h, .ok io.seek)
          else if io.wrote < 0 then .ok (h, .ok io.wrote)
          else frenMove h pd a4 a5 e d1 d3 first d5 io := by
  simp only [frenameOpen, hname, hold, hentry, if_neg hro, Bool.not_true, Bool.false_eq_true,
    if_false, bind, Except.bind, pure, Except.pure]
  by_cases hsub : e.subdir = true
  · simp only [if_pos hsub, hloop hsub]
    rfl
  · simp only [if_neg hsub, hfile hsub, Bool.false_eq_true, if_false]
    rfl

theorem frenameOpen_cases (h : State) (pd a4 a5 : Nat) (io : FrenameIo) :
    frenameOpen h pd a4 a5 io = .error .hang ∨
      (∃ c, frenameOpen h pd a4 a5 io = .ok (h, .ok c)) ∨
      ∃ d1 d3 e first d5, io.old = .ok (d1, d3) ∧ h.entries a4 d3 = some e ∧
        (e.subdir = true → testParLoop h a4 d3 h.turns (h.fd a5).multi1 = .ok false) ∧
        io.place = .ok (first, d5) ∧
        frenameOpen h pd a4 a5 io = frenMove h pd a4 a5 e d1 d3 first d5 io := by
  cases hname : io.nameOk with
  | false =>
    refine .inr (.inl ⟨EACCDN, ?_⟩)
    simp only [frenameOpen, hname, Bool.not_false, if_true, pure, Except.pure]
  | true =>
    cases hold : io.old with
    | error c =>
      refine .inr (.inl ⟨c, ?_⟩)
      simp only [frenameOpen, hname, hold, Bool.not_true, Bool.false_eq_true, if_false, pure,
        Except.pure]
    | ok x =>
      rcases x with ⟨d1, d3⟩
      cases hentry : h.entries a4 d3 with
      | none =>
        refine .inr (.inl ⟨EFILNF, ?_⟩)
        simp only [frenameOpen, hname, hold, hentry, Bool.not_true, Bool.false_eq_true, if_false,
          pure, Except.pure]
      | some e =>
        by_cases hro : e.readonly = true ∧ (!io.mint) = true
        · refine .inr (.inl ⟨EACCDN, ?_⟩)
          simp only [frenameOpen, hname, hold, hentry, hro, and_self, Bool.not_true,
            Bool.false_eq_true, if_false, if_true, pure, Except.pure]
        · -- The directories above the new one.
          have hbelow : (e.subdir = true ∧
                testParLoop h a4 d3 h.turns (h.fd a5).multi1 = .error .hang) ∨
              ∃ b, (e.subdir = true → testParLoop h a4 d3 h.turns (h.fd a5).multi1 = .ok b) ∧
                (¬ e.subdir = true → b = false) := by
            by_cases hsub : e.subdir = true
            · rcases testParLoop_cases h a4 d3 h.turns (h.fd a5).multi1 with herr | ⟨b, hb⟩
              · exact .inl ⟨hsub, herr⟩
              · exact .inr ⟨b, fun _ => hb, fun h1 => absurd hsub h1⟩
            · exact .inr ⟨false, fun h1 => absurd h1 hsub, fun _ => rfl⟩
          rcases hbelow with ⟨hsub, herr⟩ | ⟨b, hloop, hfile⟩
          · left
            simp only [frenameOpen, hname, hold, hentry, hro, hsub, herr, Bool.not_true,
              Bool.false_eq_true, if_false, if_true, bind, Except.bind]
          · right
            rw [frenameOpen_start pd hname hold hentry hro hloop hfile]
            cases b with
            | true => exact .inl ⟨EACCDN, rfl⟩
            | false =>
              simp only [Bool.false_eq_true, if_false]
              split
              · exact .inl ⟨_, rfl⟩
              · split
                · exact .inl ⟨_, rfl⟩
                · exact .inl ⟨_, rfl⟩
                · rename_i first d5 _ hplace
                  split
                  · exact .inl ⟨_, rfl⟩
                  · split
                    · exact .inl ⟨_, rfl⟩
                    · exact .inr ⟨d1, d3, e, first, d5, rfl, hentry, hloop, hplace, rfl⟩

theorem frenameOpen_below {h : State} (pd : Nat) {a4 a5 d1 d3 : Nat} {io : FrenameIo} {e : Entry}
    (hold : io.old = .ok (d1, d3)) (hentry : h.entries a4 d3 = some e) (hsub : e.subdir = true)
    (hwalk : testParLoop h a4 d3 h.turns (h.fd a5).multi1 = .ok true) :
    frenameOpen h pd a4 a5 io = .ok (h, .ok EACCDN) := by
  cases hname : io.nameOk with
  | false => simp only [frenameOpen, hname, Bool.not_false, if_true, pure, Except.pure]
  | true =>
    by_cases hro : e.readonly = true ∧ (!io.mint) = true
    · simp only [frenameOpen, hname, hold, hentry, hro, and_self, Bool.not_true, Bool.false_eq_true,
        if_false, if_true, pure, Except.pure]
    · simp only [frenameOpen, hname, hold, hentry, if_neg hro, hsub, hwalk, Bool.not_true,
        Bool.false_eq_true, if_false, if_true, bind, Except.bind, pure, Except.pure]

/-- A name is written into the directory `n`. -/
def writeName (h : State) (n first d5 : Nat) (e : Entry) : State :=
  h.setDir (h.fd n).dmd (h.fd n).stcl
    (writeRun (h.dirs (h.fd n).dmd (h.fd n).stcl) first d5 e)

/-- Entries of the directory `o` are deleted. -/
def eraseName (h : State) (o d1 d3 : Nat) : State :=
  h.setDir (h.fd o).dmd (h.fd o).stcl (eraseRun (h.dirs (h.fd o).dmd (h.fd o).stcl) d1 d3)

/-- How a renaming ends: there is nothing to delete, or something fails, or the old name is
    deleted. -/
inductive FrenDeleted (h3 : State) (o n d1 d3 first d5 : Nat) (io : FrenameIo) :
    State → Except Int Int → Prop where
  | nothing : toDelete (o = n) d1 d3 first d5 = none →
      FrenDeleted h3 o n d1 d3 first d5 io h3 (.ok 0)
  | stopped (c : Int) : Disturbed io c → FrenDeleted h3 o n d1 d3 first d5 io h3 (.error c)
  | failed : io.deleted < 0 → FrenDeleted h3 o n d1 d3 first d5 io h3 (.ok io.deleted)
  | erased (x y : Nat) : toDelete (o = n) d1 d3 first d5 = some (x, y) → 0 ≤ io.deleted →
      FrenDeleted h3 o n d1 d3 first d5 io (eraseName h3 o x y) (.ok io.deleted)

/-- What a renaming does once its tests have been passed: the name is written, the descriptor of
    the file moves, if there is one, and the old name is deleted unless something fails. -/
structure FrenMoved (h : State) (o n d1 d3 first d5 : Nat) (e : Entry) (io : FrenameIo) (h' : State)
    (r : Except Int Int) : Prop where
  forest : Forest h'
  steps : ∃ h2 h3 a4 a5, Forest h2 ∧ Open h2 a4 o ∧ Open h2 a5 n ∧ Evolves h2 h3 ∧
    Grown n d5 h2 h3 ∧ Forest h3 ∧
    ((∃ a0, At h o d3 a0 ∧ Moved (writeName h n first d5 e) h2 a0 n d5) ∨
      ((∀ a, ¬ At h o d3 a) ∧ h2 = writeName h n first d5 e)) ∧
    FrenDeleted h3 o n d1 d3 first d5 io h' r

section

variable {h : State}

theorem Open.moved {h' : State} {a0 n d5 x p : Nat} (hx : Open h x p) (hm : Moved h h' a0 n d5) :
    Open h' x p := by
  have hx' := hm.keep x hx.fd (.inl hx.owner)
  by_cases hxa : x = a0
  · subst hxa
    rcases hm.self with ⟨_, l, hself⟩
    have hm1 := Fd.read_of Fd.core hself Fd.multi1 fun _ => rfl
    have howner := Fd.read_of Fd.core hself Fd.owner fun _ => rfl
    exact ⟨hx', hm1.trans hx.multi1, fun h0 => hx.owner (howner.symm.trans h0)⟩
  · have hc := (hm.core x hx' hxa).2
    have hm1 := Fd.read_of Fd.core hc Fd.multi1 fun _ => rfl
    have howner := Fd.read_of Fd.core hc Fd.owner fun _ => rfl
    exact ⟨hx', hm1.trans hx.multi1, fun h0 => hx.owner (howner.symm.trans h0)⟩

theorem Forest.entries_eq (ok : Forest h) {a p : Nat} (ha : Open h a p) :
    (h.fd a).dmd = (h.fd p).dmd ∧ h.entries a = h.dirs (h.fd p).dmd (h.fd p).stcl := by
  have hdmd : (h.fd a).dmd = (h.fd p).dmd := by
    by_cases hap : a = p
    · rw [hap]
    · exact ok.cloneDmd p a ⟨ha.fd, ha.multi1, hap⟩
  exact ⟨hdmd, by rw [State.entries, hdmd, ha.multi1]⟩

theorem frenDelete_spec (ok : Forest h) (pd : Nat) {a4 a5 o n : Nat}
    (d1 d3 first d5 : Nat) (e : Entry)
    (io : FrenameIo) (ha4 : Open h a4 o) (ha5 : Open h a5 n) (hdir : (h.fd n).subdir = true)
    (hentry : h.dirs (h.fd n).dmd (h.fd n).stcl d5 = some e) (hsame : a4 = a5 ↔ o = n)
    (hopen : 0 ≤ io.openedSub) :
    frenDelete h pd a4 a5 e d1 d3 first d5 io = .error .noBlock ∨
      ∃ h3 h' r, frenDelete h pd a4 a5 e d1 d3 first d5 io = .ok (h', r) ∧ Forest h' ∧
        Evolves h h3 ∧ Grown n d5 h h3 ∧ Forest h3 ∧ FrenDeleted h3 o n d1 d3 first d5 io h' r ∧
        Open h' a4 o ∧ Open h' a5 n := by
  -- The `..` of a directory.
  have hstart : frenDelete h pd a4 a5 e d1 d3 first d5 io =
      (if e.subdir = true ∧ a4 ≠ a5 then correctDots h pd a5 d5 e io else .ok (h, none)).bind
        fun x =>
        match x.2, toDelete (a4 = a5) d1 d3 first d5 with
        | some c, _ => .ok (x.1, .error c)
        | none, none => .ok (x.1, .ok 0)
        | none, some (d1, d3) =>
          if io.deleted < 0 then .ok (x.1, .ok io.deleted)
          else .ok (x.1.setDir (x.1.fd a4).dmd (x.1.fd (x.1.fd a4).multi1).stcl
            (eraseRun (x.1.entries a4) d1 d3), .ok io.deleted) := by
    simp only [frenDelete]
    split <;> rfl
  have hdots : (if e.subdir = true ∧ a4 ≠ a5 then correctDots h pd a5 d5 e io else .ok (h, none)) =
        .error .noBlock ∨
      ∃ h3 stop, (if e.subdir = true ∧ a4 ≠ a5 then correctDots h pd a5 d5 e io
        else .ok (h, none)) =
        .ok (h3, stop) ∧ Forest h3 ∧ Evolves h h3 ∧ SparesOpen h h3 ∧ Grown n d5 h h3 ∧
          ∀ c, stop = some c → Disturbed io c := by
    by_cases hsub : e.subdir = true ∧ a4 ≠ a5
    · rw [if_pos hsub]
      exact correctDots_spec ok pd d5 e io ha5.fd ha5.multi1 hdir ha5.owner hentry hopen
    · rw [if_neg hsub]
      exact .inr ⟨h, none, rfl, ok, .refl, fun b hb _ => ⟨hb, rfl⟩,
        .refl n d5 h, fun c hc => by cases hc⟩
  have hdel : toDelete (a4 = a5) d1 d3 first d5 = toDelete (o = n) d1 d3 first d5 := by
    simp only [hsame]
  rw [hstart, hdel]
  rcases hdots with herr | ⟨h3, stop, hrun, ok3, hev3, hso3, hg3, hstop⟩
  · left
    rw [herr]
    rfl
  · right
    have ha43 := ha4.spared hso3
    have ha53 := ha5.spared hso3
    have hent := ok3.entries_eq ha43
    rw [hrun]
    cases stop with
    | some c => exact ⟨h3, h3, .error c, rfl, ok3, hev3, hg3, ok3, .stopped c (hstop c rfl), ha43,
      ha53⟩
    | none =>
      cases htodo : toDelete (o = n) d1 d3 first d5 with
      | none => exact ⟨h3, h3, .ok 0, rfl, ok3, hev3, hg3, ok3, .nothing htodo, ha43, ha53⟩
      | some xy =>
        rcases xy with ⟨x, y⟩
        by_cases hfail : io.deleted < 0
        · refine ⟨h3, h3, .ok io.deleted, ?_, ok3, hev3, hg3, ok3, .failed hfail, ha43, ha53⟩
          simp only [Except.bind, if_pos hfail]
        · refine ⟨h3, eraseName h3 o x y, .ok io.deleted, ?_, ok3.setDir _ _ _, hev3, hg3, ok3,
            .erased x y htodo (Int.not_lt.mp hfail), ⟨ha43.fd, ha43.multi1, ha43.owner⟩,
            ⟨ha53.fd, ha53.multi1, ha53.owner⟩⟩
          simp only [Except.bind, if_neg hfail, eraseName, hent.2, ha43.multi1, hent.1]

theorem frenMove_spec (ok : Forest h) (hcount : Counts h) (pd : Nat) {a4 a5 o n : Nat}
    (d1 d3 first d5 : Nat) (e : Entry) (io : FrenameIo) (ha4 : Open h a4 o) (ha5 : Open h a5 n)
    (hdir : (h.fd n).subdir = true) (hdmd : (h.fd o).dmd = (h.fd n).dmd) (hsame : a4 = a5 ↔ o = n)
    (hproto : ∀ a, At h o d3 a → a5 = n) (hopen : 0 ≤ io.openedSub) :
    frenMove h pd a4 a5 e d1 d3 first d5 io = .error .noBlock ∨
      ∃ h' r, frenMove h pd a4 a5 e d1 d3 first d5 io = .ok (h', r) ∧
        FrenMoved h o n d1 d3 first d5 e io h' r ∧ Open h' a4 o ∧ Open h' a5 n := by
  have hent5 := ok.entries_eq ha5
  let h1 := writeName h n first d5 e
  have ok1 : Forest h1 := ok.setDir _ _ _
  have hwrite : h.setDir (h.fd a5).dmd (h.fd (h.fd a5).multi1).stcl
      (writeRun (h.entries a5) first d5 e) = h1 := by
    rw [hent5.2, hent5.1, ha5.multi1]
    rfl
  have hentry1 : h1.dirs (h1.fd n).dmd (h1.fd n).stcl d5 = some e := by
    show (h.setDir (h.fd n).dmd (h.fd n).stcl _).dirs (h.fd n).dmd (h.fd n).stcl d5 = some e
    simp only [State.setDir, Function.update_self, writeRun, if_true]
  rcases fileIsOpen_spec ok1 ha4.fd ha4.multi1 d3 with ⟨a0, hfound, hat⟩ | ⟨hfound, hnone⟩
  · -- The file has a descriptor.
    have ha0 : At h o d3 a0 := hat
    have h5 := hproto a0 ha0
    subst h5
    have hn : h.Proto a5 := ⟨ha5.fd, ha5.multi1⟩
    have ho := ok.proto a4 ha4.fd
    rw [ha4.multi1] at ho
    have hpar : (h.fd a0).parent ≠ 0 := by
      rw [ha0.1.2]
      exact ok.ne_zero ho.1
    have hdmd0 : (h.fd a0).dmd = (h.fd a5).dmd := by
      rw [ok.childDmd a0 ha0.1.1 hpar, ha0.1.2]
      exact hdmd
    rcases reparent_spec ok1 hcount d5 io.long ha0.1.1 hpar hn hdir hdmd0 with
      herr | ⟨h2, hrun, ok2, hmoved⟩
    · left
      simp only [frenMove, hwrite, hfound, bind, Except.bind, herr]
    · have hplace : (h2.fd a5).dmd = (h.fd a5).dmd ∧ (h2.fd a5).stcl = (h.fd a5).stcl ∧
          (h2.fd a5).subdir = (h.fd a5).subdir := by
        by_cases h50 : a5 = a0
        · subst h50
          rcases hmoved.self with ⟨_, l, hself⟩
          exact ⟨Fd.read_of Fd.core hself Fd.dmd fun _ => rfl,
            Fd.read_of Fd.core hself Fd.stcl fun _ => rfl,
            Fd.read_of Fd.core hself Fd.subdir fun _ => rfl⟩
        · have ha52 : Open h2 a5 a5 := Open.moved (h := h1) ⟨ha5.fd, ha5.multi1, ha5.owner⟩ hmoved
          have hc := (hmoved.core a5 ha52.fd h50).2
          exact ⟨Fd.read_of Fd.core hc Fd.dmd fun _ => rfl,
            Fd.read_of Fd.core hc Fd.stcl fun _ => rfl,
            Fd.read_of Fd.core hc Fd.subdir fun _ => rfl⟩
      have hentry2 : h2.dirs (h2.fd a5).dmd (h2.fd a5).stcl d5 = some e := by
        rw [hmoved.dirs, hplace.1, hplace.2.1]
        exact hentry1
      have ha42 : Open h2 a4 o := Open.moved (h := h1) ⟨ha4.fd, ha4.multi1, ha4.owner⟩ hmoved
      have ha52 : Open h2 a5 a5 := Open.moved (h := h1) ⟨ha5.fd, ha5.multi1, ha5.owner⟩ hmoved
      have hstep : frenMove h pd a4 a5 e d1 d3 first d5 io =
          frenDelete h2 pd a4 a5 e d1 d3 first d5 io := by
        simp only [frenMove, hwrite, hfound, bind, Except.bind, hrun]
      rw [hstep]
      rcases frenDelete_spec ok2 pd d1 d3 first d5 e io ha42 ha52
        (hplace.2.2.trans hdir) hentry2 hsame
        hopen with herr | ⟨h3, h', r, hrun3, ok', hev, hg, ok3, hdel, ha4', ha5'⟩
      · exact .inl herr
      · exact .inr ⟨h', r, hrun3, ⟨ok', h2, h3, a4, a5, ok2, ha42, ha52, hev, hg, ok3,
          .inl ⟨a0, ha0, hmoved⟩, hdel⟩, ha4', ha5'⟩
  · have hstep : frenMove h pd a4 a5 e d1 d3 first d5 io =
        frenDelete h1 pd a4 a5 e d1 d3 first d5 io := by
      simp only [frenMove, hwrite, hfound, bind, Except.bind, pure, Except.pure]
    rw [hstep]
    rcases frenDelete_spec ok1 pd d1 d3 first d5 e io ⟨ha4.fd, ha4.multi1, ha4.owner⟩
      ⟨ha5.fd, ha5.multi1, ha5.owner⟩ hdir hentry1 hsame hopen with
      herr | ⟨h3, h', r, hrun3, ok', hev, hg, ok3, hdel, ha4', ha5'⟩
    · exact .inl herr
    · exact .inr ⟨h', r, hrun3, ⟨ok', h1, h3, a4, a5, ok1,
        ⟨ha4.fd, ha4.multi1, ha4.owner⟩, ⟨ha5.fd, ha5.multi1, ha5.owner⟩, hev, hg, ok3,
        .inr ⟨hnone, rfl⟩, hdel⟩, ha4', ha5'⟩

theorem frenEnde_spec (ok : Forest h) {a4 a5 o n : Nat} (d0 : Int) (io : FrenameIo)
    (ha4 : Open h a4 o) (ha5 : Open h a5 n) :
    ∃ h' d, frenEnde h a4 a5 d0 io = .ok (h', d) ∧ Forest h' ∧ Evolves h h' ∧
      (¬ (io.closedOld = ECHNG ∨ io.closedOld = EDRIVE) → d = d0) := by
  by_cases hgone : d0 = ECHNG ∨ d0 = EDRIVE
  · exact ⟨h, d0, by simp only [frenEnde, if_pos hgone], ok, .refl, fun _ => rfl⟩
  · by_cases hsame : a4 = a5
    · rcases closeDd_spec ok ha5.fd io.closedNew with ⟨h2, hrun, hclosed⟩
      refine ⟨h2, d0, ?_, hclosed.forest, .one hclosed.frame hclosed.forest, fun _ => rfl⟩
      have hzero : ¬ ((0 : Int) = ECHNG ∨ (0 : Int) = EDRIVE) := by decide
      simp only [frenEnde, if_neg hgone, if_pos hsame, bind, Except.bind, if_neg hzero, hrun, pure,
        Except.pure]
    · rcases closeDd_spec ok ha4.fd io.closedOld with ⟨h1, hrun1, hclosed1⟩
      have hev1 : Evolves h h1 := .one hclosed1.frame hclosed1.forest
      by_cases hchng : io.closedOld = ECHNG ∨ io.closedOld = EDRIVE
      · refine ⟨h1, io.closedOld, ?_, hclosed1.forest, hev1, fun hno => absurd hchng hno⟩
        simp only [frenEnde, if_neg hgone, if_neg hsame, bind, Except.bind, hrun1, if_pos hchng,
          pure, Except.pure]
      · have ha51 := hclosed1.frame.spares a5 ha5.fd (.inl ha5.owner) (Ne.symm hsame)
        rcases closeDd_spec hclosed1.forest ha51.1 io.closedNew with ⟨h2, hrun2, hclosed2⟩
        refine ⟨h2, d0, ?_, hclosed2.forest, hev1.trans (.one hclosed2.frame hclosed2.forest),
          fun _ => rfl⟩
        simp only [frenEnde, if_neg hgone, if_neg hsame, bind, Except.bind, hrun1, if_neg hchng,
          hrun2, pure, Except.pure]

/-- What `dxfs_frename` does: nothing in the directories, or a file moves once all tests have been
    passed. The old directory is open through its prototype if and only if that was unused. -/
inductive Renamed (h : State) (o n : Nat) (io : FrenameIo) : State → Prop where
  | kept (h' : State) : Forest h' → Evolves h h' → Renamed h o n io h'
  | moved (h1 h2 h' : State) (a4 d1 d3 first d5 : Nat) (e : Entry) (r : Except Int Int) :
      Forest h1 → Evolves h h1 → h1.Proto o → h1.Proto n →
      (h1.fd o).place = (h.fd o).place → (h1.fd n).place = (h.fd n).place →
      (h1.fd o).dmd = (h1.fd n).dmd → (a4 = o ↔ (h.fd o).owner = 0) →
      io.old = .ok (d1, d3) → h1.dirs (h1.fd o).dmd (h1.fd o).stcl d3 = some e →
      (e.subdir = true → testParLoop h1 a4 d3 h1.turns n = .ok false) →
      io.place = .ok (first, d5) → FrenMoved h1 o n d1 d3 first d5 e io h2 r →
      Forest h' → Evolves h2 h' → Renamed h o n io h'

/-- The renaming between two directories that have been opened, and closing them. -/
def frenOpened (h : State) (pd a4 a5 : Nat) (io : FrenameIo) : Except Fault (State × Int) := do
  let (h, r) ← frenameOpen h pd a4 a5 io
  match r with
  | .error c => return (h, c)
  | .ok d0 => frenEnde h a4 a5 d0 io

theorem frenOpened_spec (ok : Forest h) (hcount : Counts h) (pd : Nat) {a4 a5 o n : Nat}
    (io : FrenameIo)
    (ha4 : Open h a4 o) (ha5 : Open h a5 n) (hdir : (h.fd n).subdir = true)
    (hdmd : (h.fd o).dmd = (h.fd n).dmd) (hsame : a4 = a5 ↔ o = n) (hopen : 0 ≤ io.openedSub)
    (hproto : ∀ d1 d3 a, io.old = .ok (d1, d3) → At h o d3 a → a5 = n) :
    frenOpened h pd a4 a5 io = .error .noBlock ∨ frenOpened h pd a4 a5 io = .error .hang ∨
      ∃ h' d0, frenOpened h pd a4 a5 io = .ok (h', d0) ∧ Forest h' ∧ (Evolves h h' ∨
        ∃ h2 d1 d3 first d5 e r, io.old = .ok (d1, d3) ∧
          h.dirs (h.fd o).dmd (h.fd o).stcl d3 = some e ∧
          (e.subdir = true → testParLoop h a4 d3 h.turns n = .ok false) ∧
          io.place = .ok (first, d5) ∧ FrenMoved h o n d1 d3 first d5 e io h2 r ∧
          Evolves h2 h') := by
  rcases frenameOpen_cases h pd a4 a5 io with hhang | ⟨c, hrun⟩ |
    ⟨d1, d3, e, first, d5, hold, hentry, hloop, hplace, hrun⟩
  · right; left
    simp only [frenOpened, hhang, bind, Except.bind]
  · right; right
    rcases frenEnde_spec ok c io ha4 ha5 with ⟨h', d, hrun', ok', hev', _⟩
    refine ⟨h', d, ?_, ok', .inl hev'⟩
    simp only [frenOpened, hrun, bind, Except.bind, hrun']
  · rw [(ok.entries_eq ha4).2] at hentry
    rw [ha5.multi1] at hloop
    rcases frenMove_spec ok hcount pd d1 d3 first d5 e io ha4 ha5 hdir hdmd hsame
      (fun a ha => hproto d1 d3 a hold ha) hopen with herr | ⟨h2, r, hrun2, hmoved, ha42, ha52⟩
    · left
      simp only [frenOpened, hrun, herr, bind, Except.bind]
    · right; right
      cases r with
      | error c =>
        refine ⟨h2, c, ?_, hmoved.forest, .inr ⟨h2, d1, d3, first, d5, e, _, hold, hentry, hloop,
          hplace, hmoved, .refl⟩⟩
        simp only [frenOpened, hrun, hrun2, bind, Except.bind, pure, Except.pure]
      | ok d0 =>
        rcases frenEnde_spec hmoved.forest d0 io ha42 ha52 with ⟨h', d, hrun', ok', hev', _⟩
        refine ⟨h', d, ?_, ok', .inr ⟨h2, d1, d3, first, d5, e, _, hold, hentry, hloop, hplace,
          hmoved, hev'⟩⟩
        simp only [frenOpened, hrun, hrun2, bind, Except.bind, hrun']

theorem Reopened.keeps_dir (ok : Forest h) {pd o n a4 : Nat} {d0 : BitVec 16}
    {opened : Int} {h1 : State}
    (hr : Reopened h pd o d0 opened h1 (.ok a4)) (hn : h.Proto n) (hheld : n ∈ h.dmdx ∨ Held h n)
    (hon : o ≠ n) : h1.Proto n ∧ n ≠ a4 ∧ (h1.fd n).core = (h.fd n).core := by
  rcases hr.opened with ⟨_, hf1, _, hfresh, _, hm4, _, _⟩
  have hn1 : h1.Proto n := by
    rcases hheld with hroot | hheld
    · exact hr.forest.rootProto n (hf1.dmdx ▸ hroot) (ok.ne_zero hn.1)
    · have hn4 : n ≠ a4 := by
        intro hn4
        rcases hfresh with h4o | hfresh
        · exact hon (h4o.symm.trans hn4.symm)
        · exact hfresh (hn4 ▸ hn.1) (hn4 ▸ hheld)
      have hfdn := hf1.keep n hn.1 hn4 hheld
      exact ⟨hfdn, (Fd.read_of Fd.core (hf1.core n hfdn hn4).2 Fd.multi1 fun _ => rfl).trans hn.2⟩
  have hn4 : n ≠ a4 := by
    rintro rfl
    exact hon (hm4.symm.trans hn1.2)
  exact ⟨hn1, hn4, (hf1.core n hn1.1 hn4).2⟩

theorem dxfsFrename_spec (ok : Forest h) (hcount : Counts h) {pd o n : Nat} (io : FrenameIo)
    (hpd : pd ≠ 0) (ho : h.Proto o) (hn : h.Proto n) (hdir : (h.fd n).subdir = true)
    (hheld : n ∈ h.dmdx ∨ Held h n) (hopenOld : 0 ≤ io.openedOld) (hopenNew : 0 ≤ io.openedNew)
    (hopenSub : 0 ≤ io.openedSub)
    (hproto : ∀ d1 d3 a, io.old = .ok (d1, d3) → At h o d3 a → (h.fd n).owner = 0) :
    dxfsFrename h pd o n io = .error .noBlock ∨ dxfsFrename h pd o n io = .error .hang ∨
      ∃ h' d0, dxfsFrename h pd o n io = .ok (h', d0) ∧ Renamed h o n io h' := by
  by_cases hdmd : (h.fd o).dmd = (h.fd n).dmd
  · rcases reopenFd_spec ok pd ho (RPERM ||| WPERM ||| WDENY) io.openedOld (fun _ => hopenOld) with
      herr | ⟨h1, r1, hrun1, hre1⟩
    · left
      simp only [dxfsFrename, hdmd, ne_eq, not_true_eq_false, if_false, herr, bind, Except.bind]
    · cases r1 with
      | error c =>
        right; right
        refine ⟨h1, c, ?_, .kept h1 hre1.forest hre1.evolves⟩
        simp only [dxfsFrename, hdmd, ne_eq, not_true_eq_false, if_false, hrun1, bind, Except.bind,
          pure, Except.pure]
      | ok a4 =>
        rcases hre1.opened with ⟨_, hf1, hself4, _, hfd4, hm4, howner4, _⟩
        have ha4 : Open h1 a4 o := ⟨hfd4, hm4, howner4 ▸ hpd⟩
        have ok1 := hre1.forest
        have ho1 := ok1.proto a4 hfd4
        rw [hm4] at ho1
        -- What the prototypes of the two directories are does not change.
        have hplo := (hf1.proto o ho1).2
        by_cases hon : o = n
        · subst hon
          have hstep : dxfsFrename h pd o o io = frenOpened h1 pd a4 a4 io := by
            simp only [dxfsFrename, ne_eq, not_true_eq_false, if_false, hrun1, if_true, bind,
              Except.bind, pure, Except.pure]
            rfl
          rw [hstep]
          rcases frenOpened_spec ok1 (hf1.count hcount) pd io ha4 ha4
            ((Fd.read_of Fd.place hplo Fd.subdir fun _ => rfl).trans hdir) rfl ⟨fun _ => rfl,
              fun _ => rfl⟩
            hopenSub (fun d1 d3 a hold ha => hself4.mpr (hproto d1 d3 a hold (hf1.was_at ha).1))
              with
            herr | hhang | ⟨h', d0, hrun', ok', hev | ⟨h2, d1, d3, first, d5, e, r, hold, hentry,
              hloop, hplace, hmoved, hev⟩⟩
          · exact .inl herr
          · exact .inr (.inl hhang)
          · exact .inr (.inr ⟨h', d0, hrun', .kept h' ok' (hre1.evolves.trans hev)⟩)
          · exact .inr
              (.inr ⟨h', d0, hrun', .moved h1 h2 h' a4 d1 d3 first d5 e r ok1 hre1.evolves ho1
              ho1 hplo hplo rfl hself4 hold hentry hloop hplace hmoved ok' hev⟩)
        · -- The new directory is held, so it is still there.
          rcases hre1.keeps_dir ok hn hheld hon with ⟨hn1, _, hcoren⟩
          have howner1 := Fd.read_of Fd.core hcoren Fd.owner fun _ => rfl
          rcases reopenFd_spec ok1 pd hn1 (RPERM ||| WPERM ||| WDENY) io.openedNew
            (fun _ => hopenNew) with
            herr | ⟨h2, r2, hrun2, hre2⟩
          · left
            simp only [dxfsFrename, hdmd, ne_eq, not_true_eq_false, if_false, hrun1, hon, herr,
              bind, Except.bind]
          · have ok2 := hre2.forest
            have ha42 : Open h2 a4 o := ha4.spared hre2.sparesOpen
            have hev2 := hre1.evolves.trans hre2.evolves
            cases r2 with
            | error c =>
              right; right
              by_cases hchng : c = ECHNG ∨ c = EDRIVE
              · refine ⟨h2, c, ?_, .kept h2 ok2 hev2⟩
                simp only [dxfsFrename, hdmd, ne_eq, not_true_eq_false, if_false, hrun1, hon, hrun2,
                  if_pos hchng, bind, Except.bind, pure, Except.pure]
              · rcases closeDd_spec ok2 ha42.fd io.closedEarly with ⟨h3, hrun3, hclosed⟩
                refine ⟨h3, io.closedEarly, ?_, .kept h3 hclosed.forest
                  (hev2.trans (.one hclosed.frame hclosed.forest))⟩
                simp only [dxfsFrename, hdmd, ne_eq, not_true_eq_false, if_false, hrun1, hon, hrun2,
                  if_neg hchng, hrun3, bind, Except.bind, pure, Except.pure]
            | ok a5 =>
              rcases hre2.opened with ⟨_, hf2, hself5, _, hfd5, hm5, howner5, _⟩
              have ha5 : Open h2 a5 n := ⟨hfd5, hm5, howner5 ▸ hpd⟩
              have ho2 := ok2.proto a4 ha42.fd
              rw [ha42.multi1] at ho2
              have hn2 := ok2.proto a5 hfd5
              rw [hm5] at hn2
              have hplo2 := (hf2.proto o ho2).2.trans hplo
              have hpln2 := ((hf2.proto n hn2).2.trans (hf1.proto n hn1).2)
              have hdmd2 : (h2.fd o).dmd = (h2.fd n).dmd :=
                ((Fd.read_of Fd.place hplo2 Fd.dmd fun _ => rfl).trans hdmd).trans
                  (Fd.read_of Fd.place hpln2 Fd.dmd fun _ => rfl).symm
              have hstep : dxfsFrename h pd o n io = frenOpened h2 pd a4 a5 io := by
                simp only [dxfsFrename, hdmd, ne_eq, not_true_eq_false, if_false, hrun1, hon, hrun2,
                  bind, Except.bind]
                rfl
              rw [hstep]
              rcases frenOpened_spec ok2 (hf2.count (hf1.count hcount)) pd io ha42 ha5
                ((Fd.read_of Fd.place hpln2 Fd.subdir fun _ => rfl).trans hdir)
                hdmd2
                ⟨fun h45 => absurd (ha42.multi1.symm.trans (h45 ▸ hm5)) hon,
                  fun h1 => absurd h1 hon⟩
                hopenSub (fun d1 d3 a hold ha => hself5.mpr (howner1.trans
                  (hproto d1 d3 a hold (hf1.was_at (hf2.was_at ha).1).1))) with
                herr | hhang |
                  ⟨h', d0, hrun', ok', hev | ⟨h3, d1, d3, first, d5, e, r, hold, hentry, hloop,
                    hplace, hmoved, hev⟩⟩
              · exact .inl herr
              · exact .inr (.inl hhang)
              · exact .inr (.inr ⟨h', d0, hrun', .kept h' ok' (hev2.trans hev)⟩)
              · exact .inr
                  (.inr ⟨h', d0, hrun', .moved h2 h3 h' a4 d1 d3 first d5 e r ok2 hev2 ho2 hn2
                  hplo2 hpln2 hdmd2 hself4 hold hentry hloop hplace hmoved ok' hev⟩)
  · right; right
    exact ⟨h, ENSAME, by simp only [dxfsFrename, ne_eq, hdmd, not_false_eq_true, if_true],
      .kept h ok .refl⟩

end

end Xfs

end MagiC
