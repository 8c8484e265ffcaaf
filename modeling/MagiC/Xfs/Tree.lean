import MagiC.Lib.Rooted
import MagiC.Xfs.Wellformed

/-!
# Renaming and the Directory Tree

The directories of a drive are a tree, and the descriptors lie in it: every
prototype has an entry of its own, and a directory has one prototype. So the way
from a prototype over the parents to the root is the way in the tree, and the
walk of `dxfs_frename` over the directories above the new one sees the one that
is renamed if that is among them.

The walk compares parents, which are prototypes, with the descriptor through
which the old directory is open. That is the prototype only if nobody else had
it open. `Calm` says so for the renamings where it matters, and that a renaming
is completed. Then a renaming moves one edge of the tree to a place that is not
below it, and what was reached is still reached.

## Main definitions

* `Fits`: The places of the old name and the new one.

## Theorems

* `rename_keeps_tree`: So does every run.
-/

namespace MagiC

namespace Xfs

open Runs Rooted Chains

/-- The directories of a drive: an entry leads to the first cluster of a directory. -/
def subdirs (h : State) (d s p : Nat) : Option Nat :=
  match h.dirs d s p with
  | some e => if e.subdir then some e.stcl else none
  | none => none

theorem subdirs_iff (h : State) (d s p x : Nat) :
    subdirs h d s p = some x ↔ ∃ e, h.dirs d s p = some e ∧ e.subdir = true ∧ e.stcl = x := by
  rw [subdirs]
  cases h.dirs d s p with
  | none => simp
  | some e =>
    by_cases hs : e.subdir = true
    · simp [hs]
    · simp [hs]

/-- Every prototype but those of the roots has an entry of its own in its directory. -/
structure Placed (h : State) : Prop where
  entry : ∀ a, h.Proto a → (h.fd a).parent ≠ 0 →
    ∃ e, h.dirs (h.fd a).dmd (h.fd (h.fd a).parent).stcl (h.fd a).dirpos = some e ∧
      e.subdir = (h.fd a).subdir ∧ ((h.fd a).subdir = true → e.stcl = (h.fd a).stcl)
  alone : ∀ p d5 a b, At h p d5 a → At h p d5 b → a = b

/-- Each drive has one root, and its directories are a tree. -/
structure Drives (h : State) : Prop where
  mounted : ∀ a, h.Proto a → ∃ r ∈ h.dmdx, r ≠ 0 ∧ (h.fd r).dmd = (h.fd a).dmd
  one : ∀ a b, a ∈ h.dmdx → b ∈ h.dmdx → a ≠ 0 → b ≠ 0 → (h.fd a).dmd = (h.fd b).dmd → a = b
  tree : ∀ r ∈ h.dmdx, r ≠ 0 → Tree (subdirs h (h.fd r).dmd) (h.fd r).stcl

/-- The descriptors are a forest, and they fit the tree. -/
structure Sound (h : State) : Prop extends Wellformed h where
  placed : Placed h
  drives : Drives h

/-- A directory is reached from the root of its drive. -/
def Reachable (h : State) (d x : Nat) : Prop :=
  ∃ r ∈ h.dmdx, r ≠ 0 ∧ (h.fd r).dmd = d ∧ Reach (subdirs h d) (h.fd r).stcl x

section

variable {h h' : State}

/-! ### Descriptors that come and go -/

theorem Frame.placed {S : Nat → Prop} (hf : Frame S h h') (ok' : Forest h') (hp : Placed h) :
    Placed h' := by
  refine ⟨fun a ha hpar => ?_, fun p d5 a b ha hb => ?_⟩
  · have hpl := hf.proto a ha
    have hq := hf.proto _ (ok'.parent a ha hpar).1
    rw [Fd.read_of Fd.place hq.2 Fd.stcl fun _ => rfl, hf.dirs,
      Fd.read_of Fd.place hpl.2 Fd.dmd fun _ => rfl, Fd.read_of Fd.place hpl.2 Fd.dirpos fun _ =>
        rfl, Fd.read_of Fd.place hpl.2 Fd.subdir fun _ => rfl,
      Fd.read_of Fd.place hpl.2 Fd.stcl fun _ => rfl,
        Fd.read_of Fd.place hpl.2 Fd.parent fun _ => rfl]
    rw [Fd.read_of Fd.place hpl.2 Fd.parent fun _ => rfl] at hpar
    exact hp.entry a hpl.1 hpar
  · exact hp.alone p d5 a b (hf.was_at ha).1 (hf.was_at hb).1

theorem Added.was_at {a p d5 : Nat} {e : Entry} (hadd : Added h h' a p d5 e) {q d b : Nat}
    (hb : At h' q d b) (hba : b ≠ a) : At h q d b := by
  have hpl := hadd.proto b hb.1.1 hba
  have hpar := Fd.read_of Fd.place hpl.2 Fd.parent fun _ => rfl
  have hpos := Fd.read_of Fd.place hpl.2 Fd.dirpos fun _ => rfl
  exact ⟨⟨hpl.1, hpar.symm.trans hb.1.2⟩, hpos.symm.trans hb.2⟩

theorem Added.placed {a p d5 : Nat} {e : Entry} (hadd : Added h h' a p d5 e) (ok' : Forest h')
    (hp : Placed h) (hnew : ∀ b, ¬ At h p d5 b)
    (hentry : h.dirs (h.fd p).dmd (h.fd p).stcl d5 = some e) : Placed h' := by
  rcases hadd.fields with ⟨l, n, hfields⟩
  have hpar : (h'.fd a).parent = p := by rw [hfields]
  have hpos : (h'.fd a).dirpos = d5 := by rw [hfields]
  -- The new prototype has no children yet.
  have hchildless : ∀ b, ¬ h'.Child a b :=
    (ok'.children_zero hadd.new).mp (by rw [hfields]; rfl)
  have hold : ∀ b, h'.Proto b → (h'.fd b).parent ≠ 0 →
      h'.Proto (h'.fd b).parent ∧ (h'.fd b).parent ≠ a :=
    fun b hb hb0 => ⟨(ok'.parent b hb hb0).1, fun hba => hchildless b ⟨hb, hba⟩⟩
  refine ⟨fun b hb hb0 => ?_, fun q d b c hb hc => ?_⟩
  · have hq := hold b hb hb0
    have hqpl := hadd.proto _ hq.1 hq.2
    by_cases hba : b = a
    · subst hba
      rw [hpar] at hqpl ⊢
      rw [hadd.dirs, Fd.read_of Fd.place hqpl.2 Fd.stcl fun _ => rfl, hfields]
      exact ⟨e, hentry, rfl, fun _ => rfl⟩
    · have hpl := hadd.proto b hb hba
      rw [Fd.read_of Fd.place hqpl.2 Fd.stcl fun _ => rfl, hadd.dirs,
        Fd.read_of Fd.place hpl.2 Fd.dmd fun _ => rfl,
          Fd.read_of Fd.place hpl.2 Fd.dirpos fun _ => rfl,
        Fd.read_of Fd.place hpl.2 Fd.subdir fun _ => rfl,
          Fd.read_of Fd.place hpl.2 Fd.stcl fun _ => rfl,
        Fd.read_of Fd.place hpl.2 Fd.parent fun _ => rfl]
      rw [Fd.read_of Fd.place hpl.2 Fd.parent fun _ => rfl] at hb0
      exact hp.entry b hpl.1 hb0
  · by_cases hba : b = a
    · by_cases hca : c = a
      · exact hba.trans hca.symm
      · subst hba
        have hcat := hadd.was_at hc hca
        rw [← hb.1.2, hpar, ← hb.2, hpos] at hcat
        exact absurd hcat (hnew c)
    · by_cases hca : c = a
      · subst hca
        have hbat := hadd.was_at hb hba
        rw [← hc.1.2, hpar, ← hc.2, hpos] at hbat
        exact absurd hbat (hnew b)
      · exact hp.alone q d b c (hadd.was_at hb hba) (hadd.was_at hc hca)

/-- Descriptors that come and go keep to the entries. -/
theorem Evolves.placed (hev : Evolves h h') (hp : Placed h) : Placed h' := by
  induction hev with
  | refl => exact hp
  | frame S g g' _ hf ok' ih => exact hf.placed ok' ih
  | added a p d5 e g g' _ hadd ok' _ hnew hentry ih => exact hadd.placed ok' ih hnew hentry

/-- The roots are what they were, and no prototype is on a new drive. -/
structure Kin (h h' : State) : Prop where
  dmdx : h'.dmdx = h.dmdx
  root : ∀ r ∈ h.dmdx, r ≠ 0 → (h'.fd r).dmd = (h.fd r).dmd ∧ (h'.fd r).stcl = (h.fd r).stcl
  mounted : ∀ a, h'.Proto a → ∃ b, h.Proto b ∧ (h'.fd a).dmd = (h.fd b).dmd

theorem Kin.refl (h : State) : Kin h h :=
  ⟨rfl, fun _ _ _ => ⟨rfl, rfl⟩, fun a ha => ⟨a, ha, rfl⟩⟩

theorem Kin.trans {h1 h2 : State} (h01 : Kin h h1) (h12 : Kin h1 h2) : Kin h h2 := by
  refine ⟨h12.dmdx.trans h01.dmdx, fun r hr h0 => ?_, fun a ha => ?_⟩
  · have h1 := h01.root r hr h0
    have h2 := h12.root r (h01.dmdx ▸ hr) h0
    exact ⟨h2.1.trans h1.1, h2.2.trans h1.2⟩
  · rcases h12.mounted a ha with ⟨b, hb, hab⟩
    rcases h01.mounted b hb with ⟨c, hc, hbc⟩
    exact ⟨c, hc, hab.trans hbc⟩

theorem Frame.kin {S : Nat → Prop} (hf : Frame S h h') (ok' : Forest h') : Kin h h' := by
  refine ⟨hf.dmdx, fun r hr h0 => ?_, fun a ha => ?_⟩
  · have hpl := (hf.proto r (ok'.rootProto r (hf.dmdx ▸ hr) h0)).2
    exact ⟨Fd.read_of Fd.place hpl Fd.dmd fun _ => rfl,
      Fd.read_of Fd.place hpl Fd.stcl fun _ => rfl⟩
  · have hpl := hf.proto a ha
    exact ⟨a, hpl.1, Fd.read_of Fd.place hpl.2 Fd.dmd fun _ => rfl⟩

theorem Added.kin {a p d5 : Nat} {e : Entry} (hadd : Added h h' a p d5 e) (ok : Forest h)
    (ok' : Forest h') (hp : h.Proto p) : Kin h h' := by
  rcases hadd.fields with ⟨l, n, hfields⟩
  refine ⟨hadd.dmdx, fun r hr h0 => ?_, fun b hb => ?_⟩
  · have hproto := ok'.rootProto r (hadd.dmdx ▸ hr) h0
    have hra : r ≠ a := by
      intro hra
      have hpar := (ok'.root r hproto).mpr (hadd.dmdx ▸ hr)
      rw [hra, hfields] at hpar
      exact ok.ne_zero hp.1 hpar
    have hpl := (hadd.proto r hproto hra).2
    exact ⟨Fd.read_of Fd.place hpl Fd.dmd fun _ => rfl,
      Fd.read_of Fd.place hpl Fd.stcl fun _ => rfl⟩
  · by_cases hba : b = a
    · exact ⟨p, hp, by rw [hba, hfields]⟩
    · have hpl := hadd.proto b hb hba
      exact ⟨b, hpl.1, Fd.read_of Fd.place hpl.2 Fd.dmd fun _ => rfl⟩

theorem Evolves.kin (hev : Evolves h h') (ok : Forest h) : Forest h' ∧ Kin h h' := by
  induction hev with
  | refl => exact ⟨ok, .refl h⟩
  | frame S g g' _ hf ok' ih => exact ⟨ok', ih.2.trans (hf.kin ok')⟩
  | added a p d5 e g g' _ hadd ok' hp _ _ ih => exact ⟨ok', ih.2.trans (hadd.kin ih.1 ok' hp)⟩

theorem Kin.drives (hk : Kin h h') (hd : Drives h)
    (htree : ∀ r ∈ h.dmdx, r ≠ 0 → Tree (subdirs h' (h.fd r).dmd) (h.fd r).stcl) : Drives h' := by
  refine ⟨fun a ha => ?_, fun a b ha hb ha0 hb0 hab => ?_, fun r hr h0 => ?_⟩
  · rcases hk.mounted a ha with ⟨b, hb, hab⟩
    rcases hd.mounted b hb with ⟨r, hr, h0, hrb⟩
    exact ⟨r, hk.dmdx ▸ hr, h0, by rw [(hk.root r hr h0).1, hrb, hab]⟩
  · rw [hk.dmdx] at ha hb
    rw [(hk.root a ha ha0).1, (hk.root b hb hb0).1] at hab
    exact hd.one a b ha hb ha0 hb0 hab
  · rw [hk.dmdx] at hr
    rw [(hk.root r hr h0).1, (hk.root r hr h0).2]
    exact htree r hr h0

/-- The directories of one drive change. -/
theorem Kin.one_drive (hk : Kin h h') (hd : Drives h) {r : Nat} (hr : r ∈ h.dmdx) (hr0 : r ≠ 0)
    (hother : ∀ d, d ≠ (h.fd r).dmd → subdirs h' d = subdirs h d)
    (htree : Tree (subdirs h' (h.fd r).dmd) (h.fd r).stcl)
    (hreach : ∀ z, Reach (subdirs h (h.fd r).dmd) (h.fd r).stcl z →
      Reach (subdirs h' (h.fd r).dmd) (h.fd r).stcl z) :
    Drives h' ∧ ∀ d x, Reachable h d x → Reachable h' d x := by
  refine ⟨hk.drives hd fun q hq hq0 => ?_, ?_⟩
  · by_cases hqd : (h.fd q).dmd = (h.fd r).dmd
    · rw [hd.one q r hq hr hq0 hr0 hqd]
      exact htree
    · rw [hother _ hqd]
      exact hd.tree q hq hq0
  · rintro d z ⟨q, hq, hq0, rfl, hz⟩
    have hqk := hk.root q hq hq0
    refine ⟨q, hk.dmdx ▸ hq, hq0, hqk.1, ?_⟩
    rw [hqk.2]
    by_cases hqd : (h.fd q).dmd = (h.fd r).dmd
    · rw [hd.one q r hq hr hq0 hr0 hqd] at hz ⊢
      exact hreach z hz
    · rw [hother _ hqd]
      exact hz

theorem Kin.reachable (hk : Kin h h') (hsub : ∀ d, subdirs h' d = subdirs h d) {d x : Nat}
    (hx : Reachable h d x) : Reachable h' d x := by
  rcases hx with ⟨r, hr, h0, hd, hreach⟩
  refine ⟨r, hk.dmdx ▸ hr, h0, (hk.root r hr h0).1.trans hd, ?_⟩
  rw [hsub, (hk.root r hr h0).2]
  exact hreach

/-- Steps that leave the directories alone keep the descriptors in their places. -/
theorem Evolves.sound (hev : Evolves h h') (hs : Sound h) :
    Sound h' ∧ ∀ d x, Reachable h d x → Reachable h' d x := by
  have hk := hev.kin hs.forest
  have hsub : ∀ d, subdirs h' d = subdirs h d := by
    intro d
    funext s p
    rw [subdirs, subdirs, hev.fixed.1]
  refine ⟨⟨⟨hk.1, hev.count hs.counts⟩, hev.placed hs.placed,
    hk.2.drives hs.drives fun r hr h0 => ?_⟩, fun d x hx => hk.2.reachable hsub hx⟩
  rw [hsub]
  exact hs.drives.tree r hr h0

/-! ### The directories above a descriptor -/

theorem Sound.entered (hs : Sound h) {a : Nat} (ha : h.Proto a) (hdir : (h.fd a).subdir = true)
    (hpar : (h.fd a).parent ≠ 0) :
    subdirs h (h.fd a).dmd (h.fd (h.fd a).parent).stcl (h.fd a).dirpos = some (h.fd a).stcl := by
  rcases hs.placed.entry a ha hpar with ⟨e, he, hsub, hstcl⟩
  exact (subdirs_iff _ _ _ _ _).mpr ⟨e, he, hsub.trans hdir, hstcl hdir⟩

theorem dir_unique (hs : Sound h) {r : Nat} (hr : r ∈ h.dmdx) (hr0 : r ≠ 0) {s : Nat}
    (hreach : Reach (subdirs h (h.fd r).dmd) (h.fd r).stcl s) :
    ∀ a b, h.Proto a → h.Proto b → (h.fd a).subdir = true → (h.fd b).subdir = true →
      (h.fd a).dmd = (h.fd r).dmd → (h.fd b).dmd = (h.fd r).dmd → (h.fd a).stcl = s →
      (h.fd b).stcl = s → a = b := by
  have ht := hs.drives.tree r hr hr0
  -- A prototype without a parent is that of the root.
  have hroot : ∀ a, h.Proto a → (h.fd a).dmd = (h.fd r).dmd → (h.fd a).parent = 0 → a = r := by
    intro a ha hd h0
    exact hs.drives.one a r ((hs.forest.root a ha).mp h0) hr (hs.forest.ne_zero ha.1) hr0 hd
  induction hreach with
  | root =>
    have hisroot : ∀ a, h.Proto a → (h.fd a).subdir = true → (h.fd a).dmd = (h.fd r).dmd →
        (h.fd a).stcl = (h.fd r).stcl → a = r := by
      intro a ha hdir hd hst
      by_cases h0 : (h.fd a).parent = 0
      · exact hroot a ha hd h0
      · have hin := hs.entered ha hdir h0
        rw [hd, hst] at hin
        exact absurd hin (ht.root _ _)
    intro a b ha hb hda hdb hma hmb hsa hsb
    exact (hisroot a ha hda hma hsa).trans (hisroot b hb hdb hmb hsb).symm
  | step u p x _ hx ih =>
    have hin : ∀ a, h.Proto a → (h.fd a).subdir = true → (h.fd a).dmd = (h.fd r).dmd →
        (h.fd a).stcl = x → (h.fd a).parent ≠ 0 ∧ (h.fd (h.fd a).parent).stcl = u ∧
          (h.fd a).dirpos = p := by
      intro a ha hdir hd hst
      have h0 : (h.fd a).parent ≠ 0 := by
        intro h0
        rw [hroot a ha hd h0] at hst
        exact ht.root u p (hst ▸ hx)
      have hin := hs.entered ha hdir h0
      rw [hd, hst] at hin
      exact ⟨h0, ht.once _ _ _ _ x hin hx⟩
    intro a b ha hb hda hdb hma hmb hsa hsb
    have hia := hin a ha hda hma hsa
    have hib := hin b hb hdb hmb hsb
    have hpa := hs.forest.parent a ha hia.1
    have hpb := hs.forest.parent b hb hib.1
    have hpp := ih _ _ hpa.1 hpb.1 hpa.2 hpb.2
      ((hs.forest.childDmd a ha hia.1).symm.trans hma)
        ((hs.forest.childDmd b hb hib.1).symm.trans hmb)
      hia.2.1 hib.2.1
    exact hs.placed.alone _ _ a b ⟨⟨ha, rfl⟩, rfl⟩ ⟨⟨hb, hpp.symm⟩, hib.2.2.trans hia.2.2.symm⟩

theorem Sound.dir_reached (hs : Sound h) {a : Nat} (ha : h.Proto a)
    (hdir : (h.fd a).subdir = true) :
    ∃ r ∈ h.dmdx, r ≠ 0 ∧ (h.fd r).dmd = (h.fd a).dmd ∧
      Reach (subdirs h (h.fd r).dmd) (h.fd r).stcl (h.fd a).stcl := by
  rcases hs.drives.mounted a ha with ⟨r, hr, h0, hd⟩
  refine ⟨r, hr, h0, hd, ?_⟩
  by_cases hpar : (h.fd a).parent = 0
  · have har :=
      hs.drives.one a r ((hs.forest.root a ha).mp hpar) hr (hs.forest.ne_zero ha.1) h0 hd.symm
    rw [har]
    exact .root
  · have hin := hs.entered ha hdir hpar
    rw [← hd] at hin
    exact (hs.drives.tree r hr h0).reach _ _ _ hin

theorem Sound.dir_inj (hs : Sound h) {a b : Nat} (ha : h.Proto a) (hb : h.Proto b)
    (hda : (h.fd a).subdir = true) (hdb : (h.fd b).subdir = true)
    (hdmd : (h.fd a).dmd = (h.fd b).dmd)
    (hst : (h.fd a).stcl = (h.fd b).stcl) : a = b := by
  rcases hs.dir_reached ha hda with ⟨r, hr, h0, hd, hreach⟩
  exact dir_unique hs hr h0 hreach a b ha hb hda hdb hd.symm (hdmd.symm.trans hd.symm) rfl hst.symm

/-- `y` is the directory `a` or one above it. -/
inductive Above (h : State) (y : Nat) : Nat → Prop where
  | self : Above h y y
  | up (a : Nat) : (h.fd a).parent ≠ 0 → Above h y (h.fd a).parent → Above h y a

theorem testParLoop_false {a4 d3 : Nat} :
    ∀ n a, testParLoop h a4 d3 n a = .ok false →
      ∀ y, Above h y a → (h.fd y).parent ≠ 0 → ¬ ((h.fd y).parent = a4 ∧ (h.fd y).dirpos = d3) := by
  intro n
  induction n with
  | zero =>
    intro a hrun
    cases hrun
  | succ n ih =>
    intro a hrun y hy hpar hno
    simp only [testParLoop] at hrun
    cases hy with
    | self =>
      rw [if_neg hpar, if_pos ⟨hno.1.symm, hno.2⟩] at hrun
      cases hrun
    | up _ ha hy =>
      rw [if_neg ha] at hrun
      split at hrun
      · cases hrun
      · exact ih _ hrun y hy hpar hno

theorem testParLoop_path {a4 d3 : Nat} (l : List Nat) :
    ∀ n a, Path (fun x => (h.fd x).parent) a l 0 → l ≠ [] → l.length ≤ n →
      ∃ b, testParLoop h a4 d3 n a = .ok b := by
  induction l with
  | nil =>
    intro n a _ hne
    exact absurd rfl hne
  | cons x xs ih =>
    intro n a hl _ hn
    obtain ⟨k, rfl⟩ := Nat.exists_eq_succ_of_ne_zero (Nat.ne_of_gt (Nat.lt_of_lt_of_le
      (Nat.zero_lt_succ _) hn))
    rcases hl with ⟨rfl, hxs⟩
    simp only [testParLoop]
    by_cases h0 : (h.fd a).parent = 0
    · exact ⟨false, by rw [if_pos h0]⟩
    · rw [if_neg h0]
      split
      · exact ⟨true, rfl⟩
      · refine ih k _ hxs ?_ (Nat.le_of_succ_le_succ hn)
        rintro rfl
        exact h0 hxs

theorem Sound.way (hs : Sound h) {r : Nat} (hr : r ∈ h.dmdx) (hr0 : r ≠ 0) {s : Nat}
    (hreach : Reach (subdirs h (h.fd r).dmd) (h.fd r).stcl s) :
    ∀ a, h.Proto a → (h.fd a).subdir = true → (h.fd a).dmd = (h.fd r).dmd → (h.fd a).stcl = s →
      ∃ l, Path (fun x => (h.fd x).parent) a l 0 ∧ l ≠ [] ∧ ∀ x ∈ l, h.Proto x := by
  have ht := hs.drives.tree r hr hr0
  have hstop : ∀ a, h.Proto a → (h.fd a).parent = 0 →
      ∃ l, Path (fun x => (h.fd x).parent) a l 0 ∧ l ≠ [] ∧ ∀ x ∈ l, h.Proto x := by
    intro a ha h0
    refine ⟨[a], ⟨rfl, h0⟩, List.cons_ne_nil _ _, fun x hx => ?_⟩
    rw [List.mem_singleton.mp hx]
    exact ha
  induction hreach with
  | root =>
    intro a ha hdir hd hst
    refine hstop a ha ?_
    by_contra h0
    have hin := hs.entered ha hdir h0
    rw [hd, hst] at hin
    exact ht.root _ _ hin
  | step u p x _ hx ih =>
    intro a ha hdir hd hst
    by_cases h0 : (h.fd a).parent = 0
    · exact hstop a ha h0
    · have hin := hs.entered ha hdir h0
      rw [hd, hst] at hin
      have hpar := hs.forest.parent a ha h0
      obtain ⟨l, hl, _, hproto⟩ := ih _ hpar.1 hpar.2 ((hs.forest.childDmd a ha h0).symm.trans hd)
        (ht.once _ _ _ _ x hin hx).1
      exact ⟨a :: l, ⟨rfl, hl⟩, List.cons_ne_nil _ _, List.forall_mem_cons.mpr ⟨ha, hproto⟩⟩

theorem Sound.walk_ends (hs : Sound h) (a4 d3 : Nat) {n : Nat} (hn : h.Proto n)
    (hdir : (h.fd n).subdir = true) : ∃ b, testParLoop h a4 d3 h.turns n = .ok b := by
  rcases hs.dir_reached hn hdir with ⟨r, hr, h0, hd, hreach⟩
  rcases hs.way hr h0 hreach n hn hdir hd.symm rfl with ⟨l, hl, hne, hproto⟩
  have hnd := path_nodup _ _ _ l hl fun hmem => hs.forest.ne_zero (hproto 0 hmem).1 rfl
  refine testParLoop_path l _ _ hl hne (Nat.le_of_lt (hs.forest.short l hnd fun x hx => ?_))
  rw [(hproto x hx).1]
  exact Use.noConfusion

theorem Sound.above (hs : Sound h) {r : Nat} (hr : r ∈ h.dmdx) (hr0 : r ≠ 0) {x s : Nat}
    (hreach : Reach (subdirs h (h.fd r).dmd) x s) :
    ∀ a, h.Proto a → (h.fd a).subdir = true → (h.fd a).dmd = (h.fd r).dmd → (h.fd a).stcl = s →
      ∃ y, Above h y a ∧ h.Proto y ∧ (h.fd y).subdir = true ∧ (h.fd y).dmd = (h.fd r).dmd ∧
        (h.fd y).stcl = x := by
  have ht := hs.drives.tree r hr hr0
  induction hreach with
  | root =>
    intro a ha hdir hd hst
    exact ⟨a, .self, ha, hdir, hd, hst⟩
  | step u p z _ hz ih =>
    intro a ha hdir hd hst
    have h0 : (h.fd a).parent ≠ 0 := by
      intro h0
      have har := hs.drives.one a r ((hs.forest.root a ha).mp h0) hr (hs.forest.ne_zero ha.1) hr0 hd
      rw [har] at hst
      exact ht.root u p (hst ▸ hz)
    have hin := hs.entered ha hdir h0
    rw [hd, hst] at hin
    have hpar := hs.forest.parent a ha h0
    obtain ⟨y, hy, hrest⟩ := ih _ hpar.1 hpar.2 ((hs.forest.childDmd a ha h0).symm.trans hd)
      (ht.once _ _ _ _ z hin hz).1
    exact ⟨y, .up a h0 hy, hrest⟩

/-- If the old directory is open through its prototype and the walk finds nothing, the new directory
    is not below the one that is renamed. -/
theorem Sound.not_below (hs : Sound h) {o n d3 : Nat} {e : Entry} (ho : h.Proto o)
    (hodir : (h.fd o).subdir = true) (hn : h.Proto n) (hndir : (h.fd n).subdir = true)
    (hdmd : (h.fd o).dmd = (h.fd n).dmd) (hentry : h.dirs (h.fd o).dmd (h.fd o).stcl d3 = some e)
    (hsub : e.subdir = true) (hwalk : testParLoop h o d3 h.turns n = .ok false) :
    ¬ Reach (subdirs h (h.fd o).dmd) e.stcl (h.fd n).stcl := by
  intro hbelow
  rcases hs.dir_reached ho hodir with ⟨r, hr, h0, hd, _⟩
  have ht := hs.drives.tree r hr h0
  rw [← hd] at hbelow
  obtain ⟨y, hy, hyp, hydir, hydmd, hyst⟩ :=
    hs.above hr h0 hbelow n hn hndir (hdmd.symm.trans hd.symm) rfl
  have hedge : subdirs h (h.fd r).dmd (h.fd o).stcl d3 = some e.stcl :=
    (subdirs_iff _ _ _ _ _).mpr ⟨e, by rw [hd]; exact hentry, hsub, rfl⟩
  have hpar : (h.fd y).parent ≠ 0 := by
    intro hp0
    have hyr :=
      hs.drives.one y r ((hs.forest.root y hyp).mp hp0) hr (hs.forest.ne_zero hyp.1) h0 hydmd
    rw [hyr] at hyst
    exact ht.root _ _ (hyst ▸ hedge)
  have hin := hs.entered hyp hydir hpar
  rw [hydmd, hyst] at hin
  have hsame := ht.once _ _ _ _ _ hin hedge
  have hq := hs.forest.parent y hyp hpar
  have hqo := hs.dir_inj hq.1 ho hq.2 hodir
    (((hs.forest.childDmd y hyp hpar).symm.trans hydmd).trans hd) hsame.1
  exact testParLoop_false _ _ hwalk y hy hpar ⟨hqo, hsame.2⟩

/-! ### The entries of a renaming -/

end

/-- What `dir_srch` and `vf_ffree` answer: entries are 32 bytes, the old name has one main entry,
    its last one, and the new one gets entries that are free, or those of the old one if it takes as
    many. -/
structure Fits (h : State) (o n d1 d3 first d5 : Nat) : Prop where
  aligned : 32 ∣ d1 ∧ 32 ∣ d3 ∧ 32 ∣ first ∧ 32 ∣ d5
  ordered : d1 ≤ d3 ∧ first ≤ d5
  old : ∀ p, d1 ≤ p → p < d3 → h.dirs (h.fd o).dmd (h.fd o).stcl p = none
  new : ∀ p, first ≤ p → p ≤ d5 →
    (h.dirs (h.fd n).dmd (h.fd n).stcl p = none ∧ ¬ (o = n ∧ d1 ≤ p ∧ p ≤ d3)) ∨
      (o = n ∧ d1 ≤ p ∧ p ≤ d3 ∧ d5 - first = d3 - d1)

/-- From `x` to `y` entries of the old name are deleted, perhaps none, and the main one is among
    them or has been overwritten. -/
structure Leaves (same : Prop) (d1 d3 first d5 x y : Nat) : Prop where
  within : x ≤ y → d1 ≤ x ∧ y ≤ d3
  spares : ¬ (same ∧ x ≤ d5 ∧ d5 ≤ y)
  main : (x ≤ d3 ∧ d3 ≤ y) ∨ (same ∧ first ≤ d3 ∧ d3 ≤ d5)

section

variable {h h' : State}

/-- What is left of the old name does not contain the new main entry, and the old one goes. -/
theorem toDelete_spec {o n d1 d3 first d5 : Nat} (hf : Fits h o n d1 d3 first d5) :
    (toDelete (o = n) d1 d3 first d5 = none ∧ o = n ∧ first ≤ d3 ∧ d3 ≤ d5) ∨
      ∃ x y, toDelete (o = n) d1 d3 first d5 = some (x, y) ∧ Leaves (o = n) d1 d3 first d5 x y := by
  rcases hf.aligned with ⟨⟨a, ha⟩, ⟨b, hb⟩, ⟨c, hc⟩, ⟨d, hd⟩⟩
  have ho := hf.ordered
  -- If the two overlap, they are of the same length.
  have hlen : o = n → first ≤ d3 → d1 ≤ d5 → d5 - first = d3 - d1 := by
    intro hon h1 h2
    by_cases hp : d1 ≤ first
    · rcases hf.new first (Nat.le_refl _) ho.2 with ⟨_, hno⟩ | ⟨_, _, _, hlen⟩
      · exact absurd ⟨hon, hp, h1⟩ hno
      · exact hlen
    · rcases hf.new d1 (by omega) h2 with ⟨_, hno⟩ | ⟨_, _, _, hlen⟩
      · exact absurd ⟨hon, Nat.le_refl _, ho.1⟩ hno
      · exact hlen
  simp only [toDelete]
  by_cases hapart : (!decide (o = n)) = true ∨ d5 < d1 ∨ d3 < first
  · rw [if_pos hapart]
    refine .inr ⟨d1, d3, rfl, fun _ => ⟨Nat.le_refl _, Nat.le_refl _⟩, ?_,
      .inl ⟨ho.1, Nat.le_refl _⟩⟩
    rintro ⟨hon, h1, h2⟩
    simp only [hon, decide_true, Bool.not_true, Bool.false_eq_true, false_or] at hapart
    omega
  · rw [if_neg hapart]
    simp only [Bool.not_eq_true', decide_eq_false_iff_not, not_or, not_not, Nat.not_lt] at hapart
    rcases hapart with ⟨hon, h1, h2⟩
    have hl := hlen hon h2 h1
    by_cases h3 : d1 < first
    · rw [if_pos h3, if_neg (by omega)]
      exact .inr ⟨d1, first - 32, rfl, fun _ => ⟨Nat.le_refl _, by omega⟩, by omega,
        .inr ⟨hon, h2, by omega⟩⟩
    · rw [if_neg h3]
      by_cases h4 : d3 < d5 + 32
      · rw [if_pos h4]
        exact .inl ⟨rfl, hon, h2, by omega⟩
      · rw [if_neg h4]
        exact .inr ⟨d5 + 32, d3, rfl, fun _ => ⟨by omega, Nat.le_refl _⟩, by omega,
          .inl ⟨by omega, Nat.le_refl _⟩⟩

/-- The entry `e` has gone from the position `d3` of `o` to `d5` of `n`, and all others are what
    they were. -/
structure Carried (h h' : State) (o n d3 d5 : Nat) (e : Entry) : Prop where
  new : h'.dirs (h.fd n).dmd (h.fd n).stcl d5 = some e
  gone : h'.dirs (h.fd o).dmd (h.fd o).stcl d3 = none ∨ (n = o ∧ d5 = d3)
  rest : ∀ d s p, ¬ (d = (h.fd o).dmd ∧ s = (h.fd o).stcl ∧ p = d3) →
    ¬ (d = (h.fd n).dmd ∧ s = (h.fd n).stcl ∧ p = d5) → h'.dirs d s p = h.dirs d s p

theorem State.setDir_dirs (h : State) (dmd stcl : Nat) (e : Nat → Option Entry) (d s p : Nat) :
    (h.setDir dmd stcl e).dirs d s p = if d = dmd ∧ s = stcl then e p else h.dirs d s p := by
  by_cases hd : d = dmd
  · by_cases hs : s = stcl
    · subst hd hs
      simp [State.setDir]
    · subst hd
      simp [State.setDir, hs]
  · simp [State.setDir, hd]

theorem Fits.inside {o n d1 d3 first d5 p : Nat} {e : Entry} (hf : Fits h o n d1 d3 first d5)
    (h1 : first ≤ p) (h2 : p ≤ d5) (he : h.dirs (h.fd n).dmd (h.fd n).stcl p = some e) :
    o = n ∧ p = d3 := by
  rcases hf.new p h1 h2 with ⟨h0, _⟩ | ⟨hon, hlo, hhi, _⟩
  · rw [he] at h0
    cases h0
  · refine ⟨hon, ?_⟩
    by_contra hne
    have h0 := hf.old p hlo (by omega)
    rw [hon, he] at h0
    cases h0

theorem writeName_dirs {o n d1 d3 first d5 : Nat} (e : Entry) (hf : Fits h o n d1 d3 first d5)
    (d s p : Nat) :
    ((writeName h n first d5 e).dirs d s p = some e ∧
        d = (h.fd n).dmd ∧ s = (h.fd n).stcl ∧ p = d5) ∨
      ((writeName h n first d5 e).dirs d s p = none ∧ o = n ∧ d = (h.fd n).dmd ∧ s = (h.fd n).stcl ∧
        p = d3 ∧ first ≤ d3 ∧ d3 < d5) ∨
      ((writeName h n first d5 e).dirs d s p = h.dirs d s p ∧
        ¬ (d = (h.fd n).dmd ∧ s = (h.fd n).stcl ∧ p = d5) ∧
        ¬ (d = (h.fd n).dmd ∧ s = (h.fd n).stcl ∧ p = d3 ∧ first ≤ d3 ∧ d3 < d5 ∧ o = n)) := by
  rw [writeName, State.setDir_dirs]
  by_cases hds : d = (h.fd n).dmd ∧ s = (h.fd n).stcl
  · rw [if_pos hds, writeRun]
    by_cases hp : p = d5
    · exact .inl ⟨by rw [if_pos hp], hds.1, hds.2, hp⟩
    · rw [if_neg hp]
      by_cases hin : first ≤ p ∧ p < d5
      · rw [if_pos hin]
        -- What is overwritten is free, or the old main entry.
        cases he : h.dirs d s p with
        | none =>
          by_cases h3 : p = d3 ∧ o = n
          · exact .inr (.inl ⟨rfl, h3.2, hds.1, hds.2, h3.1, h3.1 ▸ hin.1, h3.1 ▸ hin.2⟩)
          · exact .inr (.inr ⟨rfl, fun hno => hp hno.2.2, fun hno => h3 ⟨hno.2.2.1, hno.2.2.2.2.2⟩⟩)
        | some e' =>
          rw [hds.1, hds.2] at he
          have h3 := hf.inside hin.1 (Nat.le_of_lt hin.2) he
          exact .inr (.inl ⟨rfl, h3.1, hds.1, hds.2, h3.2, h3.2 ▸ hin.1, h3.2 ▸ hin.2⟩)
      · rw [if_neg hin, hds.1, hds.2]
        exact .inr (.inr ⟨rfl, fun hno => hp hno.2.2,
          fun hno => hin ⟨hno.2.2.1 ▸ hno.2.2.2.1, hno.2.2.1 ▸ hno.2.2.2.2.1⟩⟩)
  · rw [if_neg hds]
    exact .inr (.inr ⟨rfl, fun hno => hds ⟨hno.1, hno.2.1⟩, fun hno => hds ⟨hno.1, hno.2.1⟩⟩)

/-- Writing the new name and deleting what is left of the old one moves one entry. -/
theorem carried {o n d1 d3 first d5 x y : Nat} {e : Entry} (hf : Fits h o n d1 d3 first d5)
    (hdmd : (h.fd o).dmd = (h.fd n).dmd) (hinj : (h.fd o).stcl = (h.fd n).stcl → o = n)
    (hl : Leaves (o = n) d1 d3 first d5 x y)
    (hdirs : ∀ d s p, h'.dirs d s p =
      if (d = (h.fd o).dmd ∧ s = (h.fd o).stcl) ∧ x ≤ p ∧ p ≤ y then none
      else (writeName h n first d5 e).dirs d s p) : Carried h h' o n d3 d5 e := by
  have hw := writeName_dirs e hf
  refine ⟨?_, ?_, fun d s p hnold hnnew => ?_⟩
  · rw [hdirs, if_neg fun hno => hl.spares ⟨hinj hno.1.2.symm, hno.2⟩]
    rcases hw (h.fd n).dmd (h.fd n).stcl d5 with ⟨he, _⟩ | ⟨_, _, _, _, h3, _, h5⟩ | ⟨_, hno, _⟩
    · exact he
    · omega
    · exact absurd ⟨rfl, rfl, rfl⟩ hno
  · rw [hdirs]
    by_cases hin : x ≤ d3 ∧ d3 ≤ y
    · exact .inl (by rw [if_pos ⟨⟨rfl, rfl⟩, hin⟩])
    · rw [if_neg fun hno => hin hno.2]
      rcases hl.main with hno | ⟨hon, h1, h2⟩
      · exact absurd hno hin
      · subst hon
        rcases hw (h.fd o).dmd (h.fd o).stcl d3 with ⟨_, _, _, h5⟩ | ⟨he, _⟩ | ⟨_, hno1, hno2⟩
        · exact .inr ⟨rfl, h5.symm⟩
        · exact .inl he
        · by_cases h35 : d3 = d5
          · exact .inr ⟨rfl, h35.symm⟩
          · exact absurd ⟨rfl, rfl, rfl, h1, by omega, rfl⟩ hno2
  · -- What is deleted besides the main entry is no main entry.
    have herase : (d = (h.fd o).dmd ∧ s = (h.fd o).stcl) ∧ x ≤ p ∧ p ≤ y → h.dirs d s p = none := by
      rintro ⟨⟨rfl, rfl⟩, hx, hy⟩
      have hin := hl.within (Nat.le_trans hx hy)
      refine hf.old p (by omega) ?_
      have hne : p ≠ d3 := fun h3 => hnold ⟨rfl, rfl, h3⟩
      omega
    rw [hdirs]
    by_cases hin : (d = (h.fd o).dmd ∧ s = (h.fd o).stcl) ∧ x ≤ p ∧ p ≤ y
    · rw [if_pos hin, herase hin]
    · rw [if_neg hin]
      rcases hw d s p with ⟨_, hno⟩ | ⟨_, hon, hd, hs, h3, _⟩ | ⟨he, _⟩
      · exact absurd hno hnnew
      · exact absurd ⟨hd.trans hdmd.symm, by rw [hs, hon], h3⟩ hnold
      · exact he

/-! ### The descriptors of a renaming -/

/-- No prototype is new, and all keep their drive, their first cluster and their kind. -/
def Alike (h h' : State) : Prop :=
  ∀ a, h'.Proto a → h.Proto a ∧ (h'.fd a).dmd = (h.fd a).dmd ∧ (h'.fd a).stcl = (h.fd a).stcl ∧
    (h'.fd a).subdir = (h.fd a).subdir

theorem Moved.alike {a0 n d5 : Nat} (hm : Moved h h' a0 n d5) (ha0 : h.Proto a0) : Alike h h' := by
  intro a ha
  by_cases haa : a = a0
  · subst haa
    rcases hm.self with ⟨_, l, hself⟩
    exact ⟨ha0, Fd.read_of Fd.core hself Fd.dmd fun _ => rfl,
      Fd.read_of Fd.core hself Fd.stcl fun _ => rfl,
        Fd.read_of Fd.core hself Fd.subdir fun _ => rfl⟩
  · have hpl := hm.proto a ha haa
    exact ⟨hpl.1, Fd.read_of Fd.place hpl.2 Fd.dmd fun _ => rfl,
      Fd.read_of Fd.place hpl.2 Fd.stcl fun _ => rfl,
        Fd.read_of Fd.place hpl.2 Fd.subdir fun _ => rfl⟩

theorem Moved.others {a0 n d5 : Nat} (hm : Moved h h' a0 n d5) {a : Nat} (ha : h'.Proto a)
    (haa : a ≠ a0) : (h'.fd a).parent = (h.fd a).parent ∧ (h'.fd a).dirpos = (h.fd a).dirpos := by
  have hpl := hm.proto a ha haa
  exact ⟨Fd.read_of Fd.place hpl.2 Fd.parent fun _ => rfl,
    Fd.read_of Fd.place hpl.2 Fd.dirpos fun _ => rfl⟩

/-- After the new name has been written and the prototype has moved, every prototype has an entry of
    its own again. -/
theorem Moved.placed {a0 o n d1 d3 first d5 : Nat} {e : Entry} (hs : Sound h) (ho : h.Proto o)
    (hn : h.Proto n) (hndir : (h.fd n).subdir = true) (hdmd : (h.fd o).dmd = (h.fd n).dmd)
    (hentry : h.dirs (h.fd o).dmd (h.fd o).stcl d3 = some e) (hf : Fits h o n d1 d3 first d5)
    (hat : At h o d3 a0) (hm : Moved (writeName h n first d5 e) h' a0 n d5) (ok' : Forest h') :
    Placed h' ∧ (∀ a, At h' o d3 a → n = o ∧ d5 = d3) := by
  have hw := writeName_dirs e hf
  have hal : Alike h h' := hm.alike (h := writeName h n first d5 e) hat.1.1
  have hself : (h'.fd a0).parent = n ∧ (h'.fd a0).dirpos = d5 := by
    rcases hm.self with ⟨_, l, hc⟩
    exact ⟨Fd.read_of Fd.core hc Fd.parent fun _ => rfl,
      Fd.read_of Fd.core hc Fd.dirpos fun _ => rfl⟩
  have hothers : ∀ a, h'.Proto a → a ≠ a0 → (h'.fd a).parent = (h.fd a).parent ∧
      (h'.fd a).dirpos = (h.fd a).dirpos :=
    fun a ha haa => hm.others (h := writeName h n first d5 e) ha haa
  -- The prototype of the file is the only one in the place of the new name.
  have hnone : ∀ b p, At h n p b → first ≤ p → p ≤ d5 → b = a0 := by
    intro b p hb h1 h2
    have hpar : (h.fd b).parent ≠ 0 := by
      rw [hb.1.2]
      exact hs.forest.ne_zero hn.1
    rcases hs.placed.entry b hb.1.1 hpar with ⟨e', he', _⟩
    rw [hs.forest.childDmd b hb.1.1 hpar, hb.1.2, hb.2] at he'
    have hin := hf.inside h1 h2 he'
    rw [hin.2, ← hin.1] at hb
    exact hs.placed.alone o d3 b a0 hb hat
  refine ⟨⟨fun b hb hpar => ?_, fun q d b c hb hc => ?_⟩, fun b hb => ?_⟩
  · have hbal := hal b hb
    have hqal := hal _ (ok'.parent b hb hpar).1
    rw [hm.dirs, hqal.2.2.1, hbal.2.1, hbal.2.2.1, hbal.2.2.2]
    by_cases hba : b = a0
    · subst hba
      have hpar0 : (h.fd b).parent ≠ 0 := by
        rw [hat.1.2]
        exact hs.forest.ne_zero ho.1
      rcases hs.placed.entry b hat.1.1 hpar0 with ⟨e', he', hkind⟩
      have hbd := hs.forest.childDmd b hat.1.1 hpar0
      rw [hat.1.2] at hbd
      rw [hbd, hat.1.2, hat.2, hentry] at he'
      cases he'
      rw [hself.1, hself.2, hbd, hdmd]
      refine ⟨e, ?_, hkind⟩
      simp only [writeName, State.setDir_dirs, and_self, if_true, writeRun]
    · have hbo := hothers b hb hba
      rw [hbo.1] at hpar ⊢
      rw [hbo.2]
      rcases hs.placed.entry b hbal.1 hpar with ⟨e', he', hkind⟩
      refine ⟨e', ?_, hkind⟩
      have hbp := hs.forest.parent b hbal.1 hpar
      have hbd := hs.forest.childDmd b hbal.1 hpar
      -- The place of another prototype is not overwritten.
      have hout : ¬ ((h.fd b).dmd = (h.fd n).dmd ∧ (h.fd (h.fd b).parent).stcl = (h.fd n).stcl ∧
          first ≤ (h.fd b).dirpos ∧ (h.fd b).dirpos ≤ d5) := by
        rintro ⟨hd, hst, h1, h2⟩
        have hpn := hs.dir_inj hbp.1 hn hbp.2 hndir (hbd.symm.trans hd) hst
        exact hba (hnone b _ ⟨⟨hbal.1, hpn⟩, rfl⟩ h1 h2)
      rcases hw (h.fd b).dmd (h.fd (h.fd b).parent).stcl (h.fd b).dirpos with
        ⟨_, hd, hst, h5⟩ | ⟨_, _, hd, hst, h3, h1, h2⟩ | ⟨hsame, _⟩
      · exact absurd ⟨hd, hst, h5 ▸ hf.ordered.2, Nat.le_of_eq h5⟩ hout
      · exact absurd ⟨hd, hst, h3 ▸ h1, by omega⟩ hout
      · rw [hsame]
        exact he'
  · have hwas : ∀ x, At h' q d x → x ≠ a0 → At h q d x := by
      intro x hx hxa
      have hxo := hothers x hx.1.1 hxa
      exact ⟨⟨(hal x hx.1.1).1, hxo.1.symm.trans hx.1.2⟩, hxo.2.symm.trans hx.2⟩
    have hto : ∀ x y, At h' q d x → At h' q d y → x = a0 → y = a0 := by
      intro x y hx hy hxa
      by_contra hya
      have hyat := hwas y hy hya
      rw [hxa] at hx
      rw [← hx.1.2, hself.1, ← hx.2, hself.2] at hyat
      exact hya (hnone y d5 hyat hf.ordered.2 (Nat.le_refl _))
    by_cases hba : b = a0
    · exact hba.trans (hto b c hb hc hba).symm
    · by_cases hca : c = a0
      · exact (hto c b hc hb hca).trans hca.symm
      · exact hs.placed.alone q d b c (hwas b hb hba) (hwas c hc hca)
  · by_cases hba : b = a0
    · subst hba
      exact ⟨hself.1.symm.trans hb.1.2, hself.2.symm.trans hb.2⟩
    · have hbo := hothers b hb.1.1 hba
      have hbat : At h o d3 b :=
        ⟨⟨(hal b hb.1.1).1, hbo.1.symm.trans hb.1.2⟩, hbo.2.symm.trans hb.2⟩
      exact absurd (hs.placed.alone o d3 b a0 hbat hat) hba

theorem writeName_placed {o n d1 d3 first d5 : Nat} {e : Entry} (hs : Sound h) (hn : h.Proto n)
    (hndir : (h.fd n).subdir = true) (hf : Fits h o n d1 d3 first d5) (hnone : ∀ a, ¬ At h o d3 a) :
    Placed (writeName h n first d5 e) := by
  have hw := writeName_dirs e hf
  refine ⟨fun b hb hpar => ?_, hs.placed.alone⟩
  have hb' : h.Proto b := hb
  have hpar' : (h.fd b).parent ≠ 0 := hpar
  rcases hs.placed.entry b hb' hpar' with ⟨e', he', hkind⟩
  refine ⟨e', ?_, hkind⟩
  have hbp := hs.forest.parent b hb' hpar'
  have hbd := hs.forest.childDmd b hb' hpar'
  have hout : ¬ ((h.fd b).dmd = (h.fd n).dmd ∧ (h.fd (h.fd b).parent).stcl = (h.fd n).stcl ∧
      first ≤ (h.fd b).dirpos ∧ (h.fd b).dirpos ≤ d5) := by
    rintro ⟨hd, hst, h1, h2⟩
    have hpn := hs.dir_inj hbp.1 hn hbp.2 hndir (hbd.symm.trans hd) hst
    rw [hd, hst] at he'
    have hin := hf.inside h1 h2 he'
    exact hnone b ⟨⟨hb', hpn.trans hin.1.symm⟩, hin.2⟩
  rcases hw (h.fd b).dmd (h.fd (h.fd b).parent).stcl (h.fd b).dirpos with
    ⟨_, hd, hst, h5⟩ | ⟨_, _, hd, hst, h3, h1, h2⟩ | ⟨hsame, _⟩
  · exact absurd ⟨hd, hst, h5 ▸ hf.ordered.2, Nat.le_of_eq h5⟩ hout
  · exact absurd ⟨hd, hst, h3 ▸ h1, by omega⟩ hout
  · exact hsame.trans he'

theorem Placed.of_dirs (hp : Placed h) (hfd : h'.fd = h.fd) (huse : h'.use = h.use)
    (hdirs : ∀ b, h.Proto b → (h.fd b).parent ≠ 0 →
      h'.dirs (h.fd b).dmd (h.fd (h.fd b).parent).stcl (h.fd b).dirpos =
        h.dirs (h.fd b).dmd (h.fd (h.fd b).parent).stcl (h.fd b).dirpos) : Placed h' := by
  have hproto : ∀ b, h'.Proto b ↔ h.Proto b := by
    intro b
    rw [State.Proto, State.Proto, hfd, huse]
  have hat : ∀ q d b, At h' q d b ↔ At h q d b := by
    intro q d b
    rw [At, At, State.Child, State.Child, hproto, hfd]
  refine ⟨fun b hb hpar => ?_, fun q d b c hb hc => ?_⟩
  · rw [hproto] at hb
    rw [hfd] at hpar ⊢
    rw [hdirs b hb hpar]
    exact hp.entry b hb hpar
  · exact hp.alone q d b c ((hat q d b).mp hb) ((hat q d c).mp hc)

theorem Alike.kin (hal : Alike h h') (ok' : Forest h') (hdmdx : h'.dmdx = h.dmdx) : Kin h h' := by
  refine ⟨hdmdx, fun r hr h0 => ?_, fun a ha => ⟨a, (hal a ha).1, (hal a ha).2.1⟩⟩
  have hral := hal r (ok'.rootProto r (hdmdx ▸ hr) h0)
  exact ⟨hral.2.1, hral.2.2.1⟩

theorem Carried.subdirs {o n d1 d3 first d5 : Nat} {e : Entry} (hc : Carried h h' o n d3 d5 e)
    (hf : Fits h o n d1 d3 first d5) (hdmd : (h.fd o).dmd = (h.fd n).dmd)
    (hentry : h.dirs (h.fd o).dmd (h.fd o).stcl d3 = some e) :
    (∀ d, d ≠ (h.fd o).dmd → Xfs.subdirs h' d = Xfs.subdirs h d) ∧
      (e.subdir = false → Xfs.subdirs h' (h.fd o).dmd = Xfs.subdirs h (h.fd o).dmd) ∧
      (e.subdir = true → Shifted (Xfs.subdirs h (h.fd o).dmd) (Xfs.subdirs h' (h.fd o).dmd)
        (h.fd o).stcl d3 (h.fd n).stcl d5 e.stcl) := by
  have hedge : ∀ g : State, ∀ d s p, g.dirs d s p = some e →
      Xfs.subdirs g d s p = if e.subdir = true then some e.stcl else none := by
    intro g d s p he
    simp only [Xfs.subdirs, he]
  have hnone : ∀ g : State, ∀ d s p, g.dirs d s p = none → Xfs.subdirs g d s p = none := by
    intro g d s p he
    simp only [Xfs.subdirs, he]
  have hrest : ∀ d s p, ¬ (d = (h.fd o).dmd ∧ s = (h.fd o).stcl ∧ p = d3) →
      ¬ (d = (h.fd n).dmd ∧ s = (h.fd n).stcl ∧ p = d5) →
      Xfs.subdirs h' d s p = Xfs.subdirs h d s p := by
    intro d s p h1 h2
    simp only [Xfs.subdirs, hc.rest d s p h1 h2]
  -- The new place was free, or it is the old one.
  have hfree : h.dirs (h.fd o).dmd (h.fd n).stcl d5 = none ∨ (n = o ∧ d5 = d3) := by
    cases he : h.dirs (h.fd o).dmd (h.fd n).stcl d5 with
    | none => exact .inl rfl
    | some e' =>
      rw [hdmd] at he
      have hin := hf.inside hf.ordered.2 (Nat.le_refl _) he
      exact .inr ⟨hin.1.symm, hin.2⟩
  have hnew := hc.new
  rw [← hdmd] at hnew
  refine ⟨fun d hd => ?_, fun hfile => ?_, fun hsub => ?_⟩
  · funext s p
    exact hrest d s p (fun hno => hd hno.1) fun hno => hd (hno.1.trans hdmd.symm)
  · have hfile' : ¬ e.subdir = true := by rw [hfile]; exact Bool.false_ne_true
    funext s p
    by_cases h1 : s = (h.fd n).stcl ∧ p = d5
    · rw [h1.1, h1.2, hedge h' _ _ _ hnew, if_neg hfile']
      rcases hfree with h0 | ⟨hno, h53⟩
      · rw [hnone h _ _ _ h0]
      · rw [hno, h53, hedge h _ _ _ hentry, if_neg hfile']
    · by_cases h2 : s = (h.fd o).stcl ∧ p = d3
      · rw [h2.1, h2.2, hedge h _ _ _ hentry, if_neg hfile']
        rcases hc.gone with h0 | ⟨hno, h53⟩
        · exact hnone h' _ _ _ h0
        · exact absurd ⟨h2.1.trans (by rw [hno]), h2.2.trans h53.symm⟩ h1
      · exact hrest _ s p (fun hno => h2 hno.2) fun hno => h1 hno.2
  · refine ⟨?_, ?_, ?_, ?_, fun s p h1 h2 => ?_⟩
    · rw [hedge h _ _ _ hentry, if_pos hsub]
    · rcases hfree with h0 | ⟨hno, h53⟩
      · exact .inl (hnone h _ _ _ h0)
      · exact .inr ⟨by rw [hno], h53⟩
    · rw [hedge h' _ _ _ hnew, if_pos hsub]
    · rcases hc.gone with h0 | ⟨hno, h53⟩
      · exact .inl (hnone h' _ _ _ h0)
      · exact .inr ⟨by rw [hno], h53⟩
    · exact hrest _ s p (fun hno => h1 hno.2) fun hno => h2 hno.2

theorem FrenDeleted.erased_run {h3 : State} {o n d1 d3 first d5 : Nat} {io : FrenameIo}
    {r : Except Int Int} (hd : FrenDeleted h3 o n d1 d3 first d5 io h' r)
    (hf : Fits h o n d1 d3 first d5) (hdone : 0 ≤ io.deleted ∧ ∀ c, ¬ Disturbed io c) :
    ∃ x y, Leaves (o = n) d1 d3 first d5 x y ∧ h'.fd = h3.fd ∧ h'.use = h3.use ∧ h'.dmdx = h3.dmdx ∧
      ∀ d s p, h'.dirs d s p =
        if (d = (h3.fd o).dmd ∧ s = (h3.fd o).stcl) ∧ x ≤ p ∧ p ≤ y then none
          else h3.dirs d s p := by
  cases hd with
  | nothing hnone =>
    rcases toDelete_spec hf with ⟨_, hon, h1, h2⟩ | ⟨x, y, hsome, _⟩
    · refine ⟨1, 0, ⟨fun hno => absurd hno (by omega), by omega, .inr ⟨hon, h1, h2⟩⟩, rfl, rfl, rfl,
        fun d s p => ?_⟩
      rw [if_neg (by omega)]
    · rw [hnone] at hsome
      cases hsome
  | stopped c hc => exact absurd hc (hdone.2 c)
  | failed hneg => exact absurd hdone.1 (Int.not_le.mpr hneg)
  | erased x y hsome _ =>
    rcases toDelete_spec hf with ⟨hnone, _⟩ | ⟨x', y', hsome', hl⟩
    · rw [hsome] at hnone
      cases hnone
    · rw [hsome] at hsome'
      cases hsome'
      refine ⟨x, y, hl, rfl, rfl, rfl, fun d s p => ?_⟩
      rw [eraseName, State.setDir_dirs]
      by_cases hds : d = (h3.fd o).dmd ∧ s = (h3.fd o).stcl
      · rw [if_pos hds, eraseRun]
        by_cases hin : x ≤ p ∧ p ≤ y
        · rw [if_pos hin, if_pos ⟨hds, hin⟩]
        · rw [if_neg hin, if_neg fun hno => hin hno.2, hds.1, hds.2]
      · rw [if_neg hds, if_neg fun hno => hds hno.1]

theorem FrenMoved.prototypes {o n d1 d3 first d5 : Nat} {e : Entry} {g2 : State} (hs : Sound h)
    (ho : h.Proto o) (hn : h.Proto n) (hndir : (h.fd n).subdir = true)
    (hdmd : (h.fd o).dmd = (h.fd n).dmd) (hentry : h.dirs (h.fd o).dmd (h.fd o).stcl d3 = some e)
    (hf : Fits h o n d1 d3 first d5) (ok2 : Forest g2)
    (hmove : (∃ a0, At h o d3 a0 ∧ Moved (writeName h n first d5 e) g2 a0 n d5) ∨
      ((∀ a, ¬ At h o d3 a) ∧ g2 = writeName h n first d5 e)) :
    Placed g2 ∧ Alike h g2 ∧ g2.dirs = (writeName h n first d5 e).dirs ∧ g2.dmdx = h.dmdx ∧
      ∀ a, At g2 o d3 a → n = o ∧ d5 = d3 := by
  rcases hmove with ⟨a0, hat, hmoved⟩ | ⟨hnone, hsame⟩
  · have hp := hmoved.placed hs ho hn hndir hdmd hentry hf hat ok2
    exact ⟨hp.1, hmoved.alike (h := writeName h n first d5 e) hat.1.1, hmoved.dirs, hmoved.dmdx,
      hp.2⟩
  · subst hsame
    exact ⟨writeName_placed hs hn hndir hf hnone, fun a ha => ⟨ha, rfl, rfl, rfl⟩, rfl, rfl,
      fun a ha => absurd ha (hnone a)⟩

/-- On the drive of the two directories an entry has moved, or no directory. -/
theorem carried_drives {o n d1 d3 first d5 : Nat} {e : Entry} (hcar : Carried h h' o n d3 d5 e)
    (hkin : Kin h h') (hs : Sound h) (hn : h.Proto n) (hndir : (h.fd n).subdir = true)
    (hdmd : (h.fd o).dmd = (h.fd n).dmd)
    (hentry : h.dirs (h.fd o).dmd (h.fd o).stcl d3 = some e) (hf : Fits h o n d1 d3 first d5)
    (hbelow : e.subdir = true → ¬ Reach (subdirs h (h.fd o).dmd) e.stcl (h.fd n).stcl) :
    Drives h' ∧ ∀ d x, Reachable h d x → Reachable h' d x := by
  rcases hs.dir_reached hn hndir with ⟨r, hr, hr0, hrd, hron⟩
  have ht := hs.drives.tree r hr hr0
  have hro : (h.fd r).dmd = (h.fd o).dmd := hrd.trans hdmd.symm
  rcases hcar.subdirs hf hdmd hentry with ⟨hother, hfile, hdir⟩
  rw [← hro] at hother hfile hdir hbelow
  refine hkin.one_drive hs.drives hr hr0 hother ?_ fun z hz => ?_
  · cases hsub : e.subdir with
    | false => exact hfile hsub ▸ ht
    | true => exact (hdir hsub).tree ht hron (hbelow hsub)
  · cases hsub : e.subdir with
    | false => exact hfile hsub ▸ hz
    | true => exact (hdir hsub).reach ht hron (hbelow hsub) hz

/-- A renaming that is completed keeps the descriptors in their places and the directories a tree,
    if no directory goes below itself. -/
theorem FrenMoved.sound {o n d1 d3 first d5 : Nat} {e : Entry} {io : FrenameIo} {r : Except Int Int}
    (hm : FrenMoved h o n d1 d3 first d5 e io h' r) (hs : Sound h) (ho : h.Proto o)
    (hodir : (h.fd o).subdir = true) (hn : h.Proto n) (hndir : (h.fd n).subdir = true)
    (hdmd : (h.fd o).dmd = (h.fd n).dmd) (hentry : h.dirs (h.fd o).dmd (h.fd o).stcl d3 = some e)
    (hf : Fits h o n d1 d3 first d5) (hdone : 0 ≤ io.deleted ∧ ∀ c, ¬ Disturbed io c)
    (hbelow : e.subdir = true → ¬ Reach (subdirs h (h.fd o).dmd) e.stcl (h.fd n).stcl) :
    Sound h' ∧ ∀ d x, Reachable h d x → Reachable h' d x := by
  have hcount' := hm.count hs.counts
  rcases hm.steps with ⟨g2, g3, a4, a5, ok2, hop4, hop5, hev, hg, ok3, hmove, hdel⟩
  obtain ⟨hp2, hal, hdirs2, hdmdx2, hgone2⟩ :=
    FrenMoved.prototypes hs ho hn hndir hdmd hentry hf ok2 hmove
  have hp3 := hev.placed hp2
  have hdirs3 : g3.dirs = (writeName h n first d5 e).dirs := hev.fixed.1.trans hdirs2
  -- The two directories are open, so they are where they were.
  have hopen : ∀ {a q : Nat}, Open g2 a q → (g3.fd q).dmd = (h.fd q).dmd ∧
      (g3.fd q).stcl = (h.fd q).stcl := by
    intro a q ha
    have hq := ok2.proto a ha.fd
    rw [ha.multi1] at hq
    have hqal := hal q hq
    have hpl := (hg.stays a q ha).2
    exact ⟨(Fd.read_of Fd.place hpl Fd.dmd fun _ => rfl).trans hqal.2.1,
      (Fd.read_of Fd.place hpl Fd.stcl fun _ => rfl).trans hqal.2.2.1⟩
  have ho3 := hopen hop4
  have hn3 := hopen hop5
  rcases hdel.erased_run hf hdone with ⟨x, y, hl, hfd', huse', hdmdx', hdirs'⟩
  rw [ho3.1, ho3.2, hdirs3] at hdirs'
  have hinj : (h.fd o).stcl = (h.fd n).stcl → o = n :=
    fun hst => hs.dir_inj ho hn hodir hndir hdmd hst
  have hcar := carried hf hdmd hinj hl hdirs'
  rcases hs.dir_reached ho hodir with ⟨r, hr, hr0, hrd, hro⟩
  have ht := hs.drives.tree r hr hr0
  -- No prototype belongs to an entry that is deleted.
  have hplaced : Placed h' := by
    refine hp3.of_dirs hfd' huse' fun b hb hpar => ?_
    rw [hdirs', hdirs3]
    refine if_neg ?_
    rintro ⟨⟨hd, hst⟩, hx, hy⟩
    have hq := ok3.parent b hb hpar
    have hbd := ok3.childDmd b hb hpar
    have hqo : (g3.fd b).parent = o := by
      rcases hg.proto _ hq.1 with ⟨hq2, hpl⟩ | hnew
      · have hqal := hal _ hq2
        have hdq := (Fd.read_of Fd.place hpl Fd.dmd fun _ => rfl).trans hqal.2.1
        have hsq := (Fd.read_of Fd.place hpl Fd.stcl fun _ => rfl).trans hqal.2.2.1
        have hkq := (Fd.read_of Fd.place hpl Fd.subdir fun _ => rfl).trans hqal.2.2.2
        exact hs.dir_inj hqal.1 ho (hkq.symm.trans hq.2) hodir
          (hdq.symm.trans (hbd.symm.trans hd)) (hsq.symm.trans hst)
      · -- A new prototype is that of the directory that has moved, which is not the old one.
        have hqpar : (g3.fd (g3.fd b).parent).parent ≠ 0 := by
          rw [hnew.1.2]
          have hn2 := ok2.proto a5 hop5.fd
          rw [hop5.multi1] at hn2
          exact ok2.ne_zero hn2.1
        rcases hp3.entry _ hq.1 hqpar with ⟨e', he', hkind, hstcl⟩
        have hqd := ok3.childDmd _ hq.1 hqpar
        rw [hqd, hnew.1.2, hnew.2, hn3.1, hn3.2, hdirs3, writeName, State.setDir_dirs,
          if_pos ⟨rfl, rfl⟩, writeRun, if_pos rfl] at he'
        cases he'
        have hloop : subdirs h (h.fd r).dmd (h.fd o).stcl d3 = some (h.fd o).stcl := by
          refine (subdirs_iff _ _ _ _ _).mpr ⟨e, by rw [hrd]; exact hentry, hkind.trans hq.2, ?_⟩
          exact (hstcl hq.2).trans hst
        exact absurd .root (ht.acyclic hro _ _ hloop)
    -- The entry would be the old main one, or the new one.
    have hsame : n = o ∧ d5 = (g3.fd b).dirpos := by
      rcases hp3.entry b hb hpar with ⟨e', he', _⟩
      rw [hd, hst, hdirs3] at he'
      have hin := hl.within (Nat.le_trans hx hy)
      rcases writeName_dirs e hf (h.fd o).dmd (h.fd o).stcl (g3.fd b).dirpos with
        ⟨_, _, hst', h5⟩ | ⟨h0, _⟩ | ⟨hw, _, _⟩
      · exact ⟨(hinj hst').symm, h5.symm⟩
      · rw [h0] at he'
        cases he'
      · have h3 : (g3.fd b).dirpos = d3 := by
          by_contra hne
          have h0 := hf.old (g3.fd b).dirpos (by omega) (by omega)
          rw [hw, h0] at he'
          cases he'
        rcases hg.proto b hb with ⟨hb2, hpl⟩ | hnew
        · have hpar2 := Fd.read_of Fd.place hpl Fd.parent fun _ => rfl
          have hpos2 := Fd.read_of Fd.place hpl Fd.dirpos fun _ => rfl
          have h53 := hgone2 b ⟨⟨hb2, hpar2.symm.trans hqo⟩, hpos2.symm.trans h3⟩
          exact ⟨h53.1, h53.2.trans h3.symm⟩
        · exact ⟨hnew.1.2.symm.trans hqo, hnew.2.symm⟩
    exact hl.spares ⟨hsame.1.symm, hsame.2 ▸ hx, hsame.2 ▸ hy⟩
  have hkin : Kin h h' := by
    have hk3 := (hal.kin ok2 hdmdx2).trans (hev.kin ok2).2
    refine hk3.trans ⟨hdmdx', fun q _ _ => by rw [hfd']; exact ⟨rfl, rfl⟩,
      fun a ha => ⟨a, ?_, by rw [hfd']⟩⟩
    rw [State.Proto, huse', hfd'] at ha
    exact ha
  have hdrives := carried_drives hcar hkin hs hn hndir hdmd hentry hf hbelow
  exact ⟨⟨⟨hm.forest, hcount'⟩, hplaced, hdrives.1⟩, hdrives.2⟩

/-! ### Runs -/

end

/-- What the search of a directory answers: a file that is opened is no directory, and a new name
    fits. -/
def Answers (h : State) : Op → Prop
  | .fopen _ d _ _ io => ∀ d5 e, io.entry = .ok (d5, e) →
      ∀ e', h.dirs (h.fd d).dmd (h.fd d).stcl d5 = some e' → e'.subdir = false
  | .frename _ o n io => ∀ d1 d3 first d5, io.old = .ok (d1, d3) → io.place = .ok (first, d5) →
      Fits h o n d1 d3 first d5
  | _ => True

/-- The directory that is renamed is the new one, or above it. -/
def Into (h : State) (o n : Nat) (io : FrenameIo) : Prop :=
  ∃ d1 d3 e, io.old = .ok (d1, d3) ∧ h.dirs (h.fd o).dmd (h.fd o).stcl d3 = some e ∧
    e.subdir = true ∧ (h.fd o).dmd = (h.fd n).dmd ∧
    Reach (subdirs h (h.fd o).dmd) e.stcl (h.fd n).stcl

/-- A renaming that has been started is completed, and nobody has the old directory open through its
    prototype if the directory that is renamed is the new one or above it. -/
def Calm (h : State) : Op → Prop
  | .frename _ o n io => 0 ≤ io.deleted ∧ (∀ c, ¬ Disturbed io c) ∧
      (Into h o n io → (h.fd o).owner = 0)
  | _ => True

/-- A call that is steady and calm. -/
def calmStep (h : State) (op : Op) (h' : State) : Prop :=
  step h op h' ∧ Answers h op ∧ Steady h op ∧ Calm h op

section

variable {h h' : State}

theorem enter_sound (d d5 : Nat) {e : Entry} (hs : Sound h) (he : e.subdir = false)
    (hold : ∀ e', h.dirs (h.fd d).dmd (h.fd d).stcl d5 = some e' → e'.subdir = false) :
    Sound (enter h d d5 e) ∧ ∀ q x, Reachable h q x → Reachable (enter h d d5 e) q x := by
  have hdirs : ∀ q s p, (enter h d d5 e).dirs q s p =
      if (q = (h.fd d).dmd ∧ s = (h.fd d).stcl) ∧ p = d5 then some e else h.dirs q s p := by
    intro q s p
    rw [enter, State.setDir_dirs]
    by_cases hqs : q = (h.fd d).dmd ∧ s = (h.fd d).stcl
    · by_cases hp : p = d5
      · rw [if_pos hqs, if_pos ⟨hqs, hp⟩, hp, Function.update_self]
      · rw [if_pos hqs, if_neg fun hno => hp hno.2, Function.update_of_ne hp, hqs.1, hqs.2]
    · rw [if_neg hqs, if_neg fun hno => hqs hno.1]
  have hsub : ∀ q, subdirs (enter h d d5 e) q = subdirs h q := by
    intro q
    funext s p
    by_cases hin : (q = (h.fd d).dmd ∧ s = (h.fd d).stcl) ∧ p = d5
    · -- Neither the old entry nor the new one is that of a directory.
      have hnew : subdirs (enter h d d5 e) q s p = none := by
        simp only [subdirs, hdirs, if_pos hin, he, Bool.false_eq_true, if_false]
      rw [hnew]
      cases hwas : h.dirs q s p with
      | none => simp only [subdirs, hwas]
      | some e' =>
        have hkind := hold e' (by rw [← hin.1.1, ← hin.1.2, ← hin.2]; exact hwas)
        simp only [subdirs, hwas, hkind, Bool.false_eq_true, if_false]
    · simp only [subdirs, hdirs, if_neg hin]
  have hkin : Kin h (enter h d d5 e) := ⟨rfl, fun _ _ _ => ⟨rfl, rfl⟩, fun a ha => ⟨a, ha, rfl⟩⟩
  refine ⟨⟨⟨hs.forest.setDir _ _ _, hs.counts⟩, ⟨fun b hb hpar => ?_, hs.placed.alone⟩,
    hkin.drives hs.drives fun r hr h0 => ?_⟩, fun q x hx => hkin.reachable hsub hx⟩
  · rcases hs.placed.entry b hb hpar with ⟨e', he', hkind, hstcl⟩
    by_cases hin : ((h.fd b).dmd = (h.fd d).dmd ∧ (h.fd (h.fd b).parent).stcl = (h.fd d).stcl) ∧
        (h.fd b).dirpos = d5
    · have hfile : (h.fd b).subdir = false := by
        rw [← hkind]
        refine hold e' ?_
        rw [← hin.1.1, ← hin.1.2, ← hin.2]
        exact he'
      refine ⟨e, ?_, he.trans hfile.symm, fun hno => ?_⟩
      · exact (hdirs _ _ _).trans (if_pos hin)
      · exact Bool.noConfusion (hfile.symm.trans hno)
    · exact ⟨e', (hdirs _ _ _).trans ((if_neg hin).trans he'), hkind, hstcl⟩
  · rw [hsub]
    exact hs.drives.tree r hr h0

/-- A calm call keeps the descriptors in their places and the directories a tree. -/
theorem Result.sound {op : Op} (hr : Result h op h') (hs : Sound h) (ha : Allowed h op)
    (hans : Answers h op) (hcalm : Calm h op) :
    Sound h' ∧ ∀ d x, Reachable h d x → Reachable h' d x := by
  cases hr with
  | evolved op h' _ hev => exact hev.sound hs
  | fopened pd d d2 d7 io h' hf =>
    rcases hf.evolves with hev | ⟨h1, d5, e, hentry, ok1, hev1, hd1, hpl, hev⟩
    · exact hev.sound hs
    · have hs1 := hev1.sound hs
      have hs2 := enter_sound d d5 hs1.1 (ha.2.2.2.2 d5 e hentry).1 (by
        rw [hev1.fixed.1, Fd.read_of Fd.place hpl Fd.dmd fun _ => rfl,
          Fd.read_of Fd.place hpl Fd.stcl fun _ => rfl]
        exact hans d5 e hentry)
      have hs3 := hev.sound hs2.1
      exact ⟨hs3.1, fun q x hx => hs3.2 q x (hs2.2 q x (hs1.2 q x hx))⟩
  | renamed pd o n io h' hren =>
    cases hren with
    | kept h' _ hev => exact hev.sound hs
    | moved h1 h2 h' a4 d1 d3 first d5 e r ok1 hev1 ho1 hn1 hplo hpln hdmd hself hold hentry hwalk
        hplace hm ok' hev =>
        have hs1 := hev1.sound hs
        rcases ha with ⟨_, ho, hodir, hn, hndir, _⟩
        have hdo := Fd.read_of Fd.place hplo Fd.dmd fun _ => rfl
        have hso := Fd.read_of Fd.place hplo Fd.stcl fun _ => rfl
        have hko := Fd.read_of Fd.place hplo Fd.subdir fun _ => rfl
        have hdn := Fd.read_of Fd.place hpln Fd.dmd fun _ => rfl
        have hsn := Fd.read_of Fd.place hpln Fd.stcl fun _ => rfl
        have hkn := Fd.read_of Fd.place hpln Fd.subdir fun _ => rfl
        have hf : Fits h1 o n d1 d3 first d5 := by
          have hfits := hans d1 d3 first d5 hold hplace
          refine ⟨hfits.aligned, hfits.ordered, ?_, ?_⟩
          · rw [hev1.fixed.1, hdo, hso]
            exact hfits.old
          · rw [hev1.fixed.1, hdn, hsn]
            exact hfits.new
        have hbelow : e.subdir = true →
            ¬ Reach (subdirs h1 (h1.fd o).dmd) e.stcl (h1.fd n).stcl := by
          intro hsub hreach
          have hinto : Into h o n io := by
            refine ⟨d1, d3, e, hold, ?_, hsub, hdo.symm.trans (hdmd.trans hdn), ?_⟩
            · rw [← hev1.fixed.1, ← hdo, ← hso]
              exact hentry
            · have hsame : subdirs h1 (h1.fd o).dmd = subdirs h (h.fd o).dmd := by
                funext s p
                rw [subdirs, subdirs, hev1.fixed.1, hdo]
              rw [← hsame, ← hsn]
              exact hreach
          have h4 := hself.mpr (hcalm.2.2 hinto)
          have hw := hwalk hsub
          rw [h4] at hw
          exact hs1.1.not_below ho1 (hko.trans hodir) hn1 (hkn.trans hndir) hdmd hentry
            hsub hw hreach
        have hs2 := hm.sound hs1.1 ho1 (hko.trans hodir) hn1 (hkn.trans hndir) hdmd hentry hf
          ⟨hcalm.1, hcalm.2.1⟩ hbelow
        have hs3 := hev.sound hs2.1
        exact ⟨hs3.1, fun d x hx => hs3.2 d x (hs2.2 d x (hs1.2 d x hx))⟩

theorem frename_refused (hs : Sound h) {pd o n : Nat} {io : FrenameIo}
    (ha : Allowed h (.frename pd o n io))
    (hinto : Into h o n io) (howner : (h.fd o).owner = 0)
    (hpass : ∀ b, Tested h n b → refuses (h.fd b).mode (RPERM ||| WPERM ||| WDENY) = false)
    (hclose : ¬ (io.closedOld = ECHNG ∨ io.closedOld = EDRIVE)) :
    dxfsFrename h pd o n io = .error .noBlock ∨
      ∃ h', dxfsFrename h pd o n io = .ok (h', EACCDN) ∧ h'.dirs = h.dirs := by
  rcases ha with ⟨hpd, ho, hodir, hn, hndir, hheld, hopenOld, hopenNew, _⟩
  rcases hinto with ⟨d1, d3, e, hold, hentry, hsub, hdmd, hreach⟩
  have ok := hs.forest
  -- The old directory is above the new one.
  have hon : o ≠ n := by
    rintro rfl
    rcases hs.dir_reached ho hodir with ⟨r, hr, h0, hrd, hro⟩
    refine (hs.drives.tree r hr h0).acyclic hro e.stcl d3 ?_ (hrd ▸ hreach)
    exact (subdirs_iff _ _ _ _ _).mpr ⟨e, hrd ▸ hentry, hsub, rfl⟩
  rcases reopenFd_spec ok pd ho (RPERM ||| WPERM ||| WDENY) io.openedOld (fun _ => hopenOld) with
    herr | ⟨h1, r1, hrun1, hre1⟩
  · left
    simp only [dxfsFrename, hdmd, ne_eq, not_true_eq_false, if_false, herr, bind, Except.bind]
  · cases r1 with
    | error c =>
      rcases hre1.refused hopenOld with ⟨hc, hsame, _⟩
      right
      refine ⟨h1, ?_, by rw [hsame]⟩
      simp only [dxfsFrename, hdmd, ne_eq, not_true_eq_false, if_false, hrun1, bind, Except.bind,
        pure, Except.pure, hc]
    | ok a4 =>
      rcases hre1.opened with ⟨_, hf1, hself4, _, hfd4, hm4, howner4, _⟩
      have h4 := hself4.mpr howner
      subst h4
      have ha4 : Open h1 a4 a4 := ⟨hfd4, hm4, howner4 ▸ hpd⟩
      rcases hre1.keeps_dir ok hn hheld hon with ⟨hn1, hn4, hcoren⟩
      have howner1 := Fd.read_of Fd.core hcoren Fd.owner fun _ => rfl
      rcases reopenFd_spec hre1.forest pd hn1 (RPERM ||| WPERM ||| WDENY) io.openedNew
        (fun _ => hopenNew) with herr | ⟨h2, r2, hrun2, hre2⟩
      · left
        simp only [dxfsFrename, hdmd, ne_eq, not_true_eq_false, if_false, hrun1, hon, herr, bind,
          Except.bind]
      · right
        cases r2 with
        | error c =>
          -- Nobody refused the new directory before either.
          rcases hre2.refused hopenNew with ⟨_, _, b, htest, href⟩
          have hwas : Tested h n b ∧ (h1.fd b).mode = (h.fd b).mode := by
            rcases htest with hclone | ⟨hbn, hbo⟩
            · have hb4 : b ≠ a4 := by
                rintro rfl
                exact hon (hm4.symm.trans hclone.2.1)
              have hc := hf1.core b hclone.1 hb4
              have hm := Fd.read_of Fd.core hc.2 Fd.multi1 fun _ => rfl
              exact ⟨.inl ⟨hc.1, hm.symm.trans hclone.2.1, hclone.2.2⟩,
                Fd.read_of Fd.core hc.2 Fd.mode fun _ => rfl⟩
            · subst hbn
              exact ⟨.inr ⟨rfl, fun h0 => hbo (howner1.trans h0)⟩,
                Fd.read_of Fd.core hcoren Fd.mode fun _ => rfl⟩
          have hno := hpass b hwas.1
          rw [← hwas.2, href] at hno
          exact Bool.noConfusion hno
        | ok a5 =>
          rcases hre2.opened with ⟨_, hf2, _, _, hfd5, hm5, howner5, _⟩
          have ha42 : Open h2 a4 a4 := ha4.spared hre2.sparesOpen
          have ha52 : Open h2 a5 n := ⟨hfd5, hm5, howner5 ▸ hpd⟩
          have hev2 := hre1.evolves.trans hre2.evolves
          have hs2 := (hev2.sound hs).1
          have ho2 := hs2.forest.proto a4 ha42.fd
          rw [ha42.multi1] at ho2
          have hn2 := hs2.forest.proto a5 hfd5
          rw [hm5] at hn2
          have hplo := (hf2.proto a4 ho2).2.trans (hf1.proto a4 (hf2.proto a4 ho2).1).2
          have hpln := (hf2.proto n hn2).2.trans (hf1.proto n hn1).2
          have hdo := Fd.read_of Fd.place hplo Fd.dmd fun _ => rfl
          have hso := Fd.read_of Fd.place hplo Fd.stcl fun _ => rfl
          have hdn := Fd.read_of Fd.place hpln Fd.dmd fun _ => rfl
          have hsn := Fd.read_of Fd.place hpln Fd.stcl fun _ => rfl
          have hodir2 := (Fd.read_of Fd.place hplo Fd.subdir fun _ => rfl).trans hodir
          have hndir2 := (Fd.read_of Fd.place hpln Fd.subdir fun _ => rfl).trans hndir
          have hentry2 : h2.dirs (h2.fd a4).dmd (h2.fd a4).stcl d3 = some e := by
            rw [hev2.fixed.1, hdo, hso]
            exact hentry
          have hwalk : testParLoop h2 a4 d3 h2.turns n = .ok true := by
            rcases hs2.walk_ends a4 d3 hn2 hndir2 with ⟨b, hb⟩
            cases b with
            | true => exact hb
            | false =>
              refine absurd ?_
                (hs2.not_below ho2 hodir2 hn2 hndir2 (hdo.trans (hdmd.trans hdn.symm))
                hentry2 hsub hb)
              have hsame : subdirs h2 (h2.fd a4).dmd = subdirs h (h.fd a4).dmd := by
                funext s p
                rw [subdirs, subdirs, hev2.fixed.1, hdo]
              rw [hsame, hsn]
              exact hreach
          have hopen2 := frenameOpen_below pd hold
            ((hs2.forest.entries_eq ha42).2 ▸ hentry2) hsub (by rw [hm5]; exact hwalk)
          obtain ⟨h3, d, hrun3, _, hev3, hcode⟩ := frenEnde_spec hs2.forest EACCDN io ha42 ha52
          rw [hcode hclose] at hrun3
          refine ⟨h3, ?_, hev3.fixed.1.trans hev2.fixed.1⟩
          simp only [dxfsFrename, hdmd, ne_eq, not_true_eq_false, if_false, hrun1, hon, hrun2, bind,
            Except.bind, hopen2, hrun3]

/-- The descriptors fit the tree, and all directories that were reached are reached. -/
def Kept (s t : State) : Prop :=
  Sound t ∧ ∀ d x, Reachable s d x → Reachable t d x

theorem calmStep_kept (s h : State) (op : Op) (h' : State) (hk : Kept s h)
    (hstep : calmStep h op h') :
    Kept s h' := by
  rcases hstep with ⟨⟨ha, hrun⟩, hans, hsteady, hcalm⟩
  rcases exec_spec hk.1.toWellformed op ha hsteady with herr | ⟨hhang, _⟩ | ⟨h1, hrun1, hres⟩
  · rw [hrun] at herr
    cases herr
  · rw [hrun] at hhang
    cases hhang
  · rw [hrun] at hrun1
    cases hrun1
    have hs' := hres.sound hk.1 ha hans hcalm
    exact ⟨hs'.1, fun d x hx => hs'.2 d x (hk.2 d x hx)⟩

end

/-- Whatever is opened, closed and renamed: as long as the run is calm, every directory that was
    reached from the root of its drive is still reached, and moving a directory into itself or
    below itself is refused and changes no entry, if nobody has its directory open through the
    prototype, the new one can be opened, and the disk is not changed while the old is closed. -/
theorem rename_keeps_tree (s t : State) (ops : List Op) (hs : Sound s)
    (hrun : Run calmStep s ops t) :
    Sound t ∧ (∀ d x, Reachable s d x → Reachable t d x) ∧
    ∀ pd o n io, Allowed t (.frename pd o n io) → Into t o n io → (t.fd o).owner = 0 →
      (∀ b, Tested t n b → refuses (t.fd b).mode (RPERM ||| WPERM ||| WDENY) = false) →
      ¬ (io.closedOld = ECHNG ∨ io.closedOld = EDRIVE) →
      dxfsFrename t pd o n io = .error .noBlock ∨
        ∃ t', dxfsFrename t pd o n io = .ok (t', EACCDN) ∧ t'.dirs = t.dirs := by
  have ht := run_preserves calmStep (Kept s) (calmStep_kept s) s t ops hrun ⟨hs, fun _ _ hx => hx⟩
  exact ⟨ht.1, ht.2, fun pd o n io ha hinto howner hpass hclose =>
    frename_refused ht.1 ha hinto howner hpass hclose⟩

theorem drive_subdirs (d s p x : Nat) : subdirs drive d s p = some x ↔ s = 0 ∧ p = 64 ∧ x = 5 := by
  have hdirs : drive.dirs d s p =
      if s = 0 ∧ p = 64 then some subEntry
      else if s = 0 ∧ p = 128 then some fileEntry
      else if s = 5 ∧ p = 64 then some fileEntry
      else none := rfl
  rw [subdirs_iff, hdirs]
  constructor
  · rintro ⟨e, he, hsub, rfl⟩
    split at he
    · rename_i h1
      cases he
      exact ⟨h1.1, h1.2, rfl⟩
    · -- All other entries are those of files.
      have hfile : e = fileEntry := by
        split at he
        · exact (Option.some.inj he).symm
        · split at he
          · exact (Option.some.inj he).symm
          · cases he
      rw [hfile] at hsub
      exact Bool.noConfusion hsub
  · rintro ⟨hs, hp, rfl⟩
    exact ⟨subEntry, by rw [if_pos ⟨hs, hp⟩], rfl, rfl⟩

theorem drive_sound : Sound drive := by
  have hone : ∀ a, drive.Proto a → a = 1 := fun a ha => mounted_fd ha.1
  have hreach : ∀ d, Reach (subdirs drive d) 0 5 := fun d =>
    .step 0 64 5 .root ((drive_subdirs d 0 64 5).mpr ⟨rfl, rfl, rfl⟩)
  refine ⟨drive_wellformed, ⟨fun a ha hpar => ?_, fun p d5 a b ha hb => ?_⟩,
    ⟨fun a ha => ?_, fun a b ha hb _ _ _ => ?_, fun r hr _ => ⟨fun s k he => ?_, ?_, ?_⟩⟩⟩
  · rw [hone a ha] at hpar
    exact absurd rfl hpar
  · exact (hone a ha.1.1).trans (hone b hb.1.1).symm
  · exact ⟨1, List.mem_cons_self, by decide, by rw [hone a ha]⟩
  · exact (List.mem_singleton.mp ha).trans (List.mem_singleton.mp hb).symm
  · rw [List.mem_singleton.mp hr] at he
    have h5 := ((drive_subdirs _ _ _ _).mp he).2.2
    exact absurd h5 (by decide)
  · intro s k s' k' x h1 h2
    have h1 := (drive_subdirs _ _ _ _).mp h1
    have h2 := (drive_subdirs _ _ _ _).mp h2
    exact ⟨h1.1.trans h2.1.symm, h1.2.1.trans h2.2.1.symm⟩
  · intro s k x he
    rw [List.mem_singleton.mp hr, ((drive_subdirs _ _ _ _).mp he).2.2]
    exact hreach 0

/-- The kernel refers to the directory. -/
def held : State :=
  after stray2 [.hold 2]

/-- The root is closed again. -/
def idle : State :=
  after held [.closeDd 1 0]

theorem held_step : step stray2 (.hold 2) held :=
  ⟨⟨rfl, by decide⟩, rfl⟩

theorem idle_step : step held (.closeDd 1 0) idle :=
  ⟨rfl, rfl⟩

theorem held_run : Run calmStep drive [.reopen 7 1 RPERM 0, .getDd 1 64 subEntry false 0,
    .hold 2] held :=
  .cons _ _ _ _ _ ⟨stray1_step, trivial, trivial, trivial⟩
    (.cons _ _ _ _ _ ⟨stray2_step, trivial, trivial, trivial⟩
      (.cons _ _ _ _ _ ⟨held_step, trivial, trivial, trivial⟩ (.nil _)))

theorem held_into : Into held 1 2 (renameIo 64 96) :=
  ⟨64, 64, subEntry, rfl, rfl, rfl, rfl, .root⟩

/-- The directory gets another name. -/
def moved : State :=
  after idle [.frename 9 1 1 (renameIo 64 96)]

theorem moved_step : calmStep idle (.frename 9 1 1 (renameIo 64 96)) moved := by
  refine ⟨⟨⟨by decide, ⟨rfl, rfl⟩, rfl, ⟨rfl, rfl⟩, rfl, .inl (by decide), by decide, by decide,
    by decide⟩, rfl⟩, ?_, fun _ _ _ _ _ => rfl, by decide, ?_, fun _ => rfl⟩
  · intro d1 d3 first d5 hold hplace
    rcases Prod.mk.inj (Except.ok.inj hold) with ⟨rfl, rfl⟩
    rcases Prod.mk.inj (Except.ok.inj hplace) with ⟨rfl, rfl⟩
    refine ⟨⟨by decide, by decide, by decide, by decide⟩, ⟨by decide, by decide⟩, fun p _ _ => ?_,
      fun p _ _ => ?_⟩
    · omega
    · have h96 : p = 96 := by omega
      exact .inl ⟨h96 ▸ rfl, fun h => by omega⟩
  · rintro c ⟨hc, rfl | rfl | rfl⟩ <;> exact absurd hc (by decide)

theorem moved_allowed : Allowed moved (.frename 9 1 2 (renameIo 96 160)) := by
  have hone : moved.Proto 1 := ⟨by decide +kernel, by decide +kernel⟩
  have htwo : moved.Proto 2 := ⟨by decide +kernel, by decide +kernel⟩
  exact ⟨by decide, hone, by decide +kernel, htwo, by decide +kernel,
    .inr (.inr (by decide +kernel)), by decide, by decide, by decide⟩

theorem moved_into : Into moved 1 2 (renameIo 96 160) := by
  have hentry : moved.dirs (moved.fd 1).dmd (moved.fd 1).stcl 96 =
    some subEntry := by decide +kernel
  have hdmd : (moved.fd 1).dmd = (moved.fd 2).dmd := by decide +kernel
  have hstcl : (moved.fd 2).stcl = subEntry.stcl := by decide +kernel
  exact ⟨96, 96, subEntry, rfl, hentry, rfl, hdmd, hstcl ▸ .root⟩

/-- The directory gets another name, and does not go into itself when nobody has the root open. -/
theorem rename_keeps_tree_idle :
    dxfsFrename idle 9 1 1 (renameIo 64 96) = .ok (moved, 0) ∧ Reachable moved 0 5 ∧
      ∃ t', dxfsFrename moved 9 1 2 (renameIo 96 160) = .ok (t', EACCDN) ∧
      t'.dirs = moved.dirs := by
  have hrun := run_append calmStep drive held moved _ [.closeDd 1 0,
    .frename 9 1 1 (renameIo 64 96)]
    held_run (.cons _ _ _ _ _ ⟨idle_step, trivial, trivial, trivial⟩
      (.cons _ _ _ _ _ moved_step (.nil _)))
  have hkept := rename_keeps_tree drive moved _ drive_sound hrun
  have hreach : Reachable drive 0 5 :=
    ⟨1, List.mem_cons_self, by decide, rfl,
      .step 0 64 5 .root ((drive_subdirs 0 0 64 5).mpr ⟨rfl, rfl, rfl⟩)⟩
  refine ⟨rfl, hkept.2.1 0 5 hreach, ?_⟩
  refine (hkept.2.2 9 1 2 (renameIo 96 160) moved_allowed moved_into
    (by decide +kernel) (fun b hb => ?_) (by decide)).resolve_left ?_
  · -- Nobody has the directory open.
    have hnone : ∀ c ∈ [1, 2, 3, 4, 5, 6], (moved.fd c).multi1 = 2 → c = 2 := by decide +kernel
    rcases hb with hclone | ⟨_, hno⟩
    · have hin : b ∈ [1, 2, 3, 4, 5, 6] := hkept.1.forest.pool b (by
        rw [hclone.1]
        exact Use.noConfusion)
      exact absurd (hnone b hin hclone.2.1) hclone.2.2
    · exact absurd rfl hno
  · intro hno
    have hok : (dxfsFrename moved 9 1 2 (renameIo 96 160)).isOk = true := by decide +kernel
    rw [hno] at hok
    exact Bool.noConfusion hok

/-- The state after the directory has been moved into itself. -/
def lost : State :=
  after held [.frename 9 1 2 (renameIo 64 96)]

theorem lost_root (p : Nat) : subdirs lost 0 0 p = none := by
  have hdirs : lost.dirs 0 0 p = if 64 ≤ p ∧ p ≤ 64 then none else drive.dirs 0 0 p := rfl
  by_cases h64 : p = 64
  · rw [subdirs, hdirs, h64]
    rfl
  · have hsame : subdirs lost 0 0 p = subdirs drive 0 0 p := by
      rw [subdirs, subdirs, hdirs, if_neg (by omega)]
    rw [hsame]
    cases hsub : subdirs drive 0 0 p with
    | none => rfl
    | some x => exact absurd ((drive_subdirs 0 0 p x).mp hsub).2.1 h64

/-- The root is open when a directory of it is moved into itself, and the directory is lost. -/
theorem lost_directory :
    Sound held ∧ Allowed held (.frename 9 1 2 (renameIo 64 96)) ∧ Into held 1 2 (renameIo 64 96) ∧
      Reachable held 0 5 ∧
      ∃ t, dxfsFrename held 9 1 2 (renameIo 64 96) = .ok (t, 0) ∧ ¬ Reachable t 0 5 := by
  have hkept : Kept drive held :=
    run_preserves calmStep (Kept drive) (calmStep_kept drive) drive held _ held_run
      ⟨drive_sound, fun _ _ hx => hx⟩
  have hreach : Reachable drive 0 5 :=
    ⟨1, List.mem_cons_self, by decide, rfl,
      .step 0 64 5 .root ((drive_subdirs 0 0 64 5).mpr ⟨rfl, rfl, rfl⟩)⟩
  refine ⟨hkept.1, ⟨by decide, ⟨rfl, rfl⟩, rfl, ⟨rfl, rfl⟩, rfl, .inr (.inr (by decide)), by decide,
    by decide, by decide⟩, held_into, hkept.2 0 5 hreach, lost, rfl, ?_⟩
  -- No entry of the root leads to a directory any more.
  have honly : ∀ x, Reach (subdirs lost 0) 0 x → x = 0 := by
    intro x hx
    induction hx with
    | root => rfl
    | step s p y _ hy ih =>
      rw [ih, lost_root p] at hy
      cases hy
  rintro ⟨r, hr, _, _, hx⟩
  rw [List.mem_singleton.mp hr] at hx
  exact absurd (honly 5 hx) (by decide)

end Xfs

end MagiC
