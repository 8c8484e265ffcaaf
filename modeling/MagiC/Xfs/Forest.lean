import MagiC.Lib.Slist
import MagiC.Xfs.Code
import Mathlib.Data.List.Perm.Subperm

/-!
# The Forest of File Descriptors

What the lists of descriptors have to be, and what the primitive changes of
them do.

`Forest` says that every descriptor is on the list it belongs to and that the
lists contain nothing else. Which list that is depends only on the fields that
are not links: the prototype of a descriptor, and the parent of a prototype. So
a step is described by what it does to these fields and to the blocks in use,
and the lists follow.

## Main definitions

* `Forest`: The lists contain what they should.

## Theorems

* `Forest.child`: A prototype is added.
-/

namespace MagiC

namespace Xfs

open Chains

/-- A descriptor without its links. -/
def Fd.core (f : Fd) : Fd :=
  { f with children := 0, next := 0, multi := 0 }

theorem Fd.read_of {α : Type} (part : Fd → Fd) {f g : Fd} (h : part f = part g) (r : Fd → α)
    (hr : ∀ f, r (part f) = r f) : r f = r g := by
  rw [← hr, h, hr]

namespace State

variable (h : State)

def IsFd (a : Nat) : Prop :=
  h.use a = .fd

/-- A descriptor is the first one of its file. -/
def Proto (a : Nat) : Prop :=
  h.use a = .fd ∧ (h.fd a).multi1 = a

/-- A descriptor is a clone of a prototype. -/
def Clone (p a : Nat) : Prop :=
  h.use a = .fd ∧ (h.fd a).multi1 = p ∧ a ≠ p

/-- A prototype belongs to a directory. -/
def Child (p a : Nat) : Prop :=
  h.Proto a ∧ (h.fd a).parent = p

theorem IsFd.ne_free {h : State} {a b : Nat} (hb : h.IsFd b) (hfree : h.use a = .free) :
    b ≠ a := by
  rintro rfl
  rw [IsFd, hfree] at hb
  exact Use.noConfusion hb

@[simp] theorem upd_fd (a : Nat) (f : Fd → Fd) (b : Nat) :
    (h.upd a f).fd b = if b = a then f (h.fd a) else h.fd b := by
  simp only [upd, Function.update_apply]

theorem upd_read {α : Type} (r : Fd → α) {a : Nat} {f : Fd → Fd}
    (hr : r (f (h.fd a)) = r (h.fd a)) (b : Nat) : r ((h.upd a f).fd b) = r (h.fd b) := by
  rw [upd_fd]
  split
  · rename_i hb
    rw [hb]
    exact hr
  · rfl

@[simp] theorem upd_use (a : Nat) (f : Fd → Fd) : (h.upd a f).use = h.use := rfl

@[simp] theorem upd_imbx (a : Nat) (f : Fd → Fd) : (h.upd a f).imbx = h.imbx := rfl

@[simp] theorem upd_dmdx (a : Nat) (f : Fd → Fd) : (h.upd a f).dmdx = h.dmdx := rfl

@[simp] theorem upd_dirs (a : Nat) (f : Fd → Fd) : (h.upd a f).dirs = h.dirs := rfl

@[simp] theorem setUse_fd (a : Nat) (u : Use) : (h.setUse a u).fd = h.fd := rfl

@[simp] theorem setUse_use (a : Nat) (u : Use) (b : Nat) :
    (h.setUse a u).use b = if b = a then u else h.use b := by
  simp only [setUse, Function.update_apply]

@[simp] theorem setUse_imbx (a : Nat) (u : Use) : (h.setUse a u).imbx = h.imbx := rfl

@[simp] theorem setUse_dmdx (a : Nat) (u : Use) : (h.setUse a u).dmdx = h.dmdx := rfl

@[simp] theorem setUse_dirs (a : Nat) (u : Use) : (h.setUse a u).dirs = h.dirs := rfl

@[simp] theorem intMfree_eq (a : Nat) : h.intMfree a = h.setUse a .free := rfl

end State

/-- The lists of descriptors contain what belongs on them, and nothing refers to a block
    that is not in use: every clone is on the list of its prototype, every prototype with a
    parent on the list of children of that parent, which is the prototype of a directory,
    and the prototypes without a parent are the roots. -/
structure Forest (h : State) : Prop where
  null : 0 ∉ h.imbx
  pool : ∀ a, h.use a ≠ .free → a ∈ h.imbx
  proto : ∀ a, h.IsFd a → h.Proto (h.fd a).multi1
  clones : ∀ p, h.Proto p → ∃ l, Linked (fun a => (h.fd a).multi) 0 (h.fd p).multi l ∧
    ∀ c, c ∈ l ↔ h.Clone p c
  children : ∀ p, h.Proto p → ∃ l, Linked (fun a => (h.fd a).next) 0 (h.fd p).children l ∧
    ∀ c, c ∈ l ↔ h.Child p c
  parent : ∀ a, h.Proto a → (h.fd a).parent ≠ 0 →
    h.Proto (h.fd a).parent ∧ (h.fd (h.fd a).parent).subdir = true
  root : ∀ a, h.Proto a → ((h.fd a).parent = 0 ↔ a ∈ h.dmdx)
  rootProto : ∀ a, a ∈ h.dmdx → a ≠ 0 → h.Proto a
  rootDir : ∀ a, h.Proto a → (h.fd a).parent = 0 → (h.fd a).subdir = true
  rootNext : ∀ a, h.Proto a → (h.fd a).parent = 0 → (h.fd a).next = 0
  cloneParent : ∀ p a, h.Clone p a → (h.fd a).parent = 0
  name : ∀ a, h.IsFd a → (h.fd a).longname ≠ 0 → h.use (h.fd a).longname = .name
  names : ∀ a b, h.IsFd a → h.IsFd b → (h.fd a).longname ≠ 0 →
    (h.fd a).longname = (h.fd b).longname → a = b
  cloneDmd : ∀ p a, h.Clone p a → (h.fd a).dmd = (h.fd p).dmd
  childDmd : ∀ a, h.Proto a → (h.fd a).parent ≠ 0 → (h.fd a).dmd = (h.fd (h.fd a).parent).dmd

/-- What the forest reads of a descriptor. -/
def Fd.shape (f : Fd) : Fd :=
  { f with refcnt := 0, mode := 0, owner := 0, dirpos := 0, stcl := 0, longname := 0 }

/-- Two states differ in links only. -/
structure Relinked (h h' : State) : Prop where
  core : ∀ a, (h'.fd a).core = (h.fd a).core
  imbx : h'.imbx = h.imbx
  dmdx : h'.dmdx = h.dmdx
  dirs : h'.dirs = h.dirs

theorem Relinked.refl (h : State) : Relinked h h :=
  ⟨fun _ => rfl, rfl, rfl, rfl⟩

/-! ### Searching a list -/

/-- The search finds the link that leads to the element. -/
theorem unlist_found (h : State) (offs : Fd → Nat) (x : Nat) (l m : List Nat) :
    ∀ (n : Nat) (a1 : Option Nat) (d1 : Nat),
      Linked (fun a => offs (h.fd a)) 0 d1 (l ++ x :: m) → l.length < n →
      unlist h offs x n a1 d1 = .ok (l.getLast?.or a1) := by
  induction l with
  | nil =>
    intro n a1 d1 hl hn
    have hx := (linked_cons x).mp hl
    rcases Nat.exists_eq_succ_of_ne_zero (Nat.ne_of_gt hn) with ⟨k, rfl⟩
    simp only [unlist, hx.1, if_neg hx.2.1, if_true, List.getLast?_nil, Option.none_or]
  | cons y l ih =>
    intro n a1 d1 hl hn
    have hy := (linked_cons y).mp hl
    obtain ⟨k, rfl⟩ := Nat.exists_eq_succ_of_ne_zero (Nat.ne_of_gt (Nat.lt_of_le_of_lt
      (Nat.zero_le _) hn))
    -- The element comes later, and no element comes twice.
    have hxy : y ≠ x := by
      intro hyx
      have hnd := List.nodup_cons.mp (linked_nodup hl)
      exact hnd.1 (hyx ▸ List.mem_append_right _ List.mem_cons_self)
    simp only [unlist, hy.1, if_neg hy.2.1, if_neg hxy]
    rw [ih k (some y) _ hy.2.2 (Nat.lt_of_succ_lt_succ hn)]
    cases l with
    | nil => rfl
    | cons z l => simp only [List.getLast?_cons, Option.some_or, Option.getD_some]

section

variable {h : State}

theorem Forest.short (ok : Forest h) (l : List Nat) (hnd : l.Nodup)
    (hl : ∀ a ∈ l, h.use a ≠ .free) : l.length < h.turns := by
  have hsub : l ⊆ h.imbx := fun a ha => ok.pool a (hl a ha)
  exact Nat.lt_succ_of_le (hnd.subperm hsub).length_le

theorem Forest.ne_zero (ok : Forest h) {a : Nat} (ha : h.IsFd a) : a ≠ 0 := by
  intro h0
  have hmem := ok.pool a (by rw [ha]; exact Use.noConfusion)
  exact ok.null (h0 ▸ hmem)

section

variable {h' : State} (hr : Relinked h h') (a : Nat)

include hr a

theorem Relinked.multi1 : (h'.fd a).multi1 = (h.fd a).multi1 :=
  Fd.read_of Fd.core (hr.core a) Fd.multi1 fun _ => rfl

theorem Relinked.parent : (h'.fd a).parent = (h.fd a).parent :=
  Fd.read_of Fd.core (hr.core a) Fd.parent fun _ => rfl

theorem Relinked.subdir : (h'.fd a).subdir = (h.fd a).subdir :=
  Fd.read_of Fd.core (hr.core a) Fd.subdir fun _ => rfl

theorem Relinked.longname : (h'.fd a).longname = (h.fd a).longname :=
  Fd.read_of Fd.core (hr.core a) Fd.longname fun _ => rfl

theorem Relinked.dmd : (h'.fd a).dmd = (h.fd a).dmd :=
  Fd.read_of Fd.core (hr.core a) Fd.dmd fun _ => rfl

end

/-! ### Freeing a descriptor -/

/-- No descriptor refers to `c`, as its prototype or as its parent. -/
def Unreferenced (h : State) (c : Nat) : Prop :=
  ∀ a, h.IsFd a → a ≠ c → (h.fd a).multi1 ≠ c ∧ (h.fd a).parent ≠ c

theorem Forest.drop (ok : Forest h) {h' : State} {c : Nat} (hr : Relinked h h')
    (hc : h.IsFd c) (hroot : c ∉ h.dmdx) (hfree : Unreferenced h c)
    (hnext : ∀ a, h.Proto a → (h.fd a).parent = 0 → (h'.fd a).next = (h.fd a).next)
    (huse : ∀ a, h'.use a = if a = c then .free else h.use a)
    (hclones : ∀ p, h.Proto p → p ≠ c → ∃ l,
      Linked (fun a => (h'.fd a).multi) 0 (h'.fd p).multi l ∧ ∀ a, a ∈ l ↔ h.Clone p a ∧ a ≠ c)
    (hchildren : ∀ p, h.Proto p → p ≠ c → ∃ l,
      Linked (fun a => (h'.fd a).next) 0 (h'.fd p).children l ∧
        ∀ a, a ∈ l ↔ h.Child p a ∧ a ≠ c) : Forest h' := by
  have hfd : ∀ a, h'.IsFd a ↔ h.IsFd a ∧ a ≠ c := by
    intro a
    simp only [State.IsFd, huse]
    by_cases hac : a = c
    · simp [hac]
    · simp [hac]
  have hproto : ∀ a, h'.Proto a ↔ h.Proto a ∧ a ≠ c := by
    intro a
    have ha := hfd a
    simp only [State.IsFd] at ha
    simp only [State.Proto, ha, hr.multi1]
    tauto
  have hclone : ∀ p a, h'.Clone p a ↔ h.Clone p a ∧ a ≠ c := by
    intro p a
    have ha := hfd a
    simp only [State.IsFd] at ha
    simp only [State.Clone, ha, hr.multi1]
    tauto
  have hchild : ∀ p a, h'.Child p a ↔ h.Child p a ∧ a ≠ c := by
    intro p a
    simp only [State.Child, hproto, hr.parent]
    tauto
  refine
    { null := hr.imbx ▸ ok.null, pool := ?_, proto := ?_, clones := ?_, children := ?_,
      parent := ?_, root := ?_, rootProto := ?_, rootDir := ?_, rootNext := ?_, cloneParent := ?_,
      name := ?_, names := ?_, cloneDmd := ?_, childDmd := ?_ }
  · intro a ha
    rw [huse] at ha
    split at ha
    · exact absurd rfl ha
    · exact hr.imbx ▸ ok.pool a ha
  · intro a ha
    have ha' := (hfd a).mp ha
    rw [hr.multi1, hproto]
    exact ⟨ok.proto a ha'.1, (hfree a ha'.1 ha'.2).1⟩
  · intro p hp
    have hp' := (hproto p).mp hp
    exact listed_congr (hclones p hp'.1 hp'.2) (fun _ _ => rfl) fun a => (hclone p a).symm
  · intro p hp
    have hp' := (hproto p).mp hp
    exact listed_congr (hchildren p hp'.1 hp'.2) (fun _ _ => rfl) fun a => (hchild p a).symm
  · intro a ha hpar
    have ha' := (hproto a).mp ha
    rw [hr.parent] at hpar ⊢
    rw [hr.subdir, hproto]
    have hp := ok.parent a ha'.1 hpar
    exact ⟨⟨hp.1, (hfree a ha'.1.1 ha'.2).2⟩, hp.2⟩
  · intro a ha
    rw [hr.parent, hr.dmdx]
    exact ok.root a ((hproto a).mp ha).1
  · intro a ha h0
    rw [hr.dmdx] at ha
    refine (hproto a).mpr ⟨ok.rootProto a ha h0, ?_⟩
    rintro rfl
    exact hroot ha
  · intro a ha hpar
    rw [hr.parent] at hpar
    rw [hr.subdir]
    exact ok.rootDir a ((hproto a).mp ha).1 hpar
  · intro a ha hpar
    have ha' := (hproto a).mp ha
    rw [hr.parent] at hpar
    rw [hnext a ha'.1 hpar]
    exact ok.rootNext a ha'.1 hpar
  · intro p a ha
    rw [hr.parent]
    exact ok.cloneParent p a ((hclone p a).mp ha).1
  · intro a ha hn
    have ha' := (hfd a).mp ha
    rw [hr.longname] at hn ⊢
    have hname := ok.name a ha'.1 hn
    rw [huse, if_neg, hname]
    intro hlc
    rw [hlc, hc] at hname
    exact Use.noConfusion hname
  · intro a b ha hb hn hab
    rw [hr.longname] at hn
    rw [hr.longname, hr.longname] at hab
    exact ok.names a b ((hfd a).mp ha).1 ((hfd b).mp hb).1 hn hab
  · intro p a ha
    rw [hr.dmd, hr.dmd]
    exact ok.cloneDmd p a ((hclone p a).mp ha).1
  · intro a ha hpar
    rw [hr.parent] at hpar
    rw [hr.parent, hr.dmd, hr.dmd]
    exact ok.childDmd a ((hproto a).mp ha).1 hpar

theorem Forest.proto_of_clone (ok : Forest h) {p c : Nat} (hc : h.Clone p c) : h.Proto p :=
  hc.2.1 ▸ ok.proto c hc.1

theorem Forest.clone_unreferenced (ok : Forest h) {p c : Nat} (hc : h.Clone p c) :
    Unreferenced h c := by
  have hnot : ¬ h.Proto c := fun hp => hc.2.2 (hp.2.symm.trans hc.2.1)
  intro a ha hac
  refine ⟨fun h1 => hnot (h1 ▸ ok.proto a ha), fun hpar => ?_⟩
  by_cases hp : h.Proto a
  · have hne : (h.fd a).parent ≠ 0 := fun h0 => ok.ne_zero hc.1 (hpar.symm.trans h0)
    exact hnot (hpar ▸ (ok.parent a hp hne).1)
  · have h0 := ok.cloneParent _ a ⟨ha, rfl, fun h1 => hp ⟨ha, h1.symm⟩⟩
    exact ok.ne_zero hc.1 (hpar.symm.trans h0)

theorem Forest.clone_no_root (ok : Forest h) {p c : Nat} (hc : h.Clone p c) : c ∉ h.dmdx := by
  intro hmem
  have hroot := ok.rootProto c hmem (ok.ne_zero hc.1)
  exact hc.2.2 (hroot.2.symm.trans hc.2.1)

theorem Forest.clone_list (ok : Forest h) {p c : Nat} (hc : h.Clone p c) :
    ∃ u v, (h.fd p).multi ≠ 0 ∧ Linked (fun a => (h.fd a).multi) 0 p (p :: u ++ c :: v) ∧
      ∀ a, a ∈ u ++ c :: v ↔ h.Clone p a := by
  have hp := ok.proto_of_clone hc
  rcases ok.clones p hp with ⟨l, hl, hmem⟩
  rcases List.append_of_mem ((hmem c).mpr hc) with ⟨u, v, rfl⟩
  refine ⟨u, v, ?_, (linked_cons p).mpr ⟨rfl, ok.ne_zero hp.1, hl⟩, hmem⟩
  intro h0
  rw [h0] at hl
  exact absurd (linked_null hl) (by simp)

/-- A clone is taken off the list of its prototype and freed. -/
theorem Forest.unlistMulti (ok : Forest h) {p c : Nat} (hc : h.Clone p c) :
    ∃ h1, Xfs.unlistMulti h c = .ok h1 ∧ Relinked h h1 ∧ h1.use = h.use ∧
      Forest (h1.setUse c .free) := by
  have hp := ok.proto_of_clone hc
  rcases ok.clone_list hc with ⟨u, v, _, hl, hmem⟩
  have hnd := linked_nodup hl
  -- The predecessor: the prototype or the clone before.
  obtain ⟨w, q, hw⟩ : ∃ w q, p :: u = w ++ [q] :=
    ⟨_, _, (List.dropLast_append_getLast (List.cons_ne_nil p u)).symm⟩
  have hlast : (u.getLast?.or (some p)).getD p = q := by
    have := congrArg List.getLast? hw
    rw [List.getLast?_append, List.getLast?_cons] at this
    cases hu : u.getLast? with
    | none => simpa [hu] using this
    | some z => simpa [hu] using this
  have hsplit : p :: u ++ c :: v = w ++ q :: c :: v := by
    rw [hw, List.append_assoc]
    rfl
  have hqmulti : (h.fd q).multi1 = p := by
    have hq : q ∈ p :: u := hw ▸ List.mem_append_right _ List.mem_cons_self
    rcases List.mem_cons.mp hq with rfl | hq
    · exact hp.2
    · exact ((hmem q).mp (List.mem_append_left _ hq)).2.1
  have hfound := unlist_found h Fd.multi c u v h.turns (some p) (h.fd p).multi
    ((linked_cons p).mp hl).2.2 (by
      refine ok.short u ?_ fun a ha => ?_
      · exact (List.nodup_append.mp (List.nodup_cons.mp hnd).2).1
      · rw [((hmem a).mp (List.mem_append_left _ ha)).1]
        exact Use.noConfusion)
  refine ⟨h.upd q fun f => { f with multi := (h.fd c).multi }, ?_, ?_, rfl, ?_⟩
  · simp only [Xfs.unlistMulti, hc.2.1, hfound, bind, Except.bind, hlast, pure, Except.pure]
  · exact ⟨h.upd_read Fd.core rfl, rfl, rfl, rfl⟩
  · refine ok.drop ⟨fun a => ?_, rfl, rfl, rfl⟩ hc.1 (ok.clone_no_root hc)
      (ok.clone_unreferenced hc) (fun a _ _ => ?_) (fun a => ?_) (fun p' hp' _ => ?_)
      fun p' hp' _ => ?_
    · rw [State.setUse_fd]
      exact h.upd_read Fd.core rfl a
    · rw [State.setUse_fd]
      exact h.upd_read Fd.next rfl a
    · simp only [State.setUse_use, State.upd_use]
    · by_cases hpp : p' = p
      · subst hpp
        -- The rest of the list hangs on the predecessor.
        have hcut : Linked (fun a => ((h.upd q fun f =>
            { f with multi := (h.fd c).multi }).fd a).multi) 0 p' (w ++ q :: v) :=
          linked_unhook q c (hsplit ▸ hl) (by simp only [State.upd_fd, if_true]) fun y hyq => by
            simp only [State.upd_fd, if_neg hyq]
        have hrest : w ++ q :: v = p' :: (u ++ v) := by
          have := congrArg (· ++ v) hw
          simpa using this.symm
        rw [hrest] at hcut
        refine ⟨u ++ v, ((linked_cons p').mp hcut).2.2, fun a => ?_⟩
        rw [← hmem a]
        exact mem_without c (List.nodup_cons.mp hnd).2 a
      · have hother : ∀ a, (h.fd a).multi1 = p' → a ≠ q := by
          rintro a ha rfl
          exact hpp (ha.symm.trans hqmulti)
        simp only [State.setUse_fd, State.upd_fd, if_neg (hother p' hp'.2)]
        refine listed_congr (ok.clones p' hp') (fun a ha => ?_) fun a =>
          ⟨fun ha => ⟨ha, ?_⟩, And.left⟩
        · simp only [if_neg (hother a ha.2.1)]
        · rintro rfl
          exact hpp (ha.2.1.symm.trans hc.2.1)
    · rw [State.setUse_fd, h.upd_read Fd.children rfl]
      refine listed_congr (ok.children p' hp') (fun a _ => h.upd_read Fd.next rfl a) fun a =>
        ⟨fun ha => ⟨ha, ?_⟩, And.left⟩
      rintro rfl
      exact hc.2.2 (ha.1.2.symm.trans hc.2.1)

theorem Forest.unlistNext (ok : Forest h) {c : Nat} (hc : h.Proto c) (hpar : (h.fd c).parent ≠ 0) :
    ∃ h1, Xfs.unlistNext h c = .ok h1 ∧ Relinked h h1 ∧ h1.use = h.use ∧
      (∀ a, (h1.fd a).multi = (h.fd a).multi) ∧
      (∀ a, h.Proto a → (h.fd a).parent = 0 → (h1.fd a).next = (h.fd a).next) ∧
      ∀ p, h.Proto p → ∃ l, Linked (fun a => (h1.fd a).next) 0 (h1.fd p).children l ∧
        ∀ a, a ∈ l ↔ h.Child p a ∧ a ≠ c := by
  have hp := (ok.parent c hc hpar).1
  rcases ok.children _ hp with ⟨l, hl, hmem⟩
  rcases List.append_of_mem ((hmem c).mpr ⟨hc, rfl⟩) with ⟨u, v, rfl⟩
  have hnd := linked_nodup hl
  have hfound := unlist_found h Fd.next c u v h.turns none _ hl (by
    refine ok.short u (List.nodup_append.mp hnd).1 fun a ha => ?_
    rw [((hmem a).mp (List.mem_append_left _ ha)).1.1]
    exact Use.noConfusion)
  have hrest : ∀ a, a ∈ u ++ v ↔ h.Child (h.fd c).parent a ∧ a ≠ c := fun a => by
    rw [← hmem a]
    exact mem_without c hnd a
  -- The children of another directory are others.
  have hother : ∀ p a, p ≠ (h.fd c).parent → (h.Child p a ↔ h.Child p a ∧ a ≠ c) := by
    intro p a hpp
    refine ⟨fun ha => ⟨ha, ?_⟩, fun ha => ha.1⟩
    rintro rfl
    exact hpp ha.2.symm
  rcases List.eq_nil_or_concat u with rfl | ⟨w, q, hw⟩
  · -- The first child: the parent's link is stored.
    refine ⟨h.upd (h.fd c).parent fun f => { f with children := (h.fd c).next }, ?_,
      ⟨h.upd_read Fd.core rfl, rfl, rfl, rfl⟩, rfl, h.upd_read Fd.multi rfl,
      fun a _ _ => h.upd_read Fd.next rfl a, fun p hpp => ?_⟩
    · simp only [Xfs.unlistNext, hfound, bind, Except.bind, List.getLast?_nil, Option.none_or, pure,
        Except.pure]
    · by_cases hpe : p = (h.fd c).parent
      · refine ⟨v, ?_, fun a => hpe ▸ hrest a⟩
        rw [State.upd_fd, if_pos hpe]
        exact linked_drop c ((linked_cons c).mp hl |>.1 ▸ hl) fun a _ => h.upd_read Fd.next rfl a
      · rw [State.upd_fd, if_neg hpe]
        exact listed_congr (ok.children p hpp) (fun a _ => h.upd_read Fd.next rfl a) fun a =>
          hother p a hpe
  · -- A later child: the link of the child before it is stored.
    rw [List.concat_eq_append] at hw
    subst hw
    have hq : h.Child (h.fd c).parent q := (hmem q).mp (by simp)
    refine ⟨h.upd q fun f => { f with next := (h.fd c).next }, ?_,
      ⟨h.upd_read Fd.core rfl, rfl, rfl, rfl⟩, rfl, h.upd_read Fd.multi rfl,
      fun a ha hroot => ?_, fun p hpp => ?_⟩
    · simp only [Xfs.unlistNext, hfound, bind, Except.bind, List.getLast?_append,
        List.getLast?_singleton, Option.some_or, pure, Except.pure]
    · have hne : a ≠ q := by
        rintro rfl
        exact ok.ne_zero hp.1 (hq.2.symm.trans hroot)
      rw [State.upd_fd, if_neg hne]
    · rw [h.upd_read Fd.children rfl]
      by_cases hpe : p = (h.fd c).parent
      · subst hpe
        refine ⟨w ++ [q] ++ v, ?_, hrest⟩
        rw [List.append_assoc] at hl ⊢
        refine linked_unhook q c hl (by simp only [State.upd_fd, if_true]) fun y hyq => ?_
        simp only [State.upd_fd, if_neg hyq]
      · refine listed_congr (ok.children p hpp) (fun a ha => ?_) fun a => hother p a hpe
        have hne : a ≠ q := by
          rintro rfl
          exact hpe (ha.2.symm.trans hq.2)
        simp only [State.upd_fd, if_neg hne]

/-! ### Fields that are no links -/

theorem Forest.same (ok : Forest h) {h' : State} (himbx : h'.imbx = h.imbx)
    (hdmdx : h'.dmdx = h.dmdx) (hfd : ∀ a, h'.IsFd a ↔ h.IsFd a)
    (hpool : ∀ a, h'.use a ≠ .free → a ∈ h.imbx)
    (hshape : ∀ a, h.IsFd a → (h'.fd a).shape = (h.fd a).shape)
    (hname : ∀ a, h.IsFd a → (h'.fd a).longname ≠ 0 → h'.use (h'.fd a).longname = .name)
    (hnames : ∀ a b, h.IsFd a → h.IsFd b → (h'.fd a).longname ≠ 0 →
      (h'.fd a).longname = (h'.fd b).longname → a = b) : Forest h' := by
  have hread : ∀ {α : Type} (r : Fd → α), (∀ f, r f.shape = r f) → ∀ a, h.IsFd a →
      r (h'.fd a) = r (h.fd a) :=
    fun r hr a ha => Fd.read_of Fd.shape (hshape a ha) r hr
  have hparent := hread Fd.parent fun _ => rfl
  have hchildren := hread Fd.children fun _ => rfl
  have hnext := hread Fd.next fun _ => rfl
  have hmulti := hread Fd.multi fun _ => rfl
  have hmulti1 := hread Fd.multi1 fun _ => rfl
  have hsubdir := hread Fd.subdir fun _ => rfl
  have hdmd := hread Fd.dmd fun _ => rfl
  have hproto : ∀ a, h'.Proto a ↔ h.Proto a := by
    intro a
    constructor
    · intro ha
      have ha1 := (hfd a).mp ha.1
      exact ⟨ha1, (hmulti1 a ha1).symm.trans ha.2⟩
    · intro ha
      exact ⟨(hfd a).mpr ha.1, (hmulti1 a ha.1).trans ha.2⟩
  have hclone : ∀ p c, h'.Clone p c ↔ h.Clone p c := by
    intro p c
    constructor
    · rintro ⟨hc, hm, hne⟩
      have hc1 := (hfd c).mp hc
      exact ⟨hc1, (hmulti1 c hc1).symm.trans hm, hne⟩
    · rintro ⟨hc, hm, hne⟩
      exact ⟨(hfd c).mpr hc, (hmulti1 c hc).trans hm, hne⟩
  have hchild : ∀ p c, h'.Child p c ↔ h.Child p c := by
    intro p c
    constructor
    · rintro ⟨hc, hp⟩
      have hc1 := (hproto c).mp hc
      exact ⟨hc1, (hparent c hc1.1).symm.trans hp⟩
    · rintro ⟨hc, hp⟩
      exact ⟨(hproto c).mpr hc, (hparent c hc.1).trans hp⟩
  refine
    { null := himbx ▸ ok.null, pool := himbx ▸ hpool, proto := ?_, clones := ?_, children := ?_,
      parent := ?_, root := ?_, rootProto := ?_, rootDir := ?_, rootNext := ?_, cloneParent := ?_,
      name := fun a ha => hname a ((hfd a).mp ha),
      names := fun a b ha hb => hnames a b ((hfd a).mp ha) ((hfd b).mp hb), cloneDmd := ?_,
      childDmd := ?_ }
  · intro b hb
    have hb1 := (hfd b).mp hb
    rw [hmulti1 b hb1]
    exact (hproto _).mpr (ok.proto b hb1)
  · intro p hp
    have hp1 := (hproto p).mp hp
    rw [hmulti p hp1.1]
    exact listed_congr (ok.clones p hp1) (fun c hc => hmulti c hc.1) fun c => (hclone p c).symm
  · intro p hp
    have hp1 := (hproto p).mp hp
    rw [hchildren p hp1.1]
    exact listed_congr (ok.children p hp1) (fun c hc => hnext c hc.1.1) fun c => (hchild p c).symm
  · intro b hb hpar
    have hb1 := (hproto b).mp hb
    rw [hparent b hb1.1] at hpar ⊢
    have hp := ok.parent b hb1 hpar
    exact ⟨(hproto _).mpr hp.1, (hsubdir _ hp.1.1).trans hp.2⟩
  · intro b hb
    have hb1 := (hproto b).mp hb
    rw [hparent b hb1.1, hdmdx]
    exact ok.root b hb1
  · intro b hb h0
    rw [hdmdx] at hb
    exact (hproto b).mpr (ok.rootProto b hb h0)
  · intro b hb hpar
    have hb1 := (hproto b).mp hb
    rw [hparent b hb1.1] at hpar
    rw [hsubdir b hb1.1]
    exact ok.rootDir b hb1 hpar
  · intro b hb hpar
    have hb1 := (hproto b).mp hb
    rw [hparent b hb1.1] at hpar
    rw [hnext b hb1.1]
    exact ok.rootNext b hb1 hpar
  · intro p c hc
    have hc1 := (hclone p c).mp hc
    rw [hparent c hc1.1]
    exact ok.cloneParent p c hc1
  · intro p c hc
    have hc1 := (hclone p c).mp hc
    rw [hdmd c hc1.1, hdmd p (ok.proto_of_clone hc1).1]
    exact ok.cloneDmd p c hc1
  · intro b hb hpar
    have hb1 := (hproto b).mp hb
    rw [hparent b hb1.1] at hpar ⊢
    rw [hdmd b hb1.1, hdmd _ (ok.parent b hb1 hpar).1.1]
    exact ok.childDmd b hb1 hpar

/-- What the forest does not read may change. -/
theorem Forest.touch (ok : Forest h) {h' : State} (huse : h'.use = h.use)
    (himbx : h'.imbx = h.imbx) (hdmdx : h'.dmdx = h.dmdx)
    (hshape : ∀ a, (h'.fd a).shape = (h.fd a).shape)
    (hlong : ∀ a, (h'.fd a).longname = (h.fd a).longname) : Forest h' := by
  refine ok.same himbx hdmdx (fun a => ?_) (fun a => ?_) (fun a _ => hshape a)
    (fun a => ?_) fun a b => ?_
  · rw [State.IsFd, huse]
    exact Iff.rfl
  · rw [huse]
    exact ok.pool a
  · rw [hlong, huse]
    exact ok.name a
  · rw [hlong, hlong]
    exact ok.names a b

theorem Forest.upd (ok : Forest h) (a : Nat) (f : Fd → Fd)
    (hf : (f (h.fd a)).shape = (h.fd a).shape) (hlong : (f (h.fd a)).longname = (h.fd a).longname) :
    Forest (h.upd a f) :=
  ok.touch rfl rfl rfl (h.upd_read Fd.shape hf) (h.upd_read Fd.longname hlong)

theorem Forest.setDir (ok : Forest h) (dmd stcl : Nat) (e : Nat → Option Entry) :
    Forest (h.setDir dmd stcl e) :=
  ok.touch rfl rfl rfl (fun _ => rfl) fun _ => rfl

theorem Forest.freeName (ok : Forest h) (n : Nat) (hn : h.use n = .name)
    (hfree : ∀ a, h.IsFd a → (h.fd a).longname ≠ n) : Forest (h.setUse n .free) := by
  refine ok.same rfl rfl (fun a => ?_) (fun a ha => ?_) (fun _ _ => rfl)
    (fun a ha hlong => ?_) ok.names
  · rw [State.IsFd, State.setUse_use]
    split
    · rename_i ha
      rw [State.IsFd, ha, hn]
      exact ⟨fun h => Use.noConfusion h, fun h => Use.noConfusion h⟩
    · exact Iff.rfl
  · rw [State.setUse_use] at ha
    split at ha
    · exact absurd rfl ha
    · exact ok.pool a ha
  · rw [State.setUse_use, State.setUse_fd, if_neg (hfree a ha)]
    exact ok.name a ha hlong

theorem Forest.cleared (ok : Forest h) {a : Nat} (hfree : h.use a = .free) (u : Use) :
    Forest ((h.claim a u).setUse a .free) := by
  have hold : ∀ b, h.IsFd b → b ≠ a := fun _ hb => hb.ne_free hfree
  have huse : ∀ b, ((h.claim a u).setUse a .free).use b = h.use b := by
    intro b
    simp only [State.claim, State.setUse_use, State.upd_use]
    split
    · rename_i hba
      rw [hba, hfree]
    · rfl
  have hfd : ∀ b, h.IsFd b → ((h.claim a u).setUse a .free).fd b = h.fd b := by
    intro b hb
    simp only [State.claim, State.setUse_fd, State.upd_fd, if_neg (hold b hb)]
  refine ok.same rfl rfl (fun b => ?_) (fun b => ?_) (fun b hb => ?_) (fun b hb => ?_)
    fun b c hb hc => ?_
  · rw [State.IsFd, huse]
    exact Iff.rfl
  · rw [huse]
    exact ok.pool b
  · rw [hfd b hb]
  · rw [hfd b hb, huse]
    exact ok.name b hb
  · rw [hfd b hb, hfd c hc]
    exact ok.names b c hb hc

/-! ### A new descriptor -/

/-- A free block has become a descriptor: a clone of a prototype, or a prototype in a
    directory without clones and without children. -/
structure Joined (h h' : State) (a : Nat) : Prop where
  free : h.use a = .free
  mem : a ∈ h.imbx
  core : ∀ b, b ≠ a → (h'.fd b).core = (h.fd b).core
  imbx : h'.imbx = h.imbx
  dmdx : h'.dmdx = h.dmdx
  use : ∀ b, h'.use b = if b = a then .fd else h.use b
  next : ∀ b, h.Proto b → (h.fd b).parent = 0 → (h'.fd b).next = (h.fd b).next
  long : (h'.fd a).longname = 0
  new : (h.Proto (h'.fd a).multi1 ∧ (h'.fd a).parent = 0 ∧
      (h'.fd a).dmd = (h.fd (h'.fd a).multi1).dmd) ∨
    ((h'.fd a).multi1 = a ∧ (h'.fd a).multi = 0 ∧ (h'.fd a).children = 0 ∧
      h.Proto (h'.fd a).parent ∧ (h.fd (h'.fd a).parent).subdir = true ∧
      (h'.fd a).dmd = (h.fd (h'.fd a).parent).dmd)

namespace Joined

variable {h' : State} {a b c p : Nat} (hjoin : Joined h h' a)

include hjoin

theorem ne (hb : h.IsFd b) : b ≠ a := hb.ne_free hjoin.free

theorem read {α : Type} (r : Fd → α) (hr : ∀ f, r f.core = r f)
    (hb : h.IsFd b) : r (h'.fd b) = r (h.fd b) :=
  Fd.read_of Fd.core (hjoin.core b (hjoin.ne hb)) r hr

theorem parent (hb : h.IsFd b) : (h'.fd b).parent = (h.fd b).parent :=
  hjoin.read Fd.parent (fun _ => rfl) hb

theorem multi1 (hb : h.IsFd b) : (h'.fd b).multi1 = (h.fd b).multi1 :=
  hjoin.read Fd.multi1 (fun _ => rfl) hb

theorem subdir (hb : h.IsFd b) : (h'.fd b).subdir = (h.fd b).subdir :=
  hjoin.read Fd.subdir (fun _ => rfl) hb

theorem dmd (hb : h.IsFd b) : (h'.fd b).dmd = (h.fd b).dmd :=
  hjoin.read Fd.dmd (fun _ => rfl) hb

theorem longname (hb : h.IsFd b) :
    (h'.fd b).longname = (h.fd b).longname :=
  hjoin.read Fd.longname (fun _ => rfl) hb

theorem isFd (b : Nat) : h'.IsFd b ↔ h.IsFd b ∨ b = a := by
  simp only [State.IsFd, hjoin.use]
  by_cases hb : b = a
  · simp [hb]
  · simp [hb]

theorem proto (hb : h.Proto b) : h'.Proto b :=
  ⟨(hjoin.isFd b).mpr (.inl hb.1), (hjoin.multi1 hb.1).trans hb.2⟩

theorem proto_cases (hb : h'.Proto b) :
    h.Proto b ∨ (b = a ∧ (h'.fd a).multi1 = a) := by
  rcases (hjoin.isFd b).mp hb.1 with hold | rfl
  · exact .inl ⟨hold, (hjoin.multi1 hold).symm.trans hb.2⟩
  · exact .inr ⟨rfl, hb.2⟩

/-- The clones of an old prototype. The new one is no clone of itself. -/
theorem clone_iff (hp : h.Proto p) :
    h'.Clone p c ↔ h.Clone p c ∨ (c = a ∧ (h'.fd a).multi1 = p) := by
  constructor
  · rintro ⟨hc, hm, hne⟩
    rcases (hjoin.isFd c).mp hc with hold | rfl
    · exact .inl ⟨hold, (hjoin.multi1 hold).symm.trans hm, hne⟩
    · exact .inr ⟨rfl, hm⟩
  · rintro (⟨hc, hm, hne⟩ | ⟨rfl, hm⟩)
    · exact ⟨(hjoin.isFd c).mpr (.inl hc), (hjoin.multi1 hc).trans hm, hne⟩
    · exact ⟨(hjoin.isFd c).mpr (.inr rfl), hm, (hjoin.ne hp.1).symm⟩

theorem child_iff :
    h'.Child p c ↔ h.Child p c ∨ (c = a ∧ (h'.fd a).multi1 = a ∧ (h'.fd a).parent = p) := by
  constructor
  · rintro ⟨hc, hp⟩
    rcases hjoin.proto_cases hc with hold | ⟨rfl, hm⟩
    · exact .inl ⟨hold, (hjoin.parent hold.1).symm.trans hp⟩
    · exact .inr ⟨rfl, hm, hp⟩
  · rintro (⟨hc, hp⟩ | ⟨rfl, hm, hp⟩)
    · exact ⟨hjoin.proto hc, (hjoin.parent hc.1).trans hp⟩
    · exact ⟨⟨(hjoin.isFd c).mpr (.inr rfl), hm⟩, hp⟩

/-- A new prototype. -/
theorem self (hm : (h'.fd a).multi1 = a) :
    (h'.fd a).multi = 0 ∧ (h'.fd a).children = 0 ∧
      h.Proto (h'.fd a).parent ∧ (h.fd (h'.fd a).parent).subdir = true ∧
      (h'.fd a).dmd = (h.fd (h'.fd a).parent).dmd := by
  rcases hjoin.new with ⟨hp, _⟩ | ⟨_, hrest⟩
  · exact absurd hm (hjoin.ne hp.1)
  · exact hrest

section

variable (ok : Forest h)

include ok

theorem parent_ne_zero (hm : (h'.fd a).multi1 = a) : (h'.fd a).parent ≠ 0 :=
  ok.ne_zero (hjoin.self hm).2.2.1.1

theorem no_clone : ¬ h'.Clone a c := by
  rintro ⟨hc, hm, hne⟩
  rcases (hjoin.isFd c).mp hc with hold | rfl
  · exact hjoin.ne (ok.proto c hold).1 ((hjoin.multi1 hold).symm.trans hm)
  · exact hne rfl

theorem no_child : ¬ h'.Child a c := by
  have ha0 : a ≠ 0 := fun h0 => ok.null (h0 ▸ hjoin.mem)
  intro hc
  rcases hjoin.child_iff.mp hc with ⟨hc, hcp⟩ | ⟨_, hm, hcp⟩
  · exact hjoin.ne (ok.parent c hc (hcp ▸ ha0)).1.1 hcp
  · exact hjoin.ne (hjoin.self hm).2.2.1.1 hcp

theorem proto_multi1 (hb : h'.IsFd b) : h'.Proto (h'.fd b).multi1 := by
  rcases (hjoin.isFd b).mp hb with hold | rfl
  · rw [hjoin.multi1 hold]
    exact hjoin.proto (ok.proto b hold)
  · rcases hjoin.new with ⟨hp, _⟩ | ⟨hm, _⟩
    · exact hjoin.proto hp
    · rw [hm]
      exact ⟨hb, hm⟩

theorem proto_parent (hb : h'.Proto b) (hpar : (h'.fd b).parent ≠ 0) :
    h'.Proto (h'.fd b).parent ∧ (h'.fd (h'.fd b).parent).subdir = true := by
  rcases hjoin.proto_cases hb with hold | ⟨rfl, hm⟩
  · rw [hjoin.parent hold.1] at hpar ⊢
    have hp := ok.parent b hold hpar
    exact ⟨hjoin.proto hp.1, (hjoin.subdir hp.1.1).trans hp.2⟩
  · have hp := (hjoin.self hm).2.2
    exact ⟨hjoin.proto hp.1, (hjoin.subdir hp.1.1).trans hp.2.1⟩

theorem root_iff (hb : h'.Proto b) : (h'.fd b).parent = 0 ↔ b ∈ h.dmdx := by
  rcases hjoin.proto_cases hb with hold | ⟨rfl, hm⟩
  · rw [hjoin.parent hold.1]
    exact ok.root b hold
  · constructor
    · intro h0
      exact absurd h0 (hjoin.parent_ne_zero ok hm)
    · intro hmem
      exact absurd rfl (hjoin.ne (ok.rootProto b hmem fun h0 => ok.null (h0 ▸ hjoin.mem)).1)

theorem clone_parent (hc : h'.Clone p c) : (h'.fd c).parent = 0 := by
  rcases hc with ⟨hc, hm, hne⟩
  rcases (hjoin.isFd c).mp hc with hold | rfl
  · rw [hjoin.parent hold]
    exact ok.cloneParent p c ⟨hold, (hjoin.multi1 hold).symm.trans hm, hne⟩
  · rcases hjoin.new with ⟨_, h0, _⟩ | ⟨hm', _⟩
    · exact h0
    · exact absurd (hm'.symm.trans hm) hne

theorem name_use (hb : h'.IsFd b)
    (hn : (h'.fd b).longname ≠ 0) : h'.use (h'.fd b).longname = .name := by
  rcases (hjoin.isFd b).mp hb with hold | rfl
  · rw [hjoin.longname hold] at hn ⊢
    have hname := ok.name b hold hn
    rw [hjoin.use, if_neg, hname]
    intro hla
    rw [hla, hjoin.free] at hname
    exact Use.noConfusion hname
  · exact absurd hjoin.long hn

theorem names_differ (hb : h'.IsFd b) (hc : h'.IsFd c)
    (hn : (h'.fd b).longname ≠ 0) (hbc : (h'.fd b).longname = (h'.fd c).longname) : b = c := by
  rcases (hjoin.isFd b).mp hb with hb' | rfl
  · rcases (hjoin.isFd c).mp hc with hc' | rfl
    · rw [hjoin.longname hb'] at hn
      rw [hjoin.longname hb', hjoin.longname hc'] at hbc
      exact ok.names b c hb' hc' hn hbc
    · exact absurd (hbc.trans hjoin.long) hn
  · exact absurd hjoin.long hn

theorem clone_dmd (hc : h'.Clone p c) : (h'.fd c).dmd = (h'.fd p).dmd := by
  rcases hc with ⟨hc, hm, hne⟩
  rcases (hjoin.isFd c).mp hc with hold | rfl
  · have hm' := (hjoin.multi1 hold).symm.trans hm
    have hp := ok.proto c hold
    rw [hm'] at hp
    rw [hjoin.dmd hold, hjoin.dmd hp.1]
    exact ok.cloneDmd p c ⟨hold, hm', hne⟩
  · rcases hjoin.new with ⟨hp, _, hd⟩ | ⟨hm', _⟩
    · rw [hm] at hp hd
      rw [hd, hjoin.dmd hp.1]
    · exact absurd (hm'.symm.trans hm) hne

theorem child_dmd (hb : h'.Proto b)
    (hpar : (h'.fd b).parent ≠ 0) : (h'.fd b).dmd = (h'.fd (h'.fd b).parent).dmd := by
  rcases hjoin.proto_cases hb with hold | ⟨rfl, hm⟩
  · rw [hjoin.parent hold.1] at hpar ⊢
    rw [hjoin.dmd hold.1, hjoin.dmd (ok.parent b hold hpar).1.1]
    exact ok.childDmd b hold hpar
  · have hp := (hjoin.self hm).2.2
    rw [hp.2.2, hjoin.dmd hp.1.1]

end

end Joined

theorem Forest.add (ok : Forest h) {h' : State} {a : Nat} (hjoin : Joined h h' a)
    (hclones : ∀ p, h.Proto p → ∃ l, Linked (fun b => (h'.fd b).multi) 0 (h'.fd p).multi l ∧
      ∀ c, c ∈ l ↔ h.Clone p c ∨ (c = a ∧ (h'.fd a).multi1 = p))
    (hchildren : ∀ p, h.Proto p → ∃ l, Linked (fun b => (h'.fd b).next) 0 (h'.fd p).children l ∧
      ∀ c, c ∈ l ↔ h.Child p c ∨ (c = a ∧ (h'.fd a).multi1 = a ∧ (h'.fd a).parent = p)) :
    Forest h' := by
  refine
    { null := hjoin.imbx ▸ ok.null, pool := ?_, proto := fun b hb => hjoin.proto_multi1 ok hb,
      clones := ?_, children := ?_, parent := fun b hb => hjoin.proto_parent ok hb,
      root := fun b hb => hjoin.dmdx ▸ hjoin.root_iff ok hb, rootProto := ?_, rootDir := ?_,
      rootNext := ?_, cloneParent := fun p c => hjoin.clone_parent ok,
      name := fun b => hjoin.name_use ok, names := fun b c => hjoin.names_differ ok,
      cloneDmd := fun p c => hjoin.clone_dmd ok, childDmd := fun b => hjoin.child_dmd ok }
  · intro b hb
    rw [hjoin.use] at hb
    rw [hjoin.imbx]
    split at hb
    · rename_i hba
      exact hba ▸ hjoin.mem
    · exact ok.pool b hb
  · intro p hp
    rcases hjoin.proto_cases hp with hold | ⟨rfl, hm⟩
    · exact listed_congr (hclones p hold) (fun _ _ => rfl) fun _ => (hjoin.clone_iff hold).symm
    · rw [(hjoin.self hm).1]
      exact ⟨[], linked_nil _ _, fun c =>
        ⟨fun hc => absurd hc List.not_mem_nil, fun hc => absurd hc (hjoin.no_clone ok)⟩⟩
  · intro p hp
    rcases hjoin.proto_cases hp with hold | ⟨rfl, hm⟩
    · exact listed_congr (hchildren p hold) (fun _ _ => rfl) fun _ => hjoin.child_iff.symm
    · rw [(hjoin.self hm).2.1]
      exact ⟨[], linked_nil _ _, fun c =>
        ⟨fun hc => absurd hc List.not_mem_nil, fun hc => absurd hc (hjoin.no_child ok)⟩⟩
  · intro b hb h0
    rw [hjoin.dmdx] at hb
    exact hjoin.proto (ok.rootProto b hb h0)
  · intro b hb hpar
    rcases hjoin.proto_cases hb with hold | ⟨rfl, hm⟩
    · rw [hjoin.parent hold.1] at hpar
      rw [hjoin.subdir hold.1]
      exact ok.rootDir b hold hpar
    · exact absurd hpar (hjoin.parent_ne_zero ok hm)
  · intro b hb hpar
    rcases hjoin.proto_cases hb with hold | ⟨rfl, hm⟩
    · rw [hjoin.parent hold.1] at hpar
      rw [hjoin.next b hold hpar]
      exact ok.rootNext b hold hpar
    · exact absurd hpar (hjoin.parent_ne_zero ok hm)

end

/-! ### A drive that has just been opened -/

/-- The only descriptor is that of the root, in the block 1. -/
def mounted (imbx : List Nat) (root : Fd) (dirs : Nat → Nat → Nat → Option Entry) : State where
  fd a := if a = 1 then root else Fd.zero
  use a := if a = 1 then .fd else .free
  imbx := imbx
  dmdx := [1]
  dirs := dirs

theorem mounted_fd {imbx : List Nat} {root : Fd} {dirs : Nat → Nat → Nat → Option Entry} {a : Nat}
    (ha : (mounted imbx root dirs).IsFd a) : a = 1 := by
  by_contra h1
  simp only [State.IsFd, mounted, if_neg h1] at ha
  exact Use.noConfusion ha

theorem forest_mounted {imbx : List Nat} {root : Fd} {dirs : Nat → Nat → Nat → Option Entry}
    (h0 : 0 ∉ imbx) (h1 : 1 ∈ imbx) (hmulti1 : root.multi1 = 1) (hparent : root.parent = 0)
    (hsubdir : root.subdir = true) (hchildren : root.children = 0) (hnext : root.next = 0)
    (hmulti : root.multi = 0) (hlong : root.longname = 0) :
    Forest (mounted imbx root dirs) := by
  have hroot : (mounted imbx root dirs).fd 1 = root := rfl
  have hproto : (mounted imbx root dirs).Proto 1 := ⟨rfl, hmulti1⟩
  have hclone : ∀ p a, ¬ (mounted imbx root dirs).Clone p a := by
    rintro p a ⟨ha, hm, hne⟩
    have ha1 := mounted_fd ha
    rw [ha1, hroot, hmulti1] at hm
    exact hne (ha1.trans hm)
  have hchild : ∀ p a, (mounted imbx root dirs).Proto p → ¬ (mounted imbx root dirs).Child p a := by
    rintro p a hp ⟨ha, hpar⟩
    rw [mounted_fd ha.1, hroot, hparent] at hpar
    exact absurd (hpar.trans (mounted_fd hp.1)) (by decide)
  exact
    { null := h0
      pool := by
        intro a ha
        by_cases ha1 : a = 1
        · exact ha1 ▸ h1
        · exact absurd (if_neg ha1) ha
      proto := by
        intro a ha
        rw [mounted_fd ha, hroot, hmulti1]
        exact hproto
      clones := by
        intro p hp
        refine ⟨[], ?_, fun c => ⟨fun hc => absurd hc List.not_mem_nil,
          fun hc => absurd hc (hclone p c)⟩⟩
        rw [mounted_fd hp.1, hroot, hmulti]
        exact Chains.linked_nil _ _
      children := by
        intro p hp
        refine ⟨[], ?_, fun c => ⟨fun hc => absurd hc List.not_mem_nil,
          fun hc => absurd hc (hchild p c hp)⟩⟩
        rw [mounted_fd hp.1, hroot, hchildren]
        exact Chains.linked_nil _ _
      parent := by
        intro a ha hpar
        rw [mounted_fd ha.1] at hpar
        exact absurd hparent hpar
      root := by
        intro a ha
        rw [mounted_fd ha.1]
        exact ⟨fun _ => List.mem_cons_self, fun _ => hparent⟩
      rootProto := by
        intro a ha _
        rw [List.mem_singleton.mp ha]
        exact hproto
      rootDir := by
        intro a ha _
        rw [mounted_fd ha.1]
        exact hsubdir
      rootNext := by
        intro a ha _
        rw [mounted_fd ha.1]
        exact hnext
      cloneParent := fun p a ha => absurd ha (hclone p a)
      name := by
        intro a ha hn
        rw [mounted_fd ha] at hn
        exact absurd hlong hn
      names := by
        intro a b ha hb _ _
        exact (mounted_fd ha).trans (mounted_fd hb).symm
      cloneDmd := fun p a ha => absurd ha (hclone p a)
      childDmd := by
        intro a ha hpar
        rw [mounted_fd ha.1] at hpar
        exact absurd hparent hpar }

end Xfs

end MagiC
