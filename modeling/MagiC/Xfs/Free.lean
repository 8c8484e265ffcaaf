import MagiC.Xfs.Forest

/-!
# Freeing and Allocating Descriptors

`free_FD` frees a clone or a prototype without clones; a prototype that has
clones is only marked as unused. When the last clone of a file goes and the
prototype is unused, that goes with it. `int_malloc` may free a directory that
nobody uses before it finds a block.

What these do to the other descriptors is the same everywhere: `Frame` says that
descriptors outside of a set keep every field that is no link, that prototypes
keep their place, and that nothing in use vanishes.

## Main definitions

* `Held`: A descriptor is open, or the kernel refers to it.

## Theorems

* `intMalloc_spec`: `int_malloc` keeps the forest and finds a free block.
-/

namespace MagiC

namespace Xfs

open Chains

/-- What says where the file of a prototype is. -/
def Fd.place (f : Fd) : Fd :=
  { f.core with refcnt := 0, mode := 0, owner := 0, longname := 0 }

/-- A descriptor is open, or the kernel refers to it. -/
def Held (h : State) (a : Nat) : Prop :=
  (h.fd a).owner ≠ 0 ∨ (h.fd a).refcnt ≠ 0

/-- The reference counts of directories are no negative marks. -/
def Counts (h : State) : Prop :=
  ∀ a, h.IsFd a → (h.fd a).subdir = true → 0 ≤ (h.fd a).refcnt

/-- Descriptors that are not in `S` keep every field that is no link, no prototype is new or
    in another place, and no descriptor that is held vanishes unless it is in `S`. -/
structure Frame (S : Nat → Prop) (h h' : State) : Prop where
  core : ∀ a, h'.IsFd a → ¬ S a → h.IsFd a ∧ (h'.fd a).core = (h.fd a).core
  proto : ∀ a, h'.Proto a → h.Proto a ∧ (h'.fd a).place = (h.fd a).place
  keep : ∀ a, h.IsFd a → ¬ S a → Held h a → h'.IsFd a
  count : Counts h → Counts h'
  imbx : h'.imbx = h.imbx
  dmdx : h'.dmdx = h.dmdx
  dirs : h'.dirs = h.dirs

def NoFd (_ : Nat) : Prop :=
  False

section

variable {h : State}

theorem Frame.refl (S : Nat → Prop) (h : State) : Frame S h h :=
  ⟨fun _ ha _ => ⟨ha, rfl⟩, fun _ ha => ⟨ha, rfl⟩, fun _ ha _ _ => ha, fun hc => hc, rfl, rfl, rfl⟩

theorem Frame.mono {S T : Nat → Prop} {h' : State} (f : Frame S h h') (hST : ∀ a, S a → T a) :
    Frame T h h' :=
  ⟨fun a ha hT => f.core a ha (mt (hST a) hT), f.proto, fun a ha hT => f.keep a ha (mt (hST a) hT),
    f.count, f.imbx, f.dmdx, f.dirs⟩

theorem Frame.held {S : Nat → Prop} {h' : State} (f : Frame S h h') {a : Nat} (ha : h'.IsFd a)
    (hS : ¬ S a) : Held h' a ↔ Held h a := by
  have hc := (f.core a ha hS).2
  have howner : (h'.fd a).owner = (h.fd a).owner := Fd.read_of Fd.core hc Fd.owner fun _ => rfl
  have href : (h'.fd a).refcnt = (h.fd a).refcnt := Fd.read_of Fd.core hc Fd.refcnt fun _ => rfl
  simp only [Held, howner, href]

theorem Frame.trans {S T : Nat → Prop} {h1 h2 h3 : State} (f12 : Frame S h1 h2)
    (f23 : Frame T h2 h3) : Frame (fun a => S a ∨ T a) h1 h3 where
  core := by
    intro a ha hST
    have hST := not_or.mp hST
    have h2 := f23.core a ha hST.2
    have h1 := f12.core a h2.1 hST.1
    exact ⟨h1.1, h2.2.trans h1.2⟩
  proto := by
    intro a ha
    have h2 := f23.proto a ha
    have h1 := f12.proto a h2.1
    exact ⟨h1.1, h2.2.trans h1.2⟩
  keep := by
    intro a ha hST hheld
    have hST := not_or.mp hST
    have h2 := f12.keep a ha hST.1 hheld
    exact f23.keep a h2 hST.2 ((f12.held h2 hST.1).mpr hheld)
  count := fun hc => f23.count (f12.count hc)
  imbx := f23.imbx.trans f12.imbx
  dmdx := f23.dmdx.trans f12.dmdx
  dirs := f23.dirs.trans f12.dirs

theorem Frame.comp {S : Nat → Prop} {h1 h2 h3 : State} (f12 : Frame S h1 h2)
    (f23 : Frame S h2 h3) : Frame S h1 h3 :=
  (f12.trans f23).mono fun _ ha => ha.elim (fun h => h) fun h => h

theorem Relinked.frame {h' : State} (hr : Relinked h h') (S : Nat → Prop)
    (hsub : ∀ a, h'.IsFd a → h.IsFd a)
    (hkeep : ∀ a, h.IsFd a → ¬ S a → Held h a → h'.IsFd a) : Frame S h h' := by
  refine ⟨fun a ha _ => ⟨hsub a ha, hr.core a⟩, fun a ha => ⟨⟨hsub a ha.1, ?_⟩, ?_⟩, hkeep,
    fun hc a ha hdir => ?_, hr.imbx, hr.dmdx, hr.dirs⟩
  · rw [← hr.multi1]
    exact ha.2
  · exact congrArg (fun f : Fd => { f with refcnt := 0, mode := 0, owner := 0, longname := 0 })
      (hr.core a)
  · have href : (h'.fd a).refcnt = (h.fd a).refcnt :=
      Fd.read_of Fd.core (hr.core a) Fd.refcnt fun _ => rfl
    rw [hr.subdir] at hdir
    rw [href]
    exact hc a (hsub a ha) hdir

theorem Frame.upd (h : State) (c : Nat) (f : Fd → Fd)
    (hf : (f (h.fd c)).place = (h.fd c).place)
    (hcount : (f (h.fd c)).refcnt = (h.fd c).refcnt ∨ 0 ≤ (f (h.fd c)).refcnt) :
    Frame (· = c) h (h.upd c f) := by
  have hplace := h.upd_read Fd.place hf
  refine ⟨fun a ha hac => ⟨ha, ?_⟩, fun a ha => ⟨⟨ha.1, ?_⟩, hplace a⟩, fun a ha _ _ => ha,
    fun hc a ha hdir => ?_, rfl, rfl, rfl⟩
  · rw [State.upd_fd, if_neg hac]
  · have hm : ((h.upd c f).fd a).multi1 = (h.fd a).multi1 :=
      Fd.read_of Fd.place (hplace a) Fd.multi1 fun _ => rfl
    rw [← hm]
    exact ha.2
  · have hd : ((h.upd c f).fd a).subdir = (h.fd a).subdir :=
      Fd.read_of Fd.place (hplace a) Fd.subdir fun _ => rfl
    rw [hd] at hdir
    rw [State.upd_fd]
    split
    · rename_i hac
      rcases hcount with hsame | hpos
      · rw [hsame, ← hac]
        exact hc a ha hdir
      · exact hpos
    · exact hc a ha hdir

/-! ### Freeing -/

theorem Forest.children_zero (ok : Forest h) {p : Nat} (hp : h.Proto p) :
    (h.fd p).children = 0 ↔ ∀ a, ¬ h.Child p a := by
  rcases ok.children p hp with ⟨l, hl, hmem⟩
  constructor
  · intro h0 a ha
    rw [h0] at hl
    have hnil := linked_null hl
    exact absurd (hnil ▸ (hmem a).mpr ha) List.not_mem_nil
  · intro hnone
    by_contra h0
    rcases linked_head hl h0 with ⟨m, hm, _⟩
    exact hnone _ ((hmem _).mp (hm ▸ List.mem_cons_self))

theorem Forest.multi_zero (ok : Forest h) {p : Nat} (hp : h.Proto p) :
    (h.fd p).multi = 0 ↔ ∀ a, ¬ h.Clone p a := by
  rcases ok.clones p hp with ⟨l, hl, hmem⟩
  constructor
  · intro h0 a ha
    rw [h0] at hl
    have hnil := linked_null hl
    exact absurd (hnil ▸ (hmem a).mpr ha) List.not_mem_nil
  · intro hnone
    by_contra h0
    rcases linked_head hl h0 with ⟨m, hm, _⟩
    exact hnone _ ((hmem _).mp (hm ▸ List.mem_cons_self))

theorem Forest.childless (ok : Forest h) {p : Nat} (hp : h.Proto p)
    (hdir : (h.fd p).subdir = false) :
    (h.fd p).children = 0 ∧ (h.fd p).parent ≠ 0 := by
  constructor
  · refine (ok.children_zero hp).mpr fun a ha => ?_
    have hpar := ok.parent a ha.1 (ha.2 ▸ ok.ne_zero hp.1)
    rw [ha.2, hdir] at hpar
    exact Bool.noConfusion hpar.2
  · intro h0
    rw [ok.rootDir p hp h0] at hdir
    exact Bool.noConfusion hdir

theorem setUse_comm (h : State) (a b : Nat) (u v : Use) (hab : a ≠ b) :
    (h.setUse a u).setUse b v = (h.setUse b v).setUse a u := by
  simp only [State.setUse, Function.update_comm hab]

theorem freeProto_spec (ok : Forest h) {c : Nat} (hc : h.Proto c) (hmulti : (h.fd c).multi = 0)
    (hchild : (h.fd c).children = 0) (hpar : (h.fd c).parent ≠ 0) :
    ∃ h', freeProto h c = .ok h' ∧ Forest h' ∧ Relinked h h' ∧
      (∀ a, h'.IsFd a ↔ h.IsFd a ∧ a ≠ c) ∧ h'.use c = .free := by
  rcases ok.unlistNext hc hpar with ⟨h1, hun, hr, huse, hmulti1, hnext, hlists⟩
  have hnoclone := (ok.multi_zero hc).mp hmulti
  have hnochild := (ok.children_zero hc).mp hchild
  have hfree : Unreferenced h c := by
    intro a ha hac
    refine ⟨fun h1 => hnoclone a ⟨ha, h1, hac⟩, fun h1 => ?_⟩
    by_cases hp : h.Proto a
    · exact hnochild a ⟨hp, h1⟩
    · have h0 := ok.cloneParent _ a ⟨ha, rfl, fun h1 => hp ⟨ha, h1.symm⟩⟩
      exact ok.ne_zero hc.1 (h1.symm.trans h0)
  have hgone : Forest (h1.setUse c .free) := by
    have hcfd : h.IsFd c := hc.1
    refine ok.drop ⟨hr.core, hr.imbx, hr.dmdx, hr.dirs⟩ hcfd
      (fun hmem => hpar ((ok.root c hc).mpr hmem)) hfree hnext
      (fun a => ?_) (fun p hp hpc => ?_) fun p hp _ => hlists p hp
    · rw [State.setUse_use, huse]
    · simp only [State.setUse_fd, hmulti1]
      refine listed_congr (ok.clones p hp) (fun _ _ => rfl) fun a =>
        ⟨fun ha => ⟨ha, ?_⟩, And.left⟩
      rintro rfl
      exact hpc (ha.2.1.symm.trans hc.2)
  have hfd : ∀ a, (h1.setUse c .free).IsFd a ↔ h.IsFd a ∧ a ≠ c := by
    intro a
    simp only [State.IsFd, State.setUse_use, huse]
    by_cases hac : a = c
    · simp [hac]
    · simp [hac]
  rcases Decidable.em ((h1.fd c).longname = 0) with hlong | hlong
  · refine ⟨h1.setUse c .free, ?_, hgone, ⟨hr.core, hr.imbx, hr.dmdx, hr.dirs⟩, hfd, ?_⟩
    · simp only [freeProto, hmulti, ne_eq, not_true_eq_false, if_false, hun, bind, Except.bind,
        hlong, if_true, pure, Except.pure, State.intMfree_eq]
    · rw [State.setUse_use, if_pos rfl]
  · -- The block of the long name goes as well.
    have hlong' : (h.fd c).longname ≠ 0 := by rwa [← hr.longname]
    have hname := ok.name c hc.1 hlong'
    rw [← hr.longname] at hname
    have hnc : (h1.fd c).longname ≠ c := by
      intro hnc
      rw [hnc, hc.1] at hname
      exact Use.noConfusion hname
    refine ⟨(h1.setUse c .free).setUse (h1.fd c).longname .free, ?_, ?_,
      ⟨hr.core, hr.imbx, hr.dmdx, hr.dirs⟩, fun a => ?_, ?_⟩
    · simp only [freeProto, hmulti, ne_eq, not_true_eq_false, if_false, hun, bind, Except.bind,
        hlong, pure, Except.pure, State.intMfree_eq]
      rw [setUse_comm h1 _ _ _ _ hnc]
    · refine hgone.freeName _ ?_ fun a ha hac => ?_
      · rw [State.setUse_use, if_neg hnc, huse, hname]
      · have ha' := (hfd a).mp ha
        rw [State.setUse_fd, hr.longname, hr.longname] at hac
        exact ha'.2 (ok.names a c ha'.1 hc.1 (hac ▸ hlong') hac)
    · rw [← hfd a]
      simp only [State.IsFd, State.setUse_use]
      by_cases han : a = (h1.fd c).longname
      · subst han
        rw [if_pos rfl, if_neg hnc, huse, hname]
        exact ⟨fun h => Use.noConfusion h, fun h => Use.noConfusion h⟩
      · rw [if_neg han]
    · rw [State.setUse_use, if_neg (Ne.symm hnc), State.setUse_use, if_pos rfl]

theorem freeCloneFd_spec (ok : Forest h) {p c : Nat} (hc : h.Clone p c) :
    ∃ h', freeCloneFd h c = .ok h' ∧ Forest h' ∧ Relinked h h' ∧
      ∀ a, h'.IsFd a ↔ h.IsFd a ∧ a ≠ c := by
  rcases ok.unlistMulti hc with ⟨h1, hun, hr, huse, hforest⟩
  refine ⟨h1.setUse c .free, ?_, hforest, ⟨hr.core, hr.imbx, hr.dmdx, hr.dirs⟩, fun a => ?_⟩
  · simp only [freeCloneFd, hun, bind, Except.bind, pure, Except.pure, State.intMfree_eq]
  · simp only [State.IsFd, State.setUse_use, huse]
    by_cases hac : a = c
    · simp [hac]
    · simp [hac]

theorem State.clone_or_proto {a : Nat} (ha : h.IsFd a) : h.Proto a ∨ h.Clone (h.fd a).multi1 a := by
  by_cases h1 : (h.fd a).multi1 = a
  · exact .inl ⟨ha, h1⟩
  · exact .inr ⟨ha, rfl, fun h2 => h1 h2.symm⟩

/-- `free_FD`. A prototype must have clones, or be no root and have no children. -/
theorem freeFd_spec (ok : Forest h) {c : Nat} (hc : h.IsFd c)
    (hsafe : h.Proto c → (h.fd c).multi = 0 → (h.fd c).children = 0 ∧ (h.fd c).parent ≠ 0) :
    ∃ h', freeFd h c = .ok h' ∧ Forest h' ∧ Frame (· = c) h h' ∧
      (h'.IsFd c → (h'.fd c).owner = 0) ∧
      (h.Proto c → (h.fd c).multi = 0 → h'.use c = .free) := by
  rcases State.clone_or_proto hc with hp | hclone
  · simp only [freeFd, hp.2, if_true]
    by_cases hmulti : (h.fd c).multi = 0
    · have hs := hsafe hp hmulti
      rcases freeProto_spec ok hp hmulti hs.1 hs.2 with ⟨h', hrun, hforest, hr, hfd, huse⟩
      refine ⟨h', hrun, hforest, hr.frame _ (fun a ha => ((hfd a).mp ha).1)
        (fun a ha hac _ => (hfd a).mpr ⟨ha, hac⟩), fun ha => absurd rfl ((hfd c).mp ha).2,
        fun _ _ => huse⟩
    · refine ⟨h.upd c fun f => { f with owner := 0 },
        by simp only [freeProto, ne_eq, hmulti, not_false_eq_true, if_true], ok.upd c _ rfl rfl,
        Frame.upd h c _ rfl (.inl rfl), fun _ => ?_, fun _ h0 => absurd h0 hmulti⟩
      simp only [State.upd_fd, if_true]
  · have hne : (h.fd c).multi1 ≠ c := fun h1 => hclone.2.2 h1.symm
    have hp := ok.proto_of_clone hclone
    rcases ok.unlistMulti hclone with ⟨h1, hun, hr, huse, hforest⟩
    have hfd : ∀ a, (h1.setUse c .free).IsFd a ↔ h.IsFd a ∧ a ≠ c := by
      intro a
      simp only [State.IsFd, State.setUse_use, huse]
      by_cases hac : a = c
      · simp [hac]
      · simp [hac]
    have hr' : Relinked h (h1.setUse c .free) := ⟨hr.core, hr.imbx, hr.dmdx, hr.dirs⟩
    have hnot : ¬ h.Proto c := fun h2 => hne h2.2
    have hframe : Frame (· = c) h (h1.setUse c .free) :=
      hr'.frame _ (fun a ha => ((hfd a).mp ha).1) fun a ha hac _ => (hfd a).mpr ⟨ha, hac⟩
    simp only [freeFd, if_neg hne, hun, bind, Except.bind, State.intMfree_eq]
    split
    · exact ⟨_, rfl, hforest, hframe, fun ha => absurd rfl ((hfd c).mp ha).2,
        fun h2 => absurd h2 hnot⟩
    · -- The prototype of a file is unused and goes as well, if this was the last clone.
      rename_i hidle
      push Not at hidle
      have hpp : (h1.setUse c .free).Proto (h.fd c).multi1 :=
        ⟨(hfd _).mpr ⟨hp.1, hne⟩, (hr'.multi1 _).trans hp.2⟩
      have hdir : ((h1.setUse c .free).fd (h.fd c).multi1).subdir = false := by
        simpa using hidle.1
      by_cases hmulti : ((h1.setUse c .free).fd (h.fd c).multi1).multi = 0
      · have hchildless := hforest.childless hpp hdir
        obtain ⟨h', hrun, hforest', hr2, hfd2, _⟩ :=
          freeProto_spec hforest hpp hmulti hchildless.1 hchildless.2
        refine ⟨h', hrun, hforest', ?_, fun ha => absurd rfl ((hfd c).mp ((hfd2 c).mp ha).1).2,
          fun h2 => absurd h2 hnot⟩
        refine hframe.comp (hr2.frame _ (fun a ha => ((hfd2 a).mp ha).1) fun a ha _ hheld => ?_)
        refine (hfd2 a).mpr ⟨ha, ?_⟩
        rintro rfl
        rcases hheld with howner | href
        · exact howner hidle.2.1
        · exact href hidle.2.2
      · refine ⟨(h1.setUse c .free).upd (h.fd c).multi1 fun f => { f with owner := 0 },
          by simp only [freeProto, ne_eq, hmulti, not_false_eq_true, if_true],
          hforest.upd _ _ rfl rfl, ?_, fun ha => absurd rfl ((hfd c).mp ha).2,
          fun h2 => absurd h2 hnot⟩
        -- The owner that is cleared is none already.
        have hupd :=
          Frame.upd (h1.setUse c .free) (h.fd c).multi1 (fun f => { f with owner := 0 }) rfl
          (.inl rfl)
        refine hframe.comp ⟨fun a ha _ => ⟨ha, ?_⟩, hupd.proto, fun a ha _ _ => ha, hupd.count, rfl,
          rfl, rfl⟩
        rw [State.upd_fd]
        split
        · rename_i hap
          rw [hap]
          exact congrArg (fun o => Fd.core { (h1.fd (h.fd c).multi1) with owner := o })
            hidle.2.1.symm
        · rfl

/-- What `close_DD` does with the descriptor `c`: it is unused or gone, unless the disk has been
    changed. -/
structure Closed (h : State) (c : Nat) (d0 : Int) (h' : State) : Prop where
  forest : Forest h'
  frame : Frame (· = c) h h'
  gone : d0 = ECHNG ∨ d0 = EDRIVE → h' = h
  closed : ¬ (d0 = ECHNG ∨ d0 = EDRIVE) → h'.IsFd c → (h'.fd c).owner = 0

theorem closeDd_spec (ok : Forest h) {c : Nat} (hc : h.IsFd c) (d0 : Int) :
    ∃ h', closeDd h c d0 = .ok (h', d0) ∧ Closed h c d0 h' := by
  by_cases hgone : d0 = ECHNG ∨ d0 = EDRIVE
  · exact ⟨h, by simp only [closeDd, if_pos hgone], ok, Frame.refl _ h, fun _ => rfl,
      fun h1 => absurd hgone h1⟩
  · rcases State.clone_or_proto hc with hp | hclone
    · refine ⟨h.upd c fun f => { f with owner := 0 },
        by simp only [closeDd, if_neg hgone, hp.2, if_true], ok.upd c _ rfl rfl,
        Frame.upd h c _ rfl (.inl rfl), fun h1 => absurd h1 hgone, fun _ _ => ?_⟩
      simp only [State.upd_fd, if_true]
    · have hne : (h.fd c).multi1 ≠ c := fun h1 => hclone.2.2 h1.symm
      rcases freeCloneFd_spec ok hclone with ⟨h', hrun, hforest, hr, hfd⟩
      refine ⟨h', ?_, hforest, hr.frame _ (fun a ha => ((hfd a).mp ha).1)
        (fun a ha hac _ => (hfd a).mpr ⟨ha, hac⟩), fun h1 => absurd h1 hgone,
        fun _ ha => absurd rfl ((hfd c).mp ha).2⟩
      simp only [closeDd, if_neg hgone, if_neg hne, hrun, bind, Except.bind, pure, Except.pure]

/-! ### Collecting -/

/-- `_collect_DD` goes from `x` to `y`: the first child, or the next one. -/
def Leads (h : State) (x y : Nat) : Prop :=
  h.Proto x ∧ ((h.fd x).children = y ∨ (h.fd x).next = y)

theorem Forest.leads_child (ok : Forest h) {x y : Nat} (hxy : Leads h x y) (hy : y ≠ 0) :
    ∃ p l, h.Proto p ∧ Linked (fun a => (h.fd a).next) 0 (h.fd p).children l ∧ y ∈ l ∧
      h.Child p y ∧ ((x = p ∧ (h.fd p).children = y) ∨ (x ∈ l ∧ (h.fd x).next = y)) := by
  rcases hxy with ⟨hx, hc | hn⟩
  · rcases ok.children x hx with ⟨l, hl, hmem⟩
    rcases linked_head hl (by rw [hc]; exact hy) with ⟨m, hm, _⟩
    have hyl : y ∈ l := by
      rw [hm, hc]
      exact List.mem_cons_self
    exact ⟨x, l, hx, hl, hyl, (hmem y).mp hyl, .inl ⟨rfl, hc⟩⟩
  · have hpar : (h.fd x).parent ≠ 0 := fun h0 => hy (hn.symm.trans (ok.rootNext x hx h0))
    have hp := (ok.parent x hx hpar).1
    rcases ok.children _ hp with ⟨l, hl, hmem⟩
    have hxl : x ∈ l := (hmem x).mpr ⟨hx, rfl⟩
    have hyl : y ∈ l := by
      rcases path_next _ _ _ l hl.1 x hxl with hin | h0
      · exact hn ▸ hin
      · exact absurd (hn.symm.trans h0) hy
    exact ⟨_, l, hp, hl, hyl, (hmem y).mp hyl, .inr ⟨hxl, hn⟩⟩

theorem Forest.leads_unique (ok : Forest h) {x x' y : Nat} (hx : Leads h x y) (hx' : Leads h x' y)
    (hy : y ≠ 0) : x = x' := by
  rcases ok.leads_child hx hy with ⟨p, l, hp, hl, hyl, hchild, hfrom⟩
  rcases ok.leads_child hx' hy with ⟨p', l', hp', hl', _, hchild', hfrom'⟩
  have hpp : p' = p := hchild'.2.symm.trans hchild.2
  subst hpp
  have hll := linked_unique hl hl'
  subst hll
  rcases hfrom with ⟨rfl, hc⟩ | ⟨hxl, hn⟩
  · rcases hfrom' with ⟨rfl, _⟩ | ⟨hxl', hn'⟩
    · rfl
    · exact absurd (hn'.trans hc.symm) (linked_next_ne_head x' hl hxl')
  · rcases hfrom' with ⟨rfl, hc'⟩ | ⟨hxl', hn'⟩
    · exact absurd (hn.trans hc'.symm) (linked_next_ne_head x hl hxl)
    · exact linked_next_inj x x' hl hxl hxl' (hn.trans hn'.symm) (by rw [hn]; exact hy)

open Classical in
/-- What leads to a descriptor, or 0. -/
noncomputable def before (h : State) (y : Nat) : Nat :=
  if hy : ∃ x, Leads h x y then hy.choose else 0

theorem Forest.before_eq (ok : Forest h) {x y : Nat} (hxy : Leads h x y) (hy : y ≠ 0) :
    before h y = x := by
  have hex : ∃ x, Leads h x y := ⟨x, hxy⟩
  rw [before, dif_pos hex]
  exact ok.leads_unique hex.choose_spec hxy hy

theorem Forest.before_root (ok : Forest h) {r : Nat} (hr : h.Proto r) (hpar : (h.fd r).parent = 0) :
    before h r = 0 := by
  rw [before, dif_neg]
  rintro ⟨x, hx⟩
  rcases ok.leads_child hx (ok.ne_zero hr.1) with ⟨p, _, hp, _, _, hchild, _⟩
  exact ok.ne_zero hp.1 (hchild.2.symm.trans hpar)

/-- `_collect_DD` frees a directory that nobody uses, or changes nothing. The way `seen` from the
    root visits no descriptor twice, so that the recursion ends. -/
theorem collectDd_spec (ok : Forest h) :
    ∀ (n a : Nat) (seen : List Nat), h.Proto a → (∀ x ∈ seen, h.Proto x) →
      Path (before h) a (a :: seen) 0 → h.turns ≤ n + seen.length →
      ∃ h' d0, collectDd h n a = .ok (h', d0) ∧ Forest h' ∧ Frame NoFd h h' ∧
        (d0 = 0 → h' = h) ∧ (d0 ≠ 0 → h'.use d0 = .free ∧ d0 ∈ h.imbx) := by
  intro n
  induction n with
  | zero =>
    intro a seen ha hseen hpath hn
    have hproto : ∀ x ∈ a :: seen, h.Proto x := List.forall_mem_cons.mpr ⟨ha, hseen⟩
    have hnd := path_nodup _ _ _ _ hpath fun h0 => ok.ne_zero (hproto 0 h0).1 rfl
    have hshort := ok.short (a :: seen) hnd fun x hx => by
      rw [(hproto x hx).1]
      exact Use.noConfusion
    rw [List.length_cons] at hshort
    omega
  | succ n ih =>
    intro a seen ha hseen hpath hn
    have hproto : ∀ x ∈ a :: seen, h.Proto x := List.forall_mem_cons.mpr ⟨ha, hseen⟩
    -- One step further on the way.
    have hgo : ∀ y, Leads h a y → y ≠ 0 →
        ∃ h' d0, collectDd h n y = .ok (h', d0) ∧ Forest h' ∧ Frame NoFd h h' ∧
          (d0 = 0 → h' = h) ∧ (d0 ≠ 0 → h'.use d0 = .free ∧ d0 ∈ h.imbx) := by
      intro y hay hy
      rcases ok.leads_child hay hy with ⟨p, _, _, _, _, hchild, _⟩
      refine ih y (a :: seen) hchild.1 hproto ⟨rfl, ?_⟩ (by rw [List.length_cons]; omega)
      rw [ok.before_eq hay hy]
      exact hpath
    have hsisters : ∃ h' d0, (if (h.fd a).next = 0 then .ok (h, 0)
          else collectDd h n (h.fd a).next) = .ok (h', d0) ∧ Forest h' ∧ Frame NoFd h h' ∧
        (d0 = 0 → h' = h) ∧ (d0 ≠ 0 → h'.use d0 = .free ∧ d0 ∈ h.imbx) := by
      by_cases hnext : (h.fd a).next = 0
      · rw [if_pos hnext]
        exact ⟨h, 0, rfl, ok, Frame.refl _ h, fun _ => rfl, fun h0 => absurd rfl h0⟩
      · rw [if_neg hnext]
        exact hgo _ ⟨ha, .inr rfl⟩ hnext
    by_cases hch : (h.fd a).children ≠ 0
    · rcases hgo _ ⟨ha, .inl rfl⟩ hch with ⟨h1, d1, hrun, hres⟩
      by_cases hd : d1 = 0
      · have hh := hres.2.2.1 hd
        subst hd hh
        simpa only [collectDd, if_pos hch, hrun, bind, Except.bind, ne_eq, not_true_eq_false,
          if_false, pure, Except.pure] using hsisters
      · refine ⟨h1, d1, ?_, hres⟩
        simp only [collectDd, if_pos hch, hrun, bind, Except.bind, ne_eq, hd, not_false_eq_true,
          if_true, pure, Except.pure]
    · by_cases hidle : (h.fd a).subdir = true ∧ (h.fd a).parent ≠ 0 ∧ (h.fd a).refcnt = 0 ∧
          (h.fd a).owner = 0 ∧ (h.fd a).multi = 0
      · have hchild : (h.fd a).children = 0 := not_not.mp hch
        obtain ⟨h', hrun, hforest, hframe, _, hfree⟩ :=
          freeFd_spec ok ha.1 fun _ _ => ⟨hchild, hidle.2.1⟩
        have hgone := hfree ha hidle.2.2.2.2
        have ha0 := ok.ne_zero ha.1
        refine ⟨h', a, ?_, hforest, ⟨fun x hx _ => ?_, hframe.proto, fun x hx _ hheld => ?_,
          hframe.count, hframe.imbx, hframe.dmdx, hframe.dirs⟩, fun h0 => absurd h0 ha0,
          fun _ => ⟨hgone, ?_⟩⟩
        · simp only [collectDd, if_neg hch, if_pos hidle, hrun, bind, Except.bind, pure,
            Except.pure, ne_eq, ha0, not_false_eq_true, if_true]
        · refine hframe.core x hx fun hxa => ?_
          rw [hxa, State.IsFd, hgone] at hx
          exact Use.noConfusion hx
        · refine hframe.keep x hx (fun hxa => ?_) hheld
          rw [hxa] at hheld
          rcases hheld with howner | href
          · exact howner hidle.2.2.2.1
          · exact href hidle.2.2.1
        · exact ok.pool a (by rw [ha.1]; exact Use.noConfusion)
      · simpa only [collectDd, if_neg hch, if_neg hidle, bind, Except.bind, pure, Except.pure,
          ne_eq, not_true_eq_false, if_false] using hsisters

theorem dxfsGarbcoll_spec (ok : Forest h) {root : Nat} (hroot : root ∈ h.dmdx ∨ root = 0) :
    ∃ h' d0, dxfsGarbcoll h root = .ok (h', d0) ∧ Forest h' ∧ Frame NoFd h h' ∧
      (d0 = 0 → h' = h) ∧ (d0 ≠ 0 → h'.use d0 = .free ∧ d0 ∈ h.imbx) := by
  by_cases h0 : root = 0
  · exact ⟨h, 0, by simp only [dxfsGarbcoll, if_pos h0], ok, Frame.refl _ h, fun _ => rfl,
      fun h0 => absurd rfl h0⟩
  · have hmem := hroot.resolve_right h0
    have hp := ok.rootProto root hmem h0
    have hpar := (ok.root root hp).mpr hmem
    simp only [dxfsGarbcoll, if_neg h0]
    refine collectDd_spec ok h.turns root [] hp (fun x hx => absurd hx List.not_mem_nil) ⟨rfl, ?_⟩
      (Nat.le_add_right _ _)
    rw [ok.before_root hp hpar]
    rfl

/-- `int_malloc` finds a free block, if need be after a directory has been freed. -/
theorem intMalloc_spec (ok : Forest h) (u : Use) :
    intMalloc h u = .error .noBlock ∨ ∃ h1 a, intMalloc h u = .ok (h1.claim a u, a) ∧ Forest h1 ∧
      Frame NoFd h h1 ∧ h1.use a = .free ∧ a ∈ h1.imbx := by
  have hblock : ∀ (g : State) (a : Nat), g.freeBlock = some a → g.use a = .free ∧ a ∈ g.imbx := by
    intro g a ha
    have hfound : g.imbx.find? (fun a => g.use a = .free) = some a := ha
    have huse := List.find?_some hfound
    exact ⟨by simpa using huse, List.mem_of_find?_eq_some hfound⟩
  cases hfree : h.freeBlock with
  | some a =>
    refine .inr ⟨h, a, ?_, ok, Frame.refl _ h, hblock h a hfree⟩
    simp only [intMalloc, hfree]
  | none =>
    have hroot : h.dmdx.headD 0 ∈ h.dmdx ∨ h.dmdx.headD 0 = 0 := by
      cases h.dmdx with
      | nil => exact .inr rfl
      | cons r rs => exact .inl List.mem_cons_self
    rcases dxfsGarbcoll_spec ok hroot with ⟨h1, d0, hrun, hforest, hframe, _, _⟩
    simp only [intMalloc, hfree, collectImb, hrun, bind, Except.bind]
    by_cases hd : d0 = 0
    · exact .inl (by simp only [hd, if_true])
    · simp only [if_neg hd]
      cases hfree1 : h1.freeBlock with
      | none => exact .inl rfl
      | some a => exact .inr ⟨h1, a, rfl, hforest, hframe, hblock h1 a hfree1⟩

end

end Xfs

end MagiC
