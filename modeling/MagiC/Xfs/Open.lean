import MagiC.Xfs.Free

/-!
# Opening Descriptors

`reopen_FD` opens a file through its prototype. It tests the descriptors that are
open already, takes the prototype if that is unused, and otherwise puts a new
clone on its list. `DIR2protoFD` makes the prototype of a file that has none.

What is opened is one descriptor, the prototype or a fresh clone, and all others
stay as they are. The test looks at the descriptors that are open and at what
these deny, so a call is refused by one of them, or none of them denies what is
wanted.

## Main definitions

* `Reopened`: What `reopen_FD` does.

## Theorems

* `dir2protoFd_spec`: `DIR2protoFD` keeps the forest.
-/

namespace MagiC

namespace Xfs

open Chains

section

variable {h : State}

/-- The descriptors `reopen_FD` looks at: the clones, and the prototype if it is in use. -/
def Tested (h : State) (p b : Nat) : Prop :=
  h.Clone p b ∨ (b = p ∧ (h.fd p).owner ≠ 0)

/-- The loop ends at a descriptor that refuses, or finds the prototype again. -/
theorem opfLoop_spec (d0 : BitVec 16) (p : Nat) (l : List Nat) :
    ∀ (n a : Nat), Linked (fun b => (h.fd b).multi) 0 a l → l ≠ [] → l.length ≤ n →
      (∀ b ∈ l, (h.fd b).multi1 = p) →
      (opfLoop h d0 n a = .ok none ∧ ∃ b ∈ l, refuses (h.fd b).mode d0 = true) ∨
        (opfLoop h d0 n a = .ok (some p) ∧ ∀ b ∈ l, refuses (h.fd b).mode d0 = false) := by
  induction l with
  | nil =>
    intro n a _ hne
    exact absurd rfl hne
  | cons x xs ih =>
    intro n a hl _ hn hp
    obtain ⟨k, rfl⟩ := Nat.exists_eq_succ_of_ne_zero (Nat.ne_of_gt (Nat.lt_of_lt_of_le
      (Nat.zero_lt_succ _) hn))
    have hx := (linked_cons x).mp hl
    have hax := hx.1
    subst hax
    by_cases href : refuses (h.fd a).mode d0 = true
    · left
      exact ⟨by simp only [opfLoop, href, if_true], a, List.mem_cons_self, href⟩
    · have hpass : refuses (h.fd a).mode d0 = false := by simpa using href
      cases xs with
      | nil =>
        right
        have hend : (h.fd a).multi = 0 := hx.2.2.1
        refine ⟨?_, fun b hb => ?_⟩
        · simp only [opfLoop, hpass, Bool.false_eq_true, if_false, hend, if_true,
            hp a List.mem_cons_self]
        · rw [List.mem_singleton.mp hb]
          exact hpass
      | cons y ys =>
        have hy := (linked_cons y).mp hx.2.2
        have hnext : (h.fd a).multi ≠ 0 := by
          rw [hy.1]
          exact hy.2.1
        have hrun : opfLoop h d0 (k + 1) a = opfLoop h d0 k (h.fd a).multi := by
          simp only [opfLoop, hpass, Bool.false_eq_true, if_false, hnext]
        rw [hrun]
        rcases ih k (h.fd a).multi hx.2.2 (List.cons_ne_nil y ys) (Nat.le_of_succ_le_succ hn)
          (fun b hb => hp b (List.mem_cons_of_mem _ hb)) with ⟨hr, b, hb, hbr⟩ | ⟨hr, hall⟩
        · exact .inl ⟨hr, b, List.mem_cons_of_mem _ hb, hbr⟩
        · exact .inr ⟨hr, List.forall_mem_cons.mpr ⟨hpass, hall⟩⟩

theorem test_spec (ok : Forest h) {p : Nat} (hp : h.Proto p) (d0 : BitVec 16)
    (hused : ¬ ((h.fd p).owner = 0 ∧ (h.fd p).multi = 0)) :
    let first := if (h.fd p).owner ≠ 0 then p else (h.fd p).multi
    (opfLoop h d0 h.turns first = .ok none ∧
        ∃ b, Tested h p b ∧ refuses (h.fd b).mode d0 = true) ∨
      (opfLoop h d0 h.turns first = .ok (some p) ∧
        ∀ b, Tested h p b → refuses (h.fd b).mode d0 = false) := by
  rcases ok.clones p hp with ⟨l, hl, hmem⟩
  have hall : Linked (fun b => (h.fd b).multi) 0 p (p :: l) :=
    (linked_cons p).mpr ⟨rfl, ok.ne_zero hp.1, hl⟩
  have hmulti1 : ∀ b ∈ p :: l, (h.fd b).multi1 = p :=
    List.forall_mem_cons.mpr ⟨hp.2, fun b hb => ((hmem b).mp hb).2.1⟩
  have hshort : (p :: l).length ≤ h.turns := by
    refine Nat.le_of_lt (ok.short _ (linked_nodup hall) ?_)
    refine List.forall_mem_cons.mpr ⟨?_, fun b hb => ?_⟩
    · rw [hp.1]
      exact Use.noConfusion
    · rw [((hmem b).mp hb).1]
      exact Use.noConfusion
  by_cases howner : (h.fd p).owner ≠ 0
  · simp only [if_pos howner]
    rcases opfLoop_spec d0 p (p :: l) h.turns p hall (List.cons_ne_nil p l) hshort hmulti1 with
      ⟨hr, b, hb, hbr⟩ | ⟨hr, hpass⟩
    · refine .inl ⟨hr, b, ?_, hbr⟩
      rcases List.mem_cons.mp hb with rfl | hb
      · exact .inr ⟨rfl, howner⟩
      · exact .inl ((hmem b).mp hb)
    · refine .inr ⟨hr, fun b hb => ?_⟩
      rcases hb with hb | ⟨rfl, _⟩
      · exact hpass b (List.mem_cons_of_mem _ ((hmem b).mpr hb))
      · exact hpass b List.mem_cons_self
  · simp only [if_neg howner]
    -- The prototype is unused, so there are clones.
    have hne : l ≠ [] := by
      rintro rfl
      exact hused ⟨not_not.mp howner, hl.1⟩
    rcases opfLoop_spec d0 p l h.turns _ hl hne (Nat.le_of_succ_le hshort)
      (fun b hb => hmulti1 b (List.mem_cons_of_mem _ hb)) with ⟨hr, b, hb, hbr⟩ | ⟨hr, hpass⟩
    · exact .inl ⟨hr, b, .inl ((hmem b).mp hb), hbr⟩
    · refine .inr ⟨hr, fun b hb => ?_⟩
      rcases hb with hb | ⟨_, h0⟩
      · exact hpass b ((hmem b).mpr hb)
      · exact absurd h0 howner

/-- A clone of `p` is made of the free block `a`. -/
def withClone (h : State) (p a : Nat) : State :=
  ((h.claim a .fd).upd a fun f =>
    { f with multi1 := p, multi := ((h.claim a .fd).fd p).multi,
             dmd := ((h.claim a .fd).fd p).dmd }).upd p fun f => { f with multi := a }

theorem withClone_fd (h : State) {p a : Nat} (hpa : p ≠ a) (b : Nat) :
    (withClone h p a).fd b =
      if b = p then { h.fd p with multi := a }
      else if b = a then { Fd.zero with multi1 := p, multi := (h.fd p).multi, dmd := (h.fd p).dmd }
      else h.fd b := by
  by_cases hbp : b = p
  · subst hbp
    simp [withClone, State.claim, hpa]
  · by_cases hba : b = a
    · subst hba
      simp [withClone, State.claim, hbp, hpa]
    · simp [withClone, State.claim, hbp, hba]

theorem withClone_use (h : State) (p a b : Nat) :
    (withClone h p a).use b = if b = a then .fd else h.use b := by
  simp only [withClone, State.claim, State.upd_use, State.setUse_use]

/-- The free block `a` is a descriptor now. The others keep every field that is no link. -/
structure Claimed (h h' : State) (a : Nat) : Prop where
  use : ∀ b, h'.use b = if b = a then .fd else h.use b
  core : ∀ b, b ≠ a → (h'.fd b).core = (h.fd b).core
  refcnt : (h'.fd a).refcnt = 0

theorem Claimed.isFd {h' : State} {a b : Nat} (hc : Claimed h h' a) (hb : h'.IsFd b)
    (hba : b ≠ a) : h.IsFd b := by
  rw [State.IsFd, hc.use, if_neg hba] at hb
  exact hb

theorem Claimed.keep {h' : State} {a b : Nat} (hc : Claimed h h' a) (hb : h.IsFd b) :
    h'.IsFd b := by
  rw [State.IsFd, hc.use]
  split
  · rfl
  · exact hb

theorem Claimed.proto {h' : State} {a b : Nat} (hc : Claimed h h' a) (hb : h'.Proto b)
    (hba : b ≠ a) : h.Proto b ∧ (h'.fd b).place = (h.fd b).place := by
  have hcore := hc.core b hba
  have hm : (h'.fd b).multi1 = (h.fd b).multi1 := Fd.read_of Fd.core hcore Fd.multi1 fun _ => rfl
  refine ⟨⟨hc.isFd hb.1 hba, hm ▸ hb.2⟩, ?_⟩
  exact congrArg (fun f : Fd => { f with refcnt := 0, mode := 0, owner := 0, longname := 0 }) hcore

theorem Claimed.count {h' : State} {a : Nat} (hc : Claimed h h' a) (hcount : Counts h) :
    Counts h' := by
  intro b hb hdir
  by_cases hba : b = a
  · rw [hba]
    exact Int.le_of_eq hc.refcnt.symm
  · have hcore := hc.core b hba
    rw [Fd.read_of Fd.core hcore Fd.subdir fun _ => rfl] at hdir
    rw [Fd.read_of Fd.core hcore Fd.refcnt fun _ => rfl]
    exact hcount b (hc.isFd hb hba) hdir

/-- The descriptor `p` is changed in fields that `r` does not read. -/
theorem read_hung {α : Type} {h' : State} {p a : Nat} {f g : Fd} (r : Fd → α)
    (hfd : ∀ b, h'.fd b = if b = p then f else if b = a then g else h.fd b)
    (hr : r f = r (h.fd p)) (b : Nat) (hba : b ≠ a) : r (h'.fd b) = r (h.fd b) := by
  rw [hfd, if_neg hba]
  split
  · rename_i hbp
    rw [hbp]
    exact hr
  · rfl

/-- A clone is put on the list of its prototype. -/
theorem Forest.clone (ok : Forest h) {p a : Nat} (hp : h.Proto p) (hfree : h.use a = .free)
    (ha : a ∈ h.imbx) :
    Forest (withClone h p a) ∧ Frame (· = a) h (withClone h p a) ∧
      (withClone h p a).Clone p a := by
  have hold : ∀ b, h.IsFd b → b ≠ a := fun _ hb => hb.ne_free hfree
  have hpa := hold p hp.1
  have hfd := withClone_fd h hpa
  have hself := hfd a
  rw [if_neg hpa.symm, if_pos rfl] at hself
  have hcl : Claimed h (withClone h p a) a :=
    ⟨withClone_use h p a, read_hung Fd.core hfd rfl, by rw [hself]; rfl⟩
  have hnext := read_hung Fd.next hfd rfl
  refine ⟨?_, ⟨fun b hb hba => ⟨hcl.isFd hb hba, hcl.core b hba⟩, fun b hb => hcl.proto hb ?_,
    fun b hb _ _ => hcl.keep hb, hcl.count, rfl, rfl, rfl⟩, ?_, ?_, hpa.symm⟩
  · refine ok.add ⟨hfree, ha, hcl.core, rfl, rfl, hcl.use,
      fun b hb _ => hnext b (hold b hb.1), by rw [hself]; rfl, .inl ?_⟩
      (fun q hq => ?_) fun q hq => ?_
    · rw [hself]
      exact ⟨hp, rfl, rfl⟩
    · rw [hself]
      by_cases hqp : q = p
      · subst hqp
        rw [hfd q, if_pos rfl]
        refine listed_push a (ok.clones q hq) (fun h0 => ok.null (h0 ▸ ha)) (by rw [hself])
          (fun c hc => ?_) fun c => by rw [or_comm, and_iff_left rfl]
        rw [hfd, if_neg hc.2.2, if_neg (hold c hc.1)]
      · rw [hfd q, if_neg hqp, if_neg (hold q hq.1)]
        refine listed_congr (ok.clones q hq) (fun c hc => ?_) fun c =>
          ⟨.inl, fun hc => hc.resolve_right fun hc => hqp hc.2.symm⟩
        have hcp : c ≠ p := by
          rintro rfl
          exact hqp (hc.2.1.symm.trans hp.2)
        rw [hfd, if_neg hcp, if_neg (hold c hc.1)]
    · rw [read_hung Fd.children hfd rfl q (hold q hq.1), hself]
      exact listed_congr (ok.children q hq) (fun c hc => hnext c (hold c hc.1.1)) fun c =>
        ⟨.inl, fun hc => hc.resolve_right fun hc => hpa hc.2.1⟩
  · rintro rfl
    rw [State.Proto, hself] at hb
    exact hpa hb.2
  · rw [withClone_use, if_pos rfl]
  · rw [hself]

theorem opdA0_spec (ok : Forest h) (pd : Nat) {a : Nat} (ha : h.IsFd a) (d0 : BitVec 16)
    (opened : Int)
    (hsafe : opened < 0 → h.Proto a → (h.fd a).multi = 0 →
      (h.fd a).children = 0 ∧ (h.fd a).parent ≠ 0) :
    ∃ h' r, opdA0 h pd a d0 opened = .ok (h', r) ∧ Forest h' ∧ Frame (· = a) h h' ∧
      ((opened < 0 ∧ r = .error opened ∧ (h'.IsFd a → (h'.fd a).owner = 0)) ∨
        (0 ≤ opened ∧ r = .ok a ∧ h'.IsFd a ∧ (h'.fd a).multi1 = (h.fd a).multi1 ∧
          (h'.fd a).owner = pd ∧ (h'.fd a).mode = d0)) := by
  have hok1 := ok.upd a (fun f => { f with mode := d0, owner := pd }) rfl rfl
  have hframe1 := Frame.upd h a (fun f => { f with mode := d0, owner := pd }) rfl (.inl rfl)
  by_cases hopen : opened < 0
  · have hfd1 : (h.upd a fun f => { f with mode := d0, owner := pd }).IsFd a := ha
    obtain ⟨h', hrun, hforest, hframe, howner, _⟩ := freeFd_spec hok1 hfd1 (by
      intro hp hm
      have hself : (h.upd a fun f => { f with mode := d0, owner := pd }).fd a =
          { h.fd a with mode := d0, owner := pd } := by rw [State.upd_fd, if_pos rfl]
      rw [State.Proto, hself] at hp
      rw [hself] at hm ⊢
      exact hsafe hopen ⟨ha, hp.2⟩ hm)
    refine ⟨h', .error opened, ?_, hforest, hframe1.comp hframe, .inl ⟨hopen, rfl, howner⟩⟩
    simp only [opdA0, if_pos hopen, hrun, bind, Except.bind, pure, Except.pure]
  · refine ⟨h.upd a fun f => { f with mode := d0, owner := pd }, .ok a, ?_, hok1, hframe1,
      .inr ⟨Int.not_lt.mp hopen, rfl, ha, ?_, ?_, ?_⟩⟩
    · simp only [opdA0, if_neg hopen]
    · rw [State.upd_fd, if_pos rfl]
    · rw [State.upd_fd, if_pos rfl]
    · rw [State.upd_fd, if_pos rfl]

/-- What `reopen_FD` does with the prototype `p`: it is refused, or one descriptor is opened, which
    is the prototype if and only if that was unused, and else one that nobody held. If the driver
    answers with an error, that one is unused again. -/
structure Reopened (h : State) (pd p : Nat) (d0 : BitVec 16) (opened : Int) (h' : State)
    (r : Except Int Nat) : Prop where
  forest : Forest h'
  answer : (r = .error EACCDN ∧ h' = h ∧ ∃ b, Tested h p b ∧ refuses (h.fd b).mode d0 = true) ∨
    (∀ b, Tested h p b → refuses (h.fd b).mode d0 = false) ∧ ∃ a, Frame (· = a) h h' ∧
      (a = p ↔ (h.fd p).owner = 0) ∧ (a = p ∨ (h.IsFd a → ¬ Held h a)) ∧
      ((opened < 0 ∧ r = .error opened ∧ (h'.IsFd a → (h'.fd a).owner = 0)) ∨
        (0 ≤ opened ∧ r = .ok a ∧ h'.IsFd a ∧ (h'.fd a).multi1 = p ∧ (h'.fd a).owner = pd ∧
          (h'.fd a).mode = d0))

/-- `reopen_FD` keeps the forest. Opening a directory must not fail in the driver. -/
theorem reopenFd_spec (ok : Forest h) (pd : Nat) {p : Nat} (hp : h.Proto p) (d0 : BitVec 16)
    (opened : Int) (hdir : (h.fd p).subdir = true → 0 ≤ opened) :
    reopenFd h pd p d0 opened = .error .noBlock ∨
      ∃ h' r, reopenFd h pd p d0 opened = .ok (h', r) ∧ Reopened h pd p d0 opened h' r := by
  -- The prototype is unused and nobody refuses.
  have hproto : (h.fd p).owner = 0 → (∀ b, Tested h p b → refuses (h.fd b).mode d0 = false) →
      ∃ h' r, opdA0 h pd p d0 opened = .ok (h', r) ∧ Reopened h pd p d0 opened h' r := by
    intro howner hpass
    obtain ⟨h', r, hrun, hforest, hframe, hres⟩ := opdA0_spec ok pd hp.1 d0 opened (by
      intro hopen _ _
      have hfile : (h.fd p).subdir = false := by
        by_contra hd
        have h0 := hdir (by simpa using hd)
        omega
      exact ok.childless hp hfile)
    refine ⟨h', r, hrun, hforest, .inr ⟨hpass, p, hframe, ⟨fun _ => howner, fun _ => rfl⟩, .inl rfl,
      ?_⟩⟩
    rcases hres with hres | ⟨hopen, hr, hfd, hm, hrest⟩
    · exact .inl hres
    · exact .inr ⟨hopen, hr, hfd, hm.trans hp.2, hrest⟩
  by_cases hused : (h.fd p).owner = 0 ∧ (h.fd p).multi = 0
  · right
    have hnone := (ok.multi_zero hp).mp hused.2
    obtain ⟨h', r, hrun, hres⟩ := hproto hused.1 (by
      intro b hb
      rcases hb with hb | ⟨_, hb⟩
      · exact absurd hb (hnone b)
      · exact absurd hused.1 hb)
    exact ⟨h', r, by simp only [reopenFd, if_pos hused, hrun], hres⟩
  · rcases test_spec ok hp d0 hused with ⟨htest, hconflict⟩ | ⟨htest, hpass⟩
    · right
      refine ⟨h, .error EACCDN, ?_, ok, .inl ⟨rfl, rfl, hconflict⟩⟩
      simp only [reopenFd, if_neg hused, htest, bind, Except.bind, pure, Except.pure]
    · by_cases howner : (h.fd p).owner = 0
      · right
        rcases hproto howner hpass with ⟨h', r, hrun, hres⟩
        refine ⟨h', r, ?_, hres⟩
        simp only [reopenFd, if_neg hused, htest, bind, Except.bind, if_pos howner, hrun]
      · -- A new clone. The prototype is in use, so it is not collected.
        rcases intMalloc_spec ok .fd with herr | ⟨h1, a, hrun, hok1, hframe1, hfree, ha⟩
        · left
          simp only [reopenFd, if_neg hused, htest, bind, Except.bind, if_neg howner, herr]
        · right
          have hp1fd := hframe1.keep p hp.1 (fun hno => hno) (.inl howner)
          have hcore := (hframe1.core p hp1fd fun hno => hno).2
          have hp1 : h1.Proto p :=
            ⟨hp1fd, (Fd.read_of Fd.core hcore Fd.multi1 fun _ => rfl).trans hp.2⟩
          rcases hok1.clone hp1 hfree ha with ⟨hok2, hframe2, hclone⟩
          obtain ⟨h', r, hrun', hforest, hframe3, hres⟩ :=
            opdA0_spec hok2 pd hclone.1 d0 opened fun _ hpa _ =>
              absurd (hpa.2.symm.trans hclone.2.1) hclone.2.2
          refine ⟨h', r, ?_, hforest, .inr ⟨hpass, a, ?_, ?_, .inr fun hfd hheld => ?_, ?_⟩⟩
          · have hrun'' : opdA0 (withClone h1 p a) pd a d0 opened = .ok (h', r) := hrun'
            simp only [reopenFd, if_neg hused, htest, bind, Except.bind, if_neg howner, hrun]
            exact hrun''
          · exact (hframe1.mono fun b hb => hb.elim).comp (hframe2.comp hframe3)
          · exact ⟨fun hap => absurd hap hclone.2.2, fun h0 => absurd h0 howner⟩
          · have hkept := hframe1.keep a hfd (fun hno => hno) hheld
            exact hkept.ne_free hfree rfl
          · rcases hres with hres | ⟨hopen, hr, hfd, hm, hrest⟩
            · exact .inl hres
            · exact .inr ⟨hopen, hr, hfd, hm.trans hclone.2.1, hrest⟩

/-! ### New prototypes -/

/-- The block of a long name, with the reference count back where it was. -/
def withName (h : State) (x a : Nat) : State :=
  (h.claim a .name).upd x fun f => { f with refcnt := f.refcnt - 1, longname := a }

theorem withName_fd (h : State) {x a : Nat} (hxa : x ≠ a) (b : Nat) :
    (withName h x a).fd b =
      if b = x then { h.fd x with refcnt := (h.fd x).refcnt - 1, longname := a }
      else if b = a then Fd.zero else h.fd b := by
  by_cases hbx : b = x
  · subst hbx
    simp [withName, State.claim, hxa]
  · simp [withName, State.claim, hbx]

theorem Forest.withName (ok : Forest h) {x a : Nat} (hx : h.IsFd x) (hfree : h.use a = .free)
    (ha : a ∈ h.imbx) : Forest (withName h x a) := by
  have hold : ∀ b, h.IsFd b → b ≠ a := fun _ hb => hb.ne_free hfree
  have hfd := withName_fd h (hold x hx)
  have huse : ∀ b, (Xfs.withName h x a).use b = if b = a then .name else h.use b := by
    intro b
    simp only [Xfs.withName, State.claim, State.upd_use, State.setUse_use]
  have hisfd : ∀ b, (Xfs.withName h x a).IsFd b ↔ h.IsFd b := by
    intro b
    rw [State.IsFd, huse]
    split
    · rename_i hba
      rw [State.IsFd, hba, hfree]
      exact ⟨fun h => Use.noConfusion h, fun h => Use.noConfusion h⟩
    · exact Iff.rfl
  have hlong : ∀ b, h.IsFd b → ((Xfs.withName h x a).fd b).longname =
      if b = x then a else (h.fd b).longname := by
    intro b hb
    rw [hfd, if_neg (hold b hb)]
    split <;> rfl
  refine ok.same rfl rfl hisfd (fun b hb => ?_) (fun b hb => ?_) (fun b hb hn => ?_)
    fun b c hb hc hn hbc => ?_
  · rw [huse] at hb
    split at hb
    · rename_i hba
      exact hba ▸ ha
    · exact ok.pool b hb
  · rw [hfd, if_neg (hold b hb)]
    split
    · rename_i hbx
      rw [hbx]
      rfl
    · rfl
  · rw [hlong b hb] at hn ⊢
    rw [huse]
    split
    · rw [if_pos rfl]
    · rename_i hbx
      rw [if_neg hbx] at hn
      split
      · rfl
      · exact ok.name b hb hn
  · rw [hlong b hb] at hn
    rw [hlong b hb, hlong c hc] at hbc
    -- The new block was free, so it is nobody else's name.
    have hother : ∀ d, h.IsFd d → (h.fd d).longname ≠ 0 → (h.fd d).longname ≠ a := by
      intro d hd hdn hda
      have hname := ok.name d hd hdn
      rw [hda, hfree] at hname
      exact Use.noConfusion hname
    by_cases hbx : b = x
    · by_cases hcx : c = x
      · exact hbx.trans hcx.symm
      · rw [if_pos hbx, if_neg hcx] at hbc
        have ha0 : a ≠ 0 := fun h0 => ok.null (h0 ▸ ha)
        exact absurd hbc.symm (hother c hc (hbc ▸ ha0))
    · rw [if_neg hbx] at hn hbc
      by_cases hcx : c = x
      · rw [if_pos hcx] at hbc
        exact absurd hbc (hother b hb hn)
      · rw [if_neg hcx] at hbc
        exact ok.names b c hb hc hn hbc

theorem nameBlock_spec (ok : Forest h) {x : Nat} (hx : h.IsFd x) (hcount : 0 ≤ (h.fd x).refcnt) :
    nameBlock h x = .error .noBlock ∨
      ∃ h', nameBlock h x = .ok h' ∧ Forest h' ∧ Frame (· = x) h h' ∧ h'.IsFd x ∧
        ∃ n, (h'.fd x).core = Fd.core { h.fd x with longname := n } := by
  have hok0 := ok.upd x (fun f => { f with refcnt := f.refcnt + 1 }) rfl rfl
  have hframe0 : Frame (· = x) h (h.upd x fun f => { f with refcnt := f.refcnt + 1 }) := by
    refine Frame.upd h x _ rfl (.inr ?_)
    show 0 ≤ (h.fd x).refcnt + 1
    omega
  have hself0 : (h.upd x fun f => { f with refcnt := f.refcnt + 1 }).fd x =
      { h.fd x with refcnt := (h.fd x).refcnt + 1 } := by rw [State.upd_fd, if_pos rfl]
  rcases intMalloc_spec hok0 .name with herr | ⟨h1, a, hrun, hok1, hframe1, hfree, ha⟩
  · left
    simp only [nameBlock, herr, bind, Except.bind]
  · right
    -- The reference count protects the descriptor.
    have hheld : Held (h.upd x fun f => { f with refcnt := f.refcnt + 1 }) x := by
      right
      rw [hself0]
      show (h.fd x).refcnt + 1 ≠ 0
      omega
    have hx1 := hframe1.keep x hx (fun hno => hno) hheld
    have hcore1 := (hframe1.core x hx1 fun hno => hno).2
    have hxa : x ≠ a := hx1.ne_free hfree
    have hfd := withName_fd h1 hxa
    have hisfd : ∀ b, (withName h1 x a).IsFd b → h1.IsFd b ∧ b ≠ a := by
      intro b hb
      simp only [State.IsFd, withName, State.claim, State.upd_use, State.setUse_use] at hb
      split at hb
      · exact Use.noConfusion hb
      · rename_i hba
        exact ⟨hb, hba⟩
    have hplace : ∀ b, b ≠ a → ((withName h1 x a).fd b).place = (h1.fd b).place := by
      intro b hba
      rw [hfd, if_neg hba]
      split
      · rename_i hbx
        rw [hbx]
        rfl
      · rfl
    have hself : ((withName h1 x a).fd x).core = Fd.core { h.fd x with longname := a } := by
      rw [hfd, if_pos rfl]
      have hc : (h1.fd x).core = { (h.fd x).core with refcnt := (h.fd x).refcnt + 1 } := by
        rw [hcore1, hself0]
        rfl
      calc Fd.core { h1.fd x with refcnt := (h1.fd x).refcnt - 1, longname := a }
          = { (h1.fd x).core with refcnt := (h1.fd x).core.refcnt - 1, longname := a } := rfl
        _ = Fd.core { h.fd x with longname := a } := by
            rw [hc]
            simp only [Int.add_sub_cancel, Fd.core]
    have hframe2 : Frame (· = x) (h.upd x fun f => { f with refcnt := f.refcnt + 1 })
        (withName h1 x a) := by
      refine ⟨fun b hb hbx => ?_, fun b hb => ?_, fun b hb _ hheld => ?_, fun hc b hb hdir => ?_,
        hframe1.imbx, hframe1.dmdx, hframe1.dirs⟩
      · have hb1 := hisfd b hb
        rw [hfd, if_neg hbx, if_neg hb1.2]
        exact hframe1.core b hb1.1 fun hno => hno
      · have hb1 := hisfd b hb.1
        have hpl := hplace b hb1.2
        have hm := Fd.read_of Fd.place hpl Fd.multi1 fun _ => rfl
        have hp := hframe1.proto b ⟨hb1.1, hm ▸ hb.2⟩
        exact ⟨hp.1, hpl.trans hp.2⟩
      · have hb1 := hframe1.keep b hb (fun hno => hno) hheld
        have hba : b ≠ a := hb1.ne_free hfree
        simp only [State.IsFd, withName, State.claim, State.upd_use, State.setUse_use, if_neg hba]
        exact hb1
      · have hb1 := hisfd b hb
        by_cases hbx : b = x
        · rw [hbx, Fd.read_of Fd.core hself Fd.refcnt fun _ => rfl]
          exact hcount
        · have hpl := hplace b hb1.2
          rw [Fd.read_of Fd.place hpl Fd.subdir fun _ => rfl] at hdir
          rw [hfd, if_neg hbx, if_neg hb1.2]
          exact hframe1.count hc b hb1.1 hdir
    refine ⟨withName h1 x a, ?_, hok1.withName hx1 hfree ha, hframe0.comp hframe2, ?_, a, hself⟩
    · simp only [nameBlock, hrun, bind, Except.bind, pure, Except.pure]
      rfl
    · simp only [State.IsFd, withName, State.claim, State.upd_use, State.setUse_use, if_neg hxa]
      exact hx1

/-- The free block `a` becomes a prototype for the entry `e` at the position `d5` of `p`. -/
def withChild (h : State) (p a d5 : Nat) (e : Entry) : State :=
  ((h.claim a .fd).upd a fun f =>
    { f with dirpos := d5, parent := p, dmd := ((h.claim a .fd).fd p).dmd, subdir := e.subdir,
             stcl := e.stcl, next := ((h.claim a .fd).fd p).children,
             multi1 := a }).upd p fun f => { f with children := a }

theorem withChild_fd (h : State) {p a : Nat} (d5 : Nat) (e : Entry) (hpa : p ≠ a) (b : Nat) :
    (withChild h p a d5 e).fd b =
      if b = p then { h.fd p with children := a }
      else if b = a then
        { Fd.zero with dirpos := d5, parent := p, dmd := (h.fd p).dmd, subdir := e.subdir,
                       stcl := e.stcl, next := (h.fd p).children, multi1 := a }
      else h.fd b := by
  by_cases hbp : b = p
  · subst hbp
    simp [withChild, State.claim, hpa]
  · by_cases hba : b = a
    · subst hba
      simp [withChild, State.claim, hbp, hpa]
    · simp [withChild, State.claim, hbp, hba]

theorem withChild_use (h : State) (p a d5 : Nat) (e : Entry) (b : Nat) :
    (withChild h p a d5 e).use b = if b = a then .fd else h.use b := by
  simp only [withChild, State.claim, State.upd_use, State.setUse_use]

/-- A prototype `a` is new. All other descriptors keep every field that is no link, no other
    prototype is new or in another place, and nothing that is held vanishes. -/
structure Added (h h' : State) (a p d5 : Nat) (e : Entry) : Prop where
  core : ∀ b, h'.IsFd b → b ≠ a → h.IsFd b ∧ (h'.fd b).core = (h.fd b).core
  proto : ∀ b, h'.Proto b → b ≠ a → h.Proto b ∧ (h'.fd b).place = (h.fd b).place
  keep : ∀ b, h.IsFd b → Held h b → h'.IsFd b ∧ b ≠ a
  new : h'.Proto a
  fields : ∃ l n, h'.fd a =
    { Fd.zero with dirpos := d5, parent := p, dmd := (h.fd p).dmd, subdir := e.subdir,
                   stcl := e.stcl, multi1 := a, longname := l, next := n }
  count : Counts h → Counts h'
  imbx : h'.imbx = h.imbx
  dmdx : h'.dmdx = h.dmdx
  dirs : h'.dirs = h.dirs

/-- A prototype is put on the list of its directory. -/
theorem Forest.child (ok : Forest h) {p a : Nat} (d5 : Nat) (e : Entry) (hp : h.Proto p)
    (hdir : (h.fd p).subdir = true) (hfree : h.use a = .free) (ha : a ∈ h.imbx) :
    Forest (withChild h p a d5 e) ∧ Added h (withChild h p a d5 e) a p d5 e := by
  have hold : ∀ b, h.IsFd b → b ≠ a := fun _ hb => hb.ne_free hfree
  have hpa := hold p hp.1
  have hfd := withChild_fd h d5 e hpa
  have hself := hfd a
  rw [if_neg hpa.symm, if_pos rfl] at hself
  have hcl : Claimed h (withChild h p a d5 e) a :=
    ⟨withChild_use h p a d5 e, read_hung Fd.core hfd rfl, by rw [hself]; rfl⟩
  have hnext := read_hung Fd.next hfd rfl
  refine ⟨?_, ⟨fun b hb hba => ⟨hcl.isFd hb hba, hcl.core b hba⟩, fun b hb hba => hcl.proto hb hba,
    fun b hb _ => ⟨hcl.keep hb, hold b hb⟩, ⟨?_, ?_⟩, ⟨0, (h.fd p).children, hself⟩, hcl.count,
    rfl, rfl, rfl⟩⟩
  · refine ok.add ⟨hfree, ha, hcl.core, rfl, rfl, hcl.use,
      fun b hb _ => hnext b (hold b hb.1), by rw [hself]; rfl, .inr ?_⟩
      (fun q hq => ?_) fun q hq => ?_
    · rw [hself]
      exact ⟨rfl, rfl, rfl, hp, hdir, rfl⟩
    · rw [read_hung Fd.multi hfd rfl q (hold q hq.1), hself]
      refine listed_congr (ok.clones q hq) (fun c hc => ?_) fun c =>
        ⟨.inl, fun hc => hc.resolve_right fun hc => hold q hq.1 hc.2.symm⟩
      exact read_hung Fd.multi hfd rfl c (hold c hc.1)
    · rw [hself]
      by_cases hqp : q = p
      · subst hqp
        rw [hfd q, if_pos rfl]
        exact listed_push a (ok.children q hq) (fun h0 => ok.null (h0 ▸ ha)) (by rw [hself])
          (fun c hc => hnext c (hold c hc.1.1)) fun c => by simp only [and_true, or_comm]
      · rw [hfd q, if_neg hqp, if_neg (hold q hq.1)]
        exact listed_congr (ok.children q hq) (fun c hc => hnext c (hold c hc.1.1)) fun c =>
          ⟨.inl, fun hc => hc.resolve_right fun hc => hqp hc.2.2.symm⟩
  · rw [withChild_use, if_pos rfl]
  · rw [hself]

theorem Added.before {h1 h2 : State} {a p d5 : Nat} {e : Entry} (hf : Frame NoFd h h1)
    (hp : h1.Proto p) (hadd : Added h1 h2 a p d5 e) : Added h h2 a p d5 e := by
  refine ⟨fun b hb hba => ?_, fun b hb hba => ?_, fun b hb hb2 => ?_, hadd.new, ?_,
    fun hc => hadd.count (hf.count hc), hadd.imbx.trans hf.imbx, hadd.dmdx.trans hf.dmdx,
    hadd.dirs.trans hf.dirs⟩
  · have h2 := hadd.core b hb hba
    have h1 := hf.core b h2.1 fun hno => hno
    exact ⟨h1.1, h2.2.trans h1.2⟩
  · have h2 := hadd.proto b hb hba
    have h1 := hf.proto b h2.1
    exact ⟨h1.1, h2.2.trans h1.2⟩
  · have hb1 := hf.keep b hb (fun hno => hno) hb2
    exact hadd.keep b hb1 ((hf.held hb1 fun hno => hno).mpr hb2)
  · have hdmd : (h1.fd p).dmd = (h.fd p).dmd :=
      Fd.read_of Fd.place (hf.proto p hp).2 Fd.dmd fun _ => rfl
    rcases hadd.fields with ⟨l, n, hf⟩
    exact ⟨l, n, by rw [hf, hdmd]⟩

/-- A new prototype that gets a name still has neither children nor clones. -/
theorem Added.named {h2 h3 : State} {a p d5 l3 : Nat} {e : Entry} (hadd : Added h h2 a p d5 e)
    (ok2 : Forest h2) (ok3 : Forest h3) (hf : Frame (· = a) h2 h3) (hfd : h3.IsFd a)
    (hcore : (h3.fd a).core = Fd.core { h2.fd a with longname := l3 }) :
    Added h h3 a p d5 e := by
  rcases hadd.fields with ⟨l, n, hfields⟩
  have hm : (h3.fd a).multi1 = a := by
    rw [Fd.read_of Fd.core hcore Fd.multi1 fun _ => rfl]
    exact hadd.new.2
  refine ⟨fun b hb hba => ?_, fun b hb hba => ?_, fun b hb hb2 => ?_, ⟨hfd, hm⟩, ?_,
    fun hc => hf.count (hadd.count hc), hf.imbx.trans hadd.imbx, hf.dmdx.trans hadd.dmdx,
    hf.dirs.trans hadd.dirs⟩
  · have h3 := hf.core b hb hba
    have h2 := hadd.core b h3.1 hba
    exact ⟨h2.1, h3.2.trans h2.2⟩
  · have h3 := hf.proto b hb
    have h2 := hadd.proto b h3.1 hba
    exact ⟨h2.1, h3.2.trans h2.2⟩
  · have hk := hadd.keep b hb hb2
    have hcore := hadd.core b hk.1 hk.2
    have hheld : Held h2 b := by
      simp only [Held, Fd.read_of Fd.core hcore.2 Fd.owner fun _ => rfl,
        Fd.read_of Fd.core hcore.2 Fd.refcnt fun _ => rfl]
      exact hb2
    exact ⟨hf.keep b hk.1 hk.2 hheld, hk.2⟩
  · have hchildren : (h3.fd a).children = 0 := by
      refine (ok3.children_zero ⟨hfd, hm⟩).mpr fun c hc => ?_
      have hc2 := hf.proto c hc.1
      have hpar : (h2.fd c).parent = a :=
        (Fd.read_of Fd.place hc2.2 Fd.parent fun _ => rfl).symm.trans hc.2
      exact (ok2.children_zero hadd.new).mp (by rw [hfields]; rfl) c ⟨hc2.1, hpar⟩
    have hmulti : (h3.fd a).multi = 0 := by
      refine (ok3.multi_zero ⟨hfd, hm⟩).mpr fun c hc => ?_
      have hc2 := hf.core c hc.1 hc.2.2
      have hm2 : (h2.fd c).multi1 = a :=
        (Fd.read_of Fd.core hc2.2 Fd.multi1 fun _ => rfl).symm.trans hc.2.1
      exact (ok2.multi_zero hadd.new).mp (by rw [hfields]; rfl) c ⟨hc2.1, hm2, hc.2.2⟩
    refine ⟨l3, (h3.fd a).next, ?_⟩
    calc h3.fd a = { (h3.fd a).core with
          children := (h3.fd a).children
          next := (h3.fd a).next
          multi := (h3.fd a).multi } := rfl
      _ = _ := by
        rw [hcore, hfields, hchildren, hmulti]
        rfl

/-- A descriptor that is claimed and given back. -/
theorem Frame.unclaimed {a : Nat} (hfree : h.use a = .free) :
    Frame NoFd h ((h.claim a .fd).setUse a .free) := by
  have hsub : ∀ b, ((h.claim a .fd).setUse a .free).IsFd b → h.IsFd b ∧ b ≠ a := by
    intro b hb
    simp only [State.IsFd, State.setUse_use, State.claim, State.upd_use] at hb
    split at hb
    · exact Use.noConfusion hb
    · rename_i hba
      exact ⟨hb, hba⟩
  have hread : ∀ b, b ≠ a → ((h.claim a .fd).setUse a .free).fd b = h.fd b := by
    intro b hba
    simp only [State.claim, State.setUse_fd, State.upd_fd, if_neg hba]
  refine ⟨fun b hb _ => ?_, fun b hb => ?_, fun b hb _ _ => ?_, fun hc b hb hsd => ?_, rfl, rfl,
    rfl⟩
  · have hb1 := hsub b hb
    exact ⟨hb1.1, by rw [hread b hb1.2]⟩
  · have hb1 := hsub b hb.1
    rw [State.Proto, hread b hb1.2] at hb
    exact ⟨⟨hb1.1, hb.2⟩, by rw [hread b hb1.2]⟩
  · simp only [State.IsFd, State.setUse_use, State.claim, State.upd_use,
      if_neg (hb.ne_free hfree)]
    exact hb
  · have hb1 := hsub b hb
    rw [hread b hb1.2] at hsd ⊢
    exact hc b hb1.1 hsd

/-- What `DIR2protoFD` does: the entry is refused, or there is a new prototype, which nobody has
    open. -/
structure Made (h : State) (p d5 : Nat) (e : Entry) (made : Int) (h' : State) (r : Except Int Nat) :
    Prop where
  forest : Forest h'
  answer : (made < 0 ∧ r = .error made ∧ Frame NoFd h h') ∨
    (0 ≤ made ∧ ∃ a, r = .ok a ∧ Added h h' a p d5 e)

/-- `DIR2protoFD` keeps the forest. The directory must be open. -/
theorem dir2protoFd_spec (ok : Forest h) {a4 p : Nat} (d5 : Nat) (e : Entry)
    (long : Bool) (made : Int)
    (ha4 : h.IsFd a4) (hp : (h.fd a4).multi1 = p) (hdir : (h.fd p).subdir = true)
    (hheld : Held h a4) :
    dir2protoFd h a4 d5 e long made = .error .noBlock ∨
      ∃ h' r, dir2protoFd h a4 d5 e long made = .ok (h', r) ∧ Made h p d5 e made h' r := by
  rcases intMalloc_spec ok .fd with herr | ⟨h1, a, hrun, hok1, hframe1, hfree, ha⟩
  · left
    simp only [dir2protoFd, herr, bind, Except.bind]
  · -- The directory is open, so its prototype is not collected.
    have h4 := hframe1.keep a4 ha4 (fun hno => hno) hheld
    have hm1 : (h1.fd a4).multi1 = p :=
      (Fd.read_of Fd.core (hframe1.core a4 h4 fun hno => hno).2 Fd.multi1 fun _ => rfl).trans hp
    have hp1 := hok1.proto a4 h4
    rw [hm1] at hp1
    have hpl := (hframe1.proto p hp1).2
    have hdir1 : (h1.fd p).subdir = true :=
      (Fd.read_of Fd.place hpl Fd.subdir fun _ => rfl).trans hdir
    by_cases hmade : made < 0
    · right
      refine ⟨(h1.claim a .fd).setUse a .free, .error made, ?_, hok1.cleared hfree .fd,
        .inl ⟨hmade, rfl, hframe1.comp (Frame.unclaimed hfree)⟩⟩
      simp only [dir2protoFd, hrun, bind, Except.bind, if_pos hmade, pure, Except.pure,
        State.intMfree_eq]
    · rcases hok1.child d5 e hp1 hdir1 hfree ha with ⟨hok2, hadd2⟩
      have hadd := hadd2.before hframe1 hp1
      have hclaim : ((h1.claim a .fd).fd a4).multi1 = p := by
        simp only [State.claim, State.upd_fd, State.setUse_fd, if_neg (h4.ne_free hfree), hm1]
      have hstate : dir2protoFd h a4 d5 e long made =
          if e.subdir = true ∧ long = true then
            (nameBlock (withChild h1 p a d5 e) a).bind fun g => .ok (g, .ok a)
          else .ok (withChild h1 p a d5 e, .ok a) := by
        simp only [dir2protoFd, hrun, bind, Except.bind, if_neg hmade, hclaim]
        rfl
      rw [hstate]
      by_cases hlong : e.subdir = true ∧ long = true
      · -- The name of a directory gets a block of its own.
        rcases hadd.fields with ⟨l, n, hf⟩
        rw [if_pos hlong]
        rcases nameBlock_spec hok2 hadd.new.1 (by rw [hf]; exact Int.le_refl 0) with
          herr | ⟨h3, hrun3, hok3, hframe3, hfd3, l3, hcore3⟩
        · left
          rw [herr]
          rfl
        · right
          rw [hrun3]
          exact ⟨h3, .ok a, rfl, hok3,
            .inr ⟨Int.not_lt.mp hmade, a, rfl, hadd.named hok2 hok3 hframe3 hfd3 hcore3⟩⟩
      · right
        rw [if_neg hlong]
        exact ⟨withChild h1 p a d5 e, .ok a, rfl, hok2, .inr ⟨Int.not_lt.mp hmade, a, rfl, hadd⟩⟩

end

end Xfs

end MagiC
