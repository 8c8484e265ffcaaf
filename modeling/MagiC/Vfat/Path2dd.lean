import MagiC.Vfat.Ffree

/-!
# Looking Up a Path Element

`vf_path2DD`, which looks for a subdirectory or a symbolic link with a given name.

The open subdirectories are looked at first, and then the directory is read, entry by entry, until
one has the name. The buffer for long names has room for 64 characters, as many as the name that is
looked for. When an entry has a longer name, `_vf_readdir` returns an error, and the search ends
with it, although the entry is not the one that is looked for. `vf_dirsrch`, which looks for files,
has a larger buffer.

Which entry has the name does not depend on the reader: its long name is the text of the complete
sequence of pieces directly before it. `Reach` says how far a search has to go, and `Plain` that
nothing on the way disturbs it.

## Main definitions

* `Plain`: Entries none of which disturbs the search.

## Theorems

* `undisturbed_iff`: When the search ends at the right entry.
-/

namespace MagiC

namespace Vfat

def EPTHNF : Int := -34
def EACCDN : Int := -36

/-- What is looked at of an open subdirectory: its address, its names, whether it is in use and
    whether others may read it. -/
structure Child where
  adr : Int
  fd_longname : Option (List UInt8)
  fd_name : List UInt8
  fd_owner : Bool
  rdeny : Bool

/-- Whether an open subdirectory has the name. -/
def Child.called (f : Child) (pathelem : List UInt8) : Bool :=
  (match f.fd_longname with
    | some name => !stricmp pathelem name
    | none => false) || !stricmp pathelem (ext83 f.fd_name)

/-- The search in the directory. `getDD` is called for the entry that is found, with its position
    and its long name, if it has one. -/
def pathLoop (getDD : Entry → Nat → Option (List UInt8) → Int) (pathelem : List UInt8) :
    Nat → Fd → Option Int
  | 0, _ => none
  | fuel + 1, fd =>
    let r := vfReaddir fd (some (MAXFOLDERNAME + 1 : Nat)) true .findxdir
    match r.ret with
    | .error doserr => some doserr
    | .ok dir =>
      let longname := r.lbuf.getD []
      if stricmp longname pathelem = false ∨
          stricmp (r.shortbuf.getD []) pathelem = false then
        some (getDD dir (r.fpos - 32) (if longname = [] then none else some longname))
      else pathLoop getDD pathelem fuel { fd with fpos := r.fpos }

/-- `vf_path2DD`: the descriptor of a subdirectory, or an error. `reopen` is the error of
    `reopen_FD`, if there is one. -/
def vfPath2DD (getDD : Entry → Nat → Option (List UInt8) → Int) (children : List Child)
    (reopen : Option Int) (fd : Fd) (path : List UInt8) : Option Int :=
  if 64 < path.length then some EPTHNF
  else
    match children.find? fun f => f.called path with
    | some f => some (if f.fd_owner ∧ f.rdeny then EACCDN else f.adr)
    | none =>
      match reopen with
      | some doserr => some doserr
      | none =>
        (pathLoop getDD path (fd.entries.length + 1) { fd with fpos := 0 }).map fun ret =>
          if ret = 0 then EPTHNF else ret

/-! ### Which entry has the name -/

/-- A subdirectory or a symbolic link. -/
def Entry.IsXdir (dir : Entry) : Prop := dir.IsMain ∧ FMode.findxdir.selects dir.attr = true

/-- A subdirectory or a symbolic link, behind the entries `before`, has the name: its short name, or
    the text of the complete sequence of pieces directly before it. -/
def Hit (elem : List UInt8) (before : List Entry) (dir : Entry) : Prop :=
  dir.IsXdir ∧ (stricmp (ext83 dir.name) elem = false ∨
    ∃ a seq, before = a ++ seq ∧ Complete (vfChksum dir.name) seq ∧
      stricmp (textOf seq) elem = false)

/-- Entries at the beginning of the directory, before its end mark, of which none but the last one
    has the name. -/
structure Reach (es : List Entry) (elem : List UInt8) (p : List Entry) : Prop where
  begins : ∃ q, es = p ++ q
  live : ∀ e ∈ p, e.head ≠ 0
  last : ∀ b d c, p = b ++ d :: c → Hit elem b d → c = []

/-- The first entry that has the name, behind the entries `before`. -/
def First (es : List Entry) (elem : List UInt8) (before : List Entry) (dir : Entry) : Prop :=
  Hit elem before dir ∧ Reach es elem (before ++ [dir])

/-- Entries that do not disturb the search: no text is too long for the buffer of the reader, no
    subdirectory or symbolic link is read with a name of more than 64 characters, and what is read
    with the name that is looked for has this name. -/
structure Plain (elem : List UInt8) (p : List Entry) : Prop where
  fits : ∀ a l b ck k t, p = a ++ l ++ b → Loose .findxdir ck l k t → t.length ≤ 299
  short : ∀ a l d b k t, p = a ++ l ++ d :: b → d.IsXdir →
    Loose .findxdir (vfChksum d.name) l k t → t.length ≤ MAXFOLDERNAME
  own : ∀ a l d b k t, p = a ++ l ++ d :: b → d.IsXdir →
    Loose .findxdir (vfChksum d.name) l k t → stricmp t elem = false → Hit elem (a ++ l) d

/-- Whatever `get_DD` does and whichever subdirectories are open, if none of these has the name: the
    search ends at the first entry that has it, or there is none. -/
structure Undisturbed (es : List Entry) (elem : List UInt8) : Prop where
  first : ∀ before dir, First es elem before dir → ∃ longname, ∀ getDD children fpos,
    (∀ f ∈ children, Child.called f elem = false) →
    vfPath2DD getDD children none ⟨es, 0, fpos⟩ elem =
      some (if getDD dir (32 * before.length) longname = 0 then EPTHNF
        else getDD dir (32 * before.length) longname)
  missing : (∀ before dir, ¬ First es elem before dir) → ∀ getDD children fpos,
    (∀ f ∈ children, Child.called f elem = false) →
    vfPath2DD getDD children none ⟨es, 0, fpos⟩ elem = some EPTHNF

/-! ### Loose sequences between entries that are looked for -/

theorem loose_unselected (fmode : FMode) (ck : UInt8) (l : List Entry) (k : Nat) (t : List UInt8)
    (hl : Loose fmode ck l k t) : ∀ e ∈ l, e.IsMain → fmode.selects e.attr = false := by
  have hsnoc : ∀ (l : List Entry) (e : Entry), (∀ x ∈ l, x.IsMain → fmode.selects x.attr = false) →
      (e.IsMain → fmode.selects e.attr = false) →
      ∀ x ∈ l ++ [e], x.IsMain → fmode.selects x.attr = false := by
    intro l e hrest he x hx
    rcases List.mem_append.mp hx with hx | hx
    · exact hrest x hx
    · rw [List.mem_singleton.mp hx]
      exact he
  induction hl with
  | first e k he _ _ _ =>
    intro x hx hmain
    rw [List.mem_singleton.mp hx] at hmain
    exact absurd he.2.2 hmain.2.2
  | next l e k t _ he _ _ _ ih => exact hsnoc l e ih fun hmain => absurd he.2.2 hmain.2.2
  | deleted l e k t _ hdel ih => exact hsnoc l e ih fun hmain => absurd hdel hmain.2.1
  | filtered l e k t _ _ hsel _ ih => exact hsnoc l e ih fun _ => hsel

/-- The search begins behind these entries: there are none, or the last one is a subdirectory or a
    symbolic link. -/
def Behind (done : List Entry) : Prop := done = [] ∨ ∃ u d, done = u ++ [d] ∧ d.IsXdir

theorem loose_behind (ck : UInt8) (done c a l : List Entry) (k : Nat) (t : List UInt8)
    (hd : Behind done) (hl : Loose .findxdir ck l k t) (heq : a ++ l = done ++ c) :
    ∃ c', a = done ++ c' ∧ c = c' ++ l := by
  rcases List.append_eq_append_iff.mp heq with ⟨x, hdone, hl'⟩ | ⟨x, ha, hc⟩
  · rcases List.eq_nil_or_concat x with rfl | ⟨y, d, rfl⟩
    · refine ⟨[], by rw [hdone, List.append_nil, List.append_nil], ?_⟩
      rw [hl', List.nil_append, List.nil_append]
    · -- The entry before the call would be part of the sequence.
      rw [List.concat_eq_append] at hdone hl'
      rcases hd with hnil | ⟨u, e, hu, he⟩
      · rw [hnil] at hdone
        exact absurd (congrArg List.length hdone) (by simp)
      · have hde : e = d := by
          have hlast := congrArg List.getLast? (hu.symm.trans hdone)
          rw [List.getLast?_append, ← List.append_assoc, List.getLast?_append] at hlast
          simpa using hlast
        have hmem : d ∈ l := by
          rw [hl']
          simp
        have hun := loose_unselected _ ck l k t hl d hmem (hde ▸ he.1)
        rw [← hde, he.2] at hun
        exact absurd hun Bool.noConfusion
  · exact ⟨x, ha, hc⟩

theorem loose_ne_nil (ck : UInt8) (l : List Entry) (k : Nat) (t : List UInt8)
    (hl : Loose .findxdir ck l k t) : l ≠ [] := by
  rcases loose_flagged _ ck l k t hl with ⟨e, rest, rfl, -⟩
  exact List.cons_ne_nil e rest

theorem xdir_before (done u b c : List Entry) (d : Entry) (hu : Passed .findxdir u)
    (heq : done ++ u = b ++ d :: c) (hx : d.IsXdir) : ∃ c', done = b ++ d :: c' := by
  have hnot : d ∉ u := fun hmem => by
    have hun := hu.unselected d hmem hx.1
    rw [hx.2] at hun
    exact absurd hun Bool.noConfusion
  rcases List.append_eq_append_iff.mp heq with ⟨x, -, hx2⟩ | ⟨x, hx1, hx2⟩
  · exact absurd (by rw [hx2]; simp) hnot
  · cases x with
    | nil =>
      rw [List.nil_append] at hx2
      exact absurd (by rw [← hx2]; exact List.mem_cons_self) hnot
    | cons e x =>
      rw [List.cons_append] at hx2
      rcases List.cons.inj hx2 with ⟨rfl, -⟩
      exact ⟨x, hx1⟩

theorem plain_append (elem : List UInt8) (done u : List Entry) (h : Plain elem done)
    (hd : Behind done) (hu : Passed .findxdir u) : Plain elem (done ++ u) := by
  refine ⟨fun a l b ck k t heq hl => ?_, fun a l d b k t heq hx hl => ?_,
    fun a l d b k t heq hx hl hname => ?_⟩
  · rcases List.append_eq_append_iff.mp heq with ⟨x, hx1, hx2⟩ | ⟨x, hx1, hx2⟩
    · rcases loose_behind ck done x a l k t hd hl hx1 with ⟨c, -, rfl⟩
      exact hu.fits c l b ck k t hx2 hl
    · exact h.fits a l x ck k t hx1 hl
  · rcases xdir_before done u (a ++ l) b d hu heq hx with ⟨b', hb⟩
    exact h.short a l d b' k t hb hx hl
  · rcases xdir_before done u (a ++ l) b d hu heq hx with ⟨b', hb⟩
    exact h.own a l d b' k t hb hx hl hname

theorem plain_snoc (elem : List UInt8) (p : List Entry) (d : Entry) (h : Plain elem p)
    (hx : d.IsXdir) (hname : ∀ a l k t, p = a ++ l → Loose .findxdir (vfChksum d.name) l k t →
      t.length ≤ MAXFOLDERNAME ∧ (stricmp t elem = false → Hit elem p d)) :
    Plain elem (p ++ [d]) := by
  have hsplit : ∀ a l e b, p ++ [d] = a ++ l ++ e :: b →
      (b = [] ∧ p = a ++ l ∧ e = d) ∨ ∃ b', p = a ++ l ++ e :: b' := by
    intro a l e b heq
    rcases List.eq_nil_or_concat b with rfl | ⟨b', f, rfl⟩
    · rcases List.append_inj' heq rfl with ⟨h1, h2⟩
      exact .inl ⟨rfl, h1, (List.cons.inj h2).1.symm⟩
    · rw [List.concat_eq_append, ← List.cons_append, ← List.append_assoc] at heq
      exact .inr ⟨b', (List.append_inj' heq rfl).1⟩
  refine ⟨fun a l b ck k t heq hl => ?_, fun a l e b k t heq he hl => ?_,
    fun a l e b k t heq he hl hmatch => ?_⟩
  · rcases List.eq_nil_or_concat b with rfl | ⟨b', f, rfl⟩
    · -- The entry itself is not part of the sequence.
      rcases List.eq_nil_or_concat l with rfl | ⟨l', e, rfl⟩
      · exact absurd rfl (loose_ne_nil ck [] k t hl)
      · rw [List.append_nil, List.concat_eq_append, ← List.append_assoc] at heq
        have hed := List.cons.inj (List.append_inj' heq rfl).2
        have hun := loose_unselected _ ck _ k t hl e (by simp) (hed.1 ▸ hx.1)
        rw [← hed.1, hx.2] at hun
        exact absurd hun Bool.noConfusion
    · rw [List.concat_eq_append, ← List.append_assoc] at heq
      exact h.fits a l b' ck k t (List.append_inj' heq rfl).1 hl
  · rcases hsplit a l e b heq with ⟨-, hp, rfl⟩ | ⟨b', hp⟩
    · exact (hname a l k t hp hl).1
    · exact h.short a l e b' k t hp he hl
  · rcases hsplit a l e b heq with ⟨-, hp, rfl⟩ | ⟨b', hp⟩
    · rw [← hp]
      exact (hname a l k t hp hl).2 hmatch
    · exact h.own a l e b' k t hp he hl hmatch

theorem plain_prefix (elem : List UInt8) (p q : List Entry) (h : Plain elem (p ++ q)) :
    Plain elem p := by
  refine ⟨fun a l b ck k t heq hl => ?_, fun a l d b k t heq hx hl => ?_,
    fun a l d b k t heq hx hl hname => ?_⟩
  · exact h.fits a l (b ++ q) ck k t (by rw [heq, List.append_assoc]) hl
  · exact h.short a l d (b ++ q) k t (by rw [heq, List.append_assoc]; rfl) hx hl
  · exact h.own a l d (b ++ q) k t (by rw [heq, List.append_assoc]; rfl) hx hl hname

/-! ### One call of the reader -/

theorem readLoop_ret (fmode : FMode) (ende : Int) (es : List Entry) (pos : Nat) (st st' : Scan)
    (doserr : Int) (fpos : Nat) (h : readLoop ende fmode pos es st = .ret doserr st' fpos) :
    (doserr = ende ∧ ∃ st1, pass fmode pos es st = some st1) ∨
    ∃ a e b st1, es = a ++ e :: b ∧ pass fmode pos a st = some st1 ∧
      (doserr = 0 ∧ e.head = 0 ∨ doserr = EINTRN ∧ e.IsLdir ∧ ∃ st2,
        expected (pos + 32 * a.length) e st1 = some st2 ∧
          299 < st2.nxt_longname.length + e.ltmpname.length) := by
  induction es generalizing pos st with
  | nil =>
    simp only [readLoop, LoopEnd.ret.injEq] at h
    exact .inl ⟨h.1.symm, st, rfl⟩
  | cons e es ih =>
    rw [readLoop] at h
    cases hr : readEntry fmode pos e st with
    | weiter st1 =>
      rw [hr] at h
      rcases ih (pos + 32) st1 h with ⟨hende, st2, hpass⟩ | ⟨a, d, b, st2, rfl, hpass, hend⟩
      · refine .inl ⟨hende, st2, ?_⟩
        rw [pass, hr]
        exact hpass
      · refine .inr ⟨e :: a, d, b, st2, rfl, ?_, ?_⟩
        · rw [pass, hr]
          exact hpass
        · rw [List.length_cons, show pos + 32 * (a.length + 1) = pos + 32 + 32 * a.length by omega]
          exact hend
    | ret c st1 =>
      rw [hr] at h
      simp only [LoopEnd.ret.injEq] at h
      refine .inr ⟨[], e, es, st, rfl, rfl, ?_⟩
      rw [← h.1, List.length_nil, Nat.mul_zero, Nat.add_zero]
      cases hr ▸ readEntry_reads fmode pos e st with
      | ende h0 => exact .inl ⟨rfl, h0⟩
      | overflow _ he hexp hfit => exact .inr ⟨rfl, he, st1, hexp, hfit⟩
    | fertig st1 =>
      rw [hr] at h
      simp only [reduceCtorEq] at h

theorem loose_long (fmode : FMode) (seen : List Entry) (pos : Nat) (e : Entry) (st st2 : Scan)
    (hst : Tracks fmode seen st) (he : e.IsLdir) (hexp : expected pos e st = some st2)
    (hlong : 299 < st2.nxt_longname.length + e.ltmpname.length) :
    ∃ a l ck k t, seen ++ [e] = a ++ l ∧ Loose fmode ck l k t ∧ 299 < t.length := by
  rcases expected_cases pos e st st2 hexp with ⟨-, rfl⟩ | ⟨hflag, hpos, hnr, hck, rfl⟩
  · have hlen := ltmpname_length e
    simp only [List.length_nil] at hlong
    omega
  · obtain ⟨k, hk⟩ : ∃ k : Nat, st2.longcount = (k + 1 : Nat) :=
      ⟨st2.longcount.toNat - 1, by omega⟩
    rcases hst (k + 1) hk with ⟨a, l, rfl, hl⟩
    refine ⟨a, l ++ [e], st2.act_chksum, k, _, List.append_assoc _ _ _,
      .next l e k _ hl he hflag (by omega) hck, ?_⟩
    rw [List.length_append]
    omega

/-- What one call of the reader comes to behind `done`: the end, a text that is too long for its
    buffer, or an entry that is looked for with a name that may be too long for the caller's. -/
theorem readdir_cases (done rest : List Entry) (r : Readdir)
    (hr : r = vfReaddir ⟨done ++ rest, 0, 32 * done.length⟩ (some (MAXFOLDERNAME + 1 : Nat)) true
      .findxdir) :
    (∃ u v, rest = u ++ v ∧ (∀ e v', v = e :: v' → e.head = 0) ∧ Passed .findxdir u ∧
      r.ret = .error 0) ∨
    (∃ u e v, rest = u ++ e :: v ∧ Passed .findxdir u ∧ e.IsLdir ∧ r.ret = .error EINTRN ∧
      ∃ a l ck k t, u ++ [e] = a ++ l ∧ Loose .findxdir ck l k t ∧ 299 < t.length) ∨
    ∃ u d v name, rest = u ++ d :: v ∧ Passed .findxdir u ∧ d.IsXdir ∧
      (name ≠ [] → ∃ a l k, u = a ++ l ∧ Loose .findxdir (vfChksum d.name) l k name) ∧
      (∀ a l k t, u = a ++ l → Loose .findxdir (vfChksum d.name) l k t → t = name) ∧
      r.fpos = 32 * (done.length + u.length + 1) ∧
      (MAXFOLDERNAME < name.length ∧ r.ret = .error ERANGE ∨
        name.length ≤ MAXFOLDERNAME ∧ r.ret = .ok d ∧ r.lbuf = some name ∧
          r.shortbuf = some (ext83 d.name)) := by
  have hdrop : (done ++ rest).drop (32 * done.length / 32) = rest := by
    rw [Nat.mul_div_cancel_left _ (by decide), List.drop_left]
  unfold vfReaddir at hr
  simp only [hdrop] at hr
  cases hloop : readLoop 0 .findxdir (32 * done.length) rest Scan.init with
  | ret doserr st fpos =>
    rw [hloop] at hr
    have hret : r.ret = .error doserr := by rw [hr]
    rcases readLoop_ret _ _ _ _ _ _ _ _ hloop with ⟨rfl, st1, hpass⟩ |
      ⟨u, e, v, st1, rfl, hpass, ⟨rfl, h0⟩ | ⟨rfl, he, st2, hexp, hlong⟩⟩
    · exact .inl ⟨rest, [], (List.append_nil rest).symm, fun e v' h => absurd h (by simp),
        pass_passed _ _ _ _ _ hpass, hret⟩
    · refine .inl ⟨u, e :: v, rfl, fun d v' h => ?_, pass_passed _ _ _ _ _ hpass, hret⟩
      rw [← (List.cons.inj h).1]
      exact h0
    · have htracks := pass_tracks _ u [] _ _ st1 (tracks_init _) hpass
      exact .inr (.inl ⟨u, e, v, rfl, pass_passed _ _ _ _ _ hpass, he, hret,
        loose_long _ u _ e st1 st2 htracks he hexp hlong⟩)
  | fertig d st fpos =>
    rw [hloop] at hr
    rcases readLoop_fertig _ _ _ _ _ _ _ _ hloop with ⟨u, v, st1, rfl, hpass, hread, hpos⟩
    rcases fertig_cases _ _ d st1 st hread with ⟨hmain, hsel, hst⟩
    have hpassed := pass_passed _ _ _ _ _ hpass
    refine .inr (.inr ⟨u, d, v, if 0 ≤ st.longcount then st.nxt_longname else [], rfl, hpassed,
      ⟨hmain, hsel⟩, fun hne => ?_, fun a l k t hu hl => ?_, ?_, ?_⟩)
    · by_cases hcount : 0 ≤ st.longcount
      · rcases hst hcount with ⟨rfl, hck⟩
        have htracks := pass_tracks _ u [] _ _ st (tracks_init _) hpass
        rcases htracks st.longcount.toNat (by omega) with ⟨a, l, hal, hl⟩
        rw [← hck] at hl
        rw [if_pos hcount]
        exact ⟨a, l, _, hal, hl⟩
      · rw [if_neg hcount] at hne
        exact absurd rfl hne
    · -- Walking over a loose sequence leaves its text, whatever was before.
      have ht := hpassed.fits a l [] _ k t (by rw [hu, List.append_nil]) hl
      rw [hu, pass_append] at hpass
      cases ha : pass .findxdir (32 * done.length) a Scan.init with
      | none =>
        rw [ha] at hpass
        exact absurd hpass (by simp)
      | some st2 =>
        rw [ha, Option.bind_some] at hpass
        rcases loose_pass _ _ l k t hl ht (32 * done.length + 32 * a.length) st2 with
          ⟨st3, hpass3, hreading⟩
        rw [hpass, Option.some.injEq] at hpass3
        subst hpass3
        have hfertig := readMain_fertig .findxdir _ (32 * done.length + 32 * u.length) k t d st1
          hmain hsel hreading
        rw [hread, Step.fertig.injEq] at hfertig
        subst hfertig
        rw [if_pos (by rw [hreading.longcount]; omega), hreading.nxt_longname]
    · have hfpos : r.fpos = fpos := by
        rw [hr]
        simp only
        split_ifs <;> rfl
      rw [hfpos, hpos]
      omega
    · unfold MAXFOLDERNAME at hr ⊢
      simp only [if_true] at hr
      by_cases hcount : 0 ≤ st.longcount
      · rw [if_pos hcount] at hr ⊢
        by_cases hlen : 64 < st.nxt_longname.length
        · rw [if_pos (by omega)] at hr
          exact .inl ⟨hlen, by rw [hr]⟩
        · rw [if_neg (by omega)] at hr
          exact .inr ⟨by omega, by rw [hr], by rw [hr], by rw [hr]⟩
      · rw [if_neg hcount] at hr ⊢
        exact .inr ⟨Nat.zero_le _, by rw [hr], by rw [hr], by rw [hr]⟩

/-! ### The search -/

/-- The entries that the search has gone on behind. -/
structure Walked (elem : List UInt8) (done : List Entry) : Prop where
  live : ∀ e ∈ done, e.head ≠ 0
  missed : ∀ b d c, done = b ++ d :: c → ¬ Hit elem b d
  plain : Plain elem done
  behind : Behind done

/-- How a search ends, for every `get_DD`. -/
inductive Ends (es : List Entry) (elem : List UInt8)
    (run : (Entry → Nat → Option (List UInt8) → Int) → Option Int) : Prop where
  | found (before : List Entry) (dir : Entry) (longname : Option (List UInt8)) :
      First es elem before dir → Plain elem (before ++ [dir]) →
      (∀ getDD, run getDD = some (getDD dir (32 * before.length) longname)) → Ends es elem run
  | missed (p : List Entry) : (∀ q, Reach es elem q → ∃ c, p = q ++ c) → Plain elem p →
      (∀ before dir, ¬ First es elem before dir) → (∀ getDD, run getDD = some 0) → Ends es elem run
  | lost (p : List Entry) (doserr : Int) : Reach es elem p → ¬ Plain elem p →
      (doserr = ERANGE ∨ doserr = EINTRN) → (∀ getDD, run getDD = some doserr) → Ends es elem run
  | wrong (before : List Entry) (dir : Entry) (longname : Option (List UInt8)) :
      Reach es elem (before ++ [dir]) → ¬ Plain elem (before ++ [dir]) → ¬ Hit elem before dir →
      (∀ getDD, run getDD = some (getDD dir (32 * before.length) longname)) → Ends es elem run

theorem missed_append (elem : List UInt8) (done u : List Entry) (h : Walked elem done)
    (hu : Passed .findxdir u) : ∀ b d c, done ++ u = b ++ d :: c → ¬ Hit elem b d := by
  intro b d c heq hhit
  rcases xdir_before done u b c d hu heq hhit.1 with ⟨c', hc⟩
  exact h.missed b d c' hc hhit

theorem reach_snoc (es : List Entry) (elem : List UInt8) (done u v : List Entry) (e : Entry)
    (h : Walked elem done) (hu : Passed .findxdir u) (he : e.head ≠ 0)
    (hes : es = done ++ (u ++ e :: v)) : Reach es elem (done ++ u ++ [e]) := by
  refine ⟨⟨v, by rw [hes]; simp⟩, fun x hx => ?_, fun b d c heq hhit => ?_⟩
  · rcases List.mem_append.mp hx with hx | hx
    · rcases List.mem_append.mp hx with hx | hx
      · exact h.live x hx
      · exact hu.live x hx
    · rw [List.mem_singleton.mp hx]
      exact he
  · rcases List.eq_nil_or_concat c with rfl | ⟨c', f, rfl⟩
    · rfl
    · rw [List.concat_eq_append, ← List.cons_append, ← List.append_assoc] at heq
      exact absurd hhit (missed_append elem done u h hu b d c' (List.append_inj' heq rfl).1)

theorem read_name (done u : List Entry) (d : Entry) (name : List UInt8) (hd : Behind done)
    (hname : ∀ a l k t, u = a ++ l → Loose .findxdir (vfChksum d.name) l k t → t = name)
    (a l : List Entry) (k : Nat) (t : List UInt8) (heq : done ++ u = a ++ l)
    (hl : Loose .findxdir (vfChksum d.name) l k t) : t = name := by
  rcases loose_behind _ done u a l k t hd hl heq.symm with ⟨c, -, hu⟩
  exact hname c l k t hu hl

theorem hit_read (elem : List UInt8) (done u : List Entry) (d : Entry) (name : List UInt8)
    (hd : Behind done)
    (hname : ∀ a l k t, u = a ++ l → Loose .findxdir (vfChksum d.name) l k t → t = name)
    (hhit : Hit elem (done ++ u) d) :
    stricmp name elem = false ∨ stricmp (ext83 d.name) elem = false := by
  rcases hhit.2 with hshort | ⟨a, seq, heq, hseq, hmatch⟩
  · exact .inr hshort
  · rw [read_name done u d name hd hname a seq 0 _ heq (complete_loose _ _ seq hseq)] at hmatch
    exact .inl hmatch

/-- Every way in which the search ends that begins behind `done`. -/
theorem pathLoop_spec (es : List Entry) (elem : List UInt8) (hne : elem ≠ []) (fuel : Nat)
    (done rest : List Entry) (hes : es = done ++ rest) (hfuel : rest.length < fuel)
    (hw : Walked elem done) :
    Ends es elem fun getDD => pathLoop getDD elem fuel ⟨es, 0, 32 * done.length⟩ := by
  induction fuel generalizing done rest with
  | zero => exact absurd hfuel (Nat.not_lt_zero _)
  | succ fuel ih =>
    rcases readdir_cases done rest _ rfl with ⟨u, v, hrest, hv, hu, hret⟩ |
      ⟨u, e, v, hrest, hu, he, hret, a, l, ck, k, t, hal, hl, hlong⟩ |
      ⟨u, d, v, name, hrest, hu, hx, hread, hname, hfpos, hend⟩
    · -- The end of the directory.
      have hmissed := missed_append elem done u hw hu
      have hall : ∀ q, Reach es elem q → ∃ c, done ++ u = q ++ c := by
        intro q hq
        rcases hq.begins with ⟨c, hc⟩
        rw [hes, hrest, ← List.append_assoc] at hc
        rcases List.append_eq_append_iff.mp hc with ⟨x, hx1, hx2⟩ | ⟨x, hx1, -⟩
        · cases x with
          | nil => exact ⟨[], by rw [hx1]; simp⟩
          | cons e x =>
            have h0 := hv e (x ++ c) hx2
            exact absurd h0 (hq.live e (by rw [hx1]; simp))
        · exact ⟨x, hx1⟩
      refine .missed (done ++ u) hall (plain_append elem done u hw.plain hw.behind hu)
        (fun before dir hfirst => ?_) fun getDD => ?_
      · rcases hall _ hfirst.2 with ⟨c, hc⟩
        rw [List.append_assoc] at hc
        exact hmissed before dir c hc hfirst.1
      · unfold pathLoop
        rw [hes]
        simp only [hret]
    · -- A text that is too long for the buffer of the reader.
      refine .lost (done ++ u ++ [e]) EINTRN
        (reach_snoc es elem done u v e hw hu he.1 (by rw [hes, hrest])) (fun hplain => ?_)
        (.inr rfl) fun getDD => ?_
      · have hfits := hplain.fits (done ++ a) l [] ck k t
          (by rw [List.append_assoc, hal]; simp) hl
        omega
      · unfold pathLoop
        rw [hes]
        simp only [hret]
    have hreach := reach_snoc es elem done u v d hw hu hx.1.1 (by rw [hes, hrest])
    rcases hend with ⟨hlong, hret⟩ | ⟨hshort, hret, hlbuf, hsbuf⟩
    · -- The name is too long for the buffer of the caller.
      refine .lost (done ++ u ++ [d]) ERANGE hreach (fun hplain => ?_) (.inl rfl) fun getDD => ?_
      · have hnonempty : name ≠ [] := fun hnil => by
          rw [hnil] at hlong
          exact absurd hlong (Nat.not_lt_zero _)
        rcases hread hnonempty with ⟨a, l, k, rfl, hl⟩
        have hle := hplain.short (done ++ a) l d [] k name (by simp) hx hl
        omega
      · unfold pathLoop
        rw [hes]
        simp only [hret]
    have hplain := plain_append elem done u hw.plain hw.behind hu
    by_cases hmatch : stricmp name elem = false ∨ stricmp (ext83 d.name) elem = false
    · have hrun : ∀ getDD, pathLoop getDD elem (fuel + 1) ⟨es, 0, 32 * done.length⟩ =
          some (getDD d (32 * (done ++ u).length) (if name = [] then none else some name)) := by
        intro getDD
        unfold pathLoop
        rw [hes]
        simp only [hret, hlbuf, hsbuf, Option.getD_some, if_pos hmatch, hfpos]
        rw [List.length_append, show 32 * (done.length + u.length + 1) - 32 =
          32 * (done.length + u.length) by omega]
      by_cases hhit : Hit elem (done ++ u) d
      · refine .found (done ++ u) d _ ⟨hhit, hreach⟩
          (plain_snoc elem _ d hplain hx fun a l k t heq hl => ?_) hrun
        rw [read_name done u d name hw.behind hname a l k t heq hl]
        exact ⟨hshort, fun _ => hhit⟩
      · refine .wrong (done ++ u) d _ hreach (fun hbad => hhit ?_) hhit hrun
        rcases hmatch with hlongname | hshortname
        · have hnonempty : name ≠ [] := fun hnil => by
            rw [hnil] at hlongname
            unfold stricmp at hlongname
            rw [decide_eq_false_iff_not, not_not, List.map_nil] at hlongname
            exact hne (List.map_eq_nil_iff.mp hlongname.symm)
          rcases hread hnonempty with ⟨a, l, k, rfl, hl⟩
          rw [← List.append_assoc]
          exact hbad.own (done ++ a) l d [] k name (by simp) hx hl hlongname
        · exact ⟨hx, .inl hshortname⟩
    · -- The entry is another one.
      have hno : ¬ Hit elem (done ++ u) d := fun hhit =>
        hmatch (hit_read elem done u d name hw.behind hname hhit)
      have hes' : es = done ++ u ++ [d] ++ v := by
        rw [hes, hrest]
        simp
      have hwalked : Walked elem (done ++ u ++ [d]) := by
        refine ⟨hreach.live, fun b e c heq hhit => ?_, plain_snoc elem _ d hplain hx
          fun a l k t heq hl => ?_, .inr ⟨done ++ u, d, rfl, hx⟩⟩
        · rcases hreach.last b e c heq hhit with rfl
          rcases List.append_inj' heq rfl with ⟨rfl, hde⟩
          rw [← (List.cons.inj hde).1] at hhit
          exact hno hhit
        · rw [read_name done u d name hw.behind hname a l k t heq hl]
          exact ⟨hshort, fun hlongname => absurd (.inl hlongname) hmatch⟩
      have hstep : ∀ getDD, pathLoop getDD elem (fuel + 1) ⟨es, 0, 32 * done.length⟩ =
          pathLoop getDD elem fuel ⟨es, 0, 32 * (done ++ u ++ [d]).length⟩ := by
        intro getDD
        conv_lhs => unfold pathLoop
        rw [hes]
        simp only [hret, hlbuf, hsbuf, Option.getD_some, if_neg hmatch, hfpos]
        simp only [List.length_append, List.length_singleton]
      simp only [hstep]
      refine ih (done ++ u ++ [d]) v hes' ?_ hwalked
      rw [hrest, List.length_append, List.length_cons] at hfuel
      omega

theorem walked_nil (elem : List UInt8) : Walked elem [] := by
  have hnil : ∀ (a l b : List Entry), [] = a ++ l ++ b → l = [] ∧ b = [] := by
    intro a l b heq
    rcases List.append_eq_nil_iff.mp heq.symm with ⟨hal, hb⟩
    exact ⟨(List.append_eq_nil_iff.mp hal).2, hb⟩
  refine ⟨fun e he => absurd he List.not_mem_nil, fun b d c heq => ?_,
    ⟨fun a l b ck k t heq hl => ?_, fun a l d b k t heq => ?_, fun a l d b k t heq => ?_⟩, .inl rfl⟩
  · exact absurd (hnil [] b (d :: c) heq).2 (List.cons_ne_nil d c)
  · exact absurd (hnil a l b heq).1 (loose_ne_nil ck l k t hl)
  · exact absurd (hnil a l (d :: b) heq).2 (List.cons_ne_nil d b)
  · exact absurd (hnil a l (d :: b) heq).2 (List.cons_ne_nil d b)

theorem first_begins (es : List Entry) (elem : List UInt8) (before : List Entry) (dir : Entry)
    (h : First es elem before dir) (p : List Entry) (hp : Reach es elem p) :
    ∃ c, before ++ [dir] = p ++ c := by
  rcases h.2.begins with ⟨q, hq⟩
  rcases hp.begins with ⟨q', hq'⟩
  rcases List.append_eq_append_iff.mp (hq.symm.trans hq') with ⟨x, hx, -⟩ | ⟨x, hx, -⟩
  · rw [List.append_assoc] at hx
    have hnil := hp.last before dir x hx h.1
    refine ⟨[], ?_⟩
    rw [hx, hnil]
    simp
  · exact ⟨x, hx⟩

theorem first_unique (es : List Entry) (elem : List UInt8) (before before' : List Entry)
    (dir dir' : Entry) (h : First es elem before dir) (h' : First es elem before' dir') :
    before = before' ∧ dir = dir' := by
  rcases first_begins es elem before dir h _ h'.2 with ⟨c, hc⟩
  rcases first_begins es elem before' dir' h' _ h.2 with ⟨c', hc'⟩
  have hlen := congrArg List.length hc
  have hlen' := congrArg List.length hc'
  simp only [List.length_append, List.length_singleton] at hlen hlen'
  have hnil : c = [] := List.length_eq_zero_iff.mp (by omega)
  rw [hnil, List.append_nil] at hc
  rcases List.append_inj' hc rfl with ⟨h1, h2⟩
  exact ⟨h1, (List.cons.inj h2).1⟩

theorem vfPath2DD_eq (getDD : Entry → Nat → Option (List UInt8) → Int) (children : List Child)
    (es : List Entry) (fpos : Nat) (elem : List UInt8) (hlen : elem.length ≤ 64)
    (hno : ∀ f ∈ children, Child.called f elem = false) :
    vfPath2DD getDD children none ⟨es, 0, fpos⟩ elem =
      (pathLoop getDD elem (es.length + 1) ⟨es, 0, 0⟩).map fun ret =>
        if ret = 0 then EPTHNF else ret := by
  have hfind : (children.find? fun f => f.called elem) = none :=
    List.find?_eq_none.mpr fun f hf => by rw [hno f hf]; exact Bool.noConfusion
  unfold vfPath2DD
  rw [if_neg (Nat.not_lt.mpr hlen), hfind]

/-- The search ends at the first entry that has the name, or says that there is none, if and only if
    no entry that it has to come to disturbs it. -/
theorem undisturbed_iff (es : List Entry) (elem : List UInt8) (hne : elem ≠ [])
    (hlen : elem.length ≤ 64) :
    Undisturbed es elem ↔ ∀ p, Reach es elem p → Plain elem p := by
  have hstart : ∀ getDD children fpos, (∀ f ∈ children, Child.called f elem = false) →
      vfPath2DD getDD children none ⟨es, 0, fpos⟩ elem =
        (pathLoop getDD elem (es.length + 1) ⟨es, 0, 0⟩).map fun ret =>
          if ret = 0 then EPTHNF else ret := fun getDD children fpos hno =>
    vfPath2DD_eq getDD children es fpos elem hlen hno
  have hnochild : ∀ f ∈ ([] : List Child), Child.called f elem = false :=
    fun f hf => absurd hf List.not_mem_nil
  have hends := pathLoop_spec es elem hne (es.length + 1) [] es rfl (Nat.lt_succ_self _)
    (walked_nil elem)
  simp only [List.length_nil, Nat.mul_zero] at hends
  rcases hends with ⟨before, dir, longname, hfirst, hplain, hrun⟩ | ⟨p, hall, hplain, hno, hrun⟩ |
    ⟨p, doserr, hreach, hbad, hcode, hrun⟩ | ⟨before, dir, longname, hreach, hbad, hhit, hrun⟩
  · refine iff_of_true ⟨fun before' dir' hfirst' => ⟨longname, ?_⟩, fun hno => ?_⟩ fun p hp => ?_
    · intro getDD children fpos hchild
      rcases first_unique es elem before before' dir dir' hfirst hfirst' with ⟨rfl, rfl⟩
      rw [hstart getDD children fpos hchild, hrun]
      rfl
    · exact absurd hfirst (hno before dir)
    · rcases first_begins es elem before dir hfirst p hp with ⟨c, hc⟩
      rw [hc] at hplain
      exact plain_prefix elem p c hplain
  · refine iff_of_true ⟨fun before dir hfirst => absurd hfirst (hno before dir), ?_⟩ fun q hq => ?_
    · intro _ getDD children fpos hchild
      rw [hstart getDD children fpos hchild, hrun]
      rfl
    · rcases hall q hq with ⟨c, hc⟩
      rw [hc] at hplain
      exact plain_prefix elem q c hplain
  · -- An error is neither what `get_DD` returns nor that there is no such entry.
    refine iff_of_false (fun hund => ?_) fun hcond => hbad (hcond p hreach)
    by_cases hex : ∃ before dir, First es elem before dir
    · rcases hex with ⟨before, dir, hfirst⟩
      rcases hund.first before dir hfirst with ⟨longname, hret⟩
      have hone := hret (fun _ _ _ => 1) [] 0 hnochild
      rw [hstart _ [] 0 hnochild, hrun] at hone
      rcases hcode with rfl | rfl
      · exact absurd hone (by decide)
      · exact absurd hone (by decide)
    · have hmiss := hund.missing (fun before dir hfirst => hex ⟨before, dir, hfirst⟩)
        (fun _ _ _ => 1) [] 0 hnochild
      rw [hstart _ [] 0 hnochild, hrun] at hmiss
      rcases hcode with rfl | rfl
      · exact absurd hmiss (by decide)
      · exact absurd hmiss (by decide)
  · -- Another entry is taken for the one that is looked for.
    refine iff_of_false (fun hund => ?_) fun hcond => hbad (hcond _ hreach)
    by_cases hex : ∃ before' dir', First es elem before' dir'
    · rcases hex with ⟨before', dir', hfirst⟩
      rcases hund.first before' dir' hfirst with ⟨longname', hret⟩
      have hpos := hret (fun _ pos _ => (pos : Int) + 1) [] 0 hnochild
      rw [hstart _ [] 0 hnochild, hrun] at hpos
      simp only [Option.map_some, Option.some.injEq] at hpos
      rw [if_neg (by omega), if_neg (by omega)] at hpos
      rcases first_begins es elem before' dir' hfirst _ hreach with ⟨c, hc⟩
      have hlens := congrArg List.length hc
      simp only [List.length_append, List.length_singleton] at hlens
      have hnil : c = [] := List.length_eq_zero_iff.mp (by omega)
      rw [hnil, List.append_nil] at hc
      rcases List.append_inj' hc rfl with ⟨rfl, hd⟩
      rw [(List.cons.inj hd).1] at hfirst
      exact hhit hfirst.1
    · have hmiss := hund.missing (fun before' dir' hfirst => hex ⟨before', dir', hfirst⟩)
        (fun _ _ _ => 1) [] 0 hnochild
      rw [hstart _ [] 0 hnochild, hrun] at hmiss
      exact absurd hmiss (by decide)

/-- A folder with a name of eleven characters, as many as there are in a main entry. -/
def folder (head : UInt8) : Entry :=
  { head := head, name1 := List.replicate 10 0x20, attr := 0x10, unused := 0, chksum := 0
    name2 := List.replicate 12 0, stcl := [0, 0], name3 := List.replicate 4 0
    name1_length := blanks_name1, name2_length := zeros_name2, stcl_length := zeros_stcl
    name3_length := zeros_name3 }

/-- A piece of a long name with thirteen characters. -/
def fullPiece (head : UInt8) (chksum : UInt8) : Entry :=
  { head := head, name1 := [0x61, 0, 0x61, 0, 0x61, 0, 0x61, 0, 0x61, 0], attr := 0x0f, unused := 0
    chksum := chksum, name2 := [0x61, 0, 0x61, 0, 0x61, 0, 0x61, 0, 0x61, 0, 0x61, 0]
    stcl := [0, 0], name3 := [0x61, 0, 0x61, 0]
    name1_length := rfl, name2_length := rfl, stcl_length := zeros_stcl, name3_length := rfl }

/-- Two folders. The first one has a name of 65 characters. -/
def folders : List Entry :=
  let ck := vfChksum (folder 0x41).name
  [fullPiece 0x45 ck, fullPiece 4 ck, fullPiece 3 ck, fullPiece 2 ck, fullPiece 1 ck,
    folder 0x41, folder 0x42]

/-- In a directory without long names the search ends at the right entry. -/
theorem undisturbed_short : Undisturbed [folder 0x41, folder 0x42] [0x42] := by
  refine (undisturbed_iff _ _ (by decide) (by decide)).mpr fun p hp => ?_
  -- Without pieces there is no loose sequence.
  have hnone : ∀ a l b ck k t, p = a ++ l ++ b → ¬ Loose .findxdir ck l k t := by
    intro a l b ck k t heq hl
    rcases loose_flagged _ ck l k t hl with ⟨e, rest, rfl, hldir, -⟩
    rcases hp.begins with ⟨q, hq⟩
    have hmem : e ∈ [folder 0x41, folder 0x42] := by
      rw [hq, heq]
      simp
    simp only [List.mem_cons, List.not_mem_nil, or_false] at hmem
    rcases hmem with rfl | rfl
    · exact absurd hldir.2.2 (by decide)
    · exact absurd hldir.2.2 (by decide)
  exact ⟨fun a l b ck k t heq hl => absurd hl (hnone a l b ck k t heq),
    fun a l d b k t heq _ hl => absurd hl (hnone a l (d :: b) _ k t heq),
    fun a l d b k t heq _ hl => absurd hl (hnone a l (d :: b) _ k t heq)⟩

/-- A folder with a name of 65 characters hides the next one. -/
theorem long_folder :
    (∀ getDD, vfPath2DD getDD [] none ⟨folders, 0, 0⟩ [0x42] = some ERANGE) ∧
      ¬ Undisturbed folders [0x42] := by
  have hrange : ∀ getDD, vfPath2DD getDD [] none ⟨folders, 0, 0⟩ [0x42] = some ERANGE :=
    fun _ => rfl
  have hnochild : ∀ f ∈ ([] : List Child), Child.called f [0x42] = false :=
    fun f hf => absurd hf List.not_mem_nil
  refine ⟨hrange, fun hund => ?_⟩
  by_cases hex : ∃ before dir, First folders [0x42] before dir
  · rcases hex with ⟨before, dir, hfirst⟩
    rcases hund.first before dir hfirst with ⟨longname, hret⟩
    have hone := hret (fun _ _ _ => 1) [] 0 hnochild
    rw [hrange] at hone
    exact absurd hone (by decide)
  · have hmiss := hund.missing (fun before dir hfirst => hex ⟨before, dir, hfirst⟩)
      (fun _ _ _ => 1) [] 0 hnochild
    rw [hrange] at hmiss
    exact absurd hmiss (by decide)

end Vfat

end MagiC
