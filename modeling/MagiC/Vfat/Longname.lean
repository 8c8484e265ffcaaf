import MagiC.Vfat.Readdir

/-!
# Long Names and Their Entries

Which long names `_vf_readdir` returns, and when they are the right ones.

What the reader accepts as a long name is `Loose`. It is more than a complete
sequence of pieces (`Complete`): the last pieces may be missing, and deleted
entries and main entries that the mode does not ask for may lie in between, when
their checksum is right. The reader knows no more than this about the entries it
has seen (`Tracks`), and it takes every loose sequence whose text fits its
buffer (`loose_pass`), so these are the only ways in which a long name can be
attributed wrongly.

## Main definitions

* `Attributed`: Every long name returned belongs to a complete sequence.

## Theorems

* `attributed_iff`: When long names are attributed rightly.
-/

namespace MagiC

namespace Vfat

/-! ### What the reader takes for a long name -/

/-- A sequence that the reader takes for a long name with checksum `ck`, of which
    it still expects `k` pieces, and the text so far. -/
inductive Loose (fmode : FMode) (ck : UInt8) : List Entry → Nat → List UInt8 → Prop where
  | first (e : Entry) (k : Nat) : e.IsLdir → e.Flagged → e.reldirnr = k + 1 → e.chksum = ck →
      Loose fmode ck [e] k e.ltmpname
  | next (l : List Entry) (e : Entry) (k : Nat) (t : List UInt8) : Loose fmode ck l (k + 1) t →
      e.IsLdir → ¬ e.Flagged → e.reldirnr = k + 1 → e.chksum = ck →
      Loose fmode ck (l ++ [e]) k (e.ltmpname ++ t)
  | deleted (l : List Entry) (e : Entry) (k : Nat) (t : List UInt8) : Loose fmode ck l k t →
      e.head = 0xe5 → Loose fmode ck (l ++ [e]) k t
  | filtered (l : List Entry) (e : Entry) (k : Nat) (t : List UInt8) : Loose fmode ck l k t →
      e.IsMain → fmode.selects e.attr = false → vfChksum e.name = ck →
      Loose fmode ck (l ++ [e]) k t

/-- A complete sequence of pieces: numbered `n` to 1, the first one flagged, all
    with the same checksum. -/
structure Complete (ck : UInt8) (seq : List Entry) : Prop where
  first : ∃ e rest, seq = e :: rest ∧ e.Flagged ∧ ∀ d ∈ rest, ¬ d.Flagged
  pieces : ∀ e ∈ seq, e.IsLdir ∧ e.chksum = ck
  numbered : ∀ i (h : i < seq.length), seq[i].reldirnr = seq.length - i

/-- The text of a sequence of pieces, of which the last one comes first. -/
def textOf (seq : List Entry) : List UInt8 := (seq.reverse.map Entry.ltmpname).flatten

theorem readLdir_taken (pos : Nat) (e : Entry) (st st1 : Scan)
    (hexp : expected pos e st = some st1)
    (hfit : (e.ltmpname ++ st1.nxt_longname).length ≤ 299) :
    readLdir pos e st = .weiter (st1.take e) := by
  unfold readLdir
  rw [hexp]
  rw [List.length_append] at hfit
  simp only
  rw [if_neg (by omega)]

/-- The state of the reader behind a sequence that begins at `pos`. -/
structure Reading (ck : UInt8) (pos k : Nat) (t : List UInt8) (st : Scan) : Prop where
  longcount : st.longcount = k
  startpos : st.startpos = pos
  act_chksum : st.act_chksum = ck
  nxt_longname : st.nxt_longname = t

theorem expected_next (ck : UInt8) (pos k p : Nat) (t : List UInt8) (st : Scan) (e : Entry)
    (hst : Reading ck pos (k + 1) t st) (hflag : ¬ e.Flagged) (hnr : e.reldirnr = k + 1)
    (hck : e.chksum = ck) : expected p e st = some st := by
  have hcount := hst.longcount
  unfold expected
  rw [if_neg hflag, if_neg (by omega), if_neg]
  rw [hst.act_chksum, hck, hnr, hcount]
  simp only [ne_eq, not_true_eq_false, or_self, not_false_eq_true]

/-- Walking over a loose sequence puts its text together, whatever was before. -/
theorem loose_pass (fmode : FMode) (ck : UInt8) (l : List Entry) (k : Nat) (t : List UInt8)
    (hl : Loose fmode ck l k t) (ht : t.length ≤ 299) (pos : Nat) (st : Scan) :
    ∃ st', pass fmode pos l st = some st' ∧ Reading ck pos k t st' := by
  induction hl with
  | first e k he hflag hnr hck =>
    have hread := readLdir_taken pos e st _ (expected_flagged pos e st hflag)
      (by rw [List.append_nil]; exact ht)
    have hstep : readEntry fmode pos e st = _ := (readEntry_ldir fmode pos e st he).trans hread
    refine ⟨_, pass_snoc fmode [] e pos st st _ rfl hstep, ?_, rfl, hck, List.append_nil _⟩
    simp only [Scan.take, hnr]
    omega
  | next l e k t _ he hflag hnr hck ih =>
    rw [List.length_append] at ht
    rcases ih (by omega) with ⟨st1, hpass, hst⟩
    have hexp := expected_next ck pos k (pos + 32 * l.length) t st1 e hst hflag hnr hck
    have hread := readLdir_taken (pos + 32 * l.length) e st1 st1 hexp
      (by rw [hst.nxt_longname, List.length_append]; exact ht)
    have hstep := (readEntry_ldir fmode (pos + 32 * l.length) e st1 he).trans hread
    refine ⟨_, pass_snoc fmode l e pos st st1 _ hpass hstep, ?_, hst.startpos, hst.act_chksum, ?_⟩
    · simp only [Scan.take, hst.longcount]
      omega
    · simp only [Scan.take, hst.nxt_longname]
  | deleted l e k t _ he ih =>
    rcases ih ht with ⟨st1, hpass, hst⟩
    exact ⟨st1, pass_snoc fmode l e pos st st1 st1 hpass (readEntry_deleted fmode _ e st1 he), hst⟩
  | filtered l e k t _ he hsel hck ih =>
    rcases ih ht with ⟨st1, hpass, hst⟩
    refine ⟨st1, pass_snoc fmode l e pos st st1 st1 hpass ?_, hst⟩
    rw [readEntry_main fmode _ e st1 he]
    unfold readMain
    rw [hst.act_chksum, hck]
    simp only [ne_eq, not_true_eq_false, and_false, if_false, hsel, Bool.false_eq_true]

/-- What the reader knows of the entries it has seen: when it has a text, it is
    that of a loose sequence directly before its position. -/
def Tracks (fmode : FMode) (seen : List Entry) (st : Scan) : Prop :=
  ∀ k : Nat, st.longcount = k →
    ∃ a l, seen = a ++ l ∧ Loose fmode st.act_chksum l k st.nxt_longname

theorem tracks_fehler (fmode : FMode) (seen : List Entry) (st : Scan) :
    Tracks fmode seen st.fehler := by
  intro k hk
  simp only [Scan.fehler] at hk
  omega

theorem tracks_init (fmode : FMode) : Tracks fmode [] Scan.init := by
  intro k hk
  simp only [Scan.init] at hk
  omega

theorem tracks_step (fmode : FMode) (pos : Nat) (seen : List Entry) (e : Entry) (st st' : Scan)
    (hst : Tracks fmode seen st) (h : readEntry fmode pos e st = .weiter st') :
    Tracks fmode (seen ++ [e]) st' := by
  cases h ▸ readEntry_reads fmode pos e st with
  | deleted hdel =>
    intro k hk
    rcases hst k hk with ⟨a, l, hseen, hl⟩
    exact ⟨a, l ++ [e], by rw [hseen, List.append_assoc], .deleted l e k _ hl hdel⟩
  | missed => exact tracks_fehler fmode _ _
  | taken st1 he hexp =>
    intro k hk
    rcases expected_cases pos e st st1 hexp with ⟨hflag, rfl⟩ | ⟨hflag, _, hnr, hchk, rfl⟩
    · -- The number is not 0, since one less is still not negative.
      simp only [Scan.take] at hk
      refine ⟨seen, [e], rfl, ?_⟩
      have hfirst : Loose fmode e.chksum [e] k e.ltmpname :=
        Loose.first e k he hflag (by omega) rfl
      simp only [Scan.take, List.append_nil]
      exact hfirst
    · simp only [Scan.take] at hk
      rcases hst (k + 1) (by omega) with ⟨a, l, hseen, hl⟩
      refine ⟨a, l ++ [e], by rw [hseen, List.append_assoc], ?_⟩
      exact .next l e k _ hl he hflag (by omega) hchk
  | skipped _ he hsel hck =>
    rcases hck with rfl | ⟨rfl, hck⟩
    · exact tracks_fehler fmode _ _
    · intro k hk
      rcases hst k hk with ⟨a, l, hseen, hl⟩
      exact ⟨a, l ++ [e], by rw [hseen, List.append_assoc],
        .filtered l e k _ hl he hsel (hck (by omega))⟩

/-- What the reader knows is the text of a loose sequence. -/
theorem pass_tracks (fmode : FMode) (es seen : List Entry) (pos : Nat) (st st' : Scan)
    (hst : Tracks fmode seen st) (h : pass fmode pos es st = some st') :
    Tracks fmode (seen ++ es) st' := by
  induction es generalizing seen pos st with
  | nil =>
    simp only [pass, Option.some.injEq] at h
    rw [← h, List.append_nil]
    exact hst
  | cons e es ih =>
    rw [pass] at h
    cases hr : readEntry fmode pos e st with
    | weiter st1 =>
      rw [hr] at h
      rw [show seen ++ e :: es = (seen ++ [e]) ++ es by rw [List.append_assoc]; rfl]
      exact ih _ _ _ (tracks_step fmode pos seen e st st1 hst hr) h
    | ret doserr st1 =>
      rw [hr] at h
      simp only [reduceCtorEq] at h
    | fertig st1 =>
      rw [hr] at h
      simp only [reduceCtorEq] at h

/-! ### What the reader walks over -/

theorem unic2ibm_length (unicode : List UInt8) :
    2 * (unic2ibm unicode).length ≤ unicode.length := by
  fun_induction unic2ibm unicode with
  | case1 lo hi unicode hend => simp only [List.length_nil, Nat.mul_zero, Nat.zero_le]
  | case2 lo hi unicode c hc ih =>
    simp only [List.length_cons]
    omega
  | case3 unicode hshort => simp only [List.length_nil, Nat.mul_zero, Nat.zero_le]

theorem ltmpname_length (e : Entry) : e.ltmpname.length ≤ 13 := by
  have h1 := unic2ibm_length e.name1
  have h2 := unic2ibm_length e.name2
  have h3 := unic2ibm_length e.name3
  rw [e.name1_length] at h1
  rw [e.name2_length] at h2
  rw [e.name3_length] at h3
  calc e.ltmpname.length
      ≤ (unic2ibm e.name1 ++ unic2ibm e.name2 ++ unic2ibm e.name3).length :=
        (List.takeWhile_prefix _).length_le
    _ ≤ 13 := by
        rw [List.length_append, List.length_append]
        omega

/-- Entries that the search walks over: none of them is the end of the directory
    or asked for, and no text is too long for the buffer. -/
structure Passed (fmode : FMode) (seen : List Entry) : Prop where
  live : ∀ e ∈ seen, e.head ≠ 0
  unselected : ∀ e ∈ seen, e.IsMain → fmode.selects e.attr = false
  fits : ∀ a l b ck k t, seen = a ++ l ++ b → Loose fmode ck l k t → t.length ≤ 299

theorem passed_step (fmode : FMode) (pos : Nat) (seen es : List Entry) (e : Entry) (st : Scan)
    (hst : Tracks fmode seen st) (hp : Passed fmode (seen ++ e :: es)) :
    ∃ st', readEntry fmode pos e st = .weiter st' := by
  have hmem : e ∈ seen ++ e :: es := List.mem_append_right _ List.mem_cons_self
  have h0 := hp.live e hmem
  by_cases hdel : e.head = 0xe5
  · exact ⟨st, readEntry_deleted fmode pos e st hdel⟩
  by_cases hattr : e.attr = 0x0f
  · have he : e.IsLdir := ⟨h0, hdel, hattr⟩
    rw [readEntry_ldir fmode pos e st he]
    cases hexp : expected pos e st with
    | none =>
      refine ⟨st.fehler, ?_⟩
      unfold readLdir
      rw [hexp]
    | some st1 =>
      refine ⟨_, readLdir_taken pos e st st1 hexp ?_⟩
      rcases expected_cases pos e st st1 hexp with ⟨_, rfl⟩ | ⟨hflag, hpos, hnr, hck, rfl⟩
      · have hlen := ltmpname_length e
        simp only [List.append_nil]
        omega
      · -- The text together with the piece is that of a loose sequence.
        obtain ⟨k, hk⟩ : ∃ k : Nat, st1.longcount = (k + 1 : Nat) :=
          ⟨st1.longcount.toNat - 1, by omega⟩
        rcases hst (k + 1) hk with ⟨a, l, hseen, hl⟩
        refine hp.fits a (l ++ [e]) es st1.act_chksum k _ ?_
          (.next l e k _ hl he hflag (by omega) hck)
        rw [hseen]
        simp only [List.append_assoc, List.cons_append, List.nil_append]
  · have he : e.IsMain := ⟨h0, hdel, hattr⟩
    rw [readEntry_main fmode pos e st he]
    unfold readMain
    simp only [hp.unselected e hmem he, Bool.false_eq_true, if_false]
    exact ⟨_, rfl⟩

theorem passed_pass (fmode : FMode) (es seen : List Entry) (pos : Nat) (st : Scan)
    (hst : Tracks fmode seen st) (hp : Passed fmode (seen ++ es)) :
    ∃ st', pass fmode pos es st = some st' := by
  induction es generalizing seen pos st with
  | nil => exact ⟨st, rfl⟩
  | cons e es ih =>
    rcases passed_step fmode pos seen es e st hst hp with ⟨st1, hr⟩
    have hst1 := tracks_step fmode pos seen e st st1 hst hr
    rw [show seen ++ e :: es = (seen ++ [e]) ++ es by rw [List.append_assoc]; rfl] at hp
    rcases ih (seen ++ [e]) (pos + 32) st1 hst1 hp with ⟨st', hst'⟩
    refine ⟨st', ?_⟩
    rw [pass, hr]
    exact hst'

theorem loose_fits (fmode : FMode) (ck : UInt8) (l : List Entry) (k : Nat) (t : List UInt8)
    (hl : Loose fmode ck l k t) (pos : Nat) (st st' : Scan)
    (h : pass fmode pos l st = some st') : t.length ≤ 299 := by
  induction hl generalizing st' with
  | first e k he hflag hnr hck =>
    have hlen := ltmpname_length e
    omega
  | next l e k t hl he hflag hnr hck ih =>
    rw [pass_append] at h
    cases h1 : pass fmode pos l st with
    | none =>
      rw [h1] at h
      simp only [Option.bind_none, reduceCtorEq] at h
    | some st1 =>
      rw [h1] at h
      have ht := ih st1 h1
      rcases loose_pass fmode ck l (k + 1) t hl ht pos st with ⟨st2, h2, hst2⟩
      rw [h1, Option.some.injEq] at h2
      subst h2
      simp only [Option.bind_some, pass, readEntry_ldir fmode _ e st1 he, readLdir] at h
      rw [expected_next ck pos k _ t st1 e hst2 hflag hnr hck] at h
      simp only [hst2.nxt_longname] at h
      by_cases hfit : 299 < t.length + e.ltmpname.length
      · rw [if_pos hfit] at h
        simp only [reduceCtorEq] at h
      · rw [List.length_append]
        omega
  | deleted l e k t hl he ih =>
    rw [pass_append] at h
    cases h1 : pass fmode pos l st with
    | none =>
      rw [h1] at h
      simp only [Option.bind_none, reduceCtorEq] at h
    | some st1 => exact ih st1 h1
  | filtered l e k t hl he hsel hck ih =>
    rw [pass_append] at h
    cases h1 : pass fmode pos l st with
    | none =>
      rw [h1] at h
      simp only [Option.bind_none, reduceCtorEq] at h
    | some st1 => exact ih st1 h1

/-- Entries that were walked over were such entries. -/
theorem pass_passed (fmode : FMode) (es : List Entry) (pos : Nat) (st st' : Scan)
    (h : pass fmode pos es st = some st') : Passed fmode es := by
  have hall : ∀ e ∈ es, e.head ≠ 0 ∧ (e.IsMain → fmode.selects e.attr = false) := by
    induction es generalizing pos st with
    | nil => exact fun e he => absurd he List.not_mem_nil
    | cons d es ih =>
      rw [pass] at h
      cases hr : readEntry fmode pos d st with
      | weiter st1 =>
        rw [hr] at h
        intro e he
        rcases List.mem_cons.mp he with rfl | he
        · cases hr ▸ readEntry_reads fmode pos e st with
          | deleted hdel => exact ⟨by rw [hdel]; decide, fun hm => absurd hdel hm.2.1⟩
          | missed hl => exact ⟨hl.1, fun hm => absurd hl.2.2 hm.2.2⟩
          | taken _ hl => exact ⟨hl.1, fun hm => absurd hl.2.2 hm.2.2⟩
          | skipped _ hm hsel => exact ⟨hm.1, fun _ => hsel⟩
        · exact ih _ _ h e he
      | ret doserr st1 =>
        rw [hr] at h
        simp only [reduceCtorEq] at h
      | fertig st1 =>
        rw [hr] at h
        simp only [reduceCtorEq] at h
  refine ⟨fun e he => (hall e he).1, fun e he => (hall e he).2, ?_⟩
  intro a l b ck k t hes hl
  rw [hes, pass_append, pass_append] at h
  cases ha : pass fmode pos a st with
  | none =>
    rw [ha] at h
    simp only [Option.bind_none, reduceCtorEq] at h
  | some st1 =>
    rw [ha, Option.bind_some] at h
    cases hb : pass fmode (pos + 32 * a.length) l st1 with
    | none =>
      rw [hb] at h
      simp only [Option.bind_none, reduceCtorEq] at h
    | some st2 => exact loose_fits fmode ck l k t hl _ st1 st2 hb

/-! ### Complete sequences -/

theorem textOf_snoc (l : List Entry) (e : Entry) : textOf (l ++ [e]) = e.ltmpname ++ textOf l := by
  simp only [textOf, List.reverse_append, List.reverse_cons, List.reverse_nil, List.nil_append,
    List.singleton_append, List.map_cons, List.flatten_cons]

theorem loose_flagged (fmode : FMode) (ck : UInt8) (l : List Entry) (k : Nat) (t : List UInt8)
    (hl : Loose fmode ck l k t) :
    ∃ e rest, l = e :: rest ∧ e.IsLdir ∧ e.Flagged ∧ ∀ d ∈ rest, d.IsLdir → ¬ d.Flagged := by
  have hsnoc : ∀ (l : List Entry) (e : Entry),
      (∃ d rest, l = d :: rest ∧ d.IsLdir ∧ d.Flagged ∧ ∀ x ∈ rest, x.IsLdir → ¬ x.Flagged) →
      (e.IsLdir → ¬ e.Flagged) →
      ∃ d rest, l ++ [e] = d :: rest ∧ d.IsLdir ∧ d.Flagged ∧ ∀ x ∈ rest, x.IsLdir →
        ¬ x.Flagged := by
    rintro l e ⟨d, rest, rfl, hd, hflag, hrest⟩ he
    refine ⟨d, rest ++ [e], rfl, hd, hflag, fun x hx hldir => ?_⟩
    rcases List.mem_append.mp hx with hx | hx
    · exact hrest x hx hldir
    · rw [List.mem_singleton.mp hx] at hldir ⊢
      exact he hldir
  induction hl with
  | first e k he hflag _ _ =>
    exact ⟨e, [], rfl, he, hflag, fun d hd => absurd hd List.not_mem_nil⟩
  | next l e k t _ _ hflag _ _ ih => exact hsnoc l e ih fun _ => hflag
  | deleted l e k t _ hdel ih => exact hsnoc l e ih fun hldir => absurd hdel hldir.2.1
  | filtered l e k t _ hmain _ _ ih => exact hsnoc l e ih fun hldir => absurd hldir.2.2 hmain.2.2

theorem loose_pieces (fmode : FMode) (ck : UInt8) (l : List Entry) (k : Nat) (t : List UInt8)
    (hl : Loose fmode ck l k t) (hall : ∀ e ∈ l, e.IsLdir) :
    t = textOf l ∧ (∀ e ∈ l, e.chksum = ck) ∧
      ∀ i (h : i < l.length), l[i].reldirnr = l.length + k - i := by
  induction hl with
  | first e k _ _ hnr hck =>
    refine ⟨(List.append_nil _).symm, fun d hd => ?_, fun i hi => ?_⟩
    · rw [List.mem_singleton.mp hd]
      exact hck
    · have hi0 : i = 0 := Nat.lt_one_iff.mp hi
      subst hi0
      simp only [List.getElem_cons_zero, List.length_singleton, hnr]
      omega
  | next l e k t _ _ _ hnr hck ih =>
    rcases ih fun d hd => hall d (List.mem_append_left _ hd) with ⟨ht, hcks, hnrs⟩
    refine ⟨?_, fun d hd => ?_, fun i hi => ?_⟩
    · rw [textOf_snoc, ht]
    · rcases List.mem_append.mp hd with hd | hd
      · exact hcks d hd
      · rw [List.mem_singleton.mp hd]
        exact hck
    · rw [List.length_append, List.length_singleton] at hi ⊢
      by_cases hlast : i < l.length
      · rw [List.getElem_append_left hlast, hnrs i hlast]
        omega
      · rw [List.getElem_append_right (by omega)]
        simp only [List.getElem_singleton, hnr]
        omega
  | deleted l e k t _ hdel _ =>
    exact absurd hdel (hall e (List.mem_append_right _ List.mem_cons_self)).2.1
  | filtered l e k t _ hmain _ _ _ =>
    exact absurd (hall e (List.mem_append_right _ List.mem_cons_self)).2.2 hmain.2.2

theorem loose_complete (fmode : FMode) (ck : UInt8) (l : List Entry) (t : List UInt8)
    (hl : Loose fmode ck l 0 t) (hall : ∀ e ∈ l, e.IsLdir) : Complete ck l ∧ t = textOf l := by
  rcases loose_pieces fmode ck l 0 t hl hall with ⟨ht, hck, hnr⟩
  rcases loose_flagged fmode ck l 0 t hl with ⟨e, rest, rfl, _, hflag, hrest⟩
  exact ⟨⟨⟨e, rest, rfl, hflag, fun d hd => hrest d hd (hall d (List.mem_cons_of_mem _ hd))⟩,
    fun d hd => ⟨hall d hd, hck d hd⟩, hnr⟩, ht⟩

theorem complete_loose_take (fmode : FMode) (ck : UInt8) (seq : List Entry)
    (hseq : Complete ck seq) (n : Nat) (hn : n < seq.length) :
    Loose fmode ck (seq.take (n + 1)) (seq.length - (n + 1)) (textOf (seq.take (n + 1))) := by
  induction n with
  | zero =>
    rcases hseq.first with ⟨e, rest, rfl, hflag, _⟩
    have hp := hseq.pieces e List.mem_cons_self
    have hnr := hseq.numbered 0 hn
    have htext : textOf [e] = e.ltmpname := by
      rw [textOf, List.reverse_singleton, List.map_singleton, List.flatten_singleton]
    simp only [Nat.zero_add, List.take_succ_cons, List.take_zero, htext]
    rw [List.getElem_cons_zero] at hnr
    exact .first e _ hp.1 hflag (by omega) hp.2
  | succ n ih =>
    have htake : seq.take (n + 1 + 1) = seq.take (n + 1) ++ [seq[n + 1]] := by
      rw [List.take_add_one, List.getElem?_eq_getElem hn]
      rfl
    have hp := hseq.pieces seq[n + 1] (List.getElem_mem hn)
    have hnr := hseq.numbered (n + 1) hn
    have hflag : ¬ seq[n + 1].Flagged := by
      rcases hseq.first with ⟨e, rest, rfl, _, hrest⟩
      exact hrest _ (List.getElem_mem _)
    have hloose := ih (by omega)
    rw [show seq.length - (n + 1) = seq.length - (n + 1 + 1) + 1 by omega] at hloose
    rw [htake, textOf_snoc]
    exact .next _ _ _ _ hloose hp.1 hflag (by omega) hp.2

theorem complete_loose (fmode : FMode) (ck : UInt8) (seq : List Entry) (hseq : Complete ck seq) :
    Loose fmode ck seq 0 (textOf seq) := by
  have hpos : 0 < seq.length := by
    rcases hseq.first with ⟨e, rest, rfl, _⟩
    exact Nat.succ_pos _
  have h := complete_loose_take fmode ck seq hseq (seq.length - 1) (by omega)
  rw [show seq.length - 1 + 1 = seq.length by omega, List.take_length, Nat.sub_self] at h
  exact h

theorem complete_unique (fmode : FMode) (ck ck' : UInt8) (a a' l seq : List Entry) (k : Nat)
    (t : List UInt8) (hl : Loose fmode ck l k t) (hseq : Complete ck' seq)
    (heq : a ++ l = a' ++ seq) : seq = l := by
  rcases loose_flagged fmode ck l k t hl with ⟨e, rest, hle, he, hflag, hrest⟩
  rcases hseq.first with ⟨e', rest', hse, hflag', hrest'⟩
  rcases List.append_eq_append_iff.mp heq with ⟨c, _, hc⟩ | ⟨c, _, hc⟩
  · -- The loose sequence is the longer one: its rest has no flagged piece.
    cases c with
    | nil => exact hc.symm
    | cons d c =>
      rw [hle, List.cons_append] at hc
      have hmem : e' ∈ rest := by
        rw [(List.cons.inj hc).2, hse]
        exact List.mem_append_right _ List.mem_cons_self
      have hldir := (hseq.pieces e' (by rw [hse]; exact List.mem_cons_self)).1
      exact absurd hflag' (hrest e' hmem hldir)
  · cases c with
    | nil => exact hc
    | cons d c =>
      rw [hse, List.cons_append] at hc
      have hmem : e ∈ rest' := by
        rw [(List.cons.inj hc).2, hle]
        exact List.mem_append_right _ List.mem_cons_self
      exact absurd hflag (hrest' e hmem)

theorem readMain_fertig (fmode : FMode) (pos pos' k : Nat) (t : List UInt8) (dir : Entry)
    (st : Scan) (hdir : dir.IsMain) (hsel : fmode.selects dir.attr = true)
    (hst : Reading (vfChksum dir.name) pos k t st) :
    readEntry fmode pos' dir st = .fertig st := by
  rw [readEntry_main fmode pos' dir st hdir]
  unfold readMain
  rw [hst.act_chksum]
  simp only [ne_eq, not_true_eq_false, and_false, if_false, hsel, if_true]

/-! ### When long names are attributed rightly -/

/-- Every entry that a call returns with a long name that is not empty has this
    name from a complete sequence of pieces directly before it. -/
def Attributed (fd : Fd) (fmode : FMode) : Prop :=
  ∀ lbuflen dir name, (vfReaddir fd (some lbuflen) true fmode).ret = .ok dir →
    (vfReaddir fd (some lbuflen) true fmode).lbuf = some name → name ≠ [] →
    ∃ a seq b, fd.entries.drop (fd.fpos / 32) = a ++ seq ++ dir :: b ∧
      (vfReaddir fd (some lbuflen) true fmode).fpos = fd.fpos + 32 * (a.length + seq.length + 1) ∧
      Complete (vfChksum dir.name) seq ∧ name = textOf seq

/-- A main entry that the search comes to, and before it a sequence with its
    checksum of which a piece is missing or that another entry interrupts. -/
def Misleading (fmode : FMode) (es : List Entry) : Prop :=
  ∃ a l dir b k t, es = a ++ l ++ dir :: b ∧ Passed fmode (a ++ l) ∧
    Loose fmode (vfChksum dir.name) l k t ∧ t ≠ [] ∧ dir.IsMain ∧
    fmode.selects dir.attr = true ∧ (k ≠ 0 ∨ ∃ e ∈ l, ¬ e.IsLdir)

theorem vfReaddir_loose (fd : Fd) (fmode : FMode) (a l b : List Entry) (dir : Entry) (k : Nat)
    (t : List UInt8) (lbuflen : Int) (shortbuf : Bool)
    (hes : fd.entries.drop (fd.fpos / 32) = a ++ l ++ dir :: b)
    (ha : ∃ st, pass fmode fd.fpos a Scan.init = some st)
    (hl : Loose fmode (vfChksum dir.name) l k t) (ht : t.length ≤ 299)
    (hlen : (t.length : Int) < lbuflen) (hdir : dir.IsMain)
    (hsel : fmode.selects dir.attr = true) :
    vfReaddir fd (some lbuflen) shortbuf fmode
      = ⟨.ok dir, some t, if shortbuf then some (ext83 dir.name) else none,
          (fd.fpos + 32 * a.length : Nat), fd.fpos + 32 * (a.length + l.length + 1)⟩ := by
  rcases ha with ⟨st, hst⟩
  rcases loose_pass fmode _ l k t hl ht (fd.fpos + 32 * a.length) st with ⟨st', hpass, hread⟩
  have hcount := hread.longcount
  have hloop : readLoop fd.ende fmode fd.fpos (fd.entries.drop (fd.fpos / 32)) Scan.init
      = .fertig dir st' (fd.fpos + 32 * (a.length + l.length + 1)) := by
    rw [hes, List.append_assoc, readLoop_pass _ fmode a _ _ _ st hst,
      readLoop_pass _ fmode l _ _ _ st' hpass, readLoop,
      readMain_fertig fmode _ _ k t dir st' hdir hsel hread]
    simp only [LoopEnd.fertig.injEq, true_and]
    omega
  unfold vfReaddir
  rw [hloop]
  simp only [hread.nxt_longname, hread.startpos]
  rw [if_pos (by omega), if_neg (by omega)]

theorem vfReaddir_name (fd : Fd) (fmode : FMode) (lbuflen : Int) (dir : Entry)
    (name : List UInt8) (hret : (vfReaddir fd (some lbuflen) true fmode).ret = .ok dir)
    (hbuf : (vfReaddir fd (some lbuflen) true fmode).lbuf = some name) (hne : name ≠ []) :
    ∃ a l b k, fd.entries.drop (fd.fpos / 32) = a ++ l ++ dir :: b ∧
      (vfReaddir fd (some lbuflen) true fmode).fpos = fd.fpos + 32 * (a.length + l.length + 1) ∧
      Passed fmode (a ++ l) ∧ Loose fmode (vfChksum dir.name) l k name ∧ dir.IsMain ∧
      fmode.selects dir.attr = true := by
  unfold vfReaddir at hret hbuf ⊢
  cases hloop : readLoop fd.ende fmode fd.fpos (fd.entries.drop (fd.fpos / 32)) Scan.init with
  | ret doserr st fpos =>
    rw [hloop] at hret
    simp only [reduceCtorEq] at hret
  | fertig d st fpos =>
    rw [hloop] at hret hbuf
    simp only [if_true] at hret hbuf ⊢
    by_cases hcount : 0 ≤ st.longcount
    · rw [if_pos hcount] at hret hbuf ⊢
      by_cases hlen : lbuflen < st.nxt_longname.length + 1
      · rw [if_pos hlen] at hret
        simp only [reduceCtorEq] at hret
      · rw [if_neg hlen] at hret hbuf ⊢
        simp only [Except.ok.injEq, Option.some.injEq] at hret hbuf
        subst hret
        rcases readLoop_fertig _ fmode _ _ _ _ _ _ hloop with ⟨es, b, st1, hes, hpass, hr, hpos⟩
        rcases fertig_cases fmode _ d st1 st hr with ⟨hmain, hsel, hst⟩
        rcases hst hcount with ⟨rfl, hck⟩
        have htracks := pass_tracks fmode es [] _ _ st (tracks_init fmode) hpass
        rcases htracks st.longcount.toNat (by omega) with ⟨a, l, hal, hl⟩
        rw [List.nil_append] at hal
        subst hal
        rw [← hck, hbuf] at hl
        rw [List.length_append] at hpos
        exact ⟨a, l, b, _, hes, hpos, pass_passed fmode _ _ _ _ hpass, hl, hmain, hsel⟩
    · rw [if_neg hcount] at hbuf
      simp only [Option.some.injEq] at hbuf
      exact absurd hbuf.symm hne

/-- Long names are attributed rightly if and only if there is no misleading sequence
    before an entry that the search comes to. -/
theorem attributed_iff (fd : Fd) (fmode : FMode) :
    Attributed fd fmode ↔ ¬ Misleading fmode (fd.entries.drop (fd.fpos / 32)) := by
  constructor
  · rintro hatt ⟨a, l, dir, b, k, t, hes, hpassed, hl, hne, hdir, hsel, hbad⟩
    have ht : t.length ≤ 299 :=
      hpassed.fits a l [] _ k t (List.append_nil _).symm hl
    rcases passed_pass fmode (a ++ l) [] fd.fpos Scan.init (tracks_init fmode)
      (by rw [List.nil_append]; exact hpassed) with ⟨st, hst⟩
    have ha : ∃ st, pass fmode fd.fpos a Scan.init = some st := by
      rw [pass_append] at hst
      cases hpa : pass fmode fd.fpos a Scan.init with
      | none =>
        rw [hpa] at hst
        simp only [Option.bind_none, reduceCtorEq] at hst
      | some st1 => exact ⟨st1, rfl⟩
    have hcall := vfReaddir_loose fd fmode a l b dir k t 300 true hes ha hl ht (by omega) hdir hsel
    rcases hatt 300 dir t (by rw [hcall]) (by rw [hcall]) hne with
      ⟨a', seq, b', hes', hpos, hseq, _⟩
    -- Both decompositions end at the entry that is returned.
    rw [hcall] at hpos
    simp only at hpos
    have hlen : (a ++ l).length = (a' ++ seq).length := by
      rw [List.length_append, List.length_append]
      omega
    have heq : a ++ l = a' ++ seq := (List.append_inj (hes.symm.trans hes') hlen).1
    have hsl := complete_unique fmode _ _ a a' l seq k t hl hseq heq
    subst hsl
    have hall : ∀ e ∈ seq, e.IsLdir := fun e he => (hseq.pieces e he).1
    rcases hbad with hk | ⟨e, he, hnot⟩
    · rcases hseq.first with ⟨e, rest, rfl, _⟩
      have h1 := (loose_pieces fmode _ _ k t hl hall).2.2 0 (Nat.succ_pos _)
      have h2 := hseq.numbered 0 (Nat.succ_pos _)
      simp only [List.length_cons] at h1 h2
      omega
    · exact hnot (hall e he)
  · intro hgood lbuflen dir name hret hbuf hne
    rcases vfReaddir_name fd fmode lbuflen dir name hret hbuf hne with
      ⟨a, l, b, k, hes, hpos, hpassed, hl, hdir, hsel⟩
    have hk : k = 0 := Classical.byContradiction fun hk =>
      hgood ⟨a, l, dir, b, k, name, hes, hpassed, hl, hne, hdir, hsel, Or.inl hk⟩
    have hall : ∀ e ∈ l, e.IsLdir := fun e he => Classical.byContradiction fun hnot =>
      hgood ⟨a, l, dir, b, k, name, hes, hpassed, hl, hne, hdir, hsel, Or.inr ⟨e, he, hnot⟩⟩
    subst hk
    rcases loose_complete fmode _ l name hl hall with ⟨hcomp, htext⟩
    exact ⟨a, l, b, hes, hpos, hcomp, htext⟩

/-- The second of two pieces, and the only one that is left. -/
def leftPiece (chksum : UInt8) : Entry :=
  { head := 0x42, name1 := [0x41, 0, 0, 0] ++ List.replicate 6 0xff, attr := 0x0f, unused := 0
    chksum := chksum, name2 := List.replicate 12 0xff, stcl := [0, 0]
    name3 := List.replicate 4 0xff, name1_length := rfl, name2_length := ones_name2
    stcl_length := zeros_stcl, name3_length := ones_name3 }

def shortFile : Entry :=
  { head := 0x42, name1 := List.replicate 10 0x20, attr := 0, unused := 0, chksum := 0
    name2 := List.replicate 12 0, stcl := [0, 0], name3 := List.replicate 4 0
    name1_length := blanks_name1, name2_length := zeros_name2, stcl_length := zeros_stcl
    name3_length := zeros_name3 }

/-- A name of which the first piece is missing is returned all the same. -/
theorem truncated_name :
    ¬ Attributed ⟨[leftPiece (vfChksum shortFile.name), shortFile], 0, 0⟩ .findall := by
  intro hatt
  rcases hatt 300 shortFile [0x41] rfl rfl (by decide) with ⟨a, seq, b, hes, hpos, hseq, _⟩
  have hlen : 64 = 0 + 32 * (a.length + seq.length + 1) := hpos
  rcases hseq.first with ⟨e, rest, rfl, _⟩
  have ha : a = [] := List.length_eq_zero_iff.mp (by rw [List.length_cons] at hlen; omega)
  have hrest : rest = [] := List.length_eq_zero_iff.mp (by rw [List.length_cons] at hlen; omega)
  subst ha
  subst hrest
  have he : e = leftPiece (vfChksum shortFile.name) := (List.cons.inj hes).1.symm
  -- Its number is two, and it is the only piece.
  have hnr := hseq.numbered 0 (Nat.succ_pos _)
  subst he
  exact absurd hnr (by decide)

end Vfat

end MagiC
