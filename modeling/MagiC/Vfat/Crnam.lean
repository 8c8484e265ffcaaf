import MagiC.Vfat.Longname

/-!
# Writing a Name

`vf_crnam`, which writes the pieces of a long name and the main entry behind
them at the position of the directory file.

The pieces are written from the last one down. One buffer serves for all of
them: only the last piece of the name can leave a part of it as it was, and this
one is written first, when the buffer still holds `0xff`. `putName_ltmpname` says
that each piece yields thirteen characters of the name, or what is left of it,
and `vfCrnam_spec` that what was written is a complete sequence with the text of
the name.

## Main definitions

* `crLoop`: The loop of `vf_crnam`.

## Theorems

* `crLoop_spec`: The pieces that the loop writes.
-/

namespace MagiC

namespace Vfat

/-- What a directory's volume does: whether it has long names, what `p_extfd`
    returns for a directory of a number of entries, an error or the number of
    entries it adds, and what is found in a cluster that is added by writing, none
    when the disk is full. -/
structure Vol where
  d_flags : Bool
  extfd : Nat → Except Int Nat
  stale : Nat → Except Int (List Entry)
  extfd_neg : ∀ n doserr, extfd n = .error doserr → doserr < 0
  stale_neg : ∀ n doserr, stale n = .error doserr → doserr < 0

/-- `p_fwrite` of an entry, with the number of bytes written or an error. -/
def pFwrite (vol : Vol) (fd : Fd) (dir : Entry) : Fd × Int :=
  let k := fd.fpos / 32
  if k < fd.entries.length then
    ({ fd with entries := fd.entries.set k dir, fpos := fd.fpos + 32 }, 32)
  else
    match vol.stale fd.entries.length with
    | .error doserr => (fd, doserr)
    | .ok [] => (fd, 0)
    | .ok (_ :: rest) =>
      ({ fd with entries := fd.entries ++ dir :: rest, fpos := fd.fpos + 32 }, 32)

/-- Write a piece of a name into the fields of an entry. `i` is the number of
    characters left, with the end mark. -/
def Entry.putName (ldir : Entry) (nxts : List UInt8) (i : Int) : Entry :=
  let r1 := ibm2unic nxts ldir.name1 5
  let r2 := if 0 < i - 5 then ibm2unic r1.1 ldir.name2 6 else (r1.1, ldir.name2)
  let r3 := if 0 < i - 5 ∧ 0 < i - 5 - 6 then ibm2unic r2.1 ldir.name3 2 else (r2.1, ldir.name3)
  { ldir with
    name1 := r1.2, name2 := r2.2, name3 := r3.2
    name1_length := ibm2unic_length _ _ 5 ldir.name1_length
    name2_length := by
      by_cases h : 0 < i - 5
      · simp only [r2, if_pos h]
        exact ibm2unic_length _ _ 6 ldir.name2_length
      · simp only [r2, if_neg h]
        exact ldir.name2_length
    name3_length := by
      by_cases h : 0 < i - 5 ∧ 0 < i - 5 - 6
      · simp only [r3, if_pos h]
        exact ibm2unic_length _ _ 2 ldir.name3_length
      · simp only [r3, if_neg h]
        exact ldir.name3_length }

def Entry.putHead (ldir : Entry) (head : UInt8) : Entry := { ldir with head := head }

/-- The loop of `vf_crnam` over the pieces that are left, with the error of a
    write. -/
def crLoop (vol : Vol) (longname : List UInt8) : Nat → Entry → Fd → Fd × Option Int
  | 0, _, fd => (fd, none)
  | ndirs + 1, ldir, fd =>
    let nxts := longname.drop (13 * ndirs)
    let i := (longname.length : Int) + 1 - 13 * ndirs
    let ldir := ldir.putName nxts i
    let r := pFwrite vol fd ldir
    if r.2 < 0 then (r.1, some r.2)
    else crLoop vol longname ndirs (ldir.putHead (UInt8.ofNat ndirs)) r.1

/-- The buffer before the first piece. -/
def ldirInit (head chksum : UInt8) : Entry :=
  { head := head, name1 := List.replicate 10 0xff, attr := 0x0f, unused := 0, chksum := chksum
    name2 := List.replicate 12 0xff, stcl := [0, 0], name3 := List.replicate 4 0xff
    name1_length := rfl, name2_length := ones_name2, stcl_length := zeros_stcl
    name3_length := ones_name3 }

/-- `vf_crnam`: write a long name, if there is one, and the main entry. -/
def vfCrnam (vol : Vol) (fd : Fd) (newdir : Entry) (longname : Option (List UInt8)) : Fd × Int :=
  if fd.fpos % 32 ≠ 0 then (fd, EINTRN)
  else
    match longname with
    | none => pFwrite vol fd newdir
    | some longname =>
      let ndirs := (longname.length + 12) / 13
      let ldir := ldirInit (UInt8.ofNat (0x40 + ndirs)) (vfChksum newdir.name)
      match crLoop vol longname ndirs ldir fd with
      | (fd, some doserr) => (fd, doserr)
      | (fd, none) => pFwrite vol fd newdir

/-! ### One piece -/

theorem takeWhile_ne_zero (l : List UInt8) (hl : ∀ c ∈ l, SelfMapped c) :
    (l.takeWhile fun c => c ≠ 0) = l := by
  rw [← List.append_nil l, List.takeWhile_append_of_pos, List.takeWhile_nil]
  exact fun c hc => decide_eq_true (selfMapped_ne_zero c (hl c hc))

section

variable (ldir : Entry) (nxts : List UInt8) (hs : ∀ c ∈ nxts, SelfMapped c)

include ldir hs

theorem name2_text (hff : ldir.name2 = List.replicate 12 0xff ∨ 13 ≤ nxts.length) :
    unic2ibm (ldir.putName nxts (nxts.length + 1)).name2 = (nxts.drop 5).take 6 := by
  have hne : ∀ c ∈ nxts, c ≠ 0 := fun c hc => selfMapped_ne_zero c (hs c hc)
  simp only [Entry.putName]
  by_cases h5 : (0 : Int) < (nxts.length : Int) + 1 - 5
  · rw [if_pos h5, ibm2unic_fst nxts _ 4 hne]
    exact unic2ibm_ibm2unic _ _ 5 (fun c hc => hs c (List.mem_of_mem_drop hc)) ldir.name2_length
  · rw [if_neg h5, List.drop_eq_nil_of_le (by omega), List.take_nil]
    rcases hff with hff | hlong
    · rw [hff]
      exact unic2ibm_ff 12
    · omega

theorem name3_text (hff : ldir.name3 = List.replicate 4 0xff ∨ 13 ≤ nxts.length) :
    unic2ibm (ldir.putName nxts (nxts.length + 1)).name3 = (nxts.drop 11).take 2 := by
  have hne : ∀ c ∈ nxts, c ≠ 0 := fun c hc => selfMapped_ne_zero c (hs c hc)
  have hdrop : ∀ c ∈ nxts.drop 5, c ≠ 0 := fun c hc => hne c (List.mem_of_mem_drop hc)
  simp only [Entry.putName]
  by_cases h11 : (0 : Int) < (nxts.length : Int) + 1 - 5 - 6
  · rw [if_pos ⟨by omega, h11⟩, if_pos (by omega), ibm2unic_fst nxts _ 4 hne,
      ibm2unic_fst _ _ 5 hdrop, List.drop_drop]
    exact unic2ibm_ibm2unic _ _ 1 (fun c hc => hs c (List.mem_of_mem_drop hc)) ldir.name3_length
  · rw [if_neg (fun h => h11 h.2), List.drop_eq_nil_of_le (by omega), List.take_nil]
    rcases hff with hff | hlong
    · rw [hff]
      exact unic2ibm_ff 4
    · omega

/-- A piece yields thirteen characters of the name, or what is left of it. -/
theorem putName_ltmpname
    (hff : ldir.name2 = List.replicate 12 0xff ∧ ldir.name3 = List.replicate 4 0xff ∨
      13 ≤ nxts.length) :
    (ldir.putName nxts (nxts.length + 1)).ltmpname = nxts.take 13 := by
  have h1 : unic2ibm (ldir.putName nxts (nxts.length + 1)).name1 = nxts.take 5 :=
    unic2ibm_ibm2unic nxts _ 4 hs ldir.name1_length
  have h2 := name2_text ldir nxts hs (hff.imp And.left id)
  have h3 := name3_text ldir nxts hs (hff.imp And.right id)
  have hcat : nxts.take 13 = nxts.take 5 ++ (nxts.drop 5).take 6 ++ (nxts.drop 11).take 2 := by
    rw [← List.take_add, ← List.take_add]
  unfold Entry.ltmpname
  rw [h1, h2, h3, ← hcat]
  exact takeWhile_ne_zero _ fun c hc => hs c (List.mem_of_mem_take hc)

end

/-! ### Writing entries -/

/-- A directory that cannot be written to at its position, behind its last entry,
    because the disk is full. -/
def Full (vol : Vol) (fd : Fd) : Prop :=
  fd.entries.length ≤ fd.fpos / 32 ∧ vol.stale fd.entries.length = .ok []

theorem pFwrite_full (vol : Vol) (fd : Fd) (dir : Entry) (h : Full vol fd) :
    pFwrite vol fd dir = (fd, 0) := by
  unfold pFwrite
  simp only [if_neg (Nat.not_lt.mpr h.1), h.2]

/-- Writing an entry without an error finds the disk full, or it replaces one entry
    or adds it behind the last one. -/
theorem pFwrite_cases (vol : Vol) (fd : Fd) (dir : Entry) (j : Nat) (hpos : fd.fpos = 32 * j)
    (hj : j ≤ fd.entries.length) (hok : 0 ≤ (pFwrite vol fd dir).2) :
    Full vol fd ∨ (pFwrite vol fd dir).1.fpos = 32 * (j + 1) ∧ ∃ post,
      (pFwrite vol fd dir).1.entries = fd.entries.take j ++ dir :: post := by
  have hk : fd.fpos / 32 = j := by omega
  unfold pFwrite at hok ⊢
  simp only [hk] at hok ⊢
  by_cases hin : j < fd.entries.length
  · rw [if_pos hin]
    refine Or.inr ⟨?_, fd.entries.drop (j + 1), ?_⟩
    · simp only [hpos]
      omega
    · exact List.set_eq_take_append_cons_drop.trans (if_pos hin)
  · rw [if_neg hin]
    cases hst : vol.stale fd.entries.length with
    | error doserr =>
      have hneg := vol.stale_neg _ _ hst
      rw [if_neg hin, hst] at hok
      simp only at hok
      omega
    | ok cl =>
      cases cl with
      | nil => exact Or.inl ⟨by omega, hst⟩
      | cons e rest =>
        refine Or.inr ⟨?_, rest, ?_⟩
        · simp only [hpos]
          omega
        · simp only
          rw [List.take_of_length_le (by omega)]

/-- The pieces that are written from a number down, the first one with a head of
    its own. -/
structure Pieces (ck : UInt8) (name : List UInt8) (ndirs : Nat) (head : UInt8)
    (seq : List Entry) : Prop where
  length : seq.length = ndirs
  ldir : ∀ e ∈ seq, e.attr = 0x0f ∧ e.chksum = ck
  first : ∀ h : 0 < seq.length, (seq[0]).head = head
  heads : ∀ i (h : i < seq.length), 0 < i → seq[i].head = UInt8.ofNat (ndirs - i)
  text : textOf seq = name.take (13 * ndirs)

theorem textOf_cons (e : Entry) (l : List Entry) : textOf (e :: l) = textOf l ++ e.ltmpname := by
  simp only [textOf, List.reverse_cons, List.map_append, List.map_cons, List.map_nil,
    List.flatten_append, List.flatten_cons, List.flatten_nil, List.append_nil]

theorem pieces_cons (ck : UInt8) (name : List UInt8) (ndirs : Nat) (e : Entry) (seq : List Entry)
    (hseq : Pieces ck name ndirs (UInt8.ofNat ndirs) seq) (hattr : e.attr = 0x0f)
    (hck : e.chksum = ck) (htext : e.ltmpname = (name.drop (13 * ndirs)).take 13) :
    Pieces ck name (ndirs + 1) e.head (e :: seq) := by
  refine ⟨?_, fun d hd => ?_, fun _ => rfl, fun i hi hpos => ?_, ?_⟩
  · rw [List.length_cons, hseq.length]
  · rcases List.mem_cons.mp hd with rfl | hd
    · exact ⟨hattr, hck⟩
    · exact hseq.ldir d hd
  · cases i with
    | zero => omega
    | succ i =>
      rw [List.length_cons] at hi
      rw [List.getElem_cons_succ]
      cases i with
      | zero => rw [hseq.first (by omega), Nat.zero_add, Nat.add_sub_cancel]
      | succ i =>
        rw [hseq.heads (i + 1) (by omega) (Nat.succ_pos _)]
        congr 1
        omega
  · rw [textOf_cons, hseq.text, htext, ← List.take_add, Nat.mul_add, Nat.mul_one]

theorem crLoop_full (vol : Vol) (name : List UInt8) (ndirs : Nat) (ldir : Entry) (fd fd' : Fd)
    (hfull : Full vol fd) (h : crLoop vol name ndirs ldir fd = (fd', none)) : Full vol fd' := by
  induction ndirs generalizing ldir with
  | zero =>
    simp only [crLoop, Prod.mk.injEq, and_true] at h
    rw [← h]
    exact hfull
  | succ ndirs ih =>
    simp only [crLoop, pFwrite_full vol fd _ hfull] at h
    rw [if_neg (by decide)] at h
    exact ih _ h

theorem crLoop_neg (vol : Vol) (name : List UInt8) (ndirs : Nat) (ldir : Entry) (fd fd' : Fd)
    (doserr : Int) (h : crLoop vol name ndirs ldir fd = (fd', some doserr)) : doserr < 0 := by
  induction ndirs generalizing ldir fd with
  | zero => simp only [crLoop, Prod.mk.injEq, reduceCtorEq, and_false] at h
  | succ ndirs ih =>
    simp only [crLoop] at h
    generalize ldir.putName (name.drop (13 * ndirs)) (↑name.length + 1 - 13 * ↑ndirs) = piece at h
    by_cases herr : (pFwrite vol fd piece).2 < 0
    · rw [if_pos herr] at h
      simp only [Prod.mk.injEq, Option.some.injEq] at h
      rw [← h.2]
      exact herr
    · rw [if_neg herr] at h
      exact ih _ _ h

/-- The pieces that the loop writes, unless the disk gets full. -/
theorem crLoop_spec (vol : Vol) (name : List UInt8) (ck : UInt8) (ndirs j : Nat) (ldir : Entry)
    (fd fd' : Fd) (hs : ∀ c ∈ name, SelfMapped c) (hpos : fd.fpos = 32 * j)
    (hj : j ≤ fd.entries.length) (hattr : ldir.attr = 0x0f) (hck : ldir.chksum = ck)
    (hlen : 13 * ndirs < name.length + 13)
    (hff : ldir.name2 = List.replicate 12 0xff ∧ ldir.name3 = List.replicate 4 0xff ∨
      13 * ndirs ≤ name.length)
    (h : crLoop vol name ndirs ldir fd = (fd', none)) :
    Full vol fd' ∨ ∃ seq post, Pieces ck name ndirs ldir.head seq ∧ fd'.fpos = 32 * (j + ndirs) ∧
      fd'.entries = fd.entries.take j ++ seq ++ post := by
  induction ndirs generalizing ldir fd j with
  | zero =>
    simp only [crLoop, Prod.mk.injEq, and_true] at h
    subst h
    refine Or.inr ⟨[], fd.entries.drop j, ⟨rfl, ?_, ?_, ?_, rfl⟩, hpos, ?_⟩
    · exact fun e he => absurd he List.not_mem_nil
    · exact fun h0 => absurd h0 (Nat.lt_irrefl 0)
    · exact fun i hi => absurd hi (Nat.not_lt_zero i)
    · rw [List.append_nil, List.take_append_drop]
  | succ ndirs ih =>
    have hnxts : (name.length : Int) + 1 - 13 * ndirs
        = ((name.drop (13 * ndirs)).length : Int) + 1 := by
      rw [List.length_drop]
      omega
    have htext := putName_ltmpname ldir (name.drop (13 * ndirs))
      (fun c hc => hs c (List.mem_of_mem_drop hc))
      (hff.imp id fun hle => by rw [List.length_drop]; omega)
    simp only [crLoop, hnxts] at h
    generalize hput : ldir.putName (name.drop (13 * ndirs))
      ((name.drop (13 * ndirs)).length + 1) = piece at h htext
    have hhead : piece.head = ldir.head ∧ piece.attr = 0x0f ∧ piece.chksum = ck := by
      rw [← hput]
      exact ⟨rfl, hattr, hck⟩
    by_cases herr : (pFwrite vol fd piece).2 < 0
    · rw [if_pos herr] at h
      simp only [Prod.mk.injEq, reduceCtorEq, and_false] at h
    · rw [if_neg herr] at h
      rcases pFwrite_cases vol fd piece j hpos hj (by omega) with hfull | ⟨hpos', post, hent⟩
      · -- Nothing is written any more.
        rw [pFwrite_full vol fd piece hfull] at h
        exact Or.inl (crLoop_full vol name ndirs _ fd fd' hfull h)
      · have hjlen : j + 1 ≤ (pFwrite vol fd piece).1.entries.length := by
          rw [hent, List.length_append, List.length_take, List.length_cons]
          omega
        rcases ih (j + 1) (piece.putHead (UInt8.ofNat ndirs)) _ hpos' hjlen hhead.2.1
          hhead.2.2 (by omega) (Or.inr (by omega)) h with hfull | ⟨seq, post', hseq, hpos'', hent'⟩
        · exact Or.inl hfull
        · refine Or.inr ⟨piece :: seq, post', ?_, ?_, ?_⟩
          · rw [← hhead.1]
            exact pieces_cons ck name ndirs piece seq hseq hhead.2.1 hhead.2.2 htext
          · rw [hpos'']
            omega
          · have htake : (fd.entries.take j ++ piece :: post).take (j + 1)
                = fd.entries.take j ++ [piece] := by
              rw [List.take_append, List.take_of_length_le (by rw [List.length_take]; omega),
                List.length_take, Nat.min_eq_left hj, Nat.add_sub_cancel_left]
              rfl
            rw [hent', hent, htake]
            simp only [List.append_assoc, List.cons_append, List.nil_append]

theorem head_bits (n : Nat) (hn : 0 < n) (hle : n < 0x20) :
    UInt8.ofNat n ≠ 0 ∧ UInt8.ofNat n ≠ 0xe5 ∧ UInt8.ofNat n &&& 0x40 = 0 ∧
      (UInt8.ofNat n &&& 0x1f).toNat = n ∧ UInt8.ofNat (0x40 + n) ≠ 0 ∧
      UInt8.ofNat (0x40 + n) ≠ 0xe5 ∧ UInt8.ofNat (0x40 + n) &&& 0x40 ≠ 0 ∧
      (UInt8.ofNat (0x40 + n) &&& 0x1f).toNat = n := by
  have hall : ∀ n : Fin 0x20, 0 < n.val →
      UInt8.ofNat n ≠ 0 ∧ UInt8.ofNat n ≠ 0xe5 ∧ UInt8.ofNat n &&& 0x40 = 0 ∧
        (UInt8.ofNat n &&& 0x1f).toNat = n ∧ UInt8.ofNat (0x40 + n) ≠ 0 ∧
        UInt8.ofNat (0x40 + n) ≠ 0xe5 ∧ UInt8.ofNat (0x40 + n) &&& 0x40 ≠ 0 ∧
        (UInt8.ofNat (0x40 + n) &&& 0x1f).toNat = n := by decide +kernel
  exact hall ⟨n, hle⟩ hn

theorem pieces_complete (ck : UInt8) (name : List UInt8) (ndirs : Nat) (seq : List Entry)
    (hpos : 0 < ndirs) (hlt : ndirs < 0x20)
    (hseq : Pieces ck name ndirs (UInt8.ofNat (0x40 + ndirs)) seq) : Complete ck seq := by
  have hlen := hseq.length
  have hidx : ∀ i (h : i < seq.length), seq[i].head ≠ 0 ∧ seq[i].head ≠ 0xe5 ∧
      (seq[i].Flagged ↔ i = 0) ∧ seq[i].reldirnr = seq.length - i := by
    intro i hi
    unfold Entry.Flagged Entry.reldirnr
    by_cases h0 : i = 0
    · subst h0
      rcases head_bits ndirs hpos hlt with ⟨_, _, _, _, h1, h2, h3, h4⟩
      rw [hseq.first hi]
      exact ⟨h1, h2, ⟨fun _ => rfl, fun _ => h3⟩, by rw [h4, hlen, Nat.sub_zero]⟩
    · rcases head_bits (ndirs - i) (by omega) (by omega) with ⟨h1, h2, h3, h4, _⟩
      rw [hseq.heads i hi (by omega)]
      exact ⟨h1, h2, ⟨fun h => absurd h3 h, fun h => absurd h h0⟩, by rw [h4, hlen]⟩
  refine ⟨?_, fun e he => ?_, fun i hi => (hidx i hi).2.2.2⟩
  · cases seq with
    | nil =>
      rw [List.length_nil] at hlen
      omega
    | cons e rest =>
      refine ⟨e, rest, rfl, (hidx 0 (Nat.succ_pos _)).2.2.1.mpr rfl, fun d hd hflag => ?_⟩
      rcases List.getElem_of_mem hd with ⟨i, hi, rfl⟩
      have h := (hidx (i + 1) (Nat.succ_lt_succ hi)).2.2.1.mp hflag
      omega
  · rcases List.getElem_of_mem he with ⟨i, hi, rfl⟩
    rcases hidx i hi with ⟨h0, hdel, _, _⟩
    rcases hseq.ldir _ he with ⟨hattr, hck⟩
    exact ⟨⟨h0, hdel, hattr⟩, hck⟩

/-- What `vf_crnam` writes is a complete sequence with the text of the name, and
    the main entry behind it. -/
theorem vfCrnam_spec (vol : Vol) (fd fd' : Fd) (newdir : Entry) (name : List UInt8) (j : Nat)
    (hs : ∀ c ∈ name, SelfMapped c) (hne : name ≠ []) (hlen : name.length ≤ 64)
    (hpos : fd.fpos = 32 * j) (hj : j ≤ fd.entries.length)
    (h : vfCrnam vol fd newdir (some name) = (fd', 32)) :
    ∃ seq post, fd'.entries = fd.entries.take j ++ seq ++ newdir :: post ∧
      seq.length = (name.length + 12) / 13 ∧ Complete (vfChksum newdir.name) seq ∧
      textOf seq = name := by
  have hpos_len : 0 < name.length := List.length_pos_iff.mpr hne
  unfold vfCrnam at h
  rw [if_neg (by omega)] at h
  simp only at h
  generalize hnd : (name.length + 12) / 13 = ndirs at h ⊢
  cases hloop : crLoop vol name ndirs
      (ldirInit (UInt8.ofNat (0x40 + ndirs)) (vfChksum newdir.name)) fd with
  | mk fd1 err =>
    rw [hloop] at h
    cases err with
    | some doserr =>
      simp only [Prod.mk.injEq] at h
      have hneg := crLoop_neg vol name ndirs _ fd fd1 doserr hloop
      omega
    | none =>
      simp only at h
      rcases crLoop_spec vol name _ ndirs j _ fd fd1 hs hpos hj rfl rfl (by omega)
        (Or.inl ⟨rfl, rfl⟩) hloop with hfull | ⟨seq, post, hseq, hpos1, hent⟩
      · rw [pFwrite_full vol fd1 newdir hfull] at h
        simp only [Prod.mk.injEq] at h
        omega
      · have hlen1 : (fd.entries.take j ++ seq).length = j + ndirs := by
          rw [List.length_append, List.length_take, hseq.length, Nat.min_eq_left hj]
        have hj1 : j + ndirs ≤ fd1.entries.length := by
          rw [hent, List.length_append, hlen1]
          omega
        rcases pFwrite_cases vol fd1 newdir (j + ndirs) hpos1 hj1
          (by rw [h]; exact Int.natCast_nonneg 32) with
          hfull | ⟨_, post', hent'⟩
        · rw [pFwrite_full vol fd1 newdir hfull] at h
          simp only [Prod.mk.injEq] at h
          omega
        · rw [h] at hent'
          refine ⟨seq, post', ?_, hseq.length, ?_, ?_⟩
          · rw [hent', hent, List.take_append_of_le_length (by omega),
              List.take_of_length_le (by omega)]
          · exact pieces_complete _ name ndirs seq (by omega) (by omega) hseq
          · rw [hseq.text, List.take_of_length_le (by omega)]

end Vfat

end MagiC
