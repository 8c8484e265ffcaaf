import MagiC.Vfat.Ffree

/-!
# The Gap

What `vf_ffree` lets the caller overwrite.

The loop counts the entries of a gap while it is not long enough, and forgets the gap at the first
entry of another file. So while the search goes on, the gap ends at the entry that is read next
(`GapOk`). At the end mark the directory gets one cluster longer for each entry that lies outside,
at the physical end it does so once. For this a cluster must have room for the longest name, which
takes six entries.

What the search for the last character of the short name finds when the name has none depends on the
byte in front of it, a parameter of `vfFfreeOn`. If it is blank the code goes on to bytes that the
model does not have, and `vfFfree` is this case (`vfFfreeOn_blank`).

The entries of the file that gets another name count as deleted only if there are as many of them as
the new name needs.

## Main definitions

* `Spare`: An entry that may be overwritten.

## Theorems

* `vfFfree_gap`: The entries from the first position to the last are spare.
-/

namespace MagiC

namespace Vfat

/-! ### The byte in front of the name -/

/-- The place behind the last character from `s` down that is not blank, where `before` is
    the byte in front of the name. -/
def lastPlace (before : UInt8) (name : List UInt8) (s : Nat) : Option Nat :=
  match lastChar name s with
  | some s => some (s + 1)
  | none => if before = 0x20 then none else some 0

/-- The short name with a number, 0 standing for the name itself. -/
def aliasNameOn (before : UInt8) (newdir : Entry) (number : Nat) : Option Entry :=
  if number = 0 then some newdir
  else
    match lastPlace before newdir.name (7 - aliasLen number) with
    | none => none
    | some s => some (putNumber newdir (s + aliasLen number - 1) 4 number)

/-- `vf_ffree`, behind the loop. -/
def ffreeEndeOn (before : UInt8) (want : Want) (longname : Option (List UInt8)) (gap : Gap) :
    Option Ffree :=
  let ret (newdir : Entry) : Ffree :=
    match gap.gap_pos with
    | none => ⟨-1, newdir, longname, none⟩
    | some gap_pos => ⟨gap_pos + 32 * (want.ndirs - 1 : Nat), newdir, longname, some gap_pos⟩
  if want.long then
    match (List.range 1600).find? fun number => number ∉ gap.used with
    | none => some ⟨EINTRN, want.newdir, longname, none⟩
    | some number =>
      match aliasNameOn before want.newdir number with
      | none => none
      | some newdir => some (ret newdir)
  else some (ret want.newdir)

/-- `vf_ffree`, with the byte in front of `newdir->name`. There is no result when it leaves
    its tables, or writes in front of the name. -/
def vfFfreeOn (before : UInt8) (vol : Vol) (specialpos specialfirstpos : Int) (fd : Fd)
    (name : List UInt8) (newdir : Entry) : Option (Fd × Ffree) :=
  let shortname := ext83 newdir.name
  let long := vol.d_flags && shortname != name
  let longname := if long then some name else none
  if long = true ∧ MAXFOLDERNAME < name.length then some (fd, ⟨ERANGE, newdir, longname, none⟩)
  else
    let ndirs := if long then (name.length + 12) / 13 + 1 else 1
    let firstpos := if specialfirstpos < 0 then specialpos else specialfirstpos
    let specialfirstpos :=
      if specialpos < 0 then specialfirstpos
      else if (ndirs : Int) ≠ (specialpos - firstpos) / 32 + 1 then 0x7fffffff else firstpos
    let want : Want := ⟨ndirs, long, newdir, specialpos, specialfirstpos⟩
    let used := if long && stricmp shortname name then [0] else []
    match ffreeLoop vol want { fd with fpos := 0 } 0 fd.entries ⟨none, 0, false, used⟩ with
    | none => none
    | some (fd, .ret doserr) => some (fd, ⟨doserr, newdir, longname, none⟩)
    | some (fd, .frei actpos) => some (fd, ⟨actpos, newdir, longname, some actpos⟩)
    | some (fd, .ende gap) =>
      match ffreeEndeOn before want longname gap with
      | none => none
      | some r => some (fd, r)

theorem aliasNameOn_of_aliasName (before : UInt8) (newdir dir : Entry) (number : Nat)
    (h : aliasName newdir number = some dir) : aliasNameOn before newdir number = some dir := by
  unfold aliasName at h
  unfold aliasNameOn
  by_cases h0 : number = 0
  · rw [if_pos h0] at h ⊢
    exact h
  · rw [if_neg h0] at h ⊢
    unfold lastPlace
    cases hlast : lastChar newdir.name (7 - aliasLen number) with
    | none =>
      rw [hlast] at h
      simp only [reduceCtorEq] at h
    | some s =>
      rw [hlast] at h
      rw [← h]
      simp only [show s + 1 + aliasLen number - 1 = s + aliasLen number by omega]

theorem aliasNameOn_blank (newdir : Entry) (number : Nat) :
    aliasNameOn 0x20 newdir number = aliasName newdir number := by
  cases h : aliasName newdir number with
  | some dir => exact aliasNameOn_of_aliasName 0x20 newdir dir number h
  | none =>
    unfold aliasName at h
    unfold aliasNameOn
    by_cases h0 : number = 0
    · rw [if_pos h0] at h
      simp only [reduceCtorEq] at h
    · rw [if_neg h0] at h ⊢
      unfold lastPlace
      cases hlast : lastChar newdir.name (7 - aliasLen number) with
      | none => rfl
      | some s =>
        rw [hlast] at h
        simp only [reduceCtorEq] at h

theorem ffreeEndeOn_blank (want : Want) (longname : Option (List UInt8)) (gap : Gap) :
    ffreeEndeOn 0x20 want longname gap = ffreeEnde want longname gap := by
  unfold ffreeEndeOn ffreeEnde
  by_cases hlong : want.long = true
  · rw [if_pos hlong, if_pos hlong]
    cases (List.range 1600).find? fun number => number ∉ gap.used with
    | none => rfl
    | some number =>
      cases halias : aliasName want.newdir number with
      | none => simp only [aliasNameOn_blank, halias]
      | some newdir =>
        cases gap.gap_pos with
        | none => simp only [aliasNameOn_blank, halias]
        | some gap_pos => simp only [aliasNameOn_blank, halias]
  · exact (if_neg hlong).trans (if_neg hlong).symm

/-- Without the byte in front of the name there is no result where it matters. -/
theorem vfFfreeOn_blank (vol : Vol) (specialpos specialfirstpos : Int) (fd : Fd)
    (name : List UInt8) (newdir : Entry) :
    vfFfreeOn 0x20 vol specialpos specialfirstpos fd name newdir
      = vfFfree vol specialpos specialfirstpos fd name newdir := by
  unfold vfFfreeOn
  simp only [ffreeEndeOn_blank]
  rfl

/-- The number of entries that a name takes. -/
def dirsFor (vol : Vol) (name : List UInt8) (newdir : Entry) : Nat :=
  if vol.d_flags && ext83 newdir.name != name then (name.length + 12) / 13 + 1 else 1

/-- An entry of the file that gets another name, of which there are as many as the new name
    needs. -/
def Own (specialpos specialfirstpos : Int) (ndirs i : Nat) : Prop :=
  let firstpos := if specialfirstpos < 0 then specialpos else specialfirstpos
  firstpos ≤ (32 * i : Nat) ∧ ((32 * i : Nat) : Int) ≤ specialpos ∧
    (ndirs : Int) = (specialpos - firstpos) / 32 + 1

/-- The end mark lies at an entry or before it. -/
def Ended (entries : List Entry) (i : Nat) : Prop :=
  ∃ m e, m ≤ i ∧ entries[m]? = some e ∧ e.head = 0

/-- An entry of a file: it lies before the end mark and is not deleted. -/
def Live (entries : List Entry) (i : Nat) : Prop :=
  ∃ e, entries[i]? = some e ∧ e.head ≠ 0xe5 ∧ ¬ Ended entries i

/-- An entry that may be overwritten: it is deleted, or one of the file that gets another
    name, or it lies at the end mark or behind it, or is a new one. -/
def Spare (specialpos specialfirstpos : Int) (ndirs : Nat) (entries : List Entry) (i : Nat) :
    Prop :=
  (∃ e, entries[i]? = some e ∧ e.head = 0xe5) ∨ Own specialpos specialfirstpos ndirs i ∨
    Ended entries i ∨ entries.length ≤ i

/-- A cluster has room for the longest name. -/
def Roomy (vol : Vol) : Prop := ∀ n k, vol.extfd n = .ok k → 6 ≤ k

/-! ### Making room -/

/-- How making room ends: with an error, or with a directory of at least `n` entries. -/
def Room (n : Nat) (fd fd' : Fd) : Option Int → Prop
  | some doserr => doserr < 0
  | none => (∃ more, fd'.entries = fd.entries ++ more) ∧ n ≤ fd'.entries.length

section MakeRoom

variable (vol : Vol) (hroomy : Roomy vol)
include hroomy

theorem pExtfd_cases (fd : Fd) :
    (pExtfd vol fd).2 < 0 ∨ ∃ more : List Entry, 6 ≤ more.length ∧ (pExtfd vol fd).2 = 0 ∧
      (pExtfd vol fd).1.entries = fd.entries ++ more := by
  unfold pExtfd
  cases hext : vol.extfd fd.entries.length with
  | error doserr => exact .inl (vol.extfd_neg _ _ hext)
  | ok n => exact .inr ⟨_, by rw [List.length_replicate]; exact hroomy _ n hext, rfl, rfl⟩

/-- The directory gets long enough for all entries of the gap, or there is an error. -/
theorem makeRoom_room (j len n : Nat) (fd fd' : Fd) (err : Option Int)
    (hlen : j + len ≤ fd.entries.length)
    (h : makeRoom vol (32 * j) len n fd = (fd', err)) : Room (j + len + n) fd fd' err := by
  induction n generalizing len fd with
  | zero =>
    rcases Prod.mk.inj h with ⟨rfl, rfl⟩
    exact ⟨⟨[], (List.append_nil _).symm⟩, hlen⟩
  | succ n ih =>
    -- The entry lies inside after the seek, or after one cluster more.
    have hstep : ∀ r : Fd × Int, (∃ more, r.1.entries = fd.entries ++ more) →
        (0 ≤ r.2 → j + (len + 1) ≤ r.1.entries.length) →
        (if r.2 < 0 then (r.1, some r.2) else makeRoom vol (32 * j) (len + 1) n r.1)
          = (fd', err) →
        Room (j + len + (n + 1)) fd fd' err := by
      rintro r ⟨more, hmore⟩ hin h
      by_cases hneg : r.2 < 0
      · rw [if_pos hneg] at h
        rcases Prod.mk.inj h with ⟨-, rfl⟩
        exact hneg
      rw [if_neg hneg] at h
      have hrest := ih (len + 1) r.1 (hin (by omega)) h
      cases err with
      | some doserr => exact hrest
      | none =>
        rcases hrest with ⟨⟨more', hmore'⟩, hroom⟩
        exact ⟨⟨more ++ more', by rw [hmore', hmore, List.append_assoc]⟩, by omega⟩
    rw [makeRoom] at h
    unfold pFseek at h
    by_cases hseek : 32 * j + 32 * len + 1 ≤ 32 * fd.entries.length
    · rw [if_pos hseek] at h
      refine hstep _ ?_ ?_ h
      · rw [if_neg (by unfold ERANGE; omega)]
        exact ⟨[], (List.append_nil _).symm⟩
      · rw [if_neg (by unfold ERANGE; omega)]
        intro _
        show j + (len + 1) ≤ fd.entries.length
        omega
    · rw [if_neg hseek] at h
      simp only [if_true] at h
      refine hstep _ (pExtfd_entries vol fd) (fun hpos => ?_) h
      rcases pExtfd_cases vol hroomy fd with hneg | ⟨more, hmore, -, hent⟩
      · omega
      · rw [hent, List.length_append]
        omega

end MakeRoom

/-! ### The loop -/

/-- An entry that counts as deleted. -/
def Gone (want : Want) (entries : List Entry) (i : Nat) : Prop :=
  ∃ e, entries[i]? = some e ∧ (e.head = 0xe5 ∨
    ((32 * i : Nat) : Int) ≤ want.specialpos ∧ want.specialfirstpos ≤ (32 * i : Nat))

/-- The gap before the entry `n`. All of its entries count as deleted. It ends at the entry
    `n`, unless it is long enough. -/
def GapOk (want : Want) (entries : List Entry) (n : Nat) (gap : Gap) : Prop :=
  (gap.found = true → gap.gap_pos ≠ none) ∧
    ∀ g, gap.gap_pos = some g → ∃ j, g = 32 * j ∧ j + gap.gap_len ≤ n ∧
      (∀ i, j ≤ i → i < j + gap.gap_len → Gone want entries i) ∧
      (if gap.found then want.ndirs ≤ gap.gap_len
        else j + gap.gap_len = n ∧ gap.gap_len < want.ndirs)

/-- What the loop leaves behind, if there is no error. -/
def Placed (want : Want) (fd fd' : Fd) (j : Nat) : Prop :=
  (∃ more, fd'.entries = fd.entries ++ more) ∧ j + want.ndirs ≤ fd'.entries.length ∧
    ∀ i, j ≤ i → i < j + want.ndirs →
      Gone want fd.entries i ∨ Ended fd.entries i ∨ fd.entries.length ≤ i

/-- How the loop ends: with an error, at an entry that a short name can take, or with a gap. -/
def FfreeEnd.Placed (want : Want) (fd fd' : Fd) : FfreeEnd → Prop
  | .ret doserr => doserr < 0
  | .frei actpos => ∃ j, actpos = 32 * j ∧ Vfat.Placed want fd fd' j
  | .ende gap => ∃ j, gap.gap_pos = some (32 * j) ∧ Vfat.Placed want fd fd' j

section

variable (want : Want) (entries : List Entry) (n : Nat) (gap : Gap)
  (hgap : GapOk want entries n gap)

include hgap

theorem GapOk.found (hfound : gap.found = true) :
    ∃ j, gap.gap_pos = some (32 * j) ∧ j + want.ndirs ≤ n ∧
      ∀ i, j ≤ i → i < j + want.ndirs → Gone want entries i := by
  rcases Option.ne_none_iff_exists'.mp (hgap.1 hfound) with ⟨g, hg⟩
  rcases hgap.2 g hg with ⟨j, rfl, hj, hgone, hlen⟩
  rw [if_pos hfound] at hlen
  exact ⟨j, hg, by omega, fun i hi hlt => hgone i hi (by omega)⟩

theorem GapOk.later (hfound : gap.found = true) : GapOk want entries (n + 1) gap := by
  refine ⟨hgap.1, fun g hg => ?_⟩
  rcases hgap.2 g hg with ⟨j, rfl, hj, hgone, hlen⟩
  rw [if_pos hfound] at hlen
  exact ⟨j, rfl, by omega, hgone, by rw [if_pos hfound]; exact hlen⟩

theorem GapOk.grow (hfound : gap.found = false) (hnd : 1 ≤ want.ndirs) :
    ∃ j, (gap.grow (32 * n)).gap_pos = some (32 * j) ∧ j + (gap.grow (32 * n)).gap_len = n + 1 ∧
      (gap.grow (32 * n)).gap_len ≤ want.ndirs ∧ j ≤ n ∧
      ∀ i, j ≤ i → i < n → Gone want entries i := by
  cases hpos : gap.gap_pos with
  | none =>
    rw [show gap.grow (32 * n) = { gap with gap_pos := some (32 * n), gap_len := 1 } by
      rw [Gap.grow, hpos]]
    exact ⟨n, rfl, rfl, hnd, Nat.le_refl n, fun i hi hlt => by omega⟩
  | some g =>
    rcases hgap.2 g hpos with ⟨j, rfl, -, hgone, hlen⟩
    rw [hfound, if_neg (by decide)] at hlen
    rw [show gap.grow (32 * n) = { gap with gap_len := gap.gap_len + 1 } by rw [Gap.grow, hpos]]
    exact ⟨j, hpos, by simp only; omega, by simp only; omega, by omega,
      fun i hi hlt => hgone i hi (by omega)⟩

theorem GapOk.gone (hfound : gap.found = false) (hnd : 1 ≤ want.ndirs)
    (hgone : Gone want entries n) :
    GapOk want entries (n + 1)
      { gap.grow (32 * n) with found := want.ndirs ≤ (gap.grow (32 * n)).gap_len } := by
  rcases GapOk.grow want entries n gap hgap hfound hnd with ⟨j, hpos, hlen, hle, -, hall⟩
  refine ⟨fun _ => by simp only [hpos, ne_eq, reduceCtorEq, not_false_eq_true], fun g hg => ?_⟩
  simp only [hpos, Option.some.injEq] at hg
  refine ⟨j, hg.symm, by simp only; omega, fun i hi hlt => ?_, ?_⟩
  · simp only at hlt
    rcases Nat.lt_or_eq_of_le (show i ≤ n by omega) with hin | rfl
    · exact hall i hi hin
    · exact hgone
  · simp only [decide_eq_true_eq]
    by_cases hfit : want.ndirs ≤ (gap.grow (32 * n)).gap_len
    · rw [if_pos hfit]
      exact hfit
    · rw [if_neg hfit]
      omega

end

theorem GapOk.main (want : Want) (entries : List Entry) (n : Nat) (dir : Entry) (gap gap' : Gap)
    (hgap : GapOk want entries n gap) (h : mainSeen want (32 * n) dir gap = some gap') :
    GapOk want entries (n + 1) gap' := by
  rw [mainSeen_eq want _ dir gap gap' h]
  by_cases hfound : gap.found = true
  · rw [if_pos hfound]
    exact GapOk.later want entries n gap hgap hfound
  · rw [if_neg hfound]
    exact ⟨fun hf => absurd hf hfound, fun g hg => by simp only [reduceCtorEq] at hg⟩

theorem GapOk.skips (want : Want) (h1 : 1 ≤ want.ndirs) (entries : List Entry)
    (n : Nat) (dir : Entry)
    (gap gap1 : Gap) (hget : entries[n]? = some dir) (hgap : GapOk want entries n gap)
    (hnone : want.long = false → gap.gap_pos = none) (hskips : Skips want (32 * n) dir gap gap1) :
    GapOk want entries (n + 1) gap1 ∧ (want.long = false → gap1.gap_pos = none) := by
  cases hskips with
  | gone hlong hgone =>
    refine ⟨?_, fun hs => absurd hlong (Bool.eq_false_iff.mp hs)⟩
    by_cases hfound : gap.found = true
    · rw [if_pos hfound]
      exact GapOk.later want _ n gap hgap hfound
    · rw [if_neg hfound]
      exact GapOk.gone want _ n gap hgap (Bool.eq_false_iff.mpr hfound) h1 ⟨dir, hget, hgone⟩
  | main _ hlong _ hmain =>
    exact ⟨GapOk.main want _ n dir gap gap1 hgap hmain,
      fun hs => absurd hlong (Bool.eq_false_iff.mp hs)⟩
  | short hlong =>
    have hpos := hnone hlong
    exact ⟨⟨hgap.1, fun g hg => by rw [hpos] at hg; simp only [reduceCtorEq] at hg⟩, hnone⟩

/-- How the loop ends. -/
theorem ffreeLoop_gap (vol : Vol) (hroomy : Roomy vol) (want : Want) (h1 : 1 ≤ want.ndirs)
    (h6 : want.ndirs ≤ 6) (hshort : want.long = false → want.ndirs = 1) (fd fd' : Fd) (gap : Gap)
    (fin : FfreeEnd) (hgap : GapOk want fd.entries 0 gap)
    (hnone : want.long = false → gap.gap_pos = none)
    (h : ffreeLoop vol want fd 0 fd.entries gap = some (fd', fin)) : fin.Placed want fd fd' := by
  rcases ffreeLoop_run (P := fun m gap => GapOk want fd.entries m gap ∧
    (want.long = false → gap.gap_pos = none)) vol want fd fd' 0 fd.entries gap fin rfl
    (Nat.zero_le _) ⟨hgap, hnone⟩
    (fun m dir gap gap1 hget _ hP hskips =>
      GapOk.skips want h1 fd.entries m dir gap gap1 hget hP.1 hP.2 hskips)
    h with ⟨n, gap1, hn, ⟨hok, -⟩, hhalts⟩
  cases hhalts with
  | error hneg => exact hneg
  | full hneg => exact hneg
  | crowded _ doserr hroom => exact makeRoom_err vol _ _ _ fd fd' doserr hroom
  | found hfound =>
    rcases GapOk.found want _ n gap1 hok hfound with ⟨j, hpos, hj, hgone⟩
    exact ⟨j, hpos, ⟨[], (List.append_nil _).symm⟩, by omega, fun i hi hlt => .inl (hgone i hi hlt)⟩
  | extended hend hfound hext =>
    -- The rest of the gap lies in a new cluster.
    have hgap1 : ∃ j, (if gap1.gap_pos = none then { gap1 with gap_pos := some (32 * n) }
        else gap1).gap_pos = some (32 * j) ∧ j ≤ n ∧
        ∀ i, j ≤ i → i < n → Gone want fd.entries i := by
      cases hpos : gap1.gap_pos with
      | none =>
        rw [if_pos rfl]
        exact ⟨n, rfl, Nat.le_refl n, fun i hi hlt => by omega⟩
      | some g =>
        rw [if_neg (by simp only [reduceCtorEq, not_false_eq_true])]
        rcases hok.2 g hpos with ⟨j, rfl, -, hgone, hlen⟩
        rw [hfound, if_neg Bool.false_ne_true] at hlen
        exact ⟨j, hpos, by omega, fun i hi hlt => hgone i hi (by omega)⟩
    rcases hgap1 with ⟨j, hpos, hj, hgone⟩
    rcases pExtfd_cases vol hroomy fd with herr | ⟨more, hmore, h0, hent⟩
    · omega
    · refine ⟨j, hpos, ⟨more, hent⟩, by rw [hent, List.length_append]; omega, fun i hi hlt => ?_⟩
      by_cases hin : i < n
      · exact .inl (hgone i hi hin)
      · exact .inr (.inr (by omega))
  | room dir _ hdir h0 hfound hroom =>
    -- The rest of the gap lies at the end mark and behind it.
    have hlt := (List.getElem?_eq_some_iff.mp hdir).1
    rcases GapOk.grow want _ n gap1 hok hfound h1 with ⟨j, hpos, hlen, hle, hj, hgone⟩
    generalize gap1.grow (32 * n) = gap2 at hroom hpos hlen hle ⊢
    rw [hpos, Option.getD_some] at hroom
    rcases makeRoom_room vol hroomy j _ _ fd fd' none (by omega) hroom with ⟨hent, hfit⟩
    refine ⟨j, hpos, hent, by omega, fun i hi hlt => ?_⟩
    by_cases hin : i < n
    · exact .inl (hgone i hi hin)
    · exact .inr (.inl ⟨n, dir, by omega, hdir, h0⟩)
  | frei dir hdir hlong hgone =>
    -- A short name takes the first entry that counts as deleted.
    have hlt := (List.getElem?_eq_some_iff.mp hdir).1
    have hone := hshort hlong
    refine ⟨n, rfl, ⟨[], (List.append_nil _).symm⟩, by omega, fun i hi hlt => ?_⟩
    rw [show i = n by omega]
    exact .inl ⟨dir, hdir, hgone⟩

/-! ### The result -/

theorem gone_spare (specialpos specialfirstpos : Int) (hlong : specialpos < 2 ^ 31) (want : Want)
    (entries : List Entry) (i : Nat) (hpos : want.specialpos = specialpos)
    (hfirst : want.specialfirstpos =
      if specialpos < 0 then specialfirstpos
      else if (want.ndirs : Int) ≠
          (specialpos - if specialfirstpos < 0 then specialpos else specialfirstpos) / 32 + 1
        then 0x7fffffff
      else if specialfirstpos < 0 then specialpos else specialfirstpos)
    (h : Gone want entries i) :
    (∃ e, entries[i]? = some e ∧ e.head = 0xe5) ∨ Own specialpos specialfirstpos want.ndirs i := by
  rcases h with ⟨e, he, hdel | ⟨hle, hge⟩⟩
  · exact .inl ⟨e, he, hdel⟩
  rw [hpos] at hle
  rw [hfirst, if_neg (by omega)] at hge
  unfold Own
  generalize (if specialfirstpos < 0 then specialpos else specialfirstpos) = firstpos at hge ⊢
  by_cases hsame : (want.ndirs : Int) = (specialpos - firstpos) / 32 + 1
  · rw [if_neg (not_not_intro hsame)] at hge
    exact .inr ⟨hge, hle, hsame⟩
  · rw [if_pos hsame] at hge
    omega

theorem placed_spare (specialpos specialfirstpos : Int) (want : Want) (fd fd' : Fd) (j : Nat)
    (hgone : ∀ i, Gone want fd.entries i → (∃ e, fd.entries[i]? = some e ∧ e.head = 0xe5) ∨
      Own specialpos specialfirstpos want.ndirs i)
    (h : Placed want fd fd' j) (i : Nat) (hi : j ≤ i) (hlt : i < j + want.ndirs) :
    Spare specialpos specialfirstpos want.ndirs fd.entries i ∧
      (Live fd.entries i → Own specialpos specialfirstpos want.ndirs i) := by
  rcases h.2.2 i hi hlt with hg | hend | hnew
  · rcases hgone i hg with hdel | hown
    · refine ⟨.inl hdel, fun hlive => ?_⟩
      rcases hdel with ⟨e, he, hhead⟩
      rcases hlive with ⟨d, hd, hne, -⟩
      rw [he] at hd
      rw [Option.some.inj hd] at hhead
      exact absurd hhead hne
    · exact ⟨.inr (.inl hown), fun _ => hown⟩
  · refine ⟨.inr (.inr (.inl hend)), fun hlive => ?_⟩
    rcases hlive with ⟨-, -, -, hnot⟩
    exact absurd hend hnot
  · refine ⟨.inr (.inr (.inr hnew)), fun hlive => ?_⟩
    rcases hlive with ⟨d, hd, -⟩
    rw [List.getElem?_eq_none hnew] at hd
    simp only [reduceCtorEq] at hd

/-- What `vf_ffree` returns for a gap. -/
def Gap.answer (gap : Gap) (ndirs : Nat) (dir : Entry) (longname : Option (List UInt8)) : Ffree :=
  match gap.gap_pos with
  | none => ⟨-1, dir, longname, none⟩
  | some g => ⟨g + 32 * (ndirs - 1 : Nat), dir, longname, some g⟩

theorem ffreeEndeOn_cases (before : UInt8) (want : Want) (longname : Option (List UInt8))
    (gap : Gap) (r : Ffree) (h : ffreeEndeOn before want longname gap = some r) :
    r = ⟨EINTRN, want.newdir, longname, none⟩ ∨
      ∃ dir, r = gap.answer want.ndirs dir longname ∧
        (want.long = true → ∃ number, number < 1600 ∧ number ∉ gap.used ∧
          aliasNameOn before want.newdir number = some dir) := by
  unfold ffreeEndeOn at h
  by_cases hlong : want.long = true
  · rw [if_pos hlong] at h
    cases hfree : (List.range 1600).find? fun number => number ∉ gap.used with
    | none =>
      rw [hfree] at h
      exact .inl (Option.some.inj h).symm
    | some number =>
      rw [hfree] at h
      simp only at h
      cases halias : aliasNameOn before want.newdir number with
      | none =>
        rw [halias] at h
        simp only [reduceCtorEq] at h
      | some dir =>
        rw [halias] at h
        have hnot := List.find?_some hfree
        exact .inr ⟨dir, (Option.some.inj h).symm, fun _ => ⟨number,
          List.mem_range.mp (List.mem_of_find?_eq_some hfree), of_decide_eq_true hnot, halias⟩⟩
  · rw [if_neg hlong] at h
    exact .inr ⟨want.newdir, (Option.some.inj h).symm, fun hl => absurd hl hlong⟩

section

variable (before : UInt8) (vol : Vol) (specialpos specialfirstpos : Int) (fd fd' : Fd)
  (name : List UInt8) (newdir : Entry) (r : Ffree)

/-- What the loop looks for. -/
def wantOf : Want :=
  ⟨dirsFor vol name newdir, vol.d_flags && ext83 newdir.name != name, newdir, specialpos,
    if specialpos < 0 then specialfirstpos
    else if (dirsFor vol name newdir : Int) ≠
        (specialpos - if specialfirstpos < 0 then specialpos else specialfirstpos) / 32 + 1
      then 0x7fffffff
    else if specialfirstpos < 0 then specialpos else specialfirstpos⟩

/-- The search from the first entry on. -/
def searched : Option (Fd × FfreeEnd) :=
  ffreeLoop vol (wantOf vol specialpos specialfirstpos name newdir) { fd with fpos := 0 } 0
    fd.entries ⟨none, 0, false,
      if (vol.d_flags && ext83 newdir.name != name) && stricmp (ext83 newdir.name) name
        then [0] else []⟩

/-- How `vf_ffree` ends, if the name is not too long. -/
inductive Ffree.Ends (longname : Option (List UInt8)) : Ffree → Prop
  | ret (doserr : Int)
      (hloop : searched vol specialpos specialfirstpos fd name newdir = some (fd', .ret doserr)) :
      Ends longname ⟨doserr, newdir, longname, none⟩
  | frei (actpos : Nat)
      (hloop : searched vol specialpos specialfirstpos fd name newdir = some (fd', .frei actpos)) :
      Ends longname ⟨actpos, newdir, longname, some actpos⟩
  | ende (gap : Gap) (r : Ffree)
      (hloop : searched vol specialpos specialfirstpos fd name newdir = some (fd', .ende gap))
      (hend : ffreeEndeOn before (wantOf vol specialpos specialfirstpos name newdir) longname gap =
        some r) : Ends longname r

theorem vfFfreeOn_cases
    (h : vfFfreeOn before vol specialpos specialfirstpos fd name newdir = some (fd', r)) :
    let long := vol.d_flags && ext83 newdir.name != name
    let longname := if long then some name else none
    (fd' = fd ∧ r = ⟨ERANGE, newdir, longname, none⟩) ∨
      (¬ (long = true ∧ MAXFOLDERNAME < name.length) ∧
        Ffree.Ends before vol specialpos specialfirstpos fd fd' name newdir longname r) := by
  unfold vfFfreeOn at h
  simp only at h ⊢
  by_cases hlen : (vol.d_flags && ext83 newdir.name != name) = true ∧ MAXFOLDERNAME < name.length
  · rw [if_pos hlen] at h
    simp only [Option.some.injEq, Prod.mk.injEq] at h
    exact .inl ⟨h.1.symm, h.2.symm⟩
  rw [if_neg hlen] at h
  refine .inr ⟨hlen, ?_⟩
  cases hloop : searched vol specialpos specialfirstpos fd name newdir with
  | none =>
    unfold searched wantOf dirsFor at hloop
    rw [hloop] at h
    simp only [reduceCtorEq] at h
  | some out =>
    rcases out with ⟨fd1, fin⟩
    have hrun := hloop
    unfold searched wantOf dirsFor at hrun
    rw [hrun] at h
    cases fin with
    | ret doserr =>
      simp only [Option.some.injEq, Prod.mk.injEq] at h
      rcases h with ⟨rfl, rfl⟩
      exact .ret doserr hloop
    | frei actpos =>
      simp only [Option.some.injEq, Prod.mk.injEq] at h
      rcases h with ⟨rfl, rfl⟩
      exact .frei actpos hloop
    | ende gap =>
      simp only at h
      split at h
      · simp only [reduceCtorEq] at h
      · rename_i r1 hend
        simp only [Option.some.injEq, Prod.mk.injEq] at h
        rcases h with ⟨rfl, rfl⟩
        exact .ende gap r1 hloop hend

end

/-- The positions that `vf_ffree` returns: as many entries as the name takes, all of them
    inside the directory and spare. -/
theorem vfFfree_gap (before : UInt8) (vol : Vol) (hroomy : Roomy vol)
    (specialpos specialfirstpos : Int)
    (hspecial : specialpos < 2 ^ 31) (fd fd' : Fd) (name : List UInt8) (newdir : Entry) (r : Ffree)
    (h : vfFfreeOn before vol specialpos specialfirstpos fd name newdir = some (fd', r))
    (hret : 0 ≤ r.ret) :
    ∃ j, r.firstdirpos = some (32 * j) ∧
      r.ret = (32 * j + 32 * (dirsFor vol name newdir - 1) : Nat) ∧
      (∃ more, fd'.entries = fd.entries ++ more) ∧
      j + dirsFor vol name newdir ≤ fd'.entries.length ∧
      ∀ i, j ≤ i → i < j + dirsFor vol name newdir →
        Spare specialpos specialfirstpos (dirsFor vol name newdir) fd.entries i ∧
          (Live fd.entries i → Own specialpos specialfirstpos (dirsFor vol name newdir) i) := by
  have hdirs : 1 ≤ dirsFor vol name newdir ∧ ((vol.d_flags && ext83 newdir.name != name) = false →
      dirsFor vol name newdir = 1) := by
    unfold dirsFor
    cases vol.d_flags && ext83 newdir.name != name with
    | true => exact ⟨by rw [if_pos rfl]; omega, fun hf => by simp only [reduceCtorEq] at hf⟩
    | false => exact ⟨Nat.le_refl 1, fun _ => rfl⟩
  have hsix : ¬ ((vol.d_flags && ext83 newdir.name != name) = true ∧
      MAXFOLDERNAME < name.length) → dirsFor vol name newdir ≤ 6 := by
    unfold dirsFor MAXFOLDERNAME
    cases vol.d_flags && ext83 newdir.name != name with
    | true =>
      intro hfit
      rw [if_pos rfl]
      simp only [true_and] at hfit
      omega
    | false => exact fun _ => by rw [if_neg (by decide)]; omega
  rcases vfFfreeOn_cases before vol specialpos specialfirstpos fd fd' name newdir r h with
    ⟨-, rfl⟩ | ⟨hlen, hends⟩
  · exact absurd (show (0 : Int) ≤ ERANGE from hret) (by decide)
  have hgone : ∀ i, Gone (wantOf vol specialpos specialfirstpos name newdir) fd.entries i →
      (∃ e, fd.entries[i]? = some e ∧ e.head = 0xe5) ∨
        Own specialpos specialfirstpos (dirsFor vol name newdir) i :=
    fun i hi => gone_spare specialpos specialfirstpos hspecial _ fd.entries i rfl rfl hi
  have hplace : ∀ fin, searched vol specialpos specialfirstpos fd name newdir = some (fd', fin) →
      fin.Placed (wantOf vol specialpos specialfirstpos name newdir) fd fd' := fun fin hloop =>
    ffreeLoop_gap vol hroomy _ hdirs.1 (hsix hlen) hdirs.2 { fd with fpos := 0 } fd' _ fin
      ⟨fun hf => by simp only [Bool.false_eq_true] at hf,
        fun g hg => by simp only [reduceCtorEq] at hg⟩ (fun _ => rfl) hloop
  cases hends with
  | ret doserr hloop => exact absurd hret (Int.not_le.mpr (hplace _ hloop))
  | frei actpos hloop =>
    -- Only a short name returns from within the loop.
    have hone := hdirs.2 (Bool.eq_false_iff.mpr fun hlong =>
      ffreeLoop_long vol _ { fd with fpos := 0 } fd' actpos _ hlong hloop)
    rcases hplace _ hloop with ⟨j, rfl, hplaced⟩
    refine ⟨j, rfl, ?_, hplaced.1, hplaced.2.1, fun i hi hlt =>
      placed_spare specialpos specialfirstpos _ fd fd' j hgone hplaced i hi hlt⟩
    simp only [hone]
    omega
  | ende gap r hloop hend =>
    rcases hplace _ hloop with ⟨j, hpos, hplaced⟩
    rcases ffreeEndeOn_cases before _ _ gap r hend with rfl | ⟨dir, rfl, -⟩
    · exact absurd (show (0 : Int) ≤ EINTRN from hret) (by decide)
    · rw [Gap.answer, hpos]
      refine ⟨j, rfl, ?_, hplaced.1, hplaced.2.1, fun i hi hlt =>
        placed_spare specialpos specialfirstpos _ fd fd' j hgone hplaced i hi hlt⟩
      simp only [wantOf]
      omega

/-- A volume with long names and with 16 entries in a cluster. -/
def growVol : Vol :=
  { d_flags := true, extfd := fun _ => .ok 16, stale := fun _ => .ok []
    extfd_neg := by rintro n _ ⟨⟩
    stale_neg := nothing_stale }

/-- In a directory that is full the name `b` gets two entries of a new cluster. -/
theorem vfFfree_gap_new :
    vfFfreeOn 0 growVol (-1) (-1) ⟨[leftPiece 0], 0, 0⟩ [0x62] shortFile =
        some (⟨leftPiece 0 :: List.replicate 16 Entry.zero, 0, 0⟩,
          ⟨64, shortFile, some [0x62], some 32⟩) ∧
      Spare (-1) (-1) 2 [leftPiece 0] 1 ∧ Spare (-1) (-1) 2 [leftPiece 0] 2 := by
  have hrun : vfFfreeOn 0 growVol (-1) (-1) ⟨[leftPiece 0], 0, 0⟩ [0x62] shortFile =
      some (⟨leftPiece 0 :: List.replicate 16 Entry.zero, 0, 0⟩,
        ⟨64, shortFile, some [0x62], some 32⟩) := by decide +kernel
  have hroomy : Roomy growVol := by
    intro n k hk
    rw [← Except.ok.inj hk]
    omega
  rcases vfFfree_gap 0 growVol hroomy (-1) (-1) (by omega) _ _ _ _ _ hrun (by decide) with
    ⟨j, hfirst, -, -, -, hspare⟩
  have hj : j = 1 := by
    have h32 := Option.some.inj hfirst
    omega
  rw [hj] at hspare
  exact ⟨hrun, (hspare 1 (by omega) (by decide)).1, (hspare 2 (by omega) (by decide)).1⟩

end Vfat

end MagiC
