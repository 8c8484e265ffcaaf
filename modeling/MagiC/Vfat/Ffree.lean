import MagiC.Lib.Runs
import MagiC.Vfat.Crnam

/-!
# Finding Room for a Name

`vf_ffree`, which looks for a gap in a directory that a name fits in, and changes
the short name to one that no other file has.

The gap is one of deleted entries, or it is made at the end of the directory,
which gets longer for it. All entries before it have been seen, and none of them
is the end mark, so whoever reads the directory from its beginning gets to the
gap (`ffreeLoop_spec`). What lies directly before it is of no importance: the
first piece of a name is flagged, and the reader forgets everything at it. So the
name that `vf_crnam` writes there is read back (`longname_roundtrip`).

The marks of the short names in use are kept in a table with 1600 bits. A number
that is read off a directory entry is an `int` of 16 bits, and may be negative;
then the code leaves its table, and the model has no result.

## Main definitions

* `Skips`, `Halts`: What the loop does at an entry.

## Theorems

* `longname_roundtrip`: A long name that was written is read back.
-/

namespace MagiC

namespace Vfat

def MAXFOLDERNAME : Nat := 64

/-- `sonder_s`: the letters that are not ASCII, small and capital. -/
def sonderS : List (UInt8 × UInt8) :=
  [(0x84, 0x8e), (0x94, 0x99), (0x81, 0x9a), (0x82, 0x90), (0x85, 0xb6), (0x86, 0x8f),
    (0x87, 0x80), (0x91, 0x92), (0xa4, 0xa5), (0xb0, 0xb7), (0xb1, 0xb8), (0xb3, 0xb2),
    (0xb4, 0xb5), (0xc0, 0xc1)]

def toupper (c : UInt8) : UInt8 :=
  if c < 0x61 then c
  else if c ≤ 0x7a then c - 0x20
  else (sonderS.lookup c).getD c

/-- `stricmp`: whether two strings differ. -/
def stricmp (s1 s2 : List UInt8) : Bool := s1.map toupper ≠ s2.map toupper

/-- `p_fseek`, to an absolute position. -/
def pFseek (fd : Fd) (offs : Nat) : Fd × Int :=
  if offs ≤ 32 * fd.entries.length then ({ fd with fpos := offs }, offs) else (fd, ERANGE)

/-- An entry of a new cluster. -/
def Entry.zero : Entry :=
  { head := 0, name1 := List.replicate 10 0, attr := 0, unused := 0, chksum := 0
    name2 := List.replicate 12 0, stcl := [0, 0], name3 := List.replicate 4 0
    name1_length := rfl, name2_length := zeros_name2, stcl_length := zeros_stcl
    name3_length := zeros_name3 }

/-- `p_extfd`: make a directory longer. -/
def pExtfd (vol : Vol) (fd : Fd) : Fd × Int :=
  match vol.extfd fd.entries.length with
  | .error doserr => (fd, doserr)
  | .ok n => ({ fd with entries := fd.entries ++ List.replicate n Entry.zero }, 0)

/-! ### The short name -/

def int16 (n : Int) : Int := n.bmod (2 ^ 16)

/-- The number behind a tilde, up to a blank, unless there is another character. -/
def aliasDigits (number : Int) : List UInt8 → Option Int
  | [] => some number
  | u :: us =>
    if u = 0x20 then some number
    else if u < 0x30 ∨ 0x39 < u then none
    else aliasDigits (int16 (int16 (number * 10) + (u.toNat - 0x30 : Int))) us

/-- The number behind a tilde, if it is not too large. -/
def aliasNumber (us : List UInt8) : Option Int :=
  match aliasDigits 0 us with
  | some number => if 1600 ≤ number then none else some number
  | none => none

/-- Compare the names `s` and `t` up to a tilde in `t` and yield the number there,
    or 0 if they are the same. -/
def aliasLoop : List UInt8 → List UInt8 → Option Int
  | s, t :: ts =>
    match (if t = 0x7e then aliasNumber ts else none) with
    | some number => some number
    | none => if s.head? ≠ some t then none else aliasLoop s.tail ts
  | _, [] => some 0

/-- The number of an alias of `new` that the name `old` takes, if it takes one. -/
def aliasScan (new old : List UInt8) : Option Int :=
  if new.drop 8 ≠ old.drop 8 then none
  else if new.head? ≠ old.head? then none
  else aliasLoop ((new.take 8).tail) ((old.take 8).tail)

/-- Mark a number as used. A negative one has no place in the table. -/
def mark (used : List Nat) (number : Int) : Option (List Nat) :=
  if number < 0 then none else some (number.toNat :: used)

def Entry.setChar (dir : Entry) (s : Nat) (c : UInt8) : Entry :=
  match s with
  | 0 => { dir with head := c }
  | s + 1 => { dir with name1 := dir.name1.set s c
                        name1_length := by rw [List.length_set]; exact dir.name1_length }

/-- The last character from `s` down that is not blank. There may be none in the
    name. -/
def lastChar (name : List UInt8) : Nat → Option Nat
  | 0 => if name.getD 0 0 = 0x20 then none else some 0
  | s + 1 => if name.getD (s + 1) 0 = 0x20 then lastChar name s else some (s + 1)

/-- Store a tilde and a number of at most four digits that ends at `s`. -/
def putNumber (dir : Entry) (s : Nat) : Nat → Nat → Entry
  | 0, _ => dir.setChar s 0x7e
  | n + 1, number =>
    if number = 0 then dir.setChar s 0x7e
    else putNumber (dir.setChar s (UInt8.ofNat (number % 10 + 0x30))) (s - 1) n (number / 10)

/-- The length of a tilde and a number. -/
def aliasLen (number : Nat) : Nat :=
  if 999 < number then 5 else if 99 < number then 4 else if 9 < number then 3 else 2

/-- The short name with a number, 0 standing for the name itself. -/
def aliasName (newdir : Entry) (number : Nat) : Option Entry :=
  if number = 0 then some newdir
  else
    match lastChar newdir.name (7 - aliasLen number) with
    | none => none
    | some s => some (putNumber newdir (s + aliasLen number) 4 number)

/-! ### The loop -/

/-- The local variables of the loop. The gap has no position when `gap_pos` is
    negative. -/
structure Gap where
  gap_pos : Option Nat
  gap_len : Nat
  found : Bool
  used : List Nat

/-- What the loop looks for: the number of entries it needs, whether the name is a
    long one, the new entry, and the entries that count as deleted. -/
structure Want where
  ndirs : Nat
  long : Bool
  newdir : Entry
  specialpos : Int
  specialfirstpos : Int

/-- How the loop ends: with an error, with the position for a short name, or behind
    the loop. -/
inductive FfreeEnd where
  | ret (doserr : Int)
  | frei (actpos : Nat)
  | ende (gap : Gap)

/-- Make room for `n` more entries, the next one being the `len`th of the gap. -/
def makeRoom (vol : Vol) (gap_pos : Nat) : Nat → Nat → Fd → Fd × Option Int
  | _, 0, fd => (fd, none)
  | len, n + 1, fd =>
    let r := pFseek fd (gap_pos + 32 * len + 1)
    let r := if r.2 = ERANGE then pExtfd vol r.1 else r
    if r.2 < 0 then (r.1, some r.2) else makeRoom vol gap_pos (len + 1) n r.1

/-- A gap that an entry makes longer. -/
def Gap.grow (gap : Gap) (actpos : Nat) : Gap :=
  match gap.gap_pos with
  | none => { gap with gap_pos := some actpos, gap_len := 1 }
  | some _ => { gap with gap_len := gap.gap_len + 1 }

/-- A directory entry: the gap ends, and the number of its name is marked. -/
def mainSeen (want : Want) (actpos : Nat) (dir : Entry) (gap : Gap) : Option Gap :=
  let gap := if gap.found then gap else { gap with gap_pos := none }
  if dir.attr ≠ 0x0f ∧ (actpos : Int) ≠ want.specialpos then
    match aliasScan want.newdir.name dir.name with
    | none => some gap
    | some number =>
      match mark gap.used number with
      | none => none
      | some used => some { gap with used := used }
  else some gap

/-- The loop of `vf_ffree` over the entries from `actpos` on. -/
def ffreeLoop (vol : Vol) (want : Want) (fd : Fd) : Nat → List Entry → Gap → Option (Fd × FfreeEnd)
  | actpos, [], gap =>
    if fd.ende < 0 then some (fd, .ret fd.ende)
    else if gap.found then some (fd, .ende gap)
    else
      let gap := if gap.gap_pos = none then { gap with gap_pos := some actpos } else gap
      let r := pExtfd vol fd
      if r.2 < 0 then some (r.1, .ret r.2) else some (r.1, .ende gap)
  | actpos, dir :: entries, gap =>
    if dir.head = 0 then
      if gap.found then some (fd, .ende gap)
      else
        let gap := gap.grow actpos
        match makeRoom vol (gap.gap_pos.getD 0) gap.gap_len (want.ndirs - gap.gap_len) fd with
        | (fd, some doserr) => some (fd, .ret doserr)
        | (fd, none) => some (fd, .ende gap)
    else if dir.head = 0xe5 ∨ (actpos : Int) ≤ want.specialpos ∧ want.specialfirstpos ≤ actpos then
      if want.long then
        let gap := if gap.found then gap
          else
            let gap := gap.grow actpos
            { gap with found := want.ndirs ≤ gap.gap_len }
        ffreeLoop vol want fd (actpos + 32) entries gap
      else some (fd, .frei actpos)
    else if want.long then
      match mainSeen want actpos dir gap with
      | none => none
      | some gap => ffreeLoop vol want fd (actpos + 32) entries gap
    else ffreeLoop vol want fd (actpos + 32) entries gap

/-- What `vf_ffree` yields: the position of the main entry or an error, the new
    entry with its short name, the long name if there is to be one, and the
    position of the first entry. -/
structure Ffree where
  ret : Int
  newdir : Entry
  longname : Option (List UInt8)
  firstdirpos : Option Nat
  deriving DecidableEq

/-- `vf_ffree`, behind the loop: take a free number, and return the positions. -/
def ffreeEnde (want : Want) (longname : Option (List UInt8)) (gap : Gap) : Option Ffree :=
  let ret (newdir : Entry) : Ffree :=
    match gap.gap_pos with
    | none => ⟨-1, newdir, longname, none⟩
    | some gap_pos => ⟨gap_pos + 32 * (want.ndirs - 1 : Nat), newdir, longname, some gap_pos⟩
  if want.long then
    match (List.range 1600).find? fun number => number ∉ gap.used with
    | none => some ⟨EINTRN, want.newdir, longname, none⟩
    | some number =>
      match aliasName want.newdir number with
      | none => none
      | some newdir => some (ret newdir)
  else some (ret want.newdir)

/-- `vf_ffree`. There is no result when it leaves its tables. -/
def vfFfree (vol : Vol) (specialpos specialfirstpos : Int) (fd : Fd) (name : List UInt8)
    (newdir : Entry) : Option (Fd × Ffree) :=
  let shortname := ext83 newdir.name
  let long := vol.d_flags && shortname != name
  let longname := if long then some name else none
  if long = true ∧ MAXFOLDERNAME < name.length then some (fd, ⟨ERANGE, newdir, longname, none⟩)
  else
    let ndirs := if long then (name.length + 12) / 13 + 1 else 1
    let firstpos := if specialfirstpos < 0 then specialpos else specialfirstpos
    let specialfirstpos :=
      if specialpos < 0 then specialfirstpos
      else if (ndirs : Int) ≠ (specialpos - firstpos) / 32 + 1 then 0x7fffffff else firstpos
    let want : Want := ⟨ndirs, long, newdir, specialpos, specialfirstpos⟩
    let used := if long && stricmp shortname name then [0] else []
    match ffreeLoop vol want { fd with fpos := 0 } 0 fd.entries ⟨none, 0, false, used⟩ with
    | none => none
    | some (fd, .ret doserr) => some (fd, ⟨doserr, newdir, longname, none⟩)
    | some (fd, .frei actpos) => some (fd, ⟨actpos, newdir, longname, some actpos⟩)
    | some (fd, .ende gap) =>
      match ffreeEnde want longname gap with
      | none => none
      | some r => some (fd, r)

/-! ### The gap -/

theorem pFseek_entries (fd : Fd) (offs : Nat) : (pFseek fd offs).1.entries = fd.entries := by
  unfold pFseek
  by_cases h : offs ≤ 32 * fd.entries.length
  · rw [if_pos h]
  · rw [if_neg h]

theorem pExtfd_entries (vol : Vol) (fd : Fd) :
    ∃ more, (pExtfd vol fd).1.entries = fd.entries ++ more := by
  unfold pExtfd
  cases vol.extfd fd.entries.length with
  | error doserr => exact ⟨[], (List.append_nil _).symm⟩
  | ok n => exact ⟨_, rfl⟩

theorem makeRoom_entries (vol : Vol) (gap_pos len n : Nat) (fd : Fd) :
    ∃ more, (makeRoom vol gap_pos len n fd).1.entries = fd.entries ++ more := by
  induction n generalizing len fd with
  | zero => exact ⟨[], (List.append_nil _).symm⟩
  | succ n ih =>
    have hseek := pFseek_entries fd (gap_pos + 32 * len + 1)
    rw [makeRoom]
    generalize pFseek fd (gap_pos + 32 * len + 1) = r at hseek
    -- One entry makes the directory longer or leaves it as it is.
    obtain ⟨more, hmore⟩ : ∃ more,
        (if r.2 = ERANGE then pExtfd vol r.1 else r).1.entries = fd.entries ++ more := by
      by_cases herr : r.2 = ERANGE
      · rw [if_pos herr, ← hseek]
        exact pExtfd_entries vol r.1
      · rw [if_neg herr]
        exact ⟨[], by rw [hseek, List.append_nil]⟩
    generalize (if r.2 = ERANGE then pExtfd vol r.1 else r) = r' at hmore
    by_cases hneg : r'.2 < 0
    · simp only [if_pos hneg]
      exact ⟨more, hmore⟩
    · simp only [if_neg hneg]
      rcases ih (len + 1) r'.1 with ⟨more', hmore'⟩
      exact ⟨more ++ more', by rw [hmore', hmore, List.append_assoc]⟩

/-- The gap begins behind `j` entries of `seen`, if there is one. -/
def GapIn (seen : List Entry) (gap : Gap) : Prop :=
  (∀ g, gap.gap_pos = some g → ∃ j, j ≤ seen.length ∧ g = 32 * j) ∧
    (gap.found = true → gap.gap_pos ≠ none)

theorem gapIn_grow (seen : List Entry) (gap : Gap) (hgap : GapIn seen gap) :
    ∃ j, j ≤ seen.length ∧ (gap.grow (32 * seen.length)).gap_pos = some (32 * j) := by
  unfold Gap.grow
  cases hpos : gap.gap_pos with
  | none => exact ⟨seen.length, Nat.le_refl _, rfl⟩
  | some g =>
    rcases hgap.1 g hpos with ⟨j, hj, rfl⟩
    exact ⟨j, hj, rfl⟩

theorem gapIn_mono (seen : List Entry) (e : Entry) (gap : Gap) (hgap : GapIn seen gap) :
    GapIn (seen ++ [e]) gap := by
  refine ⟨fun g hg => ?_, hgap.2⟩
  rcases hgap.1 g hg with ⟨j, hj, hgj⟩
  exact ⟨j, by rw [List.length_append]; omega, hgj⟩

theorem mainSeen_eq (want : Want) (actpos : Nat) (dir : Entry) (gap gap' : Gap)
    (h : mainSeen want actpos dir gap = some gap') :
    gap' =
      { (if gap.found then gap else { gap with gap_pos := none }) with used := gap'.used } := by
  unfold mainSeen at h
  generalize (if gap.found then gap else { gap with gap_pos := none }) = gap1 at h
  simp only at h
  by_cases hmain : dir.attr ≠ 0x0f ∧ (actpos : Int) ≠ want.specialpos
  · rw [if_pos hmain] at h
    cases hscan : aliasScan want.newdir.name dir.name with
    | none =>
      rw [hscan] at h
      rw [← Option.some.inj h]
    | some number =>
      rw [hscan] at h
      simp only at h
      cases hmark : mark gap1.used number with
      | none =>
        rw [hmark] at h
        simp only [reduceCtorEq] at h
      | some used =>
        rw [hmark] at h
        rw [← Option.some.inj h]
  · rw [if_neg hmain] at h
    rw [← Option.some.inj h]

theorem mainSeen_gap (want : Want) (actpos : Nat) (dir : Entry) (gap gap' : Gap)
    (h : mainSeen want actpos dir gap = some gap') :
    gap'.found = gap.found ∧ gap'.gap_pos = if gap.found then gap.gap_pos else none := by
  rw [mainSeen_eq want actpos dir gap gap' h]
  by_cases hfound : gap.found = true
  · rw [if_pos hfound, if_pos hfound]
    exact ⟨rfl, rfl⟩
  · rw [if_neg hfound, if_neg hfound]
    exact ⟨rfl, rfl⟩

/-! ### The loop -/

/-- How the loop goes on behind an entry that is not the end mark. -/
inductive Skips (want : Want) (actpos : Nat) (dir : Entry) (gap : Gap) : Gap → Prop where
  /-- A deleted entry, or one of the file that gets another name. -/
  | gone (hlong : want.long = true)
      (hgone : dir.head = 0xe5 ∨ (actpos : Int) ≤ want.specialpos ∧ want.specialfirstpos ≤ actpos) :
      Skips want actpos dir gap
        (if gap.found then gap
          else { gap.grow actpos with found := want.ndirs ≤ (gap.grow actpos).gap_len })
  | main (gap1 : Gap) (hlong : want.long = true)
      (hgone : ¬ (dir.head = 0xe5 ∨
        (actpos : Int) ≤ want.specialpos ∧ want.specialfirstpos ≤ actpos))
      (hmain : mainSeen want actpos dir gap = some gap1) : Skips want actpos dir gap gap1
  /-- A short name needs no gap. -/
  | short (hlong : want.long = false) : Skips want actpos dir gap gap

/-- How the loop ends at the entry `n`, or at the end of the directory. -/
inductive Halts (vol : Vol) (want : Want) (fd : Fd) (n : Nat) (gap : Gap) : Fd →
    FfreeEnd → Prop where
  | error (hneg : fd.ende < 0) : Halts vol want fd n gap fd (.ret fd.ende)
  | found (hfound : gap.found = true)
      (hend : ∀ dir, fd.entries[n]? = some dir → dir.head = 0) : Halts vol want fd n gap
        fd (.ende gap)
  | full (hneg : (pExtfd vol fd).2 < 0) :
      Halts vol want fd n gap (pExtfd vol fd).1 (.ret (pExtfd vol fd).2)
  | extended (hend : fd.entries.length ≤ n) (hfound : gap.found = false)
      (hext : 0 ≤ (pExtfd vol fd).2) :
      Halts vol want fd n gap (pExtfd vol fd).1
        (.ende (if gap.gap_pos = none then { gap with gap_pos := some (32 * n) } else gap))
  | crowded (fd' : Fd) (doserr : Int)
      (hroom : makeRoom vol ((gap.grow (32 * n)).gap_pos.getD 0) (gap.grow (32 * n)).gap_len
        (want.ndirs - (gap.grow (32 * n)).gap_len) fd = (fd', some doserr)) :
      Halts vol want fd n gap fd' (.ret doserr)
  | room (dir : Entry) (fd' : Fd) (hdir : fd.entries[n]? = some dir) (h0 : dir.head = 0)
      (hfound : gap.found = false)
      (hroom : makeRoom vol ((gap.grow (32 * n)).gap_pos.getD 0) (gap.grow (32 * n)).gap_len
        (want.ndirs - (gap.grow (32 * n)).gap_len) fd = (fd', none)) :
      Halts vol want fd n gap fd' (.ende (gap.grow (32 * n)))
  | frei (dir : Entry) (hdir : fd.entries[n]? = some dir) (hlong : want.long = false)
      (hgone : dir.head = 0xe5 ∨
        ((32 * n : Nat) : Int) ≤ want.specialpos ∧ want.specialfirstpos ≤ (32 * n : Nat)) :
      Halts vol want fd n gap fd (.frei (32 * n))

/-- What holds at the beginning and is kept at each entry holds where the loop ends. -/
theorem ffreeLoop_run {P : Nat → Gap → Prop} (vol : Vol) (want : Want) (fd fd' : Fd) (n : Nat)
    (rest : List Entry) (gap : Gap) (fin : FfreeEnd) (hes : fd.entries.drop n = rest)
    (hn : n ≤ fd.entries.length) (hP : P n gap)
    (hpass : ∀ m dir gap gap1, fd.entries[m]? = some dir → dir.head ≠ 0 → P m gap →
      Skips want (32 * m) dir gap gap1 → P (m + 1) gap1)
    (h : ffreeLoop vol want fd (32 * n) rest gap = some (fd', fin)) :
    ∃ m gap1, m ≤ fd.entries.length ∧ P m gap1 ∧ Halts vol want fd m gap1 fd' fin := by
  induction rest generalizing n gap with
  | nil =>
    have hend : fd.entries.length ≤ n := by
      have hlen := congrArg List.length hes
      rw [List.length_drop, List.length_nil] at hlen
      omega
    refine ⟨n, gap, hn, hP, ?_⟩
    simp only [ffreeLoop] at h
    by_cases hneg : fd.ende < 0
    · rw [if_pos hneg, Option.some.injEq, Prod.mk.injEq] at h
      rcases h with ⟨rfl, rfl⟩
      exact .error hneg
    rw [if_neg hneg] at h
    by_cases hfound : gap.found = true
    · rw [if_pos hfound, Option.some.injEq, Prod.mk.injEq] at h
      rcases h with ⟨rfl, rfl⟩
      refine .found hfound fun dir hdir => ?_
      rw [List.getElem?_eq_none hend] at hdir
      simp only [reduceCtorEq] at hdir
    rw [if_neg hfound] at h
    by_cases hext : (pExtfd vol fd).2 < 0
    · rw [if_pos hext, Option.some.injEq, Prod.mk.injEq] at h
      rcases h with ⟨rfl, rfl⟩
      exact .full hext
    · rw [if_neg hext, Option.some.injEq, Prod.mk.injEq] at h
      rcases h with ⟨rfl, rfl⟩
      exact .extended hend (Bool.eq_false_iff.mpr hfound) (Int.not_lt.mp hext)
  | cons dir rest ih =>
    have hlt : n < fd.entries.length := by
      have hlen := congrArg List.length hes
      rw [List.length_drop, List.length_cons] at hlen
      omega
    have hget : fd.entries[n]? = some dir := by
      have hhead := congrArg List.head? hes
      rw [List.head?_drop, List.head?_cons] at hhead
      exact hhead
    have hnext : fd.entries.drop (n + 1) = rest := by
      rw [← List.tail_drop, hes]
      rfl
    simp only [ffreeLoop, show 32 * n + 32 = 32 * (n + 1) by omega] at h
    by_cases h0 : dir.head = 0
    · refine ⟨n, gap, hn, hP, ?_⟩
      rw [if_pos h0] at h
      by_cases hfound : gap.found = true
      · rw [if_pos hfound, Option.some.injEq, Prod.mk.injEq] at h
        rcases h with ⟨rfl, rfl⟩
        refine .found hfound fun e he => ?_
        rw [hget] at he
        rw [← Option.some.inj he]
        exact h0
      · rw [if_neg hfound] at h
        cases hroom : makeRoom vol ((gap.grow (32 * n)).gap_pos.getD 0) (gap.grow (32 * n)).gap_len
            (want.ndirs - (gap.grow (32 * n)).gap_len) fd with
        | mk fd1 err =>
          rw [hroom] at h
          cases err with
          | some doserr =>
            rw [Option.some.injEq, Prod.mk.injEq] at h
            rcases h with ⟨rfl, rfl⟩
            exact .crowded fd1 doserr hroom
          | none =>
            rw [Option.some.injEq, Prod.mk.injEq] at h
            rcases h with ⟨rfl, rfl⟩
            exact .room dir fd1 hget h0 (Bool.eq_false_iff.mpr hfound) hroom
    · -- The loop goes on, or a short name takes the entry.
      rw [if_neg h0] at h
      have hon :=
        fun gap1 hskips => ih (n + 1) gap1 hnext hlt (hpass n dir gap gap1 hget h0 hP hskips)
      by_cases hgone : dir.head = 0xe5 ∨
          ((32 * n : Nat) : Int) ≤ want.specialpos ∧ want.specialfirstpos ≤ (32 * n : Nat)
      · rw [if_pos hgone] at h
        by_cases hlong : want.long = true
        · rw [if_pos hlong] at h
          exact hon _ (.gone hlong hgone) h
        · rw [if_neg hlong, Option.some.injEq, Prod.mk.injEq] at h
          rcases h with ⟨rfl, rfl⟩
          exact ⟨n, gap, hn, hP, .frei dir hget (Bool.eq_false_iff.mpr hlong) hgone⟩
      · rw [if_neg hgone] at h
        by_cases hlong : want.long = true
        · rw [if_pos hlong] at h
          cases hmain : mainSeen want (32 * n) dir gap with
          | none =>
            rw [hmain] at h
            simp only [reduceCtorEq] at h
          | some gap1 =>
            rw [hmain] at h
            exact hon gap1 (.main gap1 hlong hgone hmain) h
        · rw [if_neg hlong] at h
          exact hon gap (.short (Bool.eq_false_iff.mpr hlong)) h

theorem ffreeLoop_halts (vol : Vol) (want : Want) (fd fd' : Fd) (gap : Gap) (fin : FfreeEnd)
    (h : ffreeLoop vol want fd 0 fd.entries gap = some (fd', fin)) :
    ∃ m gap1, Halts vol want fd m gap1 fd' fin := by
  rcases ffreeLoop_run (P := fun _ _ => True) vol want fd fd' 0 fd.entries gap fin rfl
    (Nat.zero_le _) trivial (fun _ _ _ _ _ _ _ _ => trivial) h with ⟨m, gap1, -, -, hhalts⟩
  exact ⟨m, gap1, hhalts⟩

theorem ffreeLoop_long (vol : Vol) (want : Want) (fd fd' : Fd) (frei : Nat) (gap : Gap)
    (hlong : want.long = true) :
    ffreeLoop vol want fd 0 fd.entries gap ≠ some (fd', .frei frei) := by
  intro h
  rcases ffreeLoop_halts vol want fd fd' gap _ h with ⟨m, gap1, hhalts⟩
  cases hhalts with
  | frei dir hdir hshort => exact absurd hlong (Bool.eq_false_iff.mp hshort)

theorem makeRoom_err (vol : Vol) (gap_pos len n : Nat) (fd fd' : Fd) (doserr : Int)
    (h : makeRoom vol gap_pos len n fd = (fd', some doserr)) : doserr < 0 := by
  induction n generalizing len fd with
  | zero =>
    rw [makeRoom] at h
    simp only [Prod.mk.injEq, reduceCtorEq, and_false] at h
  | succ n ih =>
    rw [makeRoom] at h
    generalize (if (pFseek fd (gap_pos + 32 * len + 1)).2 = ERANGE
      then pExtfd vol (pFseek fd (gap_pos + 32 * len + 1)).1
      else pFseek fd (gap_pos + 32 * len + 1)) = r at h
    by_cases hneg : r.2 < 0
    · rw [if_pos hneg] at h
      rw [← Option.some.inj (Prod.mk.inj h).2]
      exact hneg
    · rw [if_neg hneg] at h
      exact ih (len + 1) r.1 h

theorem ffreeLoop_err (vol : Vol) (want : Want) (fd fd' : Fd) (gap : Gap) (doserr : Int)
    (h : ffreeLoop vol want fd 0 fd.entries gap = some (fd', .ret doserr)) : doserr < 0 := by
  rcases ffreeLoop_halts vol want fd fd' gap _ h with ⟨m, gap1, hhalts⟩
  cases hhalts with
  | error hneg => exact hneg
  | full hneg => exact hneg
  | crowded _ _ hroom => exact makeRoom_err vol _ _ _ fd fd' doserr hroom

theorem gapIn_skips (want : Want) (seen : List Entry) (dir : Entry) (gap gap1 : Gap)
    (hgap : GapIn seen gap) (hskips : Skips want (32 * seen.length) dir gap gap1) :
    GapIn (seen ++ [dir]) gap1 := by
  refine gapIn_mono seen dir _ ?_
  cases hskips with
  | gone =>
    by_cases hfound : gap.found = true
    · rw [if_pos hfound]
      exact hgap
    · rw [if_neg hfound]
      rcases gapIn_grow seen gap hgap with ⟨j, hj, hpos⟩
      refine ⟨fun g hg => ?_, fun _ => ?_⟩
      · simp only [hpos, Option.some.injEq] at hg
        exact ⟨j, hj, hg.symm⟩
      · simp only [hpos, ne_eq, reduceCtorEq, not_false_eq_true]
  | main _ _ _ hmain =>
    rcases mainSeen_gap want _ dir gap gap1 hmain with ⟨hfound1, hpos1⟩
    refine ⟨fun g hg => ?_, fun hfound => ?_⟩
    · rw [hpos1] at hg
      by_cases hfound : gap.found = true
      · rw [if_pos hfound] at hg
        exact hgap.1 g hg
      · rw [if_neg hfound] at hg
        simp only [reduceCtorEq] at hg
    · rw [hfound1] at hfound
      rw [hpos1, if_pos hfound]
      exact hgap.2 hfound
  | short => exact hgap

/-- The gap lies behind entries that have been seen, none of which is the end mark. -/
theorem ffreeLoop_spec (vol : Vol) (want : Want) (fd fd' : Fd) (gap gap' : Gap)
    (hgap : GapIn [] gap) (h : ffreeLoop vol want fd 0 fd.entries gap = some (fd', .ende gap')) :
    ∃ j, gap'.gap_pos = some (32 * j) ∧ j ≤ fd'.entries.length ∧
      ∀ e ∈ fd'.entries.take j, e.head ≠ 0 := by
  have hpass : ∀ m dir gap gap1, fd.entries[m]? = some dir → dir.head ≠ 0 →
      (GapIn (fd.entries.take m) gap ∧ ∀ e ∈ fd.entries.take m, e.head ≠ 0) →
      Skips want (32 * m) dir gap gap1 →
      GapIn (fd.entries.take (m + 1)) gap1 ∧ ∀ e ∈ fd.entries.take (m + 1), e.head ≠ 0 := by
    rintro m dir gap gap1 hdir h0 ⟨hgin, hlive⟩ hskips
    have hm := (List.getElem?_eq_some_iff.mp hdir).1
    rw [List.take_add_one, hdir, Option.toList_some]
    refine ⟨gapIn_skips want _ dir gap gap1 hgin ?_, fun e he => ?_⟩
    · rw [List.length_take_of_le (Nat.le_of_lt hm)]
      exact hskips
    · rcases List.mem_append.mp he with he | he
      · exact hlive e he
      · rw [List.mem_singleton.mp he]
        exact h0
  rcases ffreeLoop_run vol want fd fd' 0 fd.entries gap _ rfl (Nat.zero_le _)
    ⟨hgap, fun e he => absurd he List.not_mem_nil⟩ hpass h with ⟨m, gap1, hm, ⟨hgin, hlive⟩, hhalts⟩
  have hlen := List.length_take_of_le hm
  have hdone : ∀ (more : List Entry) (j : Nat), fd'.entries = fd.entries ++ more → j ≤ m →
      j ≤ fd'.entries.length ∧ ∀ e ∈ fd'.entries.take j, e.head ≠ 0 := by
    intro more j hent hj
    refine ⟨by rw [hent, List.length_append]; omega, fun e he => ?_⟩
    rw [hent, List.take_append_of_le_length (by omega)] at he
    exact hlive e (List.take_subset_take_left _ hj he)
  cases hhalts with
  | found hfound =>
    rcases Option.ne_none_iff_exists'.mp (hgin.2 hfound) with ⟨g, hg⟩
    rcases hgin.1 g hg with ⟨j, hj, rfl⟩
    exact ⟨j, hg, hdone [] j (List.append_nil _).symm (by omega)⟩
  | extended =>
    rcases pExtfd_entries vol fd with ⟨more, hmore⟩
    by_cases hnone : gap1.gap_pos = none
    · rw [if_pos hnone]
      exact ⟨m, rfl, hdone more m hmore (Nat.le_refl m)⟩
    · rw [if_neg hnone]
      rcases Option.ne_none_iff_exists'.mp hnone with ⟨g, hg⟩
      rcases hgin.1 g hg with ⟨j, hj, rfl⟩
      exact ⟨j, hg, hdone more j hmore (by omega)⟩
  | room dir _ _ _ _ hroom =>
    rcases gapIn_grow _ gap1 hgin with ⟨j, hj, hpos⟩
    rw [hlen] at hj hpos
    rcases makeRoom_entries vol ((gap1.grow (32 * m)).gap_pos.getD 0) (gap1.grow (32 * m)).gap_len
      (want.ndirs - (gap1.grow (32 * m)).gap_len) fd with ⟨more, hmore⟩
    rw [hroom] at hmore
    exact ⟨j, hpos, hdone more j hmore hj⟩

/-! ### The short name keeps its first character -/

theorem setChar_keeps (dir : Entry) (s : Nat) (c : UInt8) (hs : 0 < s) :
    (dir.setChar s c).head = dir.head ∧ (dir.setChar s c).attr = dir.attr := by
  cases s with
  | zero => omega
  | succ s => exact ⟨rfl, rfl⟩

theorem putNumber_keeps (dir : Entry) (s n number : Nat) (hs : number < 10 ^ (s - 1))
    (h0 : 0 < s) : (putNumber dir s n number).head = dir.head ∧
      (putNumber dir s n number).attr = dir.attr := by
  induction n generalizing dir s number with
  | zero => exact setChar_keeps dir s _ h0
  | succ n ih =>
    rw [putNumber]
    by_cases hzero : number = 0
    · rw [if_pos hzero]
      exact setChar_keeps dir s _ h0
    · rw [if_neg hzero]
      -- A digit is left, so the tilde is not in the first place.
      have hs1 : 1 < s := by
        refine Classical.byContradiction fun hle => hzero ?_
        rw [show s - 1 = 0 by omega, Nat.pow_zero] at hs
        omega
      have hdiv : number / 10 < 10 ^ (s - 1 - 1) := by
        rw [show s - 1 = s - 1 - 1 + 1 by omega, Nat.pow_succ] at hs
        omega
      rcases ih (dir.setChar s (UInt8.ofNat (number % 10 + 0x30))) (s - 1) (number / 10) hdiv
        (by omega) with ⟨hhead, hattr⟩
      rcases setChar_keeps dir s (UInt8.ofNat (number % 10 + 0x30)) h0 with ⟨h1, h2⟩
      exact ⟨hhead.trans h1, hattr.trans h2⟩

theorem aliasLen_digits (number : Nat) (h : number < 1600) :
    number < 10 ^ (aliasLen number - 1) ∧ 2 ≤ aliasLen number := by
  unfold aliasLen
  by_cases h3 : 999 < number
  · rw [if_pos h3]
    omega
  · rw [if_neg h3]
    by_cases h2 : 99 < number
    · rw [if_pos h2]
      omega
    · rw [if_neg h2]
      by_cases h1 : 9 < number
      · rw [if_pos h1]
        omega
      · rw [if_neg h1]
        omega

theorem aliasName_keeps (newdir dir : Entry) (number : Nat) (hlt : number < 1600)
    (h : aliasName newdir number = some dir) : dir.head = newdir.head ∧ dir.attr = newdir.attr := by
  unfold aliasName at h
  by_cases h0 : number = 0
  · rw [if_pos h0] at h
    rw [← Option.some.inj h]
    exact ⟨rfl, rfl⟩
  · rw [if_neg h0] at h
    cases hlast : lastChar newdir.name (7 - aliasLen number) with
    | none =>
      rw [hlast] at h
      simp only [reduceCtorEq] at h
    | some s =>
      rw [hlast] at h
      rw [← Option.some.inj h]
      rcases aliasLen_digits number hlt with ⟨hdigits, hlen⟩
      refine putNumber_keeps newdir _ 4 number ?_ (by omega)
      exact Nat.lt_of_lt_of_le hdigits (Nat.pow_le_pow_right (by omega) (by omega))

/-- What `vf_ffree` returns for a name that its short form does not represent. -/
theorem vfFfree_spec (vol : Vol) (specialpos specialfirstpos : Int) (fd fd' : Fd)
    (name : List UInt8) (newdir : Entry) (r : Ffree) (p first : Nat) (hflags : vol.d_flags = true)
    (hlong : ext83 newdir.name ≠ name)
    (h : vfFfree vol specialpos specialfirstpos fd name newdir = some (fd', r))
    (hret : r.ret = p) (hfirst : r.firstdirpos = some first) :
    r.longname = some name ∧ name.length ≤ 64 ∧ r.newdir.head = newdir.head ∧
      r.newdir.attr = newdir.attr ∧ ∃ j, first = 32 * j ∧ p = 32 * (j + (name.length + 12) / 13) ∧
      j ≤ fd'.entries.length ∧ ∀ e ∈ fd'.entries.take j, e.head ≠ 0 := by
  have hl : (vol.d_flags && ext83 newdir.name != name) = true := by
    rw [hflags, Bool.true_and, bne_iff_ne]
    exact hlong
  unfold vfFfree at h
  simp only [hl, true_and, if_true] at h
  by_cases hlen : MAXFOLDERNAME < name.length
  · rw [if_pos hlen] at h
    simp only [Option.some.injEq, Prod.mk.injEq] at h
    rw [← h.2] at hfirst
    simp only [reduceCtorEq] at hfirst
  rw [if_neg hlen] at h
  generalize hwant : (⟨(name.length + 12) / 13 + 1, true, newdir, specialpos, _⟩ : Want) = want at h
  have hw : want.ndirs = (name.length + 12) / 13 + 1 ∧ want.long = true ∧ want.newdir = newdir := by
    rw [← hwant]
    exact ⟨rfl, rfl, rfl⟩
  generalize hgap0 : (⟨none, 0, false, _⟩ : Gap) = gap0 at h
  have hgin : GapIn [] gap0 := by
    rw [← hgap0]
    exact ⟨fun g hg => by simp only [reduceCtorEq] at hg, fun hf => by
      simp only [Bool.false_eq_true] at hf⟩
  cases hloop : ffreeLoop vol want { fd with fpos := 0 } 0 fd.entries gap0 with
  | none =>
    rw [hloop] at h
    simp only [reduceCtorEq] at h
  | some out =>
    rw [hloop] at h
    rcases out with ⟨fd1, fin⟩
    cases fin with
    | ret doserr =>
      simp only [Option.some.injEq, Prod.mk.injEq] at h
      rw [← h.2] at hfirst
      simp only [reduceCtorEq] at hfirst
    | frei actpos =>
      exact absurd hloop (ffreeLoop_long vol want { fd with fpos := 0 } fd1 actpos _ hw.2.1)
    | ende gap =>
      rcases ffreeLoop_spec vol want { fd with fpos := 0 } fd1 gap0 gap hgin hloop with
        ⟨j, hpos, hj, hlive⟩
      simp only [ffreeEnde, hw.2.1, if_true, hpos] at h
      cases hfree : (List.range 1600).find? fun number => number ∉ gap.used with
      | none =>
        rw [hfree] at h
        simp only [Option.some.injEq, Prod.mk.injEq] at h
        rw [← h.2] at hfirst
        simp only [reduceCtorEq] at hfirst
      | some number =>
        rw [hfree] at h
        simp only at h
        have hlt := List.mem_range.mp (List.mem_of_find?_eq_some hfree)
        cases halias : aliasName want.newdir number with
        | none =>
          rw [halias] at h
          simp only [reduceCtorEq] at h
        | some dir =>
          rw [halias] at h
          simp only [Option.some.injEq, Prod.mk.injEq] at h
          rcases h with ⟨rfl, rfl⟩
          simp only [Option.some.injEq, hw.1] at hret hfirst
          rw [hw.2.2] at halias
          rcases aliasName_keeps newdir dir number hlt halias with ⟨hhead, hattr⟩
          unfold MAXFOLDERNAME at hlen
          exact ⟨rfl, by omega, hhead, hattr, j, hfirst.symm, by omega, hj, hlive⟩

/-! ### Reading back -/

/-- One call of `_vf_readdir`, which does not come to the end of the directory. -/
def reads (fd : Fd) (lbuflen : Int) (shortbuf : Bool) (fmode : FMode) (q : Nat) (r : Readdir)
    (q' : Nat) : Prop :=
  vfReaddir { fd with fpos := q } (some lbuflen) shortbuf fmode = r ∧ r.ret ≠ .error 0 ∧
    r.fpos = q'

theorem pass_none (fmode : FMode) (es : List Entry) (pos : Nat) (st : Scan)
    (h : pass fmode pos es st = none) :
    ∃ a e b st1, es = a ++ e :: b ∧ pass fmode pos a st = some st1 ∧
      ∀ st2, readEntry fmode (pos + 32 * a.length) e st1 ≠ .weiter st2 := by
  induction es generalizing pos st with
  | nil => simp only [pass, reduceCtorEq] at h
  | cons e es ih =>
    rw [pass] at h
    by_cases hr : ∃ st1, readEntry fmode pos e st = .weiter st1
    · rcases hr with ⟨st1, hr⟩
      rw [hr] at h
      rcases ih _ _ h with ⟨a, d, b, st2, rfl, hpass, hstop⟩
      refine ⟨e :: a, d, b, st2, rfl, ?_, ?_⟩
      · rw [pass, hr]
        exact hpass
      · rw [List.length_cons, show pos + 32 * (a.length + 1) = pos + 32 + 32 * a.length by omega]
        exact hstop
    · exact ⟨[], e, es, st, rfl, rfl, fun st2 h2 => hr ⟨st2, h2⟩⟩

theorem readEntry_ret (fmode : FMode) (pos : Nat) (e : Entry) (st st' : Scan) (doserr : Int)
    (h0 : e.head ≠ 0) (h : readEntry fmode pos e st = .ret doserr st') : doserr = EINTRN := by
  cases h ▸ readEntry_reads fmode pos e st with
  | ende hende => exact absurd hende h0
  | overflow => rfl

theorem vfReaddir_stop (fd : Fd) (lbuflen : Int) (shortbuf : Bool) (fmode : FMode)
    (a b : List Entry) (e : Entry) (st1 : Scan)
    (hes : fd.entries.drop (fd.fpos / 32) = a ++ e :: b)
    (hpass : pass fmode fd.fpos a Scan.init = some st1)
    (hstop : ∀ st2, readEntry fmode (fd.fpos + 32 * a.length) e st1 ≠ .weiter st2)
    (h0 : e.head ≠ 0) :
    (vfReaddir fd (some lbuflen) shortbuf fmode).ret ≠ .error 0 ∧
      (vfReaddir fd (some lbuflen) shortbuf fmode).fpos = fd.fpos + 32 * (a.length + 1) := by
  have hpos : fd.fpos + 32 * a.length + 32 = fd.fpos + 32 * (a.length + 1) := by omega
  unfold vfReaddir
  rw [hes, readLoop_pass _ fmode a _ _ _ st1 hpass, readLoop, hpos]
  cases hr : readEntry fmode (fd.fpos + 32 * a.length) e st1 with
  | weiter st2 => exact absurd hr (hstop st2)
  | ret doserr st2 =>
    rw [readEntry_ret fmode _ e st1 st2 doserr h0 hr]
    refine ⟨fun h => ?_, rfl⟩
    simp only [Except.error.injEq, EINTRN] at h
    omega
  | fertig st2 =>
    simp only
    by_cases hcount : 0 ≤ st2.longcount
    · rw [if_pos hcount]
      by_cases hlen : lbuflen < st2.nxt_longname.length + 1
      · rw [if_pos hlen]
        exact ⟨fun h => absurd (Except.error.inj h) (by decide), rfl⟩
      · rw [if_neg hlen]
        exact ⟨fun h => by simp only [reduceCtorEq] at h, rfl⟩
    · rw [if_neg hcount]
      cases shortbuf with
      | true =>
        rw [if_pos rfl]
        exact ⟨fun h => by simp only [reduceCtorEq] at h, rfl⟩
      | false =>
        rw [if_neg (by decide)]
        by_cases hlen : lbuflen < 13
        · rw [if_pos hlen]
          exact ⟨fun h => absurd (Except.error.inj h) (by decide), rfl⟩
        · rw [if_neg hlen]
          exact ⟨fun h => by simp only [reduceCtorEq] at h, rfl⟩

/-- Reading from an entry before the gap gets to a call that walks up to the gap. -/
theorem reads_before (fd : Fd) (lbuflen : Int) (shortbuf : Bool) (fmode : FMode)
    (pre rest : List Entry) (hes : fd.entries = pre ++ rest) (hlive : ∀ e ∈ pre, e.head ≠ 0)
    (n i : Nat) (hi : i + n = pre.length) :
    ∃ rs k, Runs.Run (reads fd lbuflen shortbuf fmode) (32 * i) rs (32 * k) ∧ k ≤ pre.length ∧
      ∃ st, pass fmode (32 * k) (pre.drop k) Scan.init = some st := by
  induction n using Nat.strongRecOn generalizing i with
  | _ n ih =>
    cases hpass : pass fmode (32 * i) (pre.drop i) Scan.init with
    | some st => exact ⟨[], i, .nil _, by omega, st, hpass⟩
    | none =>
      rcases pass_none fmode _ _ _ hpass with ⟨a, e, b, st1, hdrop, hpa, hstop⟩
      have hlen : pre.length - i = a.length + (b.length + 1) := by
        rw [← List.length_drop, hdrop, List.length_append, List.length_cons]
      have hmem : e ∈ pre := by
        refine List.mem_of_mem_drop (i := i) ?_
        rw [hdrop]
        exact List.mem_append_right _ List.mem_cons_self
      have hent : (Fd.entries { fd with fpos := 32 * i }).drop (32 * i / 32)
          = a ++ e :: (b ++ rest) := by
        rw [Nat.mul_div_cancel_left i (by omega)]
        simp only [hes]
        rw [List.drop_append_of_le_length (by omega), hdrop, List.append_assoc]
        rfl
      rcases vfReaddir_stop { fd with fpos := 32 * i } lbuflen shortbuf fmode a (b ++ rest) e st1
        hent hpa hstop (hlive e hmem) with ⟨hret, hpos⟩
      simp only at hpos
      rw [← Nat.mul_add] at hpos
      -- The next call begins closer to the gap.
      rcases ih (n - (a.length + 1)) (by omega) (i + (a.length + 1)) (by omega) with
        ⟨rs, k, hrun, hk, hst⟩
      exact ⟨_ :: rs, k, .cons _ _ _ _ _ ⟨rfl, hret, hpos⟩ hrun, hk, hst⟩

/-- A long name that was written to the place that was found for it is read back,
    with the position of its first entry. -/
theorem longname_roundtrip (vol : Vol) (specialpos specialfirstpos : Int) (fd fd1 fd2 : Fd)
    (name : List UInt8) (newdir : Entry) (r : Ffree) (p first : Nat) (lbuflen : Int)
    (shortbuf : Bool) (fmode : FMode) (hflags : vol.d_flags = true) (hne : name ≠ [])
    (hmapped : ∀ c ∈ name, SelfMapped c) (hlong : ext83 newdir.name ≠ name)
    (hmain : newdir.IsMain) (hsel : fmode.selects newdir.attr = true)
    (hlbuf : (name.length : Int) < lbuflen)
    (hfree : vfFfree vol specialpos specialfirstpos fd name newdir = some (fd1, r))
    (hret : r.ret = p) (hfirst : r.firstdirpos = some first)
    (hcrnam : vfCrnam vol { fd1 with fpos := first } r.newdir r.longname = (fd2, 32)) :
    ∃ rs q, Runs.Run (reads fd2 lbuflen shortbuf fmode) 0 rs q ∧
      vfReaddir { fd2 with fpos := q } (some lbuflen) shortbuf fmode
        = ⟨.ok r.newdir, some name, if shortbuf then some (ext83 r.newdir.name) else none,
            first, p + 32⟩ := by
  rcases vfFfree_spec vol specialpos specialfirstpos fd fd1 name newdir r p first hflags hlong
    hfree hret hfirst with ⟨hname, hlen, hhead, hattr, j, rfl, rfl, hj, hlive⟩
  rw [hname] at hcrnam
  rcases vfCrnam_spec vol { fd1 with fpos := 32 * j } fd2 r.newdir name j hmapped hne hlen rfl hj
    hcrnam with ⟨seq, post, hent, hseqlen, hcomp, htext⟩
  simp only at hent
  have hpre : (fd1.entries.take j).length = j := by
    rw [List.length_take]
    omega
  rcases reads_before fd2 lbuflen shortbuf fmode (fd1.entries.take j) (seq ++ r.newdir :: post)
    (by rw [hent, List.append_assoc]) hlive j 0 (by rw [hpre]; omega) with
    ⟨rs, k, hrun, hk, hst⟩
  rw [hpre] at hk
  refine ⟨rs, 32 * k, hrun, ?_⟩
  have hmain' : r.newdir.IsMain := ⟨by rw [hhead]; exact hmain.1, by rw [hhead]; exact hmain.2.1,
    by rw [hattr]; exact hmain.2.2⟩
  have hdrop : (Fd.entries { fd2 with fpos := 32 * k }).drop (32 * k / 32)
      = (fd1.entries.take j).drop k ++ seq ++ r.newdir :: post := by
    rw [Nat.mul_div_cancel_left k (by omega)]
    simp only [hent]
    rw [List.append_assoc, List.drop_append_of_le_length (by omega), List.append_assoc]
  have hdroplen : ((fd1.entries.take j).drop k).length = j - k := by
    rw [List.length_drop, hpre]
  rw [vfReaddir_loose { fd2 with fpos := 32 * k } fmode _ seq post r.newdir 0 name lbuflen shortbuf
    hdrop hst (htext ▸ complete_loose fmode _ seq hcomp) (by omega) hlbuf hmain'
    (by rw [hattr]; exact hsel)]
  simp only [Readdir.mk.injEq, true_and, hdroplen, hseqlen]
  exact ⟨by omega, by omega⟩

theorem nothing_stale (n : Nat) (doserr : Int)
    (h : (fun _ => .ok [] : Nat → Except Int (List Entry)) n = .error doserr) : doserr < 0 := by
  cases h

/-- A volume with long names, of which no directory gets longer. -/
def fixedVol : Vol :=
  { d_flags := true, extfd := fun _ => .error (-36), stale := fun _ => .ok []
    extfd_neg := by rintro n _ ⟨rfl⟩; decide
    stale_neg := nothing_stale }

/-- A directory with an orphaned piece of a name and room behind it. -/
def orphanDir (fpos : Nat) : Fd := ⟨[leftPiece 0, Entry.zero, Entry.zero, Entry.zero], 0, fpos⟩

/-- The file with the first alias number. -/
def firstAlias : Entry :=
  { shortFile with name1 := [0x7e, 0x31] ++ List.replicate 8 0x20, name1_length := rfl }

/-- A name of fourteen characters takes two pieces behind the orphaned one, and is read back. -/
theorem longname_roundtrip_orphan :
    ∃ fd2 rs q, Runs.Run (reads fd2 65 true .findall) 0 rs q ∧
      vfReaddir { fd2 with fpos := q } (some 65) true .findall
        = ⟨.ok firstAlias, some (List.replicate 14 0x62), some [0x42, 0x7e, 0x31], 32, 128⟩ := by
  generalize hname : List.replicate 14 (0x62 : UInt8) = name
  have hcrnam : vfCrnam fixedVol (orphanDir 32) firstAlias (some name)
      = ((vfCrnam fixedVol (orphanDir 32) firstAlias (some name)).1, 32) :=
    Prod.ext rfl (hname ▸ by decide +kernel)
  have h := longname_roundtrip fixedVol (-1) (-1) (orphanDir 0) (orphanDir 97) _ name shortFile
    ⟨96, firstAlias, some name, some 32⟩ 96 32 65 true .findall rfl (hname ▸ by decide)
    (hname ▸ by decide +kernel) (hname ▸ by decide) ⟨by decide, by decide, by decide⟩ rfl
    (hname ▸ by decide) (hname ▸ by decide +kernel) rfl rfl hcrnam
  rcases h with ⟨rs, q, hrun, hread⟩
  exact ⟨_, rs, q, hrun, hread⟩

end Vfat

end MagiC
