import MagiC.Vfat.Unicode

/-!
# Reading a Directory

`_vf_readdir`, which finds the next entry of a directory that a search mode asks
for, and the long name that goes with it.

An entry has 32 bytes. Its attribute says whether it is the main entry of a file
or a piece of a long name. Main and long-name entries are laid out differently,
but the fields of the one are made of the fields of the other: `Entry` has the
fields of a long-name entry, and the eleven characters of a main entry's name are
its head and its first piece.

The pieces of a long name precede the main entry, the last one first. The reader
walks over the directory once, with the number of the piece it expects, the
checksum, and the text it has put together so far. `readEntry` is what it does
with one entry.

## Main definitions

* `vfReaddir`: `_vf_readdir`.

## Theorems

* `readLoop_pass`: The loop goes on behind entries that were walked over.
-/

namespace MagiC

namespace Vfat

/-- An entry of a directory: the fields of an `LDIR`, which a `DIR` shares. -/
structure Entry where
  head : UInt8
  name1 : List UInt8
  attr : UInt8
  unused : UInt8
  chksum : UInt8
  name2 : List UInt8
  stcl : List UInt8
  name3 : List UInt8
  name1_length : name1.length = 10
  name2_length : name2.length = 12
  stcl_length : stcl.length = 2
  name3_length : name3.length = 4
  deriving DecidableEq

/-! The fields of an entry of zeros, and of a piece that is not filled. -/

theorem zeros_name2 : (List.replicate 12 (0 : UInt8)).length = 12 := rfl
theorem zeros_stcl : ([0, 0] : List UInt8).length = 2 := rfl
theorem zeros_name3 : (List.replicate 4 (0 : UInt8)).length = 4 := rfl
theorem ones_name2 : (List.replicate 12 (0xff : UInt8)).length = 12 := rfl
theorem ones_name3 : (List.replicate 4 (0xff : UInt8)).length = 4 := rfl
theorem blanks_name1 : (List.replicate 10 (0x20 : UInt8)).length = 10 := rfl

/-- `dir->name`: the eleven characters of a short name. -/
def Entry.name (dir : Entry) : List UInt8 := dir.head :: dir.name1

/-- `ror.b #1`. -/
def rorB (d : UInt8) : UInt8 := d >>> 1 ||| d <<< 7

def vfChksum (dosname : List UInt8) : UInt8 := dosname.foldl (fun d b => rorB d + b) 0

/-- The characters before the extension, of which `ext_8_3` drops the blanks. The
    flag is set when the name ends in here. -/
def ext83Nam : List UInt8 → List UInt8 × Bool
  | [] => ([], false)
  | c :: cs =>
    if c = 0 then ([], true)
    else
      let r := ext83Nam cs
      if c = 0x20 then r else (c :: r.1, r.2)

/-- `ext_8_3`: a name of eight and three characters, as it is written with a dot. -/
def ext83 (srcIntName : List UInt8) : List UInt8 :=
  let nam := ext83Nam (srcIntName.take 8)
  let ext := (srcIntName.drop 8).takeWhile fun c => c ≠ 0 ∧ c ≠ 0x20
  if nam.2 ∨ ext = [] then nam.1 else nam.1 ++ 0x2e :: ext

/-- An open directory: its entries as far as they can be read, what reading
    returns behind them, and the file position. -/
structure Fd where
  entries : List Entry
  ende : Int
  fpos : Nat
  deriving DecidableEq

def EINTRN : Int := -65
def ERANGE : Int := -64

/-- `FINDDIR` and so on. -/
inductive FMode where
  | finddir
  | findxdir
  | findndir
  | findall
  | findlabl
  deriving DecidableEq, Repr

/-- The main entries that a search finds, by their attribute: `FA_VOLUME` is bit
    3, `FA_SUBDIR` bit 4, `FA_SYMLINK` bit 6. -/
def FMode.selects (fmode : FMode) (attr : UInt8) : Bool :=
  let c := attr &&& 0x08
  match fmode with
  | .findlabl => c ≠ 0 ∧ attr &&& 0x10 = 0
  | .finddir => attr &&& 0x10 ≠ 0
  | .findxdir => attr &&& (0x10 + 0x40) ≠ 0
  | .findndir => c = 0 ∧ attr &&& 0x10 = 0
  | .findall => c = 0

/-- The local variables of the reader. `nxt_longname` is the text from the pointer
    to the end of the buffer. -/
structure Scan where
  longcount : Int
  startpos : Int
  act_chksum : UInt8
  nxt_longname : List UInt8

/-- The flag of the piece that ends the name, which comes first. -/
def Entry.Flagged (dir : Entry) : Prop := dir.head &&& 0x40 ≠ 0

instance (dir : Entry) : Decidable dir.Flagged := inferInstanceAs (Decidable (_ ≠ _))

/-- `reldirnr`: the number of a piece. -/
def Entry.reldirnr (dir : Entry) : Nat := (dir.head &&& 0x1f).toNat

/-- The characters of one piece. -/
def Entry.ltmpname (dir : Entry) : List UInt8 :=
  (unic2ibm dir.name1 ++ unic2ibm dir.name2 ++ unic2ibm dir.name3).takeWhile fun c => c ≠ 0

/-- How the body of the loop ends. -/
inductive Step where
  | weiter (st : Scan)
  | ret (doserr : Int) (st : Scan)
  | fertig (st : Scan)

/-- `fehler`: there is no long name. -/
def Scan.fehler (st : Scan) : Scan := { st with longcount := -1, startpos := -1 }

/-- The state in which a piece of a long name is taken, if it is the first one or
    the one that was expected. -/
def expected (pos : Nat) (dir : Entry) (st : Scan) : Option Scan :=
  if dir.Flagged then
    some { longcount := dir.reldirnr, startpos := pos, act_chksum := dir.chksum,
           nxt_longname := [] }
  else if st.longcount ≤ 0 then none
  else if dir.reldirnr ≠ st.longcount ∨ st.act_chksum ≠ dir.chksum then none
  else some st

/-- The text of a piece goes in front of what there is. -/
def Scan.take (st : Scan) (dir : Entry) : Scan :=
  { st with nxt_longname := dir.ltmpname ++ st.nxt_longname, longcount := st.longcount - 1 }

/-- Take a piece of a long name. The buffer has 299 characters. -/
def readLdir (pos : Nat) (dir : Entry) (st : Scan) : Step :=
  match expected pos dir st with
  | none => .weiter st.fehler
  | some st =>
    if 299 < st.nxt_longname.length + dir.ltmpname.length then .ret EINTRN st
    else .weiter (st.take dir)

/-- A main entry, which the long name is meant for if the checksum is right. -/
def readMain (fmode : FMode) (dir : Entry) (st : Scan) : Step :=
  let st := if 0 ≤ st.longcount ∧ vfChksum dir.name ≠ st.act_chksum then st.fehler else st
  if fmode.selects dir.attr then .fertig st else .weiter st

/-- The body of the loop. -/
def readEntry (fmode : FMode) (pos : Nat) (dir : Entry) (st : Scan) : Step :=
  if dir.head = 0 then .ret 0 st
  else if dir.head = 0xe5 then .weiter st
  else if dir.attr = 0x0f then readLdir pos dir st
  else readMain fmode dir st

/-- How the loop ends, with the position behind the last entry that was read. -/
inductive LoopEnd where
  | ret (doserr : Int) (st : Scan) (fpos : Nat)
  | fertig (dir : Entry) (st : Scan) (fpos : Nat)

/-- The loop, over the entries from a position on. -/
def readLoop (ende : Int) (fmode : FMode) : Nat → List Entry → Scan → LoopEnd
  | pos, [], st => .ret ende st pos
  | pos, dir :: entries, st =>
    match readEntry fmode pos dir st with
    | .weiter st => readLoop ende fmode (pos + 32) entries st
    | .ret doserr st => .ret doserr st (pos + 32)
    | .fertig st => .fertig dir st (pos + 32)

/-- What `_vf_readdir` yields: an entry or a code, the names it stores in the
    buffers, the position of the first entry that belongs to the one found, and
    the file position. -/
structure Readdir where
  ret : Except Int Entry
  lbuf : Option (List UInt8)
  shortbuf : Option (List UInt8)
  startpos : Int
  fpos : Nat

/-- The variables before the loop. There is neither a checksum nor a text yet. -/
def Scan.init : Scan :=
  { longcount := -1, startpos := -1, act_chksum := 0, nxt_longname := [] }

/-- `_vf_readdir`. `lbuf` is the length of the buffer for the long name, and
    `shortbuf` whether there is one for the short name. -/
def vfReaddir (fd : Fd) (lbuf : Option Int) (shortbuf : Bool) (fmode : FMode) : Readdir :=
  match readLoop fd.ende fmode fd.fpos (fd.entries.drop (fd.fpos / 32)) Scan.init with
  | .ret doserr st fpos => ⟨.error doserr, none, none, st.startpos, fpos⟩
  | .fertig dir st fpos =>
    let short := if shortbuf then some (ext83 dir.name) else none
    match lbuf with
    | none => ⟨.ok dir, none, short, st.startpos, fpos⟩
    | some lbuflen =>
      if 0 ≤ st.longcount then
        if lbuflen < st.nxt_longname.length + 1 then
          ⟨.error ERANGE, none, none, st.startpos, fpos⟩
        else ⟨.ok dir, some st.nxt_longname, short, st.startpos, fpos⟩
      else if shortbuf then ⟨.ok dir, some [], short, st.startpos, fpos⟩
      else if lbuflen < 13 then ⟨.error ERANGE, none, none, st.startpos, fpos⟩
      else ⟨.ok dir, some (ext83 dir.name), short, st.startpos, fpos⟩

/-! ### One entry -/

def Entry.IsLdir (e : Entry) : Prop := e.head ≠ 0 ∧ e.head ≠ 0xe5 ∧ e.attr = 0x0f

def Entry.IsMain (e : Entry) : Prop := e.head ≠ 0 ∧ e.head ≠ 0xe5 ∧ e.attr ≠ 0x0f

theorem readEntry_ldir (fmode : FMode) (pos : Nat) (e : Entry) (st : Scan) (he : e.IsLdir) :
    readEntry fmode pos e st = readLdir pos e st := by
  unfold readEntry
  rw [if_neg he.1, if_neg he.2.1, if_pos he.2.2]

theorem readEntry_main (fmode : FMode) (pos : Nat) (e : Entry) (st : Scan) (he : e.IsMain) :
    readEntry fmode pos e st = readMain fmode e st := by
  unfold readEntry
  rw [if_neg he.1, if_neg he.2.1, if_neg he.2.2]

theorem readEntry_deleted (fmode : FMode) (pos : Nat) (e : Entry) (st : Scan)
    (he : e.head = 0xe5) : readEntry fmode pos e st = .weiter st := by
  unfold readEntry
  rw [if_neg (by rw [he]; decide), if_pos he]

theorem expected_flagged (pos : Nat) (e : Entry) (st : Scan) (he : e.Flagged) :
    expected pos e st = some { longcount := e.reldirnr, startpos := pos,
                               act_chksum := e.chksum, nxt_longname := [] } := by
  unfold expected
  rw [if_pos he]

theorem expected_cases (pos : Nat) (e : Entry) (st st1 : Scan)
    (h : expected pos e st = some st1) :
    e.Flagged ∧ st1 = { longcount := e.reldirnr, startpos := pos, act_chksum := e.chksum,
                        nxt_longname := [] } ∨
    ¬ e.Flagged ∧ 0 < st.longcount ∧ (e.reldirnr : Int) = st.longcount ∧
      e.chksum = st.act_chksum ∧ st1 = st := by
  unfold expected at h
  by_cases hflag : e.Flagged
  · rw [if_pos hflag] at h
    exact Or.inl ⟨hflag, (Option.some.inj h).symm⟩
  · rw [if_neg hflag] at h
    by_cases hcount : st.longcount ≤ 0
    · rw [if_pos hcount] at h
      simp only [reduceCtorEq] at h
    · rw [if_neg hcount] at h
      by_cases hne : (e.reldirnr : Int) ≠ st.longcount ∨ st.act_chksum ≠ e.chksum
      · rw [if_pos hne] at h
        simp only [reduceCtorEq] at h
      · rw [if_neg hne] at h
        simp only [not_or, ne_eq, not_not] at hne
        exact Or.inr ⟨hflag, by omega, hne.1, hne.2.symm, (Option.some.inj h).symm⟩

/-- The ways in which the body of the loop ends. -/
inductive Reads (fmode : FMode) (pos : Nat) (e : Entry) (st : Scan) : Step → Prop where
  | ende (h0 : e.head = 0) : Reads fmode pos e st (.ret 0 st)
  | deleted (hdel : e.head = 0xe5) : Reads fmode pos e st (.weiter st)
  | missed (he : e.IsLdir) (hexp : expected pos e st = none) :
    Reads fmode pos e st (.weiter st.fehler)
  | overflow (st1 : Scan) (he : e.IsLdir) (hexp : expected pos e st = some st1)
    (hfit : 299 < st1.nxt_longname.length + e.ltmpname.length) :
    Reads fmode pos e st (.ret EINTRN st1)
  | taken (st1 : Scan) (he : e.IsLdir) (hexp : expected pos e st = some st1)
    (hfit : ¬ 299 < st1.nxt_longname.length + e.ltmpname.length) :
    Reads fmode pos e st (.weiter (st1.take e))
  | skipped (st1 : Scan) (he : e.IsMain) (hsel : fmode.selects e.attr = false)
    (hst : st1 = st.fehler ∨ st1 = st ∧ (0 ≤ st.longcount → vfChksum e.name = st.act_chksum)) :
    Reads fmode pos e st (.weiter st1)
  | found (st1 : Scan) (he : e.IsMain) (hsel : fmode.selects e.attr = true)
    (hst : st1 = st.fehler ∨ st1 = st ∧ (0 ≤ st.longcount → vfChksum e.name = st.act_chksum)) :
    Reads fmode pos e st (.fertig st1)

theorem readEntry_reads (fmode : FMode) (pos : Nat) (e : Entry) (st : Scan) :
    Reads fmode pos e st (readEntry fmode pos e st) := by
  unfold readEntry
  split_ifs with h0 hdel hattr
  · exact .ende h0
  · exact .deleted hdel
  · unfold readLdir
    cases hexp : expected pos e st with
    | none => exact .missed ⟨h0, hdel, hattr⟩ hexp
    | some st1 =>
      dsimp only
      split_ifs with hfit
      · exact .overflow st1 ⟨h0, hdel, hattr⟩ hexp hfit
      · exact .taken st1 ⟨h0, hdel, hattr⟩ hexp hfit
  · have hst : ∀ st1, (if 0 ≤ st.longcount ∧ vfChksum e.name ≠ st.act_chksum then st.fehler
        else st) = st1 →
        st1 = st.fehler ∨ st1 = st ∧ (0 ≤ st.longcount → vfChksum e.name = st.act_chksum) := by
      intro st1 h1
      split_ifs at h1 with hck
      · exact .inl h1.symm
      · exact .inr ⟨h1.symm, fun hcount => not_not.mp fun hne => hck ⟨hcount, hne⟩⟩
    unfold readMain
    cases hsel : fmode.selects e.attr with
    | true => exact .found _ ⟨h0, hdel, hattr⟩ hsel (hst _ rfl)
    | false => exact .skipped _ ⟨h0, hdel, hattr⟩ hsel (hst _ rfl)

theorem fertig_cases (fmode : FMode) (pos : Nat) (dir : Entry) (st st' : Scan)
    (h : readEntry fmode pos dir st = .fertig st') :
    dir.IsMain ∧ fmode.selects dir.attr = true ∧
      (0 ≤ st'.longcount → st' = st ∧ vfChksum dir.name = st.act_chksum) := by
  cases h ▸ readEntry_reads fmode pos dir st with
  | found _ he hsel hst =>
    refine ⟨he, hsel, fun hcount => ?_⟩
    rcases hst with rfl | ⟨rfl, hck⟩
    · simp only [Scan.fehler] at hcount
      omega
    · exact ⟨rfl, hck hcount⟩

/-! ### Walking over entries -/

/-- Walk over entries none of which ends the loop. -/
def pass (fmode : FMode) : Nat → List Entry → Scan → Option Scan
  | _, [], st => some st
  | pos, dir :: entries, st =>
    match readEntry fmode pos dir st with
    | .weiter st => pass fmode (pos + 32) entries st
    | _ => none

theorem pass_append (fmode : FMode) (a b : List Entry) (pos : Nat) (st : Scan) :
    pass fmode pos (a ++ b) st
      = (pass fmode pos a st).bind (pass fmode (pos + 32 * a.length) b) := by
  induction a generalizing pos st with
  | nil => rfl
  | cons e a ih =>
    simp only [List.cons_append, pass, List.length_cons]
    cases readEntry fmode pos e st with
    | weiter st' =>
      simp only
      rw [ih, show pos + 32 + 32 * a.length = pos + 32 * (a.length + 1) by omega]
    | ret doserr st' => rfl
    | fertig st' => rfl

theorem pass_snoc (fmode : FMode) (a : List Entry) (e : Entry) (pos : Nat) (st st' st'' : Scan)
    (ha : pass fmode pos a st = some st')
    (he : readEntry fmode (pos + 32 * a.length) e st' = .weiter st'') :
    pass fmode pos (a ++ [e]) st = some st'' := by
  rw [pass_append, ha]
  simp only [Option.bind_some, pass, he]

/-- The loop goes on behind entries that were walked over. -/
theorem readLoop_pass (ende : Int) (fmode : FMode) (a b : List Entry) (pos : Nat) (st st' : Scan)
    (ha : pass fmode pos a st = some st') :
    readLoop ende fmode pos (a ++ b) st = readLoop ende fmode (pos + 32 * a.length) b st' := by
  induction a generalizing pos st with
  | nil =>
    simp only [pass, Option.some.injEq] at ha
    rw [ha]
    rfl
  | cons e a ih =>
    simp only [List.cons_append, readLoop, List.length_cons, pass] at ha ⊢
    cases hr : readEntry fmode pos e st with
    | weiter st1 =>
      rw [hr] at ha
      simp only
      rw [ih _ _ ha, show pos + 32 + 32 * a.length = pos + 32 * (a.length + 1) by omega]
    | ret doserr st1 =>
      rw [hr] at ha
      simp only [reduceCtorEq] at ha
    | fertig st1 =>
      rw [hr] at ha
      simp only [reduceCtorEq] at ha

/-- The loop finds an entry behind entries that it walks over. -/
theorem readLoop_fertig (ende : Int) (fmode : FMode) (es : List Entry) (pos fpos : Nat)
    (st st' : Scan) (dir : Entry) (h : readLoop ende fmode pos es st = .fertig dir st' fpos) :
    ∃ a b st1, es = a ++ dir :: b ∧ pass fmode pos a st = some st1 ∧
      readEntry fmode (pos + 32 * a.length) dir st1 = .fertig st' ∧
      fpos = pos + 32 * (a.length + 1) := by
  induction es generalizing pos st with
  | nil => simp only [readLoop, reduceCtorEq] at h
  | cons e es ih =>
    rw [readLoop] at h
    cases hr : readEntry fmode pos e st with
    | weiter st1 =>
      rw [hr] at h
      rcases ih _ _ h with ⟨a, b, st2, hes, hpass, hread, hpos⟩
      refine ⟨e :: a, b, st2, ?_, ?_, ?_, ?_⟩
      · rw [hes]
        rfl
      · simp only [pass, hr]
        exact hpass
      · rw [List.length_cons, show pos + 32 * (a.length + 1) = pos + 32 + 32 * a.length by omega]
        exact hread
      · rw [List.length_cons]
        omega
    | ret doserr st1 =>
      rw [hr] at h
      simp only [reduceCtorEq] at h
    | fertig st1 =>
      rw [hr] at h
      simp only [LoopEnd.fertig.injEq] at h
      rcases h with ⟨rfl, rfl, rfl⟩
      exact ⟨[], es, st, rfl, rfl, hr, rfl⟩

end Vfat

end MagiC
