import MagiC.Dos.Path
import MagiC.Vfat.Ffree
import Mathlib.Data.List.TakeWhile

/-!
# Completing a Path

`pathcmpl` and `Dgetcwd` of `magidos.s`: a relative path is made an absolute one, in a
buffer of a given length.

The length that remains is counted down for the drive, for the current directory and for
the rest of the path, but not for the backslash between the last two, and not for the zero
that is stored behind it. So the buffer overflows when it is just too short for the
backslash, and when it has no room for a directory at all. The length of the path is
compared as a word.

What is stored in the buffer is known byte by byte, and what is not stored is what was in
memory before. The names of directories and of the links on drive U are arguments.

## Main definitions

* `Completed`: Nothing is stored behind the buffer, and the path is complete.

## Theorems

* `pathcmpl_iff`: When the path stays inside its buffer.
-/

namespace MagiC

namespace Dos

open Vfat

def ERANGE : Int := -64

def BACKSLASH : UInt8 := 0x5c

def COLON : UInt8 := 0x3a

def driveToLetter : List UInt8 :=
  "ABCDEFGHIJKLMNOPQRSTUVWXYZ123456".toList.map fun c => UInt8.ofNat c.toNat

/-- What has been stored in a buffer, by position. -/
abbrev Stored := Nat → Option UInt8

/-- Bytes are stored from a position on. -/
def put (b : Stored) (i : Nat) (l : List UInt8) : Stored :=
  fun j => if i ≤ j ∧ j < i + l.length then l[j - i]? else b j

/-- What is in the memory of a buffer. -/
def byteAt (m : Nat → UInt8) (b : Stored) (i : Nat) : UInt8 := (b i).getD (m i)

/-- Bytes stored in place of the first ones of others. -/
def overlay (new old : List UInt8) : List UInt8 := new ++ old.drop new.length

section

variable (x : Xfs) (dd2name : Nat → Nat → Nat → Int × List UInt8) (uLnk : Nat → List UInt8)
  (act : Slot)

/-- The letter of a drive as it is kept in a register: with the high byte that was there
before, and 0 if it is not the letter of a drive. -/
def drivecode (hi : Nat) (c : UInt8) : Nat :=
  let d := driveFromLetter (Char.ofNat c.toNat)
  if d = 255 then 0 else hi * 256 + d + 1

/-- `Dgetcwd`, with what is in front of the place that is reached in the buffer, and what has been
stored from there on. The file system gets the length that remains, and stores a name or a part of
one. The call starts again when a disk has been changed, where it is in the buffer. -/
def dgetcwd (code : Nat) : (fuel : Nat) → Kernel → Nat → Nat → List UInt8 → List UInt8 →
    Option (Kernel × Int × List UInt8)
  | 0, _, _, _, _, _ => none
  | fuel + 1, k, n, len, front, old =>
    let drive := if code = 0 then defdrvOf k act else code - 1
    let old := overlay [0] old
    let ende (k : Kernel) (e : Int) (len : Nat) (front old : List UInt8) :=
      if e = E_CHNG then dgetcwd code fuel k (n + 1) len front old else some (k, e, front ++ old)
    match chkdrv x k n drive with
    | (k, .error e) => ende k e len front old
    | (k, .ok m) =>
      let h := drvxAt k act (k.dmd m).drive
      if h < 0 then ende k EPTHNF len front old
      else
        let d := if h = 0 then (k.dmd m).root else (k.pathx h.toNat).getD 0
        let there := (k.dmd (k.dd d).dmd).drive
        let link := if ((k.dmd m).drive : Nat) = DRIVE_U ∧ (there : Nat) ≠ DRIVE_U
          then BACKSLASH :: uLnk there else []
        let old := if link = [] then old else overlay (link ++ [0]) old
        let len := (len + 2 ^ 16 - link.length) % 2 ^ 16
        let r := dd2name n d len
        ende k r.1 len (front ++ link) (overlay r.2 (old.drop link.length))

/-- `pcpl_loop1`: the walk to the end of the directory. The length is compared as a signed
word. -/
def pcplLoop1 (m : Nat → UInt8) (b : Stored) (a6 d7 : Nat) : Option (Nat × Nat) :=
  if byteAt m b a6 = 0 then some (a6, d7)
  else if d7 ≤ 1 ∨ 2 ^ 15 ≤ d7 then none
  else pcplLoop1 m b (a6 + 1) (d7 - 1)
termination_by d7

/-- `pcpl_defpath`: the rest of the path is stored if its length, a word, fits. -/
def pcplDefpath (b : Stored) (a6 d7 : Nat) (a5 : List UInt8) : Stored × Int :=
  if d7 < (a5.length + 1) % 2 ^ 16 then (b, ERANGE) else (put b a6 (a5 ++ [0]), 0)

/-- `pcpl_next2`: a backslash is stored if the directory does not end with one. -/
def pcplNext2 (m : Nat → UInt8) (b : Stored) (a6 d7 : Nat) (a5 : List UInt8) : Stored × Int :=
  if byteAt m b (a6 - 1) = BACKSLASH then pcplDefpath b a6 d7 a5
  else pcplDefpath (put b a6 [BACKSLASH, 0]) (a6 + 1) d7 a5

/-- The letter of the drive and the rest of the path, and the high byte of the register the
letter is in: that of the length when the letter comes from the path. -/
def pcplDrive (k : Kernel) (inpath : List UInt8) (buflen : Nat) : UInt8 × List UInt8 × Nat :=
  match inpath with
  | c :: d :: rest =>
    if d = COLON then (toupper c, rest, buflen / 256)
    else (driveToLetter.getD (defdrvOf k act) 0, inpath, 0)
  | _ => (driveToLetter.getD (defdrvOf k act) 0, inpath, 0)

/-- `pathcmpl`, for a path of bytes before its zero, and a length that is a word. -/
def pathcmpl (fuel : Nat) (k : Kernel) (m : Nat → UInt8) (inpath : List UInt8) (buflen : Nat) :
    Option (Stored × Int) :=
  if buflen < 2 then some (fun _ => none, ERANGE)
  else
    let d7 := buflen - 2
    let (c, a5, hi) := pcplDrive act k inpath buflen
    let b := put (fun _ => none) 0 [c, COLON]
    if a5.head? = some BACKSLASH then some (pcplDefpath b 2 d7 a5)
    else
      let b := put b 2 [0]
      match dgetcwd x dd2name uLnk act (drivecode hi c) fuel k 0 d7 [] [0] with
      | none => none
      | some (_, code, bytes) =>
        let b := put b 2 bytes
        if code < 0 then some (b, code)
        else
          match pcplLoop1 m b 2 d7 with
          | none => some (b, ERANGE)
          | some (a6, d7) => some (pcplNext2 m b a6 d7 a5)

end

/-- What the current directory is, when it has been stored: everything before the zero. -/
def cwdName (bytes : List UInt8) : List UInt8 := bytes.takeWhile (· ≠ 0)

/-- The current directory is delivered within a length: nothing is stored behind it, but for
the first zero, and a name that is delivered ends within it. -/
def Delivers (len : Nat) (code : Int) (bytes : List UInt8) : Prop :=
  bytes.length ≤ max 1 len ∧ (0 ≤ code → 0 ∈ bytes ∧ bytes.length ≤ len)

/-- A string with a backslash at its end. -/
def slashed (s : List UInt8) : List UInt8 :=
  if s.getLast? = some BACKSLASH then s else s ++ [BACKSLASH]

/-- Nothing is stored behind the buffer, and if all is well it holds the path. -/
def Completed (buflen : Nat) (path : List UInt8) (r : Stored × Int) : Prop :=
  (∀ i, buflen ≤ i → r.1 i = none) ∧ (r.2 = 0 → ∀ i ≤ path.length, r.1 i = (path ++ [0])[i]?)

/-- The length of the path is a word, or what is left of it is more than what remains. -/
def Short (d7 : Nat) (a5 : List UInt8) : Prop :=
  a5.length + 1 < 2 ^ 16 ∨ d7 < (a5.length + 1) % 2 ^ 16

/-- The buffer is not just too short for the current directory, a backslash and the rest of
the path. -/
def RoomyCwd (buflen : Nat) (name a5 : List UInt8) : Prop :=
  name ≠ [] ∧ 2 ^ 15 ≤ buflen - 2 ∨
  Short (buflen - 2 - name.length) a5 ∧
    (name.getLast? = some BACKSLASH ∨
      name.length + 4 ≤ buflen ∧ name.length + a5.length + 3 ≠ buflen)

/-- The path that is to be in the buffer. -/
def completion (c : UInt8) (a5 : List UInt8) (cwd : Option (Kernel × Int × List UInt8)) :
    List UInt8 :=
  if a5.head? = some BACKSLASH then [c, COLON] ++ a5
  else
    match cwd with
    | some (_, _, bytes) => slashed ([c, COLON] ++ cwdName bytes) ++ a5
    | none => []

/-- The buffer is not just too short: for a relative path it has room for more than the
drive, and for the directory that is delivered, a backslash and the path, or not even for
the path without the backslash. -/
def Roomy (buflen : Nat) (a5 : List UInt8) (cwd : Option (Kernel × Int × List UInt8)) : Prop :=
  buflen < 2 ∨
    if a5.head? = some BACKSLASH then Short (buflen - 2) a5
    else 2 < buflen ∧
      match cwd with
      | some (_, code, bytes) => code < 0 ∨ RoomyCwd buflen (cwdName bytes) a5
      | none => True

section

variable {m : Nat → UInt8} {b : Stored} {a6 d7 n buflen : Nat} {s a5 name bytes l : List UInt8}

theorem put_in {i : Nat} (h : a6 ≤ i) (hi : i < a6 + l.length) : put b a6 l i = l[i - a6]? :=
  if_pos ⟨h, hi⟩

theorem put_out {i : Nat} (h : i < a6 ∨ a6 + l.length ≤ i) : put b a6 l i = b i :=
  if_neg fun hi => by omega

theorem put_none {i : Nat} (h : a6 + l.length ≤ i) (hb : b i = none) : put b a6 l i = none := by
  rw [put_out (Or.inr h), hb]

theorem put_keeps {i : Nat} (h : b i ≠ none) : put b a6 l i ≠ none := by
  by_cases hi : a6 ≤ i ∧ i < a6 + l.length
  · rw [put_in hi.1 hi.2, List.getElem?_eq_getElem (by omega)]
    exact Option.some_ne_none _
  · rwa [put_out (by omega)]

theorem put_append (h : ∀ i < s.length, b i = s[i]?) :
    ∀ i < (s ++ l).length, put b s.length l i = (s ++ l)[i]? := by
  intro i hi
  rw [List.length_append] at hi
  by_cases hs : i < s.length
  · rw [put_out (Or.inl hs), h i hs, List.getElem?_append_left hs]
  · rw [put_in (by omega) hi, List.getElem?_append_right (by omega)]

/-- The walk to the end of a name. -/
theorem pcplLoop1_spec (d7 : Nat) (hne : 0 ∉ name) (hb : ∀ i < name.length, b (a6 + i) = name[i]?)
    (h0 : b (a6 + name.length) = some 0) (hlen : name.length < d7) :
    pcplLoop1 m b a6 d7 =
      if name ≠ [] ∧ 2 ^ 15 ≤ d7 then none else some (a6 + name.length, d7 - name.length) := by
  induction name generalizing a6 d7 with
  | nil =>
    have hz : byteAt m b a6 = 0 := by
      unfold byteAt
      rw [show b a6 = some 0 from h0]
      rfl
    rw [pcplLoop1, if_pos hz, if_neg fun h => h.1 rfl]
    rfl
  | cons c name ih =>
    have hc : byteAt m b a6 = c := by
      have h := hb 0 (Nat.zero_lt_succ _)
      rw [Nat.add_zero] at h
      unfold byteAt
      rw [h]
      rfl
    have hc0 : c ≠ 0 := fun h => hne (h ▸ List.mem_cons_self)
    rw [List.length_cons] at hlen
    rw [pcplLoop1, hc, if_neg hc0]
    by_cases hbig : 2 ^ 15 ≤ d7
    · rw [if_pos (Or.inr hbig), if_pos ⟨List.cons_ne_nil _ _, hbig⟩]
    · have hnext : ∀ i < name.length, b (a6 + 1 + i) = name[i]? := by
        intro i hi
        have h := hb (i + 1) (by simpa using hi)
        rwa [Nat.add_comm i 1, ← Nat.add_assoc, Nat.add_comm 1 i, List.getElem?_cons_succ] at h
      have hnul : b (a6 + 1 + name.length) = some 0 := by
        rw [← h0, List.length_cons, Nat.add_assoc, Nat.add_comm 1]
      rw [if_neg (by omega), if_neg fun h => hbig h.2,
        ih _ (fun h => hne (List.mem_cons_of_mem _ h)) hnext hnul (by omega),
        if_neg fun h => hbig (by omega), List.length_cons]
      congr 2
      · omega
      · omega

/-- Storing the rest of a path stays inside the buffer if and only if the length that
remains says so. -/
theorem pcplDefpath_iff (d7 : Nat) (a5 : List UInt8) (hs : ∀ i < s.length, b i = s[i]?)
    (hout : ∀ i, buflen ≤ i → b i = none) :
    Completed buflen (s ++ a5) (pcplDefpath b s.length d7 a5) ↔
      ((a5.length + 1) % 2 ^ 16 ≤ d7 → s.length + a5.length + 1 ≤ buflen) := by
  unfold pcplDefpath
  by_cases hd : d7 < (a5.length + 1) % 2 ^ 16
  · rw [if_pos hd]
    have herr : ¬ ERANGE = 0 := by decide
    exact iff_of_true ⟨hout, fun h => absurd h herr⟩ fun h => absurd h (by omega)
  · rw [if_neg hd]
    have hput := put_append (l := a5 ++ [0]) hs
    simp only [List.length_append, List.length_singleton] at hput
    constructor
    · rintro ⟨hnone, _⟩ _
      by_contra hlong
      -- the byte behind the buffer has been stored
      have h := hnone (s.length + a5.length) (by omega)
      simp only [hput (s.length + a5.length) (by omega)] at h
      rw [List.getElem?_eq_none_iff] at h
      simp only [List.length_append, List.length_singleton] at h
      omega
    · intro h
      have hfit := h (by omega)
      refine ⟨fun i hi => put_none ?_ (hout i hi), fun _ i hi => ?_⟩
      · simp only [List.length_append, List.length_singleton]
        omega
      · rw [List.length_append] at hi
        rw [List.append_assoc]
        exact hput i (by omega)

theorem pcplDefpath_keeps {i : Nat} (h : b i ≠ none) : (pcplDefpath b a6 d7 a5).1 i ≠ none := by
  unfold pcplDefpath
  split
  · exact h
  · exact put_keeps h

theorem short_iff (hd : d7 < 2 ^ 16) : Short d7 a5 ↔
    ((a5.length + 1) % 2 ^ 16 ≤ d7 → a5.length + 1 ≤ d7) := by
  unfold Short
  constructor
  · rintro (h | h) hle
    · rwa [Nat.mod_eq_of_lt h] at hle
    · omega
  · intro h
    by_cases hle : (a5.length + 1) % 2 ^ 16 ≤ d7
    · exact Or.inl (by have := h hle; omega)
    · exact Or.inr (Nat.lt_of_not_le hle)

theorem pcplNext2_iff (hs0 : s ≠ []) (hs : ∀ i < s.length, b i = s[i]?)
    (hout : ∀ i, buflen ≤ i → b i = none) (hd : d7 + s.length = buflen) (hbuf : buflen < 2 ^ 16) :
    Completed buflen (slashed s ++ a5) (pcplNext2 m b s.length d7 a5) ↔
      Short d7 a5 ∧ (s.getLast? = some BACKSLASH ∨
        s.length + 2 ≤ buflen ∧ s.length + a5.length + 1 ≠ buflen) := by
  have hpos := List.length_pos_iff.mpr hs0
  have hlast : byteAt m b (s.length - 1) = BACKSLASH ↔ s.getLast? = some BACKSLASH := by
    unfold byteAt
    rw [hs _ (by omega), List.getLast?_eq_getElem?, List.getElem?_eq_getElem (by omega)]
    exact (Option.some_inj).symm
  unfold pcplNext2 slashed
  by_cases hl : s.getLast? = some BACKSLASH
  · rw [if_pos (hlast.mpr hl), if_pos hl, pcplDefpath_iff _ _ hs hout, short_iff (by omega)]
    constructor
    · exact fun h => ⟨fun hle => by have := h hle; omega, Or.inl hl⟩
    · exact fun h hle => by have := h.1 hle; omega
  · rw [if_neg fun h => hl (hlast.mp h), if_neg hl]
    by_cases hroom : s.length + 2 ≤ buflen
    · -- the backslash and the zero behind it are in the buffer
      have hs' : ∀ i < (s ++ [BACKSLASH]).length,
          put b s.length [BACKSLASH, 0] i = (s ++ [BACKSLASH])[i]? := by
        intro i hi
        have h := put_append (l := [BACKSLASH, 0]) hs i (by
          simp only [List.length_append, List.length_cons, List.length_nil] at hi ⊢
          omega)
        rw [h, show s ++ [BACKSLASH, 0] = (s ++ [BACKSLASH]) ++ [0] by simp,
          List.getElem?_append_left hi]
      have hout' : ∀ i, buflen ≤ i → put b s.length [BACKSLASH, 0] i = none := by
        intro i hi
        refine put_none ?_ (hout i hi)
        simp only [List.length_cons, List.length_nil]
        omega
      have hlen : (s ++ [BACKSLASH]).length = s.length + 1 := List.length_append
      rw [← hlen, pcplDefpath_iff _ _ hs' hout', short_iff (by omega), hlen]
      constructor
      · intro h
        refine ⟨fun hle => by have := h hle; omega, Or.inr ⟨hroom, fun heq => ?_⟩⟩
        have := h (by rw [Nat.mod_eq_of_lt (by omega)]; omega)
        omega
      · rintro ⟨h, h' | ⟨_, hne⟩⟩ hle
        · exact absurd h' hl
        · have := h hle
          omega
    · refine iff_of_false ?_ ?_
      · rintro ⟨hnone, _⟩
        refine pcplDefpath_keeps ?_ (hnone (s.length + 1) (by omega))
        rw [put_in (by omega) (by simp)]
        simp
      · rintro ⟨_, h | ⟨h, _⟩⟩
        · exact hl h
        · exact hroom h

theorem delivered_bytes (c : UInt8) (h0 : 0 ∈ bytes) :
    (∀ i < ([c, COLON] ++ cwdName bytes).length,
      put (put (put (fun _ => none) 0 [c, COLON]) 2 [0]) 2 bytes i =
        ([c, COLON] ++ cwdName bytes)[i]?) ∧
    put (put (put (fun _ => none) 0 [c, COLON]) 2 [0]) 2 bytes
      ([c, COLON] ++ cwdName bytes).length = some 0 := by
  obtain ⟨u, v, rfl, hu⟩ := List.eq_append_cons_of_mem h0
  have hname : cwdName (u ++ 0 :: v) = u := by
    unfold cwdName
    rw [List.takeWhile_append_of_pos fun x hx => ?_]
    · simp
    · have hx0 : x ≠ 0 := fun h => hu (h ▸ hx)
      simpa using hx0
  rw [hname]
  constructor
  · intro i hi
    simp only [List.length_append, List.length_cons, List.length_nil] at hi
    by_cases h2 : i < 2
    · rw [put_out (Or.inl h2), put_out (Or.inl h2), put_in (Nat.zero_le i) (by simpa using h2),
        List.getElem?_append_left (by simpa using h2)]
      rfl
    · rw [put_in (by omega) (by simp; omega), List.getElem?_append_left (by omega),
        List.getElem?_append_right (Nat.le_of_not_lt h2)]
      rfl
  · have hlen : ([c, COLON] ++ u).length = 2 + u.length := List.length_append
    rw [hlen, put_in (by omega) (by simp), Nat.add_sub_cancel_left]
    simp

theorem pcplNext2_keeps {i : Nat} (h : b i ≠ none) :
    (pcplNext2 m b a6 d7 a5).1 i ≠ none := by
  unfold pcplNext2
  split
  · exact pcplDefpath_keeps h
  · exact pcplDefpath_keeps (put_keeps h)

theorem cwdName_not_mem : 0 ∉ cwdName bytes := by
  intro h
  simpa using List.mem_takeWhile_imp h

theorem cwdName_length (h0 : 0 ∈ bytes) : (cwdName bytes).length < bytes.length := by
  obtain ⟨w, hw⟩ := List.takeWhile_prefix (l := bytes) (· ≠ 0)
  have hne : w ≠ [] := by
    rintro rfl
    rw [List.append_nil] at hw
    exact cwdName_not_mem (hw.symm ▸ h0)
  have h := congrArg List.length hw
  rw [List.length_append] at h
  have := List.length_pos_iff.mpr hne
  exact Nat.lt_of_lt_of_eq (Nat.lt_add_of_pos_right this) h

theorem getLast_drive (c : UInt8) :
    ([c, COLON] ++ name).getLast? = some BACKSLASH ↔ name.getLast? = some BACKSLASH := by
  rw [List.getLast?_append]
  rcases name.getLast? with _ | d
  · exact iff_of_false (fun h => by cases h) fun h => by cases h
  · exact Iff.rfl

theorem pcplCwd_iff {code : Int} {r : Stored × Int} {fill : Stored} (c : UInt8)
    (hfill : put (put (put (fun _ => none) 0 [c, COLON]) 2 [0]) 2 bytes = fill)
    (h2 : 2 ≤ buflen) (hbuf : buflen < 2 ^ 16) (hdel : Delivers (buflen - 2) code bytes)
    (hr : (if code < 0 then some (fill, code)
      else (pcplLoop1 m fill 2 (buflen - 2)).elim (some (fill, ERANGE))
        fun p => some (pcplNext2 m fill p.1 p.2 a5)) = some r) :
    Completed buflen (slashed ([c, COLON] ++ cwdName bytes) ++ a5) r ↔
      2 < buflen ∧ (code < 0 ∨ RoomyCwd buflen (cwdName bytes) a5) := by
  have hfill2 : fill 2 ≠ none := by
    rw [← hfill]
    refine put_keeps ?_
    rw [put_in (Nat.le_refl 2) (by decide)]
    exact Option.some_ne_none _
  have hkeeps : r.1 2 ≠ none := by
    split at hr
    · cases hr
      exact hfill2
    · rcases hloop : pcplLoop1 m fill 2 (buflen - 2) with _ | p <;> rw [hloop] at hr <;> cases hr
      · exact hfill2
      · exact pcplNext2_keeps hfill2
  by_cases heq : buflen = 2
  · -- the zero for a directory is behind the buffer
    exact iff_of_false (fun h => hkeeps (h.1 2 (by omega))) fun h => by omega
  have hout : ∀ i, buflen ≤ i → fill i = none := by
    intro i hi
    have hlen := hdel.1
    rw [← hfill]
    refine put_none (by omega) (put_none (by simp; omega) (put_none (by simp; omega) rfl))
  have herr : ¬ ERANGE = 0 := by decide
  rw [and_iff_right (by omega)]
  by_cases hcode : code < 0
  · rw [if_pos hcode] at hr
    cases hr
    exact iff_of_true ⟨hout, fun h => by simp only at h; omega⟩ (Or.inl hcode)
  · rw [if_neg hcode] at hr
    rw [or_iff_right hcode]
    obtain ⟨h0, hlen⟩ := hdel.2 (by omega)
    have hname := cwdName_length h0
    obtain ⟨hs, hnul⟩ := delivered_bytes c h0
    rw [hfill] at hs hnul
    have hlen2 : ([c, COLON] ++ cwdName bytes).length = 2 + (cwdName bytes).length :=
      List.length_append
    have hstored : ∀ i < (cwdName bytes).length, fill (2 + i) = (cwdName bytes)[i]? := by
      intro i hi
      rw [hs (2 + i) (by omega), List.getElem?_append_right (Nat.le_add_right 2 i)]
      exact congrArg _ (Nat.add_sub_cancel_left 2 i)
    have hloop := pcplLoop1_spec (m := m) (buflen - 2) cwdName_not_mem hstored (hlen2 ▸ hnul)
      (by omega)
    rw [hloop] at hr
    unfold RoomyCwd
    by_cases hbig : cwdName bytes ≠ [] ∧ 2 ^ 15 ≤ buflen - 2
    · -- a length from 2 ^ 15 on is negative
      rw [if_pos hbig] at hr
      cases hr
      exact iff_of_true ⟨hout, fun h => absurd h herr⟩ (Or.inl hbig)
    · rw [if_neg hbig] at hr
      cases hr
      rw [or_iff_right hbig, ← getLast_drive c, ← hlen2]
      rw [pcplNext2_iff (by simp) hs hout (by omega) hbuf, hlen2]
      have h4 : 2 + (cwdName bytes).length + 2 ≤ buflen ↔ (cwdName bytes).length + 4 ≤ buflen := by
        omega
      have h3 : 2 + (cwdName bytes).length + a5.length + 1 ≠ buflen ↔
          (cwdName bytes).length + a5.length + 3 ≠ buflen := by omega
      rw [h4, h3]

/-- `pathcmpl` ends, when `Dgetcwd` does. It stays inside its buffer and completes the path if
and only if the buffer is not just too short. -/
theorem pathcmpl_iff (x : Xfs) (dd2name : Nat → Nat → Nat → Int × List UInt8)
    (uLnk : Nat → List UInt8) (act : Slot) (fuel : Nat) (k : Kernel) (m : Nat → UInt8)
    (inpath a5 : List UInt8) (buflen hi : Nat) (c : UInt8)
    (cwd : Option (Kernel × Int × List UInt8))
    (hbuf : buflen < 2 ^ 16) (hdrive : pcplDrive act k inpath buflen = (c, a5, hi))
    (hcwd : dgetcwd x dd2name uLnk act (drivecode hi c) fuel k 0 (buflen - 2) [] [0] = cwd)
    (hend : a5.head? ≠ some BACKSLASH → cwd.isSome)
    (hdel : ∀ j code bytes, cwd = some (j, code, bytes) → Delivers (buflen - 2) code bytes) :
    ∃ r, pathcmpl x dd2name uLnk act fuel k m inpath buflen = some r ∧
      (Completed buflen (completion c a5 cwd) r ↔ Roomy buflen a5 cwd) := by
  unfold pathcmpl Roomy completion
  by_cases h2 : buflen < 2
  · rw [if_pos h2]
    exact ⟨_, rfl, iff_of_true ⟨fun _ _ => rfl, fun h => absurd h (by decide)⟩ (Or.inl h2)⟩
  · rw [if_neg h2, hdrive]
    simp only
    rw [hcwd]
    by_cases habs : a5.head? = some BACKSLASH
    · -- an absolute path follows the drive
      rw [if_pos habs, if_pos habs, if_pos habs]
      refine ⟨_, rfl, ?_⟩
      have hs : ∀ i < [c, COLON].length, put (fun _ => none) 0 [c, COLON] i = [c, COLON][i]? := by
        intro i hi
        rw [put_in (Nat.zero_le i) (by simpa using hi)]
        rfl
      have hout : ∀ i, buflen ≤ i → put (fun _ => none) 0 [c, COLON] i = none := by
        intro i hi
        exact put_none (by simp only [List.length_cons, List.length_nil]; omega) rfl
      have hiff := pcplDefpath_iff (buflen - 2) a5 hs hout
      rw [show ([c, COLON] : List UInt8).length = 2 from rfl] at hiff
      rw [hiff, or_iff_right h2, short_iff (by omega)]
      constructor
      · exact fun h hle => by have := h hle; omega
      · exact fun h hle => by have := h hle; omega
    · rw [if_neg habs, if_neg habs, if_neg habs, or_iff_right h2]
      rcases cwd with _ | ⟨j, code, bytes⟩
      · cases hend habs
      · -- the directory is stored behind the colon
        obtain ⟨fill, hfill⟩ :
            ∃ fill, put (put (put (fun _ => none) 0 [c, COLON]) 2 [0]) 2 bytes = fill := ⟨_, rfl⟩
        simp only
        rw [hfill]
        rcases hloop : pcplLoop1 m fill 2 (buflen - 2) with _ | p
        all_goals
          refine ⟨_, (apply_ite some _ _ _).symm, pcplCwd_iff (m := m) c hfill (by omega) hbuf
            (hdel j code bytes rfl) ?_⟩
          rw [hloop]
          exact (apply_ite some _ _ _).symm

end

/-- A file system whose drives are all ready. -/
def readyXfs : Xfs where
  path2DD := fun _ => .dd (some 1) 2 []
  drvOpen := fun _ => .ok (1, 1, 1)
  fopen := fun _ => .err 0
  call := fun _ => .val 0

/-- The path `X` in the root of drive C, whose name is empty. -/
def rootX (buflen : Nat) : Option (Stored × Int) :=
  pathcmpl readyXfs (fun _ _ _ => (0, [0])) (fun _ => []) 0 1 (oneFile 0) (fun _ => 0) [0x58] buflen

theorem rootX_eq (d7 : Nat) :
    rootX (d7 + 2) = some (pcplNext2 (fun _ => 0)
      (put (put (put (fun _ => none) 0 [0x43, COLON]) 2 [0]) 2 [0]) 2 d7 [0x58]) := by
  have hnul : byteAt (fun _ => 0)
      (put (put (put (fun _ => none) 0 [0x43, COLON]) 2 [0]) 2 [0]) 2 = 0 := rfl
  have hloop : pcplLoop1 (fun _ => 0)
      (put (put (put (fun _ => none) 0 [0x43, COLON]) 2 [0]) 2 [0]) 2 d7 = some (2, d7) := by
    rw [pcplLoop1, if_pos hnul]
  have hdrive : pcplDrive 0 (oneFile 0) [0x58] (d7 + 2) = (0x43, [0x58], 0) := rfl
  have hcwd : dgetcwd readyXfs (fun _ _ _ => (0, [0])) (fun _ => []) 0 (drivecode 0 0x43) 1
      (oneFile 0) 0 d7 [] [0] = some (oneFile 0, 0, [0]) := rfl
  have hrel : ¬ ([0x58] : List UInt8).head? = some BACKSLASH := by decide
  unfold rootX pathcmpl
  rw [if_neg (by omega), Nat.add_sub_cancel, hdrive]
  simp only [hrel, if_false, hcwd, hloop, Int.lt_irrefl]

theorem pathcmpl_iff_rootX :
    ∃ r, rootX 5 = some r ∧ Completed 5 [0x43, COLON, BACKSLASH, 0x58] r := by
  have h := pathcmpl_iff readyXfs (fun _ _ _ => (0, [0])) (fun _ => []) 0 1 (oneFile 0)
    (fun _ => 0) [0x58] [0x58] 5 0 0x43 (some (oneFile 0, 0, [0])) (by decide) rfl rfl
    (fun _ => rfl) fun j code bytes h => by
      cases h
      exact ⟨by decide, fun _ => ⟨by decide, by decide⟩⟩
  obtain ⟨r, hr, hiff⟩ := h
  refine ⟨r, hr, hiff.mpr ?_⟩
  exact Or.inr ⟨by decide, Or.inr (Or.inr ⟨Or.inl (by decide), Or.inr (by decide)⟩)⟩

/-- The zero is stored behind a buffer of four bytes. -/
theorem pathcmpl_overflows :
    Delivers 2 0 [0] ∧ ∃ r, rootX 4 = some r ∧ r.2 = 0 ∧ r.1 4 = some 0 ∧
      ¬ Completed 4 [0x43, COLON, BACKSLASH, 0x58] r := by
  refine ⟨⟨by decide, fun _ => ⟨by decide, by decide⟩⟩, _, rootX_eq 2, rfl, rfl, fun h => ?_⟩
  have hnone := h.1 4 (Nat.le_refl 4)
  cases hnone

end Dos

end MagiC
