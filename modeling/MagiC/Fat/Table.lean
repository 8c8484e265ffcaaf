import MagiC.Fat.Codec

/-!
# The FAT as a Table

What the routines that allocate and free clusters see of a FAT.

Some of them look at an entry through `FAT_read`, others read the sectors
themselves and ask whether a whole word or longword is 0, which for a longword
entry is more than its 28 bits. Both are functions of the same table, one number
for each cluster: `rawEntry` is all bits of an entry, a cluster is free if they are
all 0, and `link` is what `FAT_read` makes of them. Writing changes the table in
one place.

Here all sectors of a FAT can be read.

## Main definitions

* `freeAt`: Test an entry in a sector.

## Theorems

* `rawEntry_markAt`, `link_markAt`: Marking changes one entry.
-/

namespace MagiC

namespace Fat

/-- All bits of an entry. -/
def rawEntry (drv : Dmd) (fat : Sectors) (c : Nat) : Nat :=
  match drv.ftype with
  | .fat12 | .fat16 => entry drv fat c
  | .fat32 =>
    let k := 4 * c
    let b := byteAt drv fat
    b k + 2 ^ 8 * b (k + 1) + 2 ^ 16 * b (k + 2) + 2 ^ 24 * b (k + 3)

/-- What an entry links to: another cluster, or the end. -/
def link (drv : Dmd) (fat : Sectors) (c : Nat) : Nat := linkOf drv.ftype (entry drv fat c)

/-- `FAT_read` of a FAT that can be read. -/
def readFat (drv : Dmd) (fat : Sectors) (cluster : Nat) : Nat :=
  ((fatRead drv (fun _ => none) fat cluster).toOption).getD EOF

/-- `FAT_write` to a FAT that can be read. -/
def writeFat (drv : Dmd) (fat : Sectors) (cluster nextcl : Nat) : Sectors :=
  (fatWrite drv (fun _ => none) fat cluster nextcl).1

/-- `tst`: whether the entry at an offset in a sector is 0, if entries are words or
    longwords. -/
def freeAt (drv : Dmd) (fat : Sectors) (n off : Nat) : Bool :=
  match drv.ftype with
  | .fat12 | .fat16 => getWord fat n off = 0
  | .fat32 => getLong fat n off = 0

/-- Store -1 in the entry at an offset in a sector. -/
def markAt (drv : Dmd) (fat : Sectors) (n off : Nat) : Sectors :=
  match drv.ftype with
  | .fat12 | .fat16 => putWord fat n off (2 ^ 16 - 1)
  | .fat32 => putLong fat n off (2 ^ 32 - 1)

section

variable (drv : Dmd) (fat : Sectors)

theorem entry_of_raw (c : Nat) (h : rawEntry drv fat c = 0) : entry drv fat c = 0 := by
  unfold rawEntry at h
  cases hty : drv.ftype with
  | fat12 =>
    rw [hty] at h
    exact h
  | fat16 =>
    rw [hty] at h
    exact h
  | fat32 =>
    rw [hty] at h
    unfold entry
    simp only [hty, entryOff] at h ⊢
    rw [h, Nat.zero_mod]

theorem endMark_pos (ftype : FatType) : 0 < endMark ftype := by
  cases ftype
  · decide
  · decide
  · decide

theorem link_of_free (c : Nat) (h : rawEntry drv fat c = 0) : link drv fat c = 0 := by
  unfold link linkOf
  rw [entry_of_raw drv fat c h, if_pos (endMark_pos _)]

theorem raw_of_link (c : Nat) (h : link drv fat c ≠ 0) : rawEntry drv fat c ≠ 0 :=
  fun h0 => h (link_of_free drv fat c h0)

theorem readFat_eq (geo : Geometry drv) (c : Nat) (hc : InFat drv c) :
    readFat drv fat c = link drv fat c := by
  unfold readFat link
  rw [fatRead_eq drv geo _ fat c hc]
  rfl

theorem fatWrite_ok (c v : Nat) :
    fatWrite drv (fun _ => none) fat c v = (writeFat drv fat c v, none) := by
  have herr : (fatWrite drv (fun _ => none) fat c v).2 = none := by
    unfold fatWrite
    cases hty : drv.ftype with
    | fat12 =>
      simp only [ftwSecond]
      split
      · rfl
      · rfl
    | fat16 => rfl
    | fat32 => rfl
  exact Prod.ext rfl herr

theorem raw_long (fat' : Sectors) (c v d : Nat) (hty : drv.ftype = .fat32)
    (hb : ∀ j, byteAt drv fat' j = if j = 4 * c then v % 2 ^ 8
      else if j = 4 * c + 1 then v / 2 ^ 8 % 2 ^ 8 else if j = 4 * c + 2 then v / 2 ^ 16 % 2 ^ 8
      else if j = 4 * c + 3 then v / 2 ^ 24 % 2 ^ 8 else byteAt drv fat j) :
    rawEntry drv fat' d = if d = c then v % 2 ^ 32 else rawEntry drv fat d := by
  by_cases hd : d = c
  · unfold rawEntry
    simp only [hty, hb]
    rw [if_pos hd, hd, if_pos rfl, if_neg (by omega), if_pos rfl, if_neg (by omega),
      if_neg (by omega), if_pos rfl, if_neg (by omega), if_neg (by omega), if_neg (by omega),
      if_pos rfl]
    omega
  · have hsame : ∀ i < 4, byteAt drv fat' (4 * d + i) = byteAt drv fat (4 * d + i) := fun i hi => by
      rw [hb, if_neg (by omega), if_neg (by omega), if_neg (by omega), if_neg (by omega)]
    have h0 := hsame 0 (by omega)
    rw [Nat.add_zero] at h0
    simp only [rawEntry, hty, h0, hsame 1 (by omega), hsame 2 (by omega), hsame 3 (by omega),
      if_neg hd]

theorem reduced_bytes (v : Nat) :
    v % 2 ^ 28 % 2 ^ 8 = v % 2 ^ 8 ∧ v % 2 ^ 28 / 2 ^ 8 % 2 ^ 8 = v / 2 ^ 8 % 2 ^ 8 ∧
      v % 2 ^ 28 / 2 ^ 16 % 2 ^ 8 = v / 2 ^ 16 % 2 ^ 8 ∧
      v % 2 ^ 28 / 2 ^ 24 % 2 ^ 8 = v % 2 ^ 28 / 2 ^ 24 := by
  rcases low_bytes v with ⟨h0, h1, h2⟩
  refine ⟨h0, h1, h2, Nat.mod_eq_of_lt ?_⟩
  omega

/-- Writing changes all bits of one entry. -/
theorem rawEntry_writeFat (geo : Geometry drv) (c v : Nat) (hc : InFat drv c) (d : Nat) :
    rawEntry drv (writeFat drv fat c v) d
      = if d = c then reduce drv.ftype v else rawEntry drv fat d := by
  have hw := fatWrite_ok drv fat c v
  have hentry := (fatWrite_entry drv geo _ fat _ c v hc hw).2 d
  cases hty : drv.ftype with
  | fat12 =>
    unfold rawEntry
    rw [hty] at hentry
    simp only [hty]
    exact hentry
  | fat16 =>
    unfold rawEntry
    rw [hty] at hentry
    simp only [hty]
    exact hentry
  | fat32 =>
    have hb := (fatWrite_bytes drv geo _ fat _ c v hc hw).2
    rcases reduced_bytes v with ⟨b0, b1, b2, b3⟩
    have hraw := raw_long drv fat (writeFat drv fat c v) c (v % 2 ^ 28) d hty fun j => by
      rw [hb j, b0, b1, b2, b3]
      simp only [stored, hty, entryOff]
    have hlt : v % 2 ^ 28 % 2 ^ 32 = v % 2 ^ 28 := by
      exact Nat.mod_eq_of_lt (by omega)
    rw [hraw, hlt]
    rfl

theorem link_writeFat (geo : Geometry drv) (c v : Nat) (hc : InFat drv c) :
    link drv (writeFat drv fat c v)
      = Function.update (link drv fat) c (linkOf drv.ftype (reduce drv.ftype v)) := by
  funext d
  have hentry := (fatWrite_entry drv geo _ fat _ c v hc (fatWrite_ok drv fat c v)).2 d
  unfold link
  rw [hentry, Function.update_apply]
  split
  · rfl
  · rfl

/-- Where an entry of a whole word or longword lies. -/
structure EntryAt (c n off : Nat) : Prop where
  fits : off + entrySize drv.ftype ≤ 2 ^ drv.lrecsiz
  eq : n * 2 ^ drv.lrecsiz + off = entryOff drv.ftype c

variable {drv}

theorem EntryAt.split {c n off : Nat} (h : EntryAt drv c n off) :
    entryOff drv.ftype c / 2 ^ drv.lrecsiz = n ∧ entryOff drv.ftype c % 2 ^ drv.lrecsiz = off := by
  have hsize : 0 < entrySize drv.ftype := by
    cases drv.ftype
    · decide
    · decide
    · decide
  have hlt : off < 2 ^ drv.lrecsiz := by
    have := h.fits
    omega
  have hs : 0 < 2 ^ drv.lrecsiz := Nat.two_pow_pos _
  rw [← h.eq, Nat.mul_comm]
  refine ⟨?_, ?_⟩
  · rw [Nat.mul_add_div hs, Nat.div_eq_of_lt hlt, Nat.add_zero]
  · rw [Nat.mul_add_mod, Nat.mod_eq_of_lt hlt]

theorem EntryAt.byte {c n off : Nat} (h : EntryAt drv c n off) (i : Nat)
    (hi : i < entrySize drv.ftype) :
    byteAt drv fat (entryOff drv.ftype c + i) = (fat n (off + i)).toNat := by
  rcases h.split with ⟨hn, hoff⟩
  have hfits := h.fits
  rcases same_sector (entryOff drv.ftype c) i _ (Nat.two_pow_pos drv.lrecsiz)
    (by rw [hoff]; omega) with ⟨h1, h2⟩
  unfold byteAt
  rw [h1, h2, hn, hoff]

/-- The test of an entry finds out whether the cluster is free. -/
theorem freeAt_iff {c n off : Nat} (hty : drv.ftype ≠ .fat12) (h : EntryAt drv c n off) :
    freeAt drv fat n off = true ↔ rawEntry drv fat c = 0 := by
  have hb := h.byte fat
  unfold freeAt rawEntry
  cases hft : drv.ftype with
  | fat12 => exact absurd hft hty
  | fat16 =>
    simp only [hft, entrySize, entryOff] at hb
    have h0 : byteAt drv fat (2 * c) = (fat n off).toNat := hb 0 (by decide)
    have h1 := hb 1 (by decide)
    simp only [decide_eq_true_eq]
    simp only [getWord, entry, hft, entryOff, h0, h1]
    omega
  | fat32 =>
    simp only [hft, entrySize, entryOff] at hb
    have h0 : byteAt drv fat (4 * c) = (fat n off).toNat := hb 0 (by decide)
    have h1 := hb 1 (by decide)
    have h2 := hb 2 (by decide)
    have h3 := hb 3 (by decide)
    simp only [decide_eq_true_eq]
    simp only [getLong, getWord, h0, h1, h2, h3, Nat.add_assoc off 2 1]
    omega

/-- The bits of an end mark that is stored as -1. -/
def markBits (ftype : FatType) : Nat :=
  match ftype with
  | .fat12 | .fat16 => 2 ^ 16 - 1
  | .fat32 => 2 ^ 32 - 1

theorem markBits_pos (ftype : FatType) : markBits ftype ≠ 0 := by
  cases ftype
  · decide
  · decide
  · decide

/-- Marking changes all bits of one entry. -/
theorem rawEntry_markAt {c n off : Nat} (hty : drv.ftype ≠ .fat12) (h : EntryAt drv c n off)
    (d : Nat) :
    rawEntry drv (markAt drv fat n off) d
      = if d = c then markBits drv.ftype else rawEntry drv fat d := by
  rcases h.split with ⟨hn, hoff⟩
  have hfits := h.fits
  unfold markAt
  cases hft : drv.ftype with
  | fat12 => exact absurd hft hty
  | fat16 =>
    simp only [hft, entrySize, entryOff] at hfits hn hoff
    have hb := fun j => putWord_bytes drv fat (2 * c) (2 ^ 16 - 1) j (by rw [hoff]; exact hfits)
    simp only [hn, hoff] at hb
    simp only [rawEntry, hft, entry, entryOff, hb]
    by_cases hd : d = c
    · rw [if_pos hd, hd, if_pos rfl, if_neg (by omega), if_pos rfl]
      rfl
    · rw [if_neg hd, if_neg (by omega), if_neg (by omega), if_neg (by omega), if_neg (by omega)]
  | fat32 =>
    simp only [hft, entrySize, entryOff] at hfits hn hoff
    have hb := fun j => putLong_bytes drv fat (4 * c) (2 ^ 32 - 1) j (by rw [hoff]; exact hfits)
    simp only [hn, hoff] at hb
    rw [raw_long drv fat _ c (2 ^ 32 - 1) d hft fun j => by
      rw [hb j]
      rfl]
    rfl

theorem link_markAt {c n off : Nat} (hty : drv.ftype ≠ .fat12) (h : EntryAt drv c n off) :
    link drv (markAt drv fat n off) = Function.update (link drv fat) c EOF := by
  funext d
  have hraw := rawEntry_markAt fat hty h d
  rw [Function.update_apply]
  unfold link
  cases hft : drv.ftype with
  | fat12 => exact absurd hft hty
  | fat16 =>
    simp only [rawEntry, hft] at hraw
    rw [hraw]
    split
    · rfl
    · rfl
  | fat32 =>
    have hentry : ∀ f : Sectors, entry drv f d = rawEntry drv f d % 2 ^ 28 := fun f => by
      simp only [rawEntry, entry, hft, entryOff]
    rw [hentry, hentry, hraw, hft]
    split
    · rfl
    · rfl

end

theorem linkOf_cluster (ftype : FatType) (v : Nat) (h : v < endMark ftype) :
    linkOf ftype (reduce ftype v) = v ∧ reduce ftype v = v := by
  have hred : reduce ftype v = v := by
    cases ftype
    · exact Nat.mod_eq_of_lt (Nat.lt_trans h (by decide))
    · exact Nat.mod_eq_of_lt (Nat.lt_trans h (by decide))
    · exact Nat.mod_eq_of_lt (Nat.lt_trans h (by decide))
  refine ⟨?_, hred⟩
  unfold linkOf
  rw [hred, if_pos h]

theorem linkOf_EOF (ftype : FatType) :
    linkOf ftype (reduce ftype EOF) = EOF ∧ reduce ftype EOF ≠ 0 := by
  cases ftype
  · exact ⟨rfl, by decide⟩
  · exact ⟨rfl, by decide⟩
  · exact ⟨rfl, by decide⟩

end Fat

end MagiC
