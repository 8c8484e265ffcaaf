import Mathlib.Data.Nat.Bitwise
import Mathlib.Logic.Function.Basic
import Mathlib.Tactic.Common
import Mathlib.Tactic.Positivity
import Mathlib.Tactic.Ring

/-!
# FAT Entries

How `FAT_read` and `FAT_write` pack cluster numbers into the sectors of a FAT.

The routines compute the byte offset of an entry, split it into a sector and an
offset in the sector, and work on sector buffers. A twelve bit entry is one and
a half bytes: it shares a byte with a neighbour, and its two bytes may lie in
two sectors. The other entries are a word or a longword in Intel byte order.

The bytes of all sectors in a row make one sequence, which `byteAt` reads.
`entry` is the value an entry has, a function of the bytes at its offset, and
writing replaces exactly the bits of one entry. `fatRead_eq` and
`fatWrite_bytes` say so for each routine, and the rest is arithmetic on bytes.

A FAT sector is read through the sector cache and may fail to be read. Which
sectors fail is a parameter.

## Main definitions

* `entry`: The value of an entry, in terms of the bytes of the FAT.

## Theorems

* `fat_roundtrip`: Reading after writing.
-/

namespace MagiC

namespace Fat

/-- The three kinds of FAT, the sign of `d_flag`. -/
inductive FatType where
  | fat12
  | fat16
  | fat32
  deriving DecidableEq, Repr

/-- What the routines read of a drive: the kind of FAT, the logarithm and the
    mask of the sector size, and the sectors in a FAT. -/
structure Dmd where
  ftype : FatType
  lrecsiz : Nat
  mrecsiz : Nat
  fsiz : Nat

/-- The sectors of a FAT, by number and offset. -/
abbrev Sectors := Nat → Nat → UInt8

/-- What `FAT_read` returns at the end of a chain. -/
def EOF : Nat := 2 ^ 32 - 1

/-- `ror.w #8`: exchange the bytes of the low word. -/
def rorW8 (d : Nat) : Nat := d / 2 ^ 16 * 2 ^ 16 + (d % 2 ^ 8 * 2 ^ 8 + d % 2 ^ 16 / 2 ^ 8)

/-- `rol.w #4` of a word. -/
def rolW4 (d : Nat) : Nat := d * 2 ^ 4 % 2 ^ 16 + d / 2 ^ 12

/-- `swap`: exchange the words of a longword. -/
def swap (d : Nat) : Nat := d % 2 ^ 16 * 2 ^ 16 + d / 2 ^ 16

/-- Exchange the byte order of a longword. -/
def intel (d : Nat) : Nat := rorW8 (swap (rorW8 d))

/-- The byte offset of a cluster's entry in the FAT, a longword. -/
def byteOffset (ftype : FatType) (cluster : Nat) : Nat :=
  match ftype with
  | .fat12 => (cluster / 2 + cluster) % 2 ^ 32
  | .fat16 => (cluster + cluster) % 2 ^ 32
  | .fat32 => (cluster + cluster) % 2 ^ 32 * 2 % 2 ^ 32

def putByte (fat : Sectors) (n off b : Nat) : Sectors :=
  fun i => if i = n then Function.update (fat n) off (UInt8.ofNat b) else fat i

def putWord (fat : Sectors) (n off w : Nat) : Sectors :=
  putByte (putByte fat n off (w / 2 ^ 8)) n (off + 1) w

def putLong (fat : Sectors) (n off d : Nat) : Sectors :=
  putWord (putWord fat n off (d / 2 ^ 16)) n (off + 2) d

def getWord (fat : Sectors) (n off : Nat) : Nat :=
  (fat n off).toNat * 2 ^ 8 + (fat n (off + 1)).toNat

def getLong (fat : Sectors) (n off : Nat) : Nat :=
  getWord fat n off * 2 ^ 16 + getWord fat n (off + 2)

/-- `ftw_wfat_12`: a twelve bit value, in Intel order and shifted to where an
    odd or an even entry has it. -/
def ftwWfat12 (odd : Bool) (nextcl : Nat) : Nat :=
  let d4 := rorW8 (nextcl &&& 0x0fff)
  if odd then rolW4 d4 else d4

/-- The first byte of a twelve bit entry. -/
def ftwFirst (odd : Bool) (fat : Sectors) (n off d4 : Nat) : Sectors :=
  let d0 := d4 / 2 ^ 8
  if odd then putByte fat n off (((fat n off).toNat &&& 0x0f) ||| d0) else putByte fat n off d0

/-- `ftw_in_buffer`: the second byte of a twelve bit entry. -/
def ftwInBuffer (odd : Bool) (fat : Sectors) (n off d4 : Nat) : Sectors :=
  if odd then putByte fat n off d4
  else putByte fat n off (((fat n off).toNat &&& 0xf0) ||| d4 % 2 ^ 8)

/-- `ftw_second`: find the second byte, which may lie in the next sector. -/
def ftwSecond (drv : Dmd) (io : Nat → Option Int) (odd : Bool) (fat : Sectors) (d6 d5 d4 : Nat) :
    Sectors × Option Int :=
  if d5 < drv.mrecsiz then (ftwInBuffer odd fat d6 (d5 + 1) d4, none)
  else
    match io (d6 + 1) with
    | some e => (fat, some e)
    | none => (ftwInBuffer odd fat (d6 + 1) 0 d4, none)

/-- `FAT_write`: store `nextcl` as the entry of `cluster`, with the error of a
    sector that cannot be read. -/
def fatWrite (drv : Dmd) (io : Nat → Option Int) (fat : Sectors) (cluster nextcl : Nat) :
    Sectors × Option Int :=
  let d1 := byteOffset drv.ftype cluster
  let d5 := d1 % 2 ^ 16 &&& drv.mrecsiz
  let d6 := d1 >>> drv.lrecsiz
  match io d6 with
  | some e => (fat, some e)
  | none =>
    match drv.ftype with
    | .fat32 => (putLong fat d6 d5 (intel (nextcl &&& 0x0fffffff)), none)
    | .fat16 => (putWord fat d6 d5 (rorW8 nextcl % 2 ^ 16), none)
    | .fat12 =>
      let odd := decide (cluster % 2 = 1)
      let d4 := ftwWfat12 odd nextcl
      ftwSecond drv io odd (ftwFirst odd fat d6 d5 d4) d6 d5 d4

/-- `ftr_in_buffer`: a twelve bit entry from its two bytes. -/
def ftrInBuffer (odd : Bool) (b0 b1 : Nat) : Nat :=
  let d0 := rorW8 (b0 * 2 ^ 8 + b1)
  let d0 := (if odd then d0 / 2 ^ 4 else d0) &&& 0x0fff
  if d0 < 0x0ff0 then d0 else EOF

/-- `FAT_read`: the entry of `cluster`, or the error of a sector that cannot be
    read. -/
def fatRead (drv : Dmd) (io : Nat → Option Int) (fat : Sectors) (cluster : Nat) : Except Int Nat :=
  let d1 := byteOffset drv.ftype cluster
  let d5 := d1 % 2 ^ 16 &&& drv.mrecsiz
  let d6 := d1 >>> drv.lrecsiz
  match io d6 with
  | some e => .error e
  | none =>
    match drv.ftype with
    | .fat32 =>
      let d0 := intel (getLong fat d6 d5) &&& 0x0fffffff
      .ok (if d0 < 0x0ffffff8 then d0 else EOF)
    | .fat16 =>
      let d0 := rorW8 (getWord fat d6 d5)
      .ok (if d0 < 0xfff8 then d0 else EOF)
    | .fat12 =>
      let odd := decide (cluster % 2 = 1)
      let b0 := (fat d6 d5).toNat
      if d5 < drv.mrecsiz then .ok (ftrInBuffer odd b0 (fat d6 (d5 + 1)).toNat)
      else
        match io (d6 + 1) with
        | some e => .error e
        | none => .ok (ftrInBuffer odd b0 (fat (d6 + 1) 0).toNat)

def entrySize (ftype : FatType) : Nat :=
  match ftype with
  | .fat12 => 2
  | .fat16 => 2
  | .fat32 => 4

/-- The byte offset of an entry, without a carry out of the longword. -/
def entryOff (ftype : FatType) (cluster : Nat) : Nat :=
  match ftype with
  | .fat12 => cluster + cluster / 2
  | .fat16 => 2 * cluster
  | .fat32 => 4 * cluster

/-- A drive as it is mounted: the sector size is a power of two below `2 ^ 16`,
    a sector holds a whole word or longword entry, and byte offsets in the FAT
    are longwords. -/
structure Geometry (drv : Dmd) : Prop where
  mask : drv.mrecsiz = 2 ^ drv.lrecsiz - 1
  word : drv.lrecsiz < 16
  whole : drv.ftype ≠ .fat12 → entrySize drv.ftype ≤ 2 ^ drv.lrecsiz
  long : drv.fsiz * 2 ^ drv.lrecsiz ≤ 2 ^ 32

/-- A cluster whose entry lies in the FAT. -/
def InFat (drv : Dmd) (cluster : Nat) : Prop :=
  entryOff drv.ftype cluster + entrySize drv.ftype ≤ drv.fsiz * 2 ^ drv.lrecsiz

instance (drv : Dmd) (cluster : Nat) : Decidable (InFat drv cluster) :=
  inferInstanceAs (Decidable (_ ≤ _))

/-- The bytes of all sectors in a row. -/
def byteAt (drv : Dmd) (fat : Sectors) (k : Nat) : Nat :=
  (fat (k / 2 ^ drv.lrecsiz) (k % 2 ^ drv.lrecsiz)).toNat

def entry (drv : Dmd) (fat : Sectors) (cluster : Nat) : Nat :=
  let k := entryOff drv.ftype cluster
  let b := byteAt drv fat
  match drv.ftype with
  | .fat12 =>
    if cluster % 2 = 1 then (b k + 2 ^ 8 * b (k + 1)) / 2 ^ 4
    else (b k + 2 ^ 8 * b (k + 1)) % 2 ^ 12
  | .fat16 => b k + 2 ^ 8 * b (k + 1)
  | .fat32 => (b k + 2 ^ 8 * b (k + 1) + 2 ^ 16 * b (k + 2) + 2 ^ 24 * b (k + 3)) % 2 ^ 28

/-- The first end mark of a kind of FAT. -/
def endMark (ftype : FatType) : Nat :=
  match ftype with
  | .fat12 => 0xff0
  | .fat16 => 0xfff8
  | .fat32 => 0x0ffffff8

/-- A value as an entry can hold it. -/
def reduce (ftype : FatType) (v : Nat) : Nat :=
  match ftype with
  | .fat12 => v % 2 ^ 12
  | .fat16 => v % 2 ^ 16
  | .fat32 => v % 2 ^ 28

/-- An entry as `FAT_read` returns it. -/
def linkOf (ftype : FatType) (v : Nat) : Nat := if v < endMark ftype then v else EOF

/-- The error of the sectors an entry lies in, the first one first. -/
def entryIo (drv : Dmd) (io : Nat → Option Int) (cluster : Nat) : Option Int :=
  let k := entryOff drv.ftype cluster
  (io (k / 2 ^ drv.lrecsiz)).or (io ((k + (entrySize drv.ftype - 1)) / 2 ^ drv.lrecsiz))

theorem byteOffset_eq (drv : Dmd) (geo : Geometry drv) (c : Nat) (hc : InFat drv c) :
    byteOffset drv.ftype c = entryOff drv.ftype c := by
  have hlong := geo.long
  unfold InFat at hc
  cases hty : drv.ftype with
  | fat12 =>
    simp only [hty, entryOff, entrySize, byteOffset] at hc ⊢
    omega
  | fat16 =>
    simp only [hty, entryOff, entrySize, byteOffset] at hc ⊢
    omega
  | fat32 =>
    simp only [hty, entryOff, entrySize, byteOffset] at hc ⊢
    omega

theorem mask_eq (drv : Dmd) (geo : Geometry drv) (k : Nat) :
    k % 2 ^ 16 &&& drv.mrecsiz = k % 2 ^ drv.lrecsiz := by
  have hdvd : 2 ^ drv.lrecsiz ∣ 2 ^ 16 := Nat.pow_dvd_pow 2 (Nat.le_of_lt geo.word)
  rw [geo.mask, Nat.and_two_pow_sub_one_eq_mod, Nat.mod_mod_of_dvd _ hdvd]

theorem byteAt_put (drv : Dmd) (fat : Sectors) (k b j : Nat) :
    byteAt drv (putByte fat (k / 2 ^ drv.lrecsiz) (k % 2 ^ drv.lrecsiz) b) j
      = if j = k then b % 2 ^ 8 else byteAt drv fat j := by
  unfold byteAt putByte
  by_cases hj : j = k
  · rw [if_pos hj, hj, if_pos rfl, Function.update_self, UInt8.toNat_ofNat']
  · rw [if_neg hj]
    by_cases hsec : j / 2 ^ drv.lrecsiz = k / 2 ^ drv.lrecsiz
    · -- In the same sector the offsets differ.
      have hoff : j % 2 ^ drv.lrecsiz ≠ k % 2 ^ drv.lrecsiz := by
        intro hoff
        refine hj ?_
        rw [← Nat.div_add_mod j (2 ^ drv.lrecsiz), hsec, hoff, Nat.div_add_mod]
      rw [if_pos hsec, Function.update_of_ne hoff, hsec]
    · rw [if_neg hsec]

theorem same_sector (k i s : Nat) (hs : 0 < s) (h : k % s + i < s) :
    (k + i) / s = k / s ∧ (k + i) % s = k % s + i := by
  have hk := Nat.div_add_mod k s
  have heq : k + i = s * (k / s) + (k % s + i) := by omega
  rw [heq]
  refine ⟨?_, ?_⟩
  · rw [Nat.mul_add_div hs, Nat.div_eq_of_lt h, Nat.add_zero]
  · rw [Nat.mul_add_mod, Nat.mod_eq_of_lt h]

theorem next_sector (k s : Nat) (hs : 0 < s) (h : k % s + 1 = s) :
    (k + 1) / s = k / s + 1 ∧ (k + 1) % s = 0 := by
  have hk := Nat.div_add_mod k s
  have heq : k + 1 = s * (k / s + 1) := by
    rw [Nat.mul_add, Nat.mul_one]
    omega
  rw [heq]
  exact ⟨Nat.mul_div_cancel_left _ hs, Nat.mul_mod_right _ _⟩

theorem whole_fits (k n l : Nat) (hn : 2 ^ n ≤ 2 ^ l) (hk : 2 ^ n ∣ k) :
    k % 2 ^ l + 2 ^ n ≤ 2 ^ l := by
  have hle : n ≤ l := (Nat.pow_le_pow_iff_right (by omega)).mp hn
  have hdvd : 2 ^ n ∣ 2 ^ l := Nat.pow_dvd_pow 2 hle
  have hmod : 2 ^ n ∣ k % 2 ^ l := (Nat.dvd_mod_iff hdvd).mpr hk
  have hlt : k % 2 ^ l < 2 ^ l := Nat.mod_lt _ (by positivity)
  rcases hmod with ⟨x, hx⟩
  rcases hdvd with ⟨y, hy⟩
  rw [hx, hy] at hlt ⊢
  have hxy : x < y := Nat.lt_of_mul_lt_mul_left hlt
  calc 2 ^ n * x + 2 ^ n = 2 ^ n * (x + 1) := by ring
    _ ≤ 2 ^ n * y := Nat.mul_le_mul_left _ hxy

theorem offset_regs (drv : Dmd) (geo : Geometry drv) (c : Nat) (hc : InFat drv c) :
    byteOffset drv.ftype c % 2 ^ 16 &&& drv.mrecsiz
        = entryOff drv.ftype c % 2 ^ drv.lrecsiz ∧
      byteOffset drv.ftype c >>> drv.lrecsiz = entryOff drv.ftype c / 2 ^ drv.lrecsiz := by
  rw [mask_eq drv geo, byteOffset_eq drv geo c hc, Nat.shiftRight_eq_div_pow]
  exact ⟨rfl, rfl⟩

theorem and_low (x n m : Nat) (h : m = 2 ^ n - 1) : x &&& m = x % 2 ^ n := by
  rw [h, Nat.and_two_pow_sub_one_eq_mod]

theorem and_f0 (b : Nat) (hb : b < 2 ^ 8) : b &&& 0xf0 = b / 2 ^ 4 * 2 ^ 4 := by
  have h : ∀ n : Fin 256, n.val &&& 0xf0 = n.val / 2 ^ 4 * 2 ^ 4 := by decide +kernel
  exact h ⟨b, hb⟩

theorem or_halves (a b : Nat) (hb : b < 2 ^ 4) : a * 2 ^ 4 ||| b = a * 2 ^ 4 + b := by
  rw [Nat.mul_comm a (2 ^ 4), Nat.two_pow_add_eq_or_of_lt hb]

theorem byteAt_lt (drv : Dmd) (fat : Sectors) (k : Nat) : byteAt drv fat k < 2 ^ 8 :=
  UInt8.toNat_lt _

/-- The byte at `j` after writing `v` as the entry of `c`. -/
def stored (drv : Dmd) (fat : Sectors) (c v j : Nat) : Nat :=
  let k := entryOff drv.ftype c
  let b := byteAt drv fat
  match drv.ftype with
  | .fat12 =>
    if c % 2 = 1 then
      if j = k then v % 2 ^ 4 * 2 ^ 4 + b k % 2 ^ 4
      else if j = k + 1 then v % 2 ^ 12 / 2 ^ 4 else b j
    else
      if j = k then v % 2 ^ 8
      else if j = k + 1 then b (k + 1) / 2 ^ 4 * 2 ^ 4 + v % 2 ^ 12 / 2 ^ 8 else b j
  | .fat16 => if j = k then v % 2 ^ 8 else if j = k + 1 then v / 2 ^ 8 % 2 ^ 8 else b j
  | .fat32 =>
    if j = k then v % 2 ^ 8 else if j = k + 1 then v / 2 ^ 8 % 2 ^ 8
    else if j = k + 2 then v / 2 ^ 16 % 2 ^ 8
    else if j = k + 3 then v % 2 ^ 28 / 2 ^ 24 else b j

theorem rorW8_of_lt (w : Nat) (hw : w < 2 ^ 16) : rorW8 w = w % 2 ^ 8 * 2 ^ 8 + w / 2 ^ 8 := by
  unfold rorW8
  omega

theorem digits (w : Nat) (hw : w < 2 ^ 12) :
    ∃ a b c, a < 16 ∧ b < 16 ∧ c < 16 ∧ w = a * 2 ^ 8 + b * 2 ^ 4 + c :=
  ⟨w / 2 ^ 8, w / 2 ^ 4 % 2 ^ 4, w % 2 ^ 4, by omega, by omega, by omega, by omega⟩

theorem rorW8_digits (a b c : Nat) (ha : a < 16) (hb : b < 16) (hc : c < 16) :
    rorW8 (a * 2 ^ 8 + b * 2 ^ 4 + c) = b * 2 ^ 12 + c * 2 ^ 8 + a := by
  have hdiv : (a * 2 ^ 8 + b * 2 ^ 4 + c) / 2 ^ 8 = a := by omega
  rw [rorW8_of_lt _ (by omega), hdiv]
  omega

theorem rolW4_digits (a b c : Nat) (ha : a < 16) (hc : c < 16) :
    rolW4 (b * 2 ^ 12 + c * 2 ^ 8 + a) = c * 2 ^ 12 + a * 2 ^ 4 + b := by
  unfold rolW4
  omega

theorem odd_digits (a b c : Nat) (ha : a < 16) (hb : b < 16) (hc : c < 16) :
    (c * 2 ^ 12 + a * 2 ^ 4 + b) / 2 ^ 8 = (a * 2 ^ 8 + b * 2 ^ 4 + c) % 2 ^ 4 * 2 ^ 4 ∧
      (c * 2 ^ 12 + a * 2 ^ 4 + b) % 2 ^ 8 = (a * 2 ^ 8 + b * 2 ^ 4 + c) / 2 ^ 4 := by
  refine ⟨?_, ?_⟩
  · have h : (a * 2 ^ 8 + b * 2 ^ 4 + c) % 2 ^ 4 = c := by omega
    rw [h]
    omega
  · have h : (a * 2 ^ 8 + b * 2 ^ 4 + c) / 2 ^ 4 = a * 2 ^ 4 + b := by omega
    rw [h]
    omega

theorem even_digits (a b c : Nat) (ha : a < 16) (hb : b < 16) (hc : c < 16) :
    (b * 2 ^ 12 + c * 2 ^ 8 + a) / 2 ^ 8 = (a * 2 ^ 8 + b * 2 ^ 4 + c) % 2 ^ 8 ∧
      (b * 2 ^ 12 + c * 2 ^ 8 + a) % 2 ^ 8 = (a * 2 ^ 8 + b * 2 ^ 4 + c) / 2 ^ 8 := by
  refine ⟨?_, ?_⟩
  · have h : (a * 2 ^ 8 + b * 2 ^ 4 + c) % 2 ^ 8 = b * 2 ^ 4 + c := by omega
    rw [h]
    omega
  · have h : (a * 2 ^ 8 + b * 2 ^ 4 + c) / 2 ^ 8 = a := by omega
    rw [h]
    omega

theorem ftwWfat12_bytes (odd : Bool) (v : Nat) :
    ftwWfat12 odd v / 2 ^ 8 = (if odd then v % 2 ^ 4 * 2 ^ 4 else v % 2 ^ 8) ∧
      ftwWfat12 odd v % 2 ^ 8 = (if odd then v % 2 ^ 12 / 2 ^ 4 else v % 2 ^ 12 / 2 ^ 8) := by
  have hand : v &&& 0x0fff = v % 2 ^ 12 := and_low v 12 0x0fff (by decide)
  have hlow : v % 2 ^ 4 = v % 2 ^ 12 % 2 ^ 4 ∧ v % 2 ^ 8 = v % 2 ^ 12 % 2 ^ 8 := by omega
  have hlt : v % 2 ^ 12 < 2 ^ 12 := Nat.mod_lt _ (by omega)
  unfold ftwWfat12
  rw [hand, hlow.1, hlow.2]
  rcases digits _ hlt with ⟨a, b, c, ha, hb, hc, hw⟩
  rw [hw, rorW8_digits a b c ha hb hc]
  cases odd with
  | true =>
    simp only [if_true, rolW4_digits a b c ha hc]
    exact odd_digits a b c ha hb hc
  | false =>
    simp only [Bool.false_eq_true, if_false]
    exact even_digits a b c ha hb hc

theorem ftwFirst_bytes (drv : Dmd) (odd : Bool) (fat : Sectors) (k v j : Nat) :
    byteAt drv (ftwFirst odd fat (k / 2 ^ drv.lrecsiz) (k % 2 ^ drv.lrecsiz) (ftwWfat12 odd v)) j
      = if j = k then (if odd then v % 2 ^ 4 * 2 ^ 4 + byteAt drv fat k % 2 ^ 4 else v % 2 ^ 8)
        else byteAt drv fat j := by
  have hbyte : (fat (k / 2 ^ drv.lrecsiz) (k % 2 ^ drv.lrecsiz)).toNat = byteAt drv fat k := rfl
  have hand : byteAt drv fat k &&& 0x0f = byteAt drv fat k % 2 ^ 4 := and_low _ 4 0x0f (by decide)
  unfold ftwFirst
  simp only [(ftwWfat12_bytes odd v).1, hbyte, hand]
  cases odd with
  | true =>
    simp only [if_true, byteAt_put]
    rw [Nat.or_comm, or_halves _ _ (Nat.mod_lt _ (by omega)), Nat.mod_eq_of_lt (by omega)]
  | false =>
    simp only [Bool.false_eq_true, if_false, byteAt_put, Nat.mod_mod]

theorem ftwInBuffer_bytes (drv : Dmd) (odd : Bool) (fat : Sectors) (k v j : Nat) :
    byteAt drv (ftwInBuffer odd fat (k / 2 ^ drv.lrecsiz) (k % 2 ^ drv.lrecsiz)
        (ftwWfat12 odd v)) j
      = if j = k then (if odd then v % 2 ^ 12 / 2 ^ 4
          else byteAt drv fat k / 2 ^ 4 * 2 ^ 4 + v % 2 ^ 12 / 2 ^ 8)
        else byteAt drv fat j := by
  have hbyte : (fat (k / 2 ^ drv.lrecsiz) (k % 2 ^ drv.lrecsiz)).toNat = byteAt drv fat k := rfl
  have hlt := byteAt_lt drv fat k
  have hv := (ftwWfat12_bytes odd v).2
  unfold ftwInBuffer
  rw [hbyte, and_f0 _ hlt, hv]
  cases odd with
  | true =>
    simp only [if_true] at hv ⊢
    rw [byteAt_put, hv]
  | false =>
    simp only [Bool.false_eq_true, if_false, byteAt_put]
    generalize ht : v % 2 ^ 12 / 2 ^ 8 = t
    have ht4 : t < 2 ^ 4 := by omega
    rw [or_halves _ _ ht4, Nat.mod_eq_of_lt (by omega)]

theorem ftwSecond_bytes (drv : Dmd) (geo : Geometry drv) (io : Nat → Option Int) (odd : Bool)
    (fat fat' : Sectors) (k v : Nat) (hio : io (k / 2 ^ drv.lrecsiz) = none)
    (hw : ftwSecond drv io odd fat (k / 2 ^ drv.lrecsiz) (k % 2 ^ drv.lrecsiz) (ftwWfat12 odd v)
      = (fat', none)) :
    io ((k + 1) / 2 ^ drv.lrecsiz) = none ∧
      ∀ j, byteAt drv fat' j = if j = k + 1 then (if odd then v % 2 ^ 12 / 2 ^ 4
          else byteAt drv fat (k + 1) / 2 ^ 4 * 2 ^ 4 + v % 2 ^ 12 / 2 ^ 8)
        else byteAt drv fat j := by
  have hs : 0 < 2 ^ drv.lrecsiz := Nat.two_pow_pos _
  have hlt := Nat.mod_lt k hs
  have hmask := geo.mask
  unfold ftwSecond at hw
  by_cases hin : k % 2 ^ drv.lrecsiz < drv.mrecsiz
  · rcases same_sector k 1 _ hs (by omega) with ⟨hsec, hoff⟩
    rw [if_pos hin, ← hsec, ← hoff] at hw
    rw [hsec]
    refine ⟨hio, fun j => ?_⟩
    rw [← (Prod.mk.inj hw).1]
    exact ftwInBuffer_bytes drv odd fat (k + 1) v j
  · -- The last byte of a sector: the second one is the first of the next.
    rcases next_sector k _ hs (by omega) with ⟨hsec, hoff⟩
    rw [if_neg hin, ← hsec] at hw
    cases hio1 : io ((k + 1) / 2 ^ drv.lrecsiz) with
    | some e =>
      rw [hio1] at hw
      simp only [Prod.mk.injEq, reduceCtorEq, and_false] at hw
    | none =>
      rw [hio1] at hw
      simp only [Prod.mk.injEq, and_true] at hw
      rw [← hoff] at hw
      refine ⟨rfl, fun j => ?_⟩
      rw [← hw]
      exact ftwInBuffer_bytes drv odd fat (k + 1) v j

theorem putWord_bytes (drv : Dmd) (fat : Sectors) (k w j : Nat)
    (hfit : k % 2 ^ drv.lrecsiz + 2 ≤ 2 ^ drv.lrecsiz) :
    byteAt drv (putWord fat (k / 2 ^ drv.lrecsiz) (k % 2 ^ drv.lrecsiz) w) j
      = if j = k then w / 2 ^ 8 % 2 ^ 8 else if j = k + 1 then w % 2 ^ 8
        else byteAt drv fat j := by
  rcases same_sector k 1 _ (Nat.two_pow_pos drv.lrecsiz) (by omega) with ⟨hsec, hoff⟩
  unfold putWord
  have h1 := byteAt_put drv (putByte fat (k / 2 ^ drv.lrecsiz) (k % 2 ^ drv.lrecsiz) (w / 2 ^ 8))
    (k + 1) w j
  rw [hsec, hoff] at h1
  rw [h1, byteAt_put]
  by_cases hj : j = k
  · rw [if_neg (by omega), if_pos hj, if_pos hj]
  · rw [if_neg hj, if_neg hj]

theorem putLong_bytes (drv : Dmd) (fat : Sectors) (k d j : Nat)
    (hfit : k % 2 ^ drv.lrecsiz + 4 ≤ 2 ^ drv.lrecsiz) :
    byteAt drv (putLong fat (k / 2 ^ drv.lrecsiz) (k % 2 ^ drv.lrecsiz) d) j
      = if j = k then d / 2 ^ 24 % 2 ^ 8 else if j = k + 1 then d / 2 ^ 16 % 2 ^ 8
        else if j = k + 2 then d / 2 ^ 8 % 2 ^ 8 else if j = k + 3 then d % 2 ^ 8
        else byteAt drv fat j := by
  rcases same_sector k 2 _ (Nat.two_pow_pos drv.lrecsiz) (by omega) with ⟨hsec, hoff⟩
  unfold putLong
  have h1 := putWord_bytes drv
    (putWord fat (k / 2 ^ drv.lrecsiz) (k % 2 ^ drv.lrecsiz) (d / 2 ^ 16)) (k + 2) d j
    (by rw [hoff]; omega)
  rw [hsec, hoff] at h1
  rw [h1, putWord_bytes drv fat k (d / 2 ^ 16) j (by omega), Nat.div_div_eq_div_mul, ← pow_add]
  by_cases h0 : j = k
  · rw [if_neg (by omega), if_neg (by omega), if_pos h0, if_pos h0]
  · rw [if_neg h0, if_neg h0]
    by_cases h1 : j = k + 1
    · rw [if_neg (by omega), if_neg (by omega), if_pos h1, if_pos h1]
    · rw [if_neg h1, if_neg h1]

theorem high_byte (c d : Nat) (hd : d < 256) : (c * 2 ^ 8 + d) / 2 ^ 8 = c := by omega

theorem rorW8_word (v : Nat) : rorW8 v % 2 ^ 16 = v % 2 ^ 8 * 2 ^ 8 + v / 2 ^ 8 % 2 ^ 8 := by
  have h1 : v % 2 ^ 16 / 2 ^ 8 = v / 2 ^ 8 % 2 ^ 8 := by omega
  unfold rorW8
  rw [h1, Nat.mul_add_mod_self_right, Nat.mod_eq_of_lt (by omega)]

theorem rorW8_long (a b c d : Nat) (hc : c < 256) (hd : d < 256) :
    rorW8 (a * 2 ^ 24 + b * 2 ^ 16 + c * 2 ^ 8 + d)
      = a * 2 ^ 24 + b * 2 ^ 16 + d * 2 ^ 8 + c := by
  have h1 : (a * 2 ^ 24 + b * 2 ^ 16 + c * 2 ^ 8 + d) / 2 ^ 16 = a * 2 ^ 8 + b := by omega
  have h2 : (a * 2 ^ 24 + b * 2 ^ 16 + c * 2 ^ 8 + d) % 2 ^ 16 = c * 2 ^ 8 + d := by omega
  have h3 : (a * 2 ^ 24 + b * 2 ^ 16 + c * 2 ^ 8 + d) % 2 ^ 8 = d := by omega
  unfold rorW8
  rw [h1, h2, h3, high_byte c d hd]
  omega

theorem swap_long (a b c d : Nat) (hc : c < 256) (hd : d < 256) :
    swap (a * 2 ^ 24 + b * 2 ^ 16 + c * 2 ^ 8 + d)
      = c * 2 ^ 24 + d * 2 ^ 16 + a * 2 ^ 8 + b := by
  have h1 : (a * 2 ^ 24 + b * 2 ^ 16 + c * 2 ^ 8 + d) / 2 ^ 16 = a * 2 ^ 8 + b := by omega
  have h2 : (a * 2 ^ 24 + b * 2 ^ 16 + c * 2 ^ 8 + d) % 2 ^ 16 = c * 2 ^ 8 + d := by omega
  unfold swap
  rw [h1, h2]
  omega

theorem intel_digits (a b c d : Nat) (ha : a < 256) (hb : b < 256) (hc : c < 256) (hd : d < 256) :
    intel (a * 2 ^ 24 + b * 2 ^ 16 + c * 2 ^ 8 + d)
      = d * 2 ^ 24 + c * 2 ^ 16 + b * 2 ^ 8 + a := by
  unfold intel
  rw [rorW8_long a b c d hc hd, swap_long a b d c hd hc, rorW8_long d c a b ha hb]

theorem long_digits (w : Nat) (hw : w < 2 ^ 28) :
    ∃ a b c d, a < 256 ∧ b < 256 ∧ c < 256 ∧ d < 256 ∧
      w = a * 2 ^ 24 + b * 2 ^ 16 + c * 2 ^ 8 + d :=
  ⟨w / 2 ^ 24, w / 2 ^ 16 % 2 ^ 8, w / 2 ^ 8 % 2 ^ 8, w % 2 ^ 8, by omega, by omega, by omega,
    by omega, by omega⟩

theorem bytes_long (a b c d : Nat) (hb : b < 256) (hc : c < 256) (hd : d < 256) :
    (a * 2 ^ 24 + b * 2 ^ 16 + c * 2 ^ 8 + d) / 2 ^ 24 = a ∧
      (a * 2 ^ 24 + b * 2 ^ 16 + c * 2 ^ 8 + d) / 2 ^ 16 % 2 ^ 8 = b ∧
      (a * 2 ^ 24 + b * 2 ^ 16 + c * 2 ^ 8 + d) / 2 ^ 8 % 2 ^ 8 = c ∧
      (a * 2 ^ 24 + b * 2 ^ 16 + c * 2 ^ 8 + d) % 2 ^ 8 = d := by
  refine ⟨by omega, ?_, ?_, by omega⟩
  · have h : (a * 2 ^ 24 + b * 2 ^ 16 + c * 2 ^ 8 + d) / 2 ^ 16 = a * 2 ^ 8 + b := by omega
    rw [h]
    omega
  · have h : (a * 2 ^ 24 + b * 2 ^ 16 + c * 2 ^ 8 + d) / 2 ^ 8 = a * 2 ^ 16 + b * 2 ^ 8 + c := by
      omega
    rw [h]
    omega

theorem low_bytes (v : Nat) :
    v % 2 ^ 28 % 2 ^ 8 = v % 2 ^ 8 ∧ v % 2 ^ 28 / 2 ^ 8 % 2 ^ 8 = v / 2 ^ 8 % 2 ^ 8 ∧
      v % 2 ^ 28 / 2 ^ 16 % 2 ^ 8 = v / 2 ^ 16 % 2 ^ 8 := by
  refine ⟨?_, ?_, ?_⟩ <;> omega

/-- Writing an entry, byte by byte. -/
theorem fatWrite_bytes (drv : Dmd) (geo : Geometry drv) (io : Nat → Option Int) (fat fat' : Sectors)
    (c v : Nat) (hc : InFat drv c) (hw : fatWrite drv io fat c v = (fat', none)) :
    entryIo drv io c = none ∧ ∀ j, byteAt drv fat' j = stored drv fat c v j := by
  rcases offset_regs drv geo c hc with ⟨hoff, hsec⟩
  have hs : 0 < 2 ^ drv.lrecsiz := Nat.two_pow_pos _
  have hwhole := geo.whole
  obtain ⟨k, hk⟩ : ∃ k, entryOff drv.ftype c = k := ⟨_, rfl⟩
  rw [hk] at hoff hsec
  unfold fatWrite at hw
  simp only [hoff, hsec] at hw
  simp only [entryIo, stored, hk]
  cases hio : io (k / 2 ^ drv.lrecsiz) with
  | some e =>
    rw [hio] at hw
    simp only [Prod.mk.injEq, reduceCtorEq, and_false] at hw
  | none =>
    rw [hio] at hw
    simp only [Option.none_or] at hw ⊢
    cases hty : drv.ftype with
    | fat12 =>
      simp only [hty, entrySize] at hw ⊢
      rcases ftwSecond_bytes drv geo io _ _ fat' k v hio hw with ⟨hio1, hbytes⟩
      refine ⟨hio1, fun j => ?_⟩
      rw [hbytes j]
      simp only [ftwFirst_bytes, decide_eq_true_eq]
      by_cases hodd : c % 2 = 1
      · simp only [if_pos hodd]
        by_cases hj : j = k
        · rw [if_neg (by omega), if_pos hj, if_pos hj]
        · rw [if_neg hj, if_neg hj]
      · simp only [if_neg hodd]
        rw [if_neg (by omega : ¬ k + 1 = k)]
        by_cases hj : j = k
        · rw [if_neg (by omega), if_pos hj, if_pos hj]
        · rw [if_neg hj, if_neg hj]
    | fat16 =>
      simp only [hty, entrySize, ne_eq, reduceCtorEq, not_false_eq_true,
        forall_true_left] at hw hwhole ⊢
      have hdvd : 2 ^ 1 ∣ k := by
        rw [← hk, hty]
        exact Dvd.intro _ rfl
      have hfit := whole_fits k 1 drv.lrecsiz (by omega) hdvd
      rcases same_sector k 1 _ hs (by omega) with ⟨hsame, _⟩
      rw [show 2 - 1 = 1 from rfl, hsame]
      refine ⟨hio, fun j => ?_⟩
      rw [← (Prod.mk.inj hw).1, putWord_bytes drv fat k _ j (by omega)]
      have hlow : v / 2 ^ 8 % 2 ^ 8 < 256 := Nat.mod_lt _ (by omega)
      rw [rorW8_word, high_byte _ _ hlow, Nat.mod_mod, Nat.mul_add_mod_self_right, Nat.mod_mod]
    | fat32 =>
      simp only [hty, entrySize, ne_eq, reduceCtorEq, not_false_eq_true,
        forall_true_left] at hw hwhole ⊢
      have hdvd : 2 ^ 2 ∣ k := by
        rw [← hk, hty]
        exact Dvd.intro _ rfl
      have hfit := whole_fits k 2 drv.lrecsiz (by omega) hdvd
      rcases same_sector k 3 _ hs (by omega) with ⟨hsame, _⟩
      rw [show 4 - 1 = 3 from rfl, hsame]
      refine ⟨hio, fun j => ?_⟩
      have hand : v &&& 0x0fffffff = v % 2 ^ 28 := and_low v 28 0x0fffffff (by decide)
      rw [← (Prod.mk.inj hw).1, putLong_bytes drv fat k _ j (by omega), hand]
      rcases low_bytes v with ⟨l0, l1, l2⟩
      rcases long_digits (v % 2 ^ 28) (Nat.mod_lt _ (by omega)) with
        ⟨a, b, x, d, ha, hb, hx, hd, hv⟩
      rcases bytes_long a b x d hb hx hd with ⟨e3, e2, e1, e0⟩
      rcases bytes_long d x b a hx hb ha with ⟨i3, i2, i1, i0⟩
      rw [← l0, ← l1, ← l2, hv, intel_digits a b x d ha hb hx hd, e0, e1, e2, e3, i0, i1, i2,
        i3, show d % 2 ^ 8 = d from Nat.mod_eq_of_lt hd]

theorem ftrInBuffer_eq (odd : Bool) (b0 b1 : Nat) (h0 : b0 < 256) (h1 : b1 < 256) :
    ftrInBuffer odd b0 b1 = linkOf .fat12
      (if odd then (b0 + 2 ^ 8 * b1) / 2 ^ 4 else (b0 + 2 ^ 8 * b1) % 2 ^ 12) := by
  have hror : rorW8 (b0 * 2 ^ 8 + b1) = b0 + 2 ^ 8 * b1 := by
    rw [rorW8_of_lt _ (by omega), high_byte b0 b1 h1]
    omega
  unfold ftrInBuffer
  simp only [hror, and_low _ 12 0x0fff (by decide)]
  cases odd with
  | true =>
    simp only [if_true]
    rw [Nat.mod_eq_of_lt (by omega)]
    rfl
  | false => rfl

theorem fatRead_eq (drv : Dmd) (geo : Geometry drv) (io : Nat → Option Int)
    (fat : Sectors) (c : Nat)
    (hc : InFat drv c) :
    fatRead drv io fat c = match entryIo drv io c with
      | some e => .error e
      | none => .ok (linkOf drv.ftype (entry drv fat c)) := by
  rcases offset_regs drv geo c hc with ⟨hoff, hsec⟩
  have hs : 0 < 2 ^ drv.lrecsiz := Nat.two_pow_pos _
  have hwhole := geo.whole
  have hmask := geo.mask
  obtain ⟨k, hk⟩ : ∃ k, entryOff drv.ftype c = k := ⟨_, rfl⟩
  rw [hk] at hoff hsec
  unfold fatRead
  simp only [hoff, hsec, entryIo, entry, hk]
  cases hio : io (k / 2 ^ drv.lrecsiz) with
  | some e => rfl
  | none =>
    simp only [Option.none_or]
    cases hty : drv.ftype with
    | fat12 =>
      simp only [entrySize]
      rw [show 2 - 1 = 1 from rfl]
      by_cases hin : k % 2 ^ drv.lrecsiz < drv.mrecsiz
      · rcases same_sector k 1 _ hs (by omega) with ⟨hsame, hnext⟩
        rw [if_pos hin, hsame, hio]
        have hb1 : (fat (k / 2 ^ drv.lrecsiz) (k % 2 ^ drv.lrecsiz + 1)).toNat
            = byteAt drv fat (k + 1) := by
          unfold byteAt
          rw [hsame, hnext]
        rw [hb1, ftrInBuffer_eq _ _ _ (UInt8.toNat_lt _) (byteAt_lt drv fat _)]
        simp only [decide_eq_true_eq]
        rfl
      · rcases next_sector k _ hs (by omega) with ⟨hsame, hnext⟩
        rw [if_neg hin, hsame]
        cases hio1 : io (k / 2 ^ drv.lrecsiz + 1) with
        | some e => rfl
        | none =>
          have hb1 : (fat (k / 2 ^ drv.lrecsiz + 1) 0).toNat = byteAt drv fat (k + 1) := by
            unfold byteAt
            rw [hsame, hnext]
          simp only
          rw [hb1, ftrInBuffer_eq _ _ _ (UInt8.toNat_lt _) (byteAt_lt drv fat _)]
          simp only [decide_eq_true_eq]
          rfl
    | fat16 =>
      simp only [hty, entrySize, ne_eq, reduceCtorEq, not_false_eq_true,
        forall_true_left] at hwhole ⊢
      have hdvd : 2 ^ 1 ∣ k := by
        rw [← hk, hty]
        exact Dvd.intro _ rfl
      have hfit := whole_fits k 1 drv.lrecsiz (by omega) hdvd
      rcases same_sector k 1 _ hs (by omega) with ⟨hsame, hnext⟩
      have hword : getWord fat (k / 2 ^ drv.lrecsiz) (k % 2 ^ drv.lrecsiz)
          = byteAt drv fat k * 2 ^ 8 + byteAt drv fat (k + 1) := by
        unfold getWord byteAt
        rw [hsame, hnext]
      have h0 := byteAt_lt drv fat k
      have h1 := byteAt_lt drv fat (k + 1)
      rw [show 2 - 1 = 1 from rfl, hsame, hio, hword, rorW8_of_lt _ (by omega),
        high_byte _ _ h1, Nat.mul_add_mod_self_right, Nat.mod_eq_of_lt h1, Nat.mul_comm,
        Nat.add_comm]
      rfl
    | fat32 =>
      simp only [hty, entrySize, ne_eq, reduceCtorEq, not_false_eq_true,
        forall_true_left] at hwhole ⊢
      have hdvd : 2 ^ 2 ∣ k := by
        rw [← hk, hty]
        exact Dvd.intro _ rfl
      have hfit := whole_fits k 2 drv.lrecsiz (by omega) hdvd
      rcases same_sector k 1 _ hs (by omega) with ⟨s1, n1⟩
      rcases same_sector k 2 _ hs (by omega) with ⟨s2, n2⟩
      rcases same_sector k 3 _ hs (by omega) with ⟨s3, n3⟩
      have hlong : getLong fat (k / 2 ^ drv.lrecsiz) (k % 2 ^ drv.lrecsiz)
          = byteAt drv fat k * 2 ^ 24 + byteAt drv fat (k + 1) * 2 ^ 16
            + byteAt drv fat (k + 2) * 2 ^ 8 + byteAt drv fat (k + 3) := by
        unfold getLong getWord byteAt
        rw [s1, n1, s2, n2, s3, n3, show k % 2 ^ drv.lrecsiz + 2 + 1 = k % 2 ^ drv.lrecsiz + 3
          from rfl]
        ring
      rw [show 4 - 1 = 3 from rfl, s3, hio, hlong, intel_digits _ _ _ _ (byteAt_lt drv fat _)
        (byteAt_lt drv fat _) (byteAt_lt drv fat _) (byteAt_lt drv fat _),
        and_low _ 28 0x0fffffff (by decide)]
      have hsum : byteAt drv fat (k + 3) * 2 ^ 24 + byteAt drv fat (k + 2) * 2 ^ 16
          + byteAt drv fat (k + 1) * 2 ^ 8 + byteAt drv fat k
          = byteAt drv fat k + 2 ^ 8 * byteAt drv fat (k + 1)
            + 2 ^ 16 * byteAt drv fat (k + 2) + 2 ^ 24 * byteAt drv fat (k + 3) := by ring
      rw [hsum]
      rfl

theorem odd_entry (x y : Nat) : (x + 2 ^ 8 * y) / 2 ^ 4 = x / 2 ^ 4 + 2 ^ 4 * y := by
  omega

theorem even_entry (x y : Nat) (hx : x < 2 ^ 8) :
    (x + 2 ^ 8 * y) % 2 ^ 12 = x + 2 ^ 8 * (y % 2 ^ 4) := by
  omega

theorem entry_fat12 (drv : Dmd) (fat : Sectors) (d : Nat) (hty : drv.ftype = .fat12) :
    entry drv fat d =
      if d % 2 = 1 then
        byteAt drv fat (d + d / 2) / 2 ^ 4 + 2 ^ 4 * byteAt drv fat (d + d / 2 + 1)
      else byteAt drv fat (d + d / 2) + 2 ^ 8 * (byteAt drv fat (d + d / 2 + 1) % 2 ^ 4) := by
  simp only [entry, hty, entryOff]
  rw [odd_entry, even_entry _ _ (byteAt_lt drv fat _)]

theorem fat12_same (drv : Dmd) (fat fat' : Sectors) (c v : Nat) (hty : drv.ftype = .fat12)
    (hb : ∀ j, byteAt drv fat' j = stored drv fat c v j) : entry drv fat' c = v % 2 ^ 12 := by
  rw [entry_fat12 drv fat' c hty, hb, hb]
  simp only [stored, hty, entryOff]
  by_cases hodd : c % 2 = 1
  · simp only [if_pos hodd, if_true]
    rw [if_neg (by omega)]
    omega
  · simp only [if_neg hodd, if_true]
    rw [if_neg (by omega)]
    omega

theorem fat12_other (drv : Dmd) (fat fat' : Sectors) (c v d : Nat) (hty : drv.ftype = .fat12)
    (hb : ∀ j, byteAt drv fat' j = stored drv fat c v j) (hd : d ≠ c) :
    entry drv fat' d = entry drv fat d := by
  rw [entry_fat12 drv fat' d hty, entry_fat12 drv fat d hty, hb, hb]
  simp only [stored, hty, entryOff]
  by_cases hodd : c % 2 = 1
  · simp only [if_pos hodd]
    by_cases hdodd : d % 2 = 1
    · have h1 : d + d / 2 ≠ c + c / 2 ∧ d + d / 2 ≠ c + c / 2 + 1 := by omega
      have h2 : d + d / 2 + 1 ≠ c + c / 2 ∧ d + d / 2 + 1 ≠ c + c / 2 + 1 := by omega
      simp only [if_neg h1.1, if_neg h1.2, if_neg h2.1, if_neg h2.2]
    · have h1 : d + d / 2 ≠ c + c / 2 ∧ d + d / 2 ≠ c + c / 2 + 1 := by omega
      have h2 : d + d / 2 + 1 ≠ c + c / 2 + 1 := by omega
      simp only [if_neg h1.1, if_neg h1.2, if_neg h2, if_neg hdodd]
      by_cases hshare : d + d / 2 + 1 = c + c / 2
      · rw [if_pos hshare, hshare, Nat.mul_comm (v % 2 ^ 4), Nat.mul_add_mod, Nat.mod_mod]
      · rw [if_neg hshare]
  · simp only [if_neg hodd]
    by_cases hdodd : d % 2 = 1
    · have h1 : d + d / 2 ≠ c + c / 2 := by omega
      have h2 : d + d / 2 + 1 ≠ c + c / 2 ∧ d + d / 2 + 1 ≠ c + c / 2 + 1 := by omega
      simp only [if_neg h1, if_neg h2.1, if_neg h2.2, if_pos hdodd]
      by_cases hshare : d + d / 2 = c + c / 2 + 1
      · rw [if_pos hshare, ← hshare]
        omega
      · rw [if_neg hshare]
    · have h1 : d + d / 2 ≠ c + c / 2 ∧ d + d / 2 ≠ c + c / 2 + 1 := by omega
      have h2 : d + d / 2 + 1 ≠ c + c / 2 ∧ d + d / 2 + 1 ≠ c + c / 2 + 1 := by omega
      simp only [if_neg h1.1, if_neg h1.2, if_neg h2.1, if_neg h2.2]

theorem fat16_all (drv : Dmd) (fat fat' : Sectors) (c v d : Nat) (hty : drv.ftype = .fat16)
    (hb : ∀ j, byteAt drv fat' j = stored drv fat c v j) :
    entry drv fat' d = if d = c then v % 2 ^ 16 else entry drv fat d := by
  simp only [entry, hb, stored, hty, entryOff]
  by_cases hd : d = c
  · rw [if_pos hd, if_pos (by omega), if_neg (by omega), if_pos (by omega)]
    omega
  · rw [if_neg hd, if_neg (by omega), if_neg (by omega), if_neg (by omega), if_neg (by omega)]

theorem long_value (v : Nat) :
    (v % 2 ^ 8 + 2 ^ 8 * (v / 2 ^ 8 % 2 ^ 8) + 2 ^ 16 * (v / 2 ^ 16 % 2 ^ 8)
      + 2 ^ 24 * (v % 2 ^ 28 / 2 ^ 24)) % 2 ^ 28 = v % 2 ^ 28 := by
  rcases low_bytes v with ⟨l0, l1, l2⟩
  rcases long_digits (v % 2 ^ 28) (Nat.mod_lt _ (by omega)) with ⟨a, b, x, d, ha, hb, hx, hd, hv⟩
  rcases bytes_long a b x d hb hx hd with ⟨e3, e2, e1, e0⟩
  have hlt : v % 2 ^ 28 < 2 ^ 28 := Nat.mod_lt _ (by omega)
  rw [← l0, ← l1, ← l2, hv, e0, e1, e2, e3]
  rw [hv] at hlt
  omega

theorem fat32_all (drv : Dmd) (fat fat' : Sectors) (c v d : Nat) (hty : drv.ftype = .fat32)
    (hb : ∀ j, byteAt drv fat' j = stored drv fat c v j) :
    entry drv fat' d = if d = c then v % 2 ^ 28 else entry drv fat d := by
  simp only [stored, hty, entryOff] at hb
  by_cases hd : d = c
  · simp only [entry, hty, hb, entryOff]
    rw [if_pos hd, hd]
    simp only [if_true, if_neg (Nat.succ_ne_self (4 * c))]
    rw [if_neg (by omega), if_neg (by omega), if_neg (by omega), if_neg (by omega),
      if_neg (by omega)]
    exact long_value v
  · have hsame : ∀ i < 4, byteAt drv fat' (4 * d + i) = byteAt drv fat (4 * d + i) := fun i hi => by
      rw [hb, if_neg (by omega), if_neg (by omega), if_neg (by omega), if_neg (by omega)]
    have h0 := hsame 0 (by omega)
    rw [Nat.add_zero] at h0
    simp only [entry, hty, entryOff, h0, hsame 1 (by omega), hsame 2 (by omega),
      hsame 3 (by omega), if_neg hd]

/-- Writing sets one entry, and leaves all others as they were. -/
theorem fatWrite_entry (drv : Dmd) (geo : Geometry drv) (io : Nat → Option Int) (fat fat' : Sectors)
    (c v : Nat) (hc : InFat drv c) (hw : fatWrite drv io fat c v = (fat', none)) :
    entryIo drv io c = none ∧
      ∀ d, entry drv fat' d = if d = c then reduce drv.ftype v else entry drv fat d := by
  rcases fatWrite_bytes drv geo io fat fat' c v hc hw with ⟨hio, hb⟩
  refine ⟨hio, fun d => ?_⟩
  cases hty : drv.ftype with
  | fat12 =>
    by_cases hd : d = c
    · rw [if_pos hd, hd]
      exact fat12_same drv fat fat' c v hty hb
    · rw [if_neg hd]
      exact fat12_other drv fat fat' c v d hty hb hd
  | fat16 => exact fat16_all drv fat fat' c v d hty hb
  | fat32 => exact fat32_all drv fat fat' c v d hty hb

/-- A written entry is read back, an end mark as the end of the chain, and every
    other entry is read as before. -/
theorem fat_roundtrip (drv : Dmd) (geo : Geometry drv) (io : Nat → Option Int) (fat fat' : Sectors)
    (c v : Nat) (hc : InFat drv c) (hw : fatWrite drv io fat c v = (fat', none)) :
    fatRead drv io fat' c = .ok (linkOf drv.ftype (reduce drv.ftype v)) ∧
      ∀ d, InFat drv d → d ≠ c → fatRead drv io fat' d = fatRead drv io fat d := by
  rcases fatWrite_entry drv geo io fat fat' c v hc hw with ⟨hio, hentry⟩
  refine ⟨?_, fun d hd hne => ?_⟩
  · rw [fatRead_eq drv geo io fat' c hc, hio, hentry, if_pos rfl]
  · rw [fatRead_eq drv geo io fat' d hd, fatRead_eq drv geo io fat d hd, hentry, if_neg hne]

/-- A drive with a twelve bit FAT of two sectors of 512 bytes. -/
def floppy : Dmd := ⟨.fat12, 9, 511, 2⟩

theorem floppy_geometry : Geometry floppy :=
  ⟨by decide, by decide, fun h => absurd rfl h, by decide⟩

/-- The entry 341 has its first half at the end of the first sector and its second
    byte in the next. -/
theorem fat_roundtrip_straddle :
    ∃ fat', fatWrite floppy (fun _ => none) (fun _ _ => 0xff) 341 0x123 = (fat', none) ∧
      fatRead floppy (fun _ => none) fat' 341 = .ok 0x123 ∧
      ∀ d, InFat floppy d → d ≠ 341 →
        fatRead floppy (fun _ => none) fat' d = fatRead floppy (fun _ => none)
          (fun _ _ => 0xff) d :=
  have h := fat_roundtrip floppy floppy_geometry (fun _ => none) (fun _ _ => 0xff) _ 341 0x123
    (by decide) rfl
  ⟨_, rfl, h.1, h.2⟩

end Fat

end MagiC
