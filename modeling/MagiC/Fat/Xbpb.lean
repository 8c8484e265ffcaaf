import MagiC.Fat.Codec

/-!
# The Length of a FAT

What `check_xbpb` tests before a medium is mounted, and what the accessors rely on.

The test takes clusters off, two at a time, until the entry of the last cluster begins inside the
FAT. It compares an offset of one and a half bytes for each cluster of a twelve bit FAT, and of two
bytes for each cluster of any other FAT, whereas `FAT_read` and `FAT_write` use four bytes for each
cluster of a 32 bit FAT. Nor does the test look at the end of an entry: a twelve bit entry may begin
in the last byte of the FAT.

## Main definitions

* `Inside`: All accesses to the FAT of a medium stay in it.

## Theorems

* `long_enough_iff`: The accesses to all clusters of a medium that passes the test.
-/

namespace MagiC

namespace Fat

def EDRIVE : Int := -46

/-- The parameters of a medium: the bytes in a sector, the sectors in a FAT, the number of
    clusters, the kind of FAT and the number of FATs. The logarithm of the sector size is
    taken later, so it is a power of two. -/
structure Xbpb where
  recsiz : Nat
  fsiz : Nat
  numcl : Nat
  ftype : FatType
  nfats : Nat
  power : ∃ k < 16, recsiz = 2 ^ k

/-- The byte at which `check_xbpb` takes the entry of a cluster to begin. -/
def cbpbOff (ftype : FatType) (d1 : Nat) : Nat :=
  match ftype with
  | .fat12 => (d1 + d1 / 2) % 2 ^ 32
  | .fat16 | .fat32 => (d1 + d1) % 2 ^ 32

/-- `cbpb_loop`: the number of clusters that a FAT of `d0` bytes has room for. -/
def cbpbLoop (ftype : FatType) (d0 : Nat) : Nat → Option Nat
  | 0 => none
  | 1 => if cbpbOff ftype 2 < d0 then some 1 else none
  | numcl + 2 => if cbpbOff ftype (numcl + 3) < d0 then some (numcl + 2)
    else cbpbLoop ftype d0 numcl

/-- `check_xbpb`, with the parameters it leaves. -/
def checkXbpb (b : Xbpb) : Except Int Xbpb :=
  if 2 < b.nfats then .error EDRIVE
  else
    match cbpbLoop b.ftype (b.fsiz * b.recsiz % 2 ^ 32) b.numcl with
    | none => .error EDRIVE
    | some numcl => .ok { b with numcl := numcl }

/-- `il2_loop`: count the shifts until the word is 0. -/
def il2Loop : Nat → Nat → Nat → Nat
  | 0, _, d0 => d0
  | fuel + 1, d1, d0 => if d1 = 0 then d0 else il2Loop fuel (d1 / 2) (d0 + 1)

/-- `ilog2`, of a word. -/
def ilog2 (i : Nat) : Nat := (il2Loop 16 i 0 + (2 ^ 16 - 1)) % 2 ^ 16

def fMasks : List Nat :=
  [0, 1, 3, 7, 0xf, 0x1f, 0x3f, 0x7f, 0xff, 0x1ff, 0x3ff, 0x7ff, 0xfff, 0x1fff, 0x3fff, 0x7fff]

/-- What `drv_open` enters for the accesses to the FAT. -/
def drvOpen (b : Xbpb) : Dmd where
  ftype := b.ftype
  lrecsiz := ilog2 b.recsiz
  mrecsiz := fMasks.getD (ilog2 b.recsiz) 0
  fsiz := b.fsiz

/-- The sector and the offset of each byte that `FAT_read` and `FAT_write` access. -/
def accessed (drv : Dmd) (cluster : Nat) : List (Nat × Nat) :=
  let d1 := byteOffset drv.ftype cluster
  let d5 := d1 % 2 ^ 16 &&& drv.mrecsiz
  let d6 := d1 >>> drv.lrecsiz
  match drv.ftype with
  | .fat32 => [(d6, d5), (d6, d5 + 1), (d6, d5 + 2), (d6, d5 + 3)]
  | .fat16 => [(d6, d5), (d6, d5 + 1)]
  | .fat12 => [(d6, d5), if d5 < drv.mrecsiz then (d6, d5 + 1) else (d6 + 1, 0)]

/-- All bytes that are accessed for the clusters of a medium lie in the sectors of its FAT. -/
def Inside (b : Xbpb) : Prop :=
  ∀ c, 2 ≤ c → c ≤ b.numcl + 1 →
    ∀ p ∈ accessed (drvOpen b) c, p.1 < b.fsiz ∧ p.2 < b.recsiz

/-- The FAT has the whole entry of each cluster that is left by `check_xbpb`. -/
def LongEnough (b : Xbpb) : Prop :=
  let bytes := b.fsiz * b.recsiz
  match b.ftype with
  | .fat12 => bytes % 3 = 0 ∨ b.numcl + 1 < (2 * bytes - 1) / 3 ∨
      (b.numcl + 1) % 2 ≠ (2 * bytes - 1) / 3 % 2
  | .fat16 => 2 ≤ b.recsiz
  | .fat32 => 4 ≤ b.recsiz ∧ 4 * (b.numcl + 2) ≤ bytes

instance (b : Xbpb) : Decidable (LongEnough b) := by
  unfold LongEnough
  cases b.ftype <;> infer_instance

theorem ilog2_pow (k : Nat) (hk : k < 16) :
    ilog2 (2 ^ k) = k ∧ fMasks.getD k 0 = 2 ^ k - 1 := by
  have h : ∀ k : Fin 16, ilog2 (2 ^ k.val) = k.val ∧ fMasks.getD k.val 0 = 2 ^ k.val - 1 := by
    decide
  exact h ⟨k, hk⟩

/-- Clusters are taken off in pairs, until the entry of the last one begins in the FAT. -/
theorem cbpbLoop_spec (ftype : FatType) (d0 numcl m : Nat)
    (h : cbpbLoop ftype d0 numcl = some m) :
    0 < m ∧ m ≤ numcl ∧ m % 2 = numcl % 2 ∧ cbpbOff ftype (m + 1) < d0 ∧
      (m ≠ numcl → d0 ≤ cbpbOff ftype (m + 3)) := by
  induction numcl using Nat.twoStepInduction with
  | zero => exact absurd h (by simp only [cbpbLoop, reduceCtorEq, not_false_eq_true])
  | one =>
    unfold cbpbLoop at h
    split at h
    · rename_i hfit
      rcases Option.some.inj h with rfl
      exact ⟨by omega, Nat.le_refl _, rfl, hfit, fun hne => absurd rfl hne⟩
    · exact absurd h (by simp only [reduceCtorEq, not_false_eq_true])
  | more numcl ih _ =>
    unfold cbpbLoop at h
    split at h
    · rename_i hfit
      rcases Option.some.inj h with rfl
      exact ⟨by omega, Nat.le_refl _, rfl, hfit, fun hne => absurd rfl hne⟩
    · rename_i hfit
      rcases ih h with ⟨hpos, hle, hpar, hoff, hnext⟩
      refine ⟨hpos, by omega, by omega, hoff, fun _ => ?_⟩
      -- The pair before is the one that was found not to fit.
      by_cases hm : m = numcl
      · rw [hm]
        exact Nat.le_of_not_lt hfit
      · exact hnext hm

section

variable (drv : Dmd)

/-- `FAT_read` depends on the bytes it accesses only. -/
theorem fatRead_accessed (io : Nat → Option Int) (fat fat' : Sectors) (c : Nat)
    (h : ∀ p ∈ accessed drv c, fat' p.1 p.2 = fat p.1 p.2) :
    fatRead drv io fat' c = fatRead drv io fat c := by
  unfold fatRead
  unfold accessed at h
  cases hty : drv.ftype with
  | fat12 =>
    simp only [hty, List.forall_mem_cons] at h ⊢
    rcases h with ⟨h0, h1, _⟩
    split
    · rfl
    · rw [h0]
      split at h1
      · rename_i hin
        rw [if_pos hin, if_pos hin, h1]
      · rename_i hin
        rw [if_neg hin, if_neg hin, h1]
  | fat16 =>
    simp only [hty, List.forall_mem_cons] at h ⊢
    rcases h with ⟨h0, h1, _⟩
    simp only [getWord, h0, h1]
    split
    · rfl
    · rfl
  | fat32 =>
    simp only [hty, List.forall_mem_cons] at h ⊢
    rcases h with ⟨h0, h1, h2, h3, _⟩
    simp only [getLong, getWord, h0, h1, h2, h3]
    split
    · rfl
    · rfl

theorem putByte_other (fat : Sectors) (n off b : Nat) (p : Nat × Nat) (hp : p ≠ (n, off)) :
    putByte fat n off b p.1 p.2 = fat p.1 p.2 := by
  unfold putByte
  by_cases hn : p.1 = n
  · have hoff : p.2 ≠ off := fun hoff => hp (Prod.ext hn hoff)
    rw [if_pos hn, Function.update_of_ne hoff, hn]
  · rw [if_neg hn]

/-- `FAT_write` changes no other bytes. -/
theorem fatWrite_accessed (io : Nat → Option Int) (fat : Sectors) (c v : Nat) (p : Nat × Nat)
    (h : p ∉ accessed drv c) : (fatWrite drv io fat c v).1 p.1 p.2 = fat p.1 p.2 := by
  unfold fatWrite
  unfold accessed at h
  simp only
  split
  · rfl
  · cases hty : drv.ftype with
    | fat12 =>
      simp only [hty, List.mem_cons, List.not_mem_nil, or_false, not_or] at h
      rcases h with ⟨h0, h1⟩
      have hfirst : ∀ odd f d4, ftwFirst odd f (byteOffset .fat12 c >>> drv.lrecsiz)
          (byteOffset .fat12 c % 2 ^ 16 &&& drv.mrecsiz) d4 p.1 p.2 = f p.1 p.2 := by
        intro odd f d4
        unfold ftwFirst
        cases odd
        · exact putByte_other f _ _ _ p h0
        · exact putByte_other f _ _ _ p h0
      have hsecond : ∀ odd f n off d4, p ≠ (n, off) →
          ftwInBuffer odd f n off d4 p.1 p.2 = f p.1 p.2 := by
        intro odd f n off d4 hp
        unfold ftwInBuffer
        cases odd
        · exact putByte_other f _ _ _ p hp
        · exact putByte_other f _ _ _ p hp
      simp only [ftwSecond]
      split at h1
      · rename_i hin
        rw [if_pos hin]
        exact (hsecond _ _ _ _ _ h1).trans (hfirst _ _ _)
      · rename_i hin
        rw [if_neg hin]
        split
        · exact hfirst _ _ _
        · exact (hsecond _ _ _ _ _ h1).trans (hfirst _ _ _)
    | fat16 =>
      simp only [hty, List.mem_cons, List.not_mem_nil, or_false, not_or] at h
      simp only [putWord]
      rw [putByte_other _ _ _ _ p h.2, putByte_other _ _ _ _ p h.1]
    | fat32 =>
      simp only [hty, List.mem_cons, List.not_mem_nil, or_false, not_or] at h
      rcases h with ⟨h0, h1, h2, h3⟩
      simp only [putLong, putWord]
      rw [putByte_other _ _ _ _ p h3, putByte_other _ _ _ _ p h2, putByte_other _ _ _ _ p h1,
        putByte_other _ _ _ _ p h0]

theorem run_inside (k n s fsiz : Nat) (hn : 0 < n) (hfit : k % s + n ≤ s) :
    k / s < fsiz ↔ k + n ≤ fsiz * s := by
  have hs : 0 < s := by omega
  rcases same_sector k (n - 1) s hs (by omega) with ⟨hsec, _⟩
  rw [← hsec, Nat.div_lt_iff_lt_mul hs]
  omega

theorem access_regs (hmask : drv.mrecsiz = 2 ^ drv.lrecsiz - 1) (hword : drv.lrecsiz < 16) (c : Nat)
    (hlong : entryOff drv.ftype c + 4 ≤ 2 ^ 32) :
    byteOffset drv.ftype c % 2 ^ 16 &&& drv.mrecsiz = entryOff drv.ftype c % 2 ^ drv.lrecsiz ∧
      byteOffset drv.ftype c >>> drv.lrecsiz = entryOff drv.ftype c / 2 ^ drv.lrecsiz := by
  have hoff : byteOffset drv.ftype c = entryOff drv.ftype c := by
    cases hty : drv.ftype with
    | fat12 =>
      simp only [hty, entryOff, byteOffset] at hlong ⊢
      omega
    | fat16 =>
      simp only [hty, entryOff, byteOffset] at hlong ⊢
      omega
    | fat32 =>
      simp only [hty, entryOff, byteOffset] at hlong ⊢
      omega
  -- The mask does not depend on the kind of FAT, nor on its length.
  have geo : Geometry { drv with ftype := .fat12, fsiz := 0 } :=
    ⟨hmask, hword, fun h => absurd rfl h, by simp only [Nat.zero_mul, Nat.zero_le]⟩
  rw [hoff, Nat.shiftRight_eq_div_pow]
  exact ⟨mask_eq _ geo _, rfl⟩

/-- The bytes of an entry are inside the FAT if the entry lies in it, and no word or longword
    is larger than a sector. -/
theorem accessed_inside_iff (hmask : drv.mrecsiz = 2 ^ drv.lrecsiz - 1) (hword : drv.lrecsiz < 16)
    (c : Nat) (hlong : entryOff drv.ftype c + 4 ≤ 2 ^ 32) :
    (∀ p ∈ accessed drv c, p.1 < drv.fsiz ∧ p.2 < 2 ^ drv.lrecsiz) ↔
      InFat drv c ∧ (drv.ftype ≠ .fat12 → entrySize drv.ftype ≤ 2 ^ drv.lrecsiz) := by
  rcases access_regs drv hmask hword c hlong with ⟨hd5, hd6⟩
  have hs : 0 < 2 ^ drv.lrecsiz := Nat.two_pow_pos _
  have hmod := Nat.mod_lt (entryOff drv.ftype c) hs
  unfold accessed InFat
  simp only [hd5, hd6]
  simp only [hmask]
  cases hty : drv.ftype with
  | fat12 =>
    simp only [hty, List.forall_mem_cons, entrySize] at hmod ⊢
    split
    · rename_i hin
      rw [← run_inside _ 2 _ _ (by decide) (by omega)]
      exact ⟨fun h => ⟨h.1.1, fun hne => absurd rfl hne⟩,
        fun h => ⟨⟨h.1, hmod⟩, ⟨h.1, by omega⟩, List.forall_mem_nil _⟩⟩
    · -- The second byte is the first one of the next sector.
      rename_i hin
      rcases next_sector (entryOff .fat12 c) _ hs (by omega) with ⟨hsec, hoff⟩
      have hnext := run_inside (entryOff .fat12 c + 1) 1 (2 ^ drv.lrecsiz) drv.fsiz
        (by decide) (by omega)
      rw [hsec, Nat.add_assoc] at hnext
      rw [← hnext]
      exact ⟨fun h => ⟨h.2.1.1, fun hne => absurd rfl hne⟩,
        fun h => ⟨⟨by omega, hmod⟩, ⟨h.1, hs⟩, List.forall_mem_nil _⟩⟩
  | fat16 =>
    simp only [hty, List.forall_mem_cons, entrySize] at hmod ⊢
    refine ⟨fun h => ?_, fun h => ?_⟩
    · have hfit : entryOff .fat16 c % 2 ^ drv.lrecsiz + 2 ≤ 2 ^ drv.lrecsiz := h.2.1.2
      exact ⟨(run_inside _ 2 _ _ (by decide) hfit).mp h.1.1, fun _ => by omega⟩
    · have hle : 2 ^ 1 ≤ 2 ^ drv.lrecsiz := h.2 (by decide)
      have hfit := whole_fits (entryOff .fat16 c) 1 drv.lrecsiz hle (Dvd.intro c rfl)
      have hsec := (run_inside _ 2 _ _ (by decide) hfit).mpr h.1
      exact ⟨⟨hsec, hmod⟩, ⟨hsec, by omega⟩, List.forall_mem_nil _⟩
  | fat32 =>
    simp only [hty, List.forall_mem_cons, entrySize] at hmod ⊢
    refine ⟨fun h => ?_, fun h => ?_⟩
    · have hfit : entryOff .fat32 c % 2 ^ drv.lrecsiz + 4 ≤ 2 ^ drv.lrecsiz := h.2.2.2.1.2
      exact ⟨(run_inside _ 4 _ _ (by decide) hfit).mp h.1.1, fun _ => by omega⟩
    · have hle : 2 ^ 2 ≤ 2 ^ drv.lrecsiz := h.2 (by decide)
      have hfit := whole_fits (entryOff .fat32 c) 2 drv.lrecsiz hle (Dvd.intro c rfl)
      have hsec := (run_inside _ 4 _ _ (by decide) hfit).mpr h.1
      exact ⟨⟨hsec, hmod⟩, ⟨hsec, by omega⟩, ⟨hsec, by omega⟩, ⟨hsec, by omega⟩,
        List.forall_mem_nil _⟩

end

theorem drvOpen_sector (b : Xbpb) :
    (drvOpen b).mrecsiz = 2 ^ (drvOpen b).lrecsiz - 1 ∧ (drvOpen b).lrecsiz < 16 ∧
      2 ^ (drvOpen b).lrecsiz = b.recsiz := by
  rcases b.power with ⟨k, hk, hpow⟩
  rcases ilog2_pow k hk with ⟨hlog, hmask⟩
  simp only [drvOpen, hpow, hlog]
  exact ⟨hmask, hk, trivial⟩

theorem inFat_of_le (drv : Dmd) (c l : Nat) (hle : c ≤ l) (h : InFat drv l) : InFat drv c := by
  unfold InFat at h ⊢
  cases hty : drv.ftype with
  | fat12 =>
    simp only [hty, entryOff] at h ⊢
    omega
  | fat16 =>
    simp only [hty, entryOff] at h ⊢
    omega
  | fat32 =>
    simp only [hty, entryOff] at h ⊢
    omega

theorem last_byte (bytes n m : Nat) (hpar : m % 2 = n % 2) (hoff : m + 1 + (m + 1) / 2 < bytes)
    (hle : m ≤ n) (hnext : m = n ∨ bytes ≤ m + 3 + (m + 3) / 2) :
    m + 1 + (m + 1) / 2 + 2 ≤ bytes ↔
      bytes % 3 = 0 ∨ n + 1 < (2 * bytes - 1) / 3 ∨ (n + 1) % 2 ≠ (2 * bytes - 1) / 3 % 2 := by
  -- Three bytes hold two entries.
  have hbytes : bytes = 3 * (bytes / 3) ∨ bytes = 3 * (bytes / 3) + 1 ∨
      bytes = 3 * (bytes / 3) + 2 := by omega
  generalize bytes / 3 = q at hbytes
  have hm : m = 2 * (m / 2) ∨ m = 2 * (m / 2) + 1 := by omega
  generalize m / 2 = j at hm
  rcases hbytes with rfl | rfl | rfl
  · rcases hm with rfl | rfl
    · omega
    · omega
  · have hlast : (2 * (3 * q + 1) - 1) / 3 = 2 * q := by omega
    rw [hlast]
    rcases hm with rfl | rfl
    · omega
    · omega
  · have hlast : (2 * (3 * q + 2) - 1) / 3 = 2 * q + 1 := by omega
    rw [hlast]
    rcases hm with rfl | rfl
    · omega
    · omega

theorem last_inFat_iff (b b' : Xbpb) (hlimit : b.numcl + 2 < endMark b.ftype)
    (hlong : b.fsiz * b.recsiz < 2 ^ 32) (h : checkXbpb b = .ok b') :
    (InFat (drvOpen b') (b'.numcl + 1) ∧
      (b.ftype ≠ .fat12 → entrySize b.ftype ≤ b.recsiz)) ↔ LongEnough b := by
  unfold checkXbpb at h
  split at h
  · exact absurd h (by simp only [reduceCtorEq, not_false_eq_true])
  cases hloop : cbpbLoop b.ftype (b.fsiz * b.recsiz % 2 ^ 32) b.numcl with
  | none =>
    rw [hloop] at h
    exact absurd h (by simp only [reduceCtorEq, not_false_eq_true])
  | some m =>
    rw [hloop] at h
    rcases Except.ok.inj h with rfl
    rcases cbpbLoop_spec _ _ _ m hloop with ⟨hpos, hle, hpar, hoff, hnext⟩
    rw [Nat.mod_eq_of_lt hlong] at hoff hnext
    have hsize := (drvOpen_sector { b with numcl := m }).2.2
    unfold InFat LongEnough
    simp only at hsize
    rw [hsize]
    have hfsiz : (drvOpen { b with numcl := m }).fsiz = b.fsiz := rfl
    have hftype : (drvOpen { b with numcl := m }).ftype = b.ftype := rfl
    rw [hfsiz, hftype]
    rcases b.power with ⟨k, -, hpow⟩
    generalize hbytes : b.fsiz * b.recsiz = bytes at hlong hoff hnext ⊢
    cases hty : b.ftype with
    | fat12 =>
      simp only [hty, cbpbOff, entryOff, entrySize, endMark] at hlimit hoff hnext ⊢
      have hm : m < 2 ^ 12 := by omega
      rw [Nat.mod_eq_of_lt (by omega)] at hoff
      have hnext' : m = b.numcl ∨ bytes ≤ m + 3 + (m + 3) / 2 := by
        by_cases heq : m = b.numcl
        · exact .inl heq
        · have hbehind := hnext heq
          rw [Nat.mod_eq_of_lt (by omega)] at hbehind
          exact .inr hbehind
      have hlast := last_byte bytes b.numcl m hpar hoff hle hnext'
      rw [hlast]
      exact ⟨fun h => h.1, fun h => ⟨h, fun hne => absurd rfl hne⟩⟩
    | fat16 =>
      simp only [hty, cbpbOff, entryOff, entrySize, endMark] at hlimit hoff hnext ⊢
      refine ⟨fun h => h.2 (by decide), fun h => ⟨?_, fun _ => h⟩⟩
      -- The number of bytes is even, as sectors have more than one.
      have heven : bytes % 2 = 0 := by
        cases k with
        | zero =>
          rw [hpow] at h
          exact absurd h (by decide)
        | succ k =>
          rw [← hbytes, hpow, Nat.pow_succ, ← Nat.mul_assoc]
          exact Nat.mul_mod_left _ 2
      omega
    | fat32 =>
      simp only [hty, cbpbOff, entryOff, entrySize, endMark] at hlimit hoff hnext ⊢
      by_cases hm : m = b.numcl
      · rw [hm]
        exact ⟨fun h => ⟨h.2 (by decide), by omega⟩, fun h => ⟨by omega, fun _ => h.1⟩⟩
      · -- With two bytes for each cluster at most, there are not four for each.
        have := hnext hm
        exact ⟨fun h => absurd h.1 (by omega), fun h => absurd h.2 (by omega)⟩

theorem checkXbpb_keeps (b b' : Xbpb) (h : checkXbpb b = .ok b') :
    0 < b'.numcl ∧ b'.numcl ≤ b.numcl ∧ b'.fsiz = b.fsiz ∧ b'.recsiz = b.recsiz ∧
      b'.ftype = b.ftype := by
  unfold checkXbpb at h
  split at h
  · exact absurd h (by simp only [reduceCtorEq, not_false_eq_true])
  cases hloop : cbpbLoop b.ftype (b.fsiz * b.recsiz % 2 ^ 32) b.numcl with
  | none =>
    rw [hloop] at h
    exact absurd h (by simp only [reduceCtorEq, not_false_eq_true])
  | some m =>
    rw [hloop] at h
    rcases Except.ok.inj h with rfl
    rcases cbpbLoop_spec _ _ _ m hloop with ⟨hpos, hle, -⟩
    exact ⟨hpos, hle, rfl, rfl, rfl⟩

theorem checkXbpb_fits (b : Xbpb) (hnfats : b.nfats ≤ 2) (hpos : 0 < b.numcl)
    (hoff : cbpbOff b.ftype (b.numcl + 1) < b.fsiz * b.recsiz % 2 ^ 32) : checkXbpb b = .ok b := by
  have hloop : cbpbLoop b.ftype (b.fsiz * b.recsiz % 2 ^ 32) b.numcl = some b.numcl := by
    generalize b.numcl = n at hpos hoff
    cases n with
    | zero => exact absurd hpos (Nat.lt_irrefl 0)
    | succ n =>
      cases n with
      | zero => exact if_pos hoff
      | succ n => exact if_pos hoff
  unfold checkXbpb
  rw [if_neg (by omega), hloop]

/-- All bytes that are accessed for the clusters of a medium that has passed the test are in
    its FAT if and only if the FAT is long enough. -/
theorem long_enough_iff (b b' : Xbpb) (hlimit : b.numcl + 2 < endMark b.ftype)
    (hlong : b.fsiz * b.recsiz < 2 ^ 32) (h : checkXbpb b = .ok b') :
    Inside b' ↔ LongEnough b := by
  rw [← last_inFat_iff b b' hlimit hlong h]
  rcases checkXbpb_keeps b b' h with ⟨hpos, hle, hfsiz, hrecsiz, hftype⟩
  rcases drvOpen_sector b' with ⟨hmask, hword, hsize⟩
  have hshort : ∀ c ≤ b'.numcl + 1, entryOff (drvOpen b').ftype c + 4 ≤ 2 ^ 32 := by
    intro c hc
    have hty : (drvOpen b').ftype = b.ftype := hftype
    rw [hty]
    cases hb : b.ftype with
    | fat12 =>
      simp only [hb, endMark, entryOff] at hlimit ⊢
      omega
    | fat16 =>
      simp only [hb, endMark, entryOff] at hlimit ⊢
      omega
    | fat32 =>
      simp only [hb, endMark, entryOff] at hlimit ⊢
      omega
  have hiff := fun c hc => accessed_inside_iff (drvOpen b') hmask hword c (hshort c hc)
  have hfs : (drvOpen b').fsiz = b'.fsiz := rfl
  have hty : (drvOpen b').ftype = b.ftype := hftype
  rw [hfs, hsize, hrecsiz, hty] at hiff
  unfold Inside
  rw [hrecsiz]
  refine ⟨fun hall => (hiff _ (Nat.le_refl _)).mp (hall _ (by omega) (Nat.le_refl _)), ?_⟩
  -- The entries of the clusters before the last one lie in the FAT as well.
  rintro ⟨hin, hwhole⟩ c - hc
  exact (hiff c hc).mpr ⟨inFat_of_le _ c _ hc hin, hwhole⟩

/-- A medium with two FATs of one sector each. -/
def oneSector (numcl : Nat) (ftype : FatType) : Xbpb where
  recsiz := 512
  fsiz := 1
  numcl := numcl
  ftype := ftype
  nfats := 2
  power := ⟨9, by decide, rfl⟩

/-- The clusters of a medium that need all of a FAT of words. -/
theorem long_enough_words : Inside (oneSector 254 .fat16) :=
  (long_enough_iff (oneSector 254 .fat16) _ (by decide) (by decide)
    (checkXbpb_fits _ (by decide) (by decide) (by decide))).mpr (by decide)

/-- A twelve bit FAT of one sector passes the test for 340 clusters, and the entry of the last one
    begins in the last byte of the sector. A 32 bit FAT of one sector passes it for 254 clusters,
    but has room for 126. -/
theorem fat_too_short :
    (checkXbpb (oneSector 340 .fat12) = .ok (oneSector 340 .fat12) ∧
      ¬ Inside (oneSector 340 .fat12)) ∧
      checkXbpb (oneSector 254 .fat32) = .ok (oneSector 254 .fat32) ∧
      ¬ Inside (oneSector 254 .fat32) := by
  refine ⟨⟨checkXbpb_fits _ (by decide) (by decide) (by decide), fun hin => ?_⟩,
    checkXbpb_fits _ (by decide) (by decide) (by decide), fun hin => ?_⟩
  · exact absurd (hin 341 (by decide) (by decide) (1, 0) (by decide)).1 (by decide)
  · exact absurd (hin 128 (by decide) (by decide) (1, 0) (by decide)).1 (by decide)

end Fat

end MagiC
