import MagiC.Fat.Volume

/-!
# What the Searches Find

The search for a free cluster tries every cluster once, in a circle, wherever it
begins. So it finds one if there is one, and the count counts all.

The two ways of searching are brought together in `fexReserve_cases`, and what
`f_extend` does in `fExtend_cases`. Everything that follows is derived from these
and from what a write does to the table: `Entered` sets an entry, and `Freed` clears
it.

## Main definitions

* `freeCount`: The number of free clusters.

## Theorems

* `fexReserve_cases`: A free cluster is marked, or there is none.
-/

namespace MagiC

namespace Fat

/-- A drive as it is mounted. A sector holds the entries of the first clusters, all
    entries lie in the FAT, and no cluster has the number of an end mark. -/
structure DriveOk (d : Drive) : Prop where
  geo : Geometry d.toDmd
  recsiz : d.recsiz = 2 ^ d.lrecsiz
  sector : 4 ≤ d.lrecsiz
  clusters : 2 < d.numcl
  inFat : ∀ c < d.numcl, InFat d.toDmd c
  marks : d.numcl ≤ endMark d.ftype
  cluster : 0 < d.clsiz

def IsCluster (d : Drive) (c : Nat) : Prop := 2 ≤ c ∧ c < d.numcl

/-- The `i`th cluster from `c` on, in a circle. -/
def turn (d : Drive) (c i : Nat) : Nat := 2 + (c - 2 + i) % (d.numcl - 2)

def searchStart (d : Drive) (firstcl : Nat) : Nat :=
  if 2 ≤ firstcl ∧ firstcl < d.numcl then firstcl else 2

def freeCount (d : Drive) (fat : Sectors) : Nat :=
  (List.range' 2 (d.numcl - 2)).countP fun c => decide (rawEntry d.toDmd fat c = 0)

/-- The entry of `c` is set to link to `x`. -/
structure Entered (drv : Dmd) (fat fat' : Sectors) (c x : Nat) : Prop where
  link : link drv fat' = Function.update (link drv fat) c x
  free : ∀ b, rawEntry drv fat' b = 0 ↔ b ≠ c ∧ rawEntry drv fat b = 0

/-- The entry of `c` is cleared. -/
structure Freed (drv : Dmd) (fat fat' : Sectors) (c : Nat) : Prop where
  link : link drv fat' = Function.update (link drv fat) c 0
  free : ∀ b, rawEntry drv fat' b = 0 ↔ b = c ∨ rawEntry drv fat b = 0

section

variable {d : Drive} (ok : DriveOk d)
include ok

theorem cluster_ne_EOF (c : Nat) (hc : IsCluster d c) : c ≠ EOF ∧ c ≠ 0 := by
  have hmarks := ok.marks
  have hlt : endMark d.ftype < EOF := by
    cases d.ftype
    · decide
    · decide
    · decide
  rcases hc with ⟨h2, hc⟩
  exact ⟨by omega, by omega⟩

theorem entered_cluster (fat : Sectors) (c x : Nat) (hc : IsCluster d c) (hx : IsCluster d x) :
    Entered d.toDmd fat (writeFat d.toDmd fat c x) c x := by
  have hin := ok.inFat c hc.2
  rcases linkOf_cluster d.ftype x (Nat.lt_of_lt_of_le hx.2 ok.marks) with ⟨hlink, hred⟩
  refine ⟨?_, fun b => ?_⟩
  · rw [link_writeFat d.toDmd fat ok.geo c x hin, hlink]
  · rw [rawEntry_writeFat d.toDmd fat ok.geo c x hin b, hred]
    split
    · rename_i hb
      have hx2 := hx.1
      exact ⟨fun h => absurd h (by omega), fun h => absurd hb h.1⟩
    · rename_i hb
      exact ⟨fun h => ⟨hb, h⟩, fun h => h.2⟩

theorem entered_EOF (fat : Sectors) (c : Nat) (hc : IsCluster d c) :
    Entered d.toDmd fat (writeFat d.toDmd fat c EOF) c EOF := by
  have hin := ok.inFat c hc.2
  rcases linkOf_EOF d.ftype with ⟨hlink, hred⟩
  refine ⟨?_, fun b => ?_⟩
  · rw [link_writeFat d.toDmd fat ok.geo c EOF hin, hlink]
  · rw [rawEntry_writeFat d.toDmd fat ok.geo c EOF hin b]
    split
    · rename_i hb
      exact ⟨fun h => absurd h hred, fun h => absurd hb h.1⟩
    · rename_i hb
      exact ⟨fun h => ⟨hb, h⟩, fun h => h.2⟩

theorem freed_write (fat : Sectors) (c : Nat) (hc : IsCluster d c) :
    Freed d.toDmd fat (writeFat d.toDmd fat c 0) c := by
  have hin := ok.inFat c hc.2
  rcases linkOf_cluster d.ftype 0 (endMark_pos _) with ⟨hlink, hred⟩
  refine ⟨?_, fun b => ?_⟩
  · rw [link_writeFat d.toDmd fat ok.geo c 0 hin, hlink]
  · rw [rawEntry_writeFat d.toDmd fat ok.geo c 0 hin b, hred]
    split
    · rename_i hb
      exact ⟨fun _ => .inl hb, fun _ => rfl⟩
    · rename_i hb
      exact ⟨fun h => .inr h, fun h => h.resolve_left hb⟩

omit ok in
theorem entered_markAt (fat : Sectors) (c n off : Nat) (hty : d.ftype ≠ .fat12)
    (h : EntryAt d.toDmd c n off) :
    Entered d.toDmd fat (markAt d.toDmd fat n off) c EOF := by
  refine ⟨link_markAt fat hty h, fun b => ?_⟩
  rw [rawEntry_markAt fat hty h b]
  split
  · rename_i hb
    exact ⟨fun h => absurd h (markBits_pos _), fun h => absurd hb h.1⟩
  · rename_i hb
    exact ⟨fun h => ⟨hb, h⟩, fun h => h.2⟩

theorem entryAt_two (hty : d.ftype ≠ .fat12) : EntryAt d.toDmd 2 0 (2 * entrySize d.ftype) := by
  have hsector : 2 ^ 4 ≤ 2 ^ d.lrecsiz := Nat.pow_le_pow_right (by decide) ok.sector
  cases hft : d.ftype with
  | fat12 => exact absurd hft hty
  | fat16 =>
    refine ⟨?_, ?_⟩
    · simp only [hft, entrySize]
      omega
    · simp only [hft, entrySize, entryOff]
      omega
  | fat32 =>
    refine ⟨?_, ?_⟩
    · simp only [hft, entrySize]
      omega
    · simp only [hft, entrySize, entryOff]
      omega

theorem entryAt_succ (hty : d.ftype ≠ .fat12) (c n off : Nat) (h : EntryAt d.toDmd c n off) :
    if off + entrySize d.ftype < d.recsiz then EntryAt d.toDmd (c + 1) n (off + entrySize d.ftype)
    else EntryAt d.toDmd (c + 1) (n + 1) 0 := by
  rcases h with ⟨hfits, heq⟩
  have hwhole := ok.geo.whole hty
  have hnext : entryOff d.ftype (c + 1) = entryOff d.ftype c + entrySize d.ftype := by
    cases hft : d.ftype with
    | fat12 => exact absurd hft hty
    | fat16 => rfl
    | fat32 => rfl
  rw [ok.recsiz]
  split
  · rename_i hlt
    refine ⟨?_, by rw [hnext]; omega⟩
    -- Whole entries fill a sector.
    have hsize : ∃ s, entrySize d.ftype = 2 ^ s ∧ 2 ^ s ∣ entryOff d.ftype c := by
      cases hft : d.ftype with
      | fat12 => exact absurd hft hty
      | fat16 => exact ⟨1, rfl, Dvd.intro c rfl⟩
      | fat32 => exact ⟨2, rfl, Dvd.intro c rfl⟩
    rcases hsize with ⟨s, hs, hdvd⟩
    have hfit := whole_fits (entryOff d.ftype c + 2 ^ s) s d.lrecsiz (hs ▸ hwhole)
      (Nat.dvd_add hdvd (Nat.dvd_refl _))
    have hmod : (entryOff d.ftype c + 2 ^ s) % 2 ^ d.lrecsiz = off + 2 ^ s := by
      rw [← heq, Nat.add_assoc, Nat.mul_comm, Nat.mul_add_mod, ← hs, Nat.mod_eq_of_lt hlt]
    rw [hmod] at hfit
    rw [hs]
    exact hfit
  · refine ⟨by rw [Nat.zero_add]; exact hwhole, ?_⟩
    rw [hnext, Nat.add_mul]
    omega

theorem entryAt_regs (hty : d.ftype ≠ .fat12) (c : Nat) (hc : IsCluster d c) :
    EntryAt d.toDmd c (byteOffset d.ftype c >>> d.lrecsiz)
      (byteOffset d.ftype c % 2 ^ 16 &&& d.mrecsiz) := by
  rcases offset_regs d.toDmd ok.geo c (ok.inFat c hc.2) with ⟨hoff, hsec⟩
  have hsize : ∃ s, entrySize d.ftype = 2 ^ s ∧ 2 ^ s ∣ entryOff d.ftype c := by
    cases hft : d.ftype with
    | fat12 => exact absurd hft hty
    | fat16 => exact ⟨1, rfl, Dvd.intro c rfl⟩
    | fat32 => exact ⟨2, rfl, Dvd.intro c rfl⟩
  rcases hsize with ⟨s, hs, hdvd⟩
  refine ⟨?_, ?_⟩
  · rw [hoff, hs]
    exact whole_fits _ s _ (hs ▸ ok.geo.whole hty) hdvd
  · rw [hoff, hsec, Nat.mul_comm, Nat.div_add_mod]

theorem turn_succ (c i : Nat) (hc : IsCluster d c) :
    turn d c (i + 1) = turn d (if d.numcl ≤ c + 1 then 2 else c + 1) i := by
  have hn := ok.clusters
  rcases hc with ⟨h2, hc⟩
  unfold turn
  split
  · have heq : c - 2 + (i + 1) = d.numcl - 2 + i := by omega
    rw [heq, Nat.add_mod_left, Nat.sub_self, Nat.zero_add]
  · have heq : c - 2 + (i + 1) = c + 1 - 2 + i := by omega
    rw [heq]

omit ok in
theorem turn_zero (c : Nat) (hc : IsCluster d c) : turn d c 0 = c := by
  rcases hc with ⟨h2, hc⟩
  unfold turn
  rw [Nat.add_zero, Nat.mod_eq_of_lt (by omega)]
  omega

omit ok in
theorem turn_cluster (hn : 2 < d.numcl) (c i : Nat) : IsCluster d (turn d c i) := by
  have hlt : (c - 2 + i) % (d.numcl - 2) < d.numcl - 2 := Nat.mod_lt _ (by omega)
  unfold turn
  exact ⟨by omega, by omega⟩

theorem turn_surj (c b : Nat) (hb : IsCluster d b) : ∃ i < d.numcl - 2, turn d c i = b := by
  have hn := ok.clusters
  rcases hb with ⟨h2, hb⟩
  have hpos : 0 < d.numcl - 2 := by omega
  have hmod := Nat.mod_lt (c - 2) hpos
  refine ⟨(b - 2 + (d.numcl - 2 - (c - 2) % (d.numcl - 2))) % (d.numcl - 2), Nat.mod_lt _ hpos, ?_⟩
  unfold turn
  have heq : (c - 2 + (b - 2 + (d.numcl - 2 - (c - 2) % (d.numcl - 2))) % (d.numcl - 2))
      % (d.numcl - 2) = b - 2 := by
    rw [Nat.add_mod_mod, Nat.add_mod, Nat.add_mod_mod]
    have hsum : (c - 2) % (d.numcl - 2) + (b - 2 + (d.numcl - 2 - (c - 2) % (d.numcl - 2)))
        = b - 2 + (d.numcl - 2) := by omega
    rw [hsum, Nat.add_mod_right, Nat.mod_eq_of_lt (by omega)]
  rw [heq]
  omega

theorem ncLoop_next (hty : d.ftype ≠ .fat12) (fat : Sectors) (d7 d4 d6 a2 : Nat)
    (hc : IsCluster d d4) (hat : EntryAt d.toDmd d4 d6 a2)
    (hfull : ¬ freeAt d.toDmd fat d6 a2 = true) :
    ∃ n off, IsCluster d (if d.numcl ≤ d4 + 1 then 2 else d4 + 1) ∧
      EntryAt d.toDmd (if d.numcl ≤ d4 + 1 then 2 else d4 + 1) n off ∧
      ncLoop d fat (d7 + 1) d4 d6 a2 =
        ncLoop d fat d7 (if d.numcl ≤ d4 + 1 then 2 else d4 + 1) n off := by
  have hnext := entryAt_succ ok hty d4 d6 a2 hat
  rw [ncLoop, if_neg hfull]
  by_cases hlast : d.numcl ≤ d4 + 1
  · simp only [if_pos hlast]
    exact ⟨0, _, ⟨Nat.le_refl 2, ok.clusters⟩, entryAt_two ok hty, rfl⟩
  · simp only [if_neg hlast]
    have hc1 : IsCluster d (d4 + 1) := ⟨Nat.le_succ_of_le hc.1, by omega⟩
    by_cases hsec : a2 + entrySize d.ftype < d.recsiz
    · rw [if_pos hsec] at hnext ⊢
      exact ⟨d6, _, hc1, hnext, rfl⟩
    · rw [if_neg hsec] at hnext ⊢
      exact ⟨d6 + 1, 0, hc1, hnext, rfl⟩

/-- The search in the sectors finds the first free cluster of the circle. -/
theorem ncLoop_spec (hty : d.ftype ≠ .fat12) (fat : Sectors) (d7 d4 d6 a2 : Nat)
    (hc : IsCluster d d4) (hat : EntryAt d.toDmd d4 d6 a2) :
    (ncLoop d fat d7 d4 d6 a2 = none ∧ ∀ i < d7, rawEntry d.toDmd fat (turn d d4 i) ≠ 0) ∨
      ∃ i n off, i < d7 ∧ ncLoop d fat d7 d4 d6 a2 = some (turn d d4 i, n, off) ∧
        rawEntry d.toDmd fat (turn d d4 i) = 0 ∧ EntryAt d.toDmd (turn d d4 i) n off ∧
        ∀ j < i, rawEntry d.toDmd fat (turn d d4 j) ≠ 0 := by
  induction d7 generalizing d4 d6 a2 with
  | zero => exact .inl ⟨rfl, fun i hi => absurd hi (Nat.not_lt_zero i)⟩
  | succ d7 ih =>
    by_cases hfree : freeAt d.toDmd fat d6 a2 = true
    · refine .inr ⟨0, d6, a2, Nat.succ_pos _, ?_⟩
      rw [ncLoop, if_pos hfree, turn_zero d4 hc]
      exact ⟨rfl, (freeAt_iff fat hty hat).mp hfree, hat, fun j hj => absurd hj (Nat.not_lt_zero j)⟩
    · rcases ncLoop_next ok hty fat d7 d4 d6 a2 hc hat hfree with ⟨n, off, hc', hat', heq⟩
      -- All up to some place of the circle, if all behind the first place are.
      have hfull : ∀ k, (∀ i < k, rawEntry d.toDmd fat
          (turn d (if d.numcl ≤ d4 + 1 then 2 else d4 + 1) i) ≠ 0) →
          ∀ i < k + 1, rawEntry d.toDmd fat (turn d d4 i) ≠ 0 := by
        intro k hk i hi
        cases i with
        | zero =>
          rw [turn_zero d4 hc]
          exact fun h0 => hfree ((freeAt_iff fat hty hat).mpr h0)
        | succ i =>
          rw [turn_succ ok d4 i hc]
          exact hk i (Nat.lt_of_succ_lt_succ hi)
      rcases ih _ n off hc' hat' with ⟨hnone, hall⟩ | ⟨i, n', off', hi, hsome, hempty, hat'',
        hbefore⟩
      · exact .inl ⟨heq.trans hnone, hfull d7 hall⟩
      · refine .inr ⟨i + 1, n', off', Nat.succ_lt_succ hi, ?_⟩
        rw [turn_succ ok d4 i hc]
        exact ⟨heq.trans hsome, hempty, hat'', hfull i hbefore⟩

theorem newcl16_32_eq (hty : d.ftype ≠ .fat12) (fat : Sectors) (firstcl : Nat) :
    IsCluster d (searchStart d firstcl) ∧ ∃ n off, EntryAt d.toDmd (searchStart d firstcl) n off ∧
      newcl16_32 d fat firstcl =
        match ncLoop d fat (d.numcl - 2) (searchStart d firstcl) n off with
        | none => none
        | some (d4, d6, a2) => some (d4, markAt d.toDmd fat d6 a2) := by
  have hn := ok.clusters
  unfold newcl16_32 searchStart
  simp only
  by_cases hhigh : d.numcl ≤ firstcl
  · have hstart : ¬ (2 ≤ firstcl ∧ firstcl < d.numcl) := by omega
    rw [if_pos hhigh, if_neg hstart, if_pos Nat.two_pos]
    exact ⟨⟨Nat.le_refl 2, hn⟩, _, _, entryAt_two ok hty, rfl⟩
  · rw [if_neg hhigh]
    by_cases hlow : firstcl < 2
    · have hstart : ¬ (2 ≤ firstcl ∧ firstcl < d.numcl) := by omega
      rw [if_pos hlow, if_neg hstart]
      exact ⟨⟨Nat.le_refl 2, hn⟩, _, _, entryAt_two ok hty, rfl⟩
    · have hstart : 2 ≤ firstcl ∧ firstcl < d.numcl := by omega
      rw [if_neg hlow, if_pos hstart]
      have hc : IsCluster d firstcl := hstart
      exact ⟨hc, _, _, entryAt_regs ok hty firstcl hc, rfl⟩

/-- `_newcl16_32` marks the first cluster of the circle whose bits are all 0, or there is none. -/
theorem newcl16_32_first (hty : d.ftype ≠ .fat12) (fat : Sectors) (firstcl : Nat) :
    (newcl16_32 d fat firstcl = none ∧ ∀ c, IsCluster d c → rawEntry d.toDmd fat c ≠ 0) ∨
      ∃ n fat' i, newcl16_32 d fat firstcl = some (n, fat') ∧ IsCluster d n ∧
        rawEntry d.toDmd fat n = 0 ∧ i < d.numcl - 2 ∧ n = turn d (searchStart d firstcl) i ∧
        (∀ j < i, rawEntry d.toDmd fat (turn d (searchStart d firstcl) j) ≠ 0) ∧
        Entered d.toDmd fat fat' n EOF ∧
        ∀ b, b ≠ n → rawEntry d.toDmd fat' b = rawEntry d.toDmd fat b := by
  rcases newcl16_32_eq ok hty fat firstcl with ⟨hstart, n, off, hat, hrun⟩
  rw [hrun]
  rcases ncLoop_spec ok hty fat (d.numcl - 2) _ n off hstart hat with
    ⟨hloop, hall⟩ | ⟨i, n', off', hi, hloop, hfree, hat', hbefore⟩
  · rw [hloop]
    refine .inl ⟨rfl, fun c hc => ?_⟩
    rcases turn_surj ok (searchStart d firstcl) c hc with ⟨i, hi, hci⟩
    rw [← hci]
    exact hall i hi
  · rw [hloop]
    refine .inr ⟨_, _, i, rfl, turn_cluster ok.clusters _ i, hfree, hi, rfl, hbefore,
      entered_markAt fat _ n' off' hty hat', fun b hb => ?_⟩
    rw [rawEntry_markAt fat hty hat' b, if_neg hb]

theorem read_free12 (hty : d.ftype = .fat12) (fat : Sectors) (c : Nat) (hc : IsCluster d c) :
    readFat d.toDmd fat c = 0 ↔ rawEntry d.toDmd fat c = 0 := by
  rw [readFat_eq d.toDmd fat ok.geo c (ok.inFat c hc.2)]
  refine ⟨fun h => ?_, link_of_free d.toDmd fat c⟩
  unfold link linkOf at h
  unfold rawEntry
  rw [hty]
  simp only
  split at h
  · exact h
  · exact absurd h (by decide)

theorem fexSrchloop_cases (hty : d.ftype = .fat12) (fat : Sectors) (d7 d5 : Nat)
    (hc : IsCluster d d5) :
    (fexSrchloop d fat d7 d5 = none ∧ ∀ i < d7, rawEntry d.toDmd fat (turn d d5 i) ≠ 0) ∨
      ∃ n, fexSrchloop d fat d7 d5 = some n ∧ IsCluster d n ∧ rawEntry d.toDmd fat n = 0 := by
  have hn := ok.clusters
  induction d7 generalizing d5 with
  | zero => exact .inl ⟨rfl, fun i hi => absurd hi (Nat.not_lt_zero i)⟩
  | succ d7 ih =>
    unfold fexSrchloop
    by_cases hfree : readFat d.toDmd fat d5 = 0
    · rw [if_pos hfree]
      exact .inr ⟨d5, rfl, hc, (read_free12 ok hty fat d5 hc).mp hfree⟩
    · rw [if_neg hfree]
      have heq : (if d5 + 1 < d.numcl then d5 + 1 else 2)
          = if d.numcl ≤ d5 + 1 then 2 else d5 + 1 := by
        split
        · rw [if_neg (by omega)]
        · rw [if_pos (by omega)]
      have hc' : IsCluster d (if d.numcl ≤ d5 + 1 then 2 else d5 + 1) := by
        split
        · exact ⟨Nat.le_refl 2, hn⟩
        · exact ⟨Nat.le_succ_of_le hc.1, by omega⟩
      rw [heq]
      rcases ih _ hc' with ⟨hr, hall⟩ | hr
      · refine .inl ⟨hr, fun i hi => ?_⟩
        cases i with
        | zero =>
          rw [turn_zero d5 hc]
          exact fun h0 => hfree ((read_free12 ok hty fat d5 hc).mpr h0)
        | succ i =>
          rw [turn_succ ok d5 i hc]
          exact hall i (Nat.lt_of_succ_lt_succ hi)
      · exact .inr hr

/-- A cluster that is reserved: it was free and is now the end of a chain. -/
structure Reserved (d : Drive) (v v' : Volume) (n : Nat) : Prop where
  cluster : IsCluster d n
  free : rawEntry d.toDmd v.fat n = 0
  entered : Entered d.toDmd v.fat v'.fat n EOF
  nfree : v'.nfree = v.nfree
  fds : v'.fds = v.fds

/-- Nothing is reserved because nothing is free. -/
structure Full (d : Drive) (v v' : Volume) : Prop where
  full : ∀ c, IsCluster d c → rawEntry d.toDmd v.fat c ≠ 0
  fat : v'.fat = v.fat
  nfree : v'.nfree = v.nfree
  fds : v'.fds = v.fds

theorem reserve16_32_cases (v : Volume) (hty : d.ftype ≠ .fat12) (firstcl : Nat) :
    (∃ v' e, (match newcl16_32 d v.fat firstcl with
      | none => (({ v with firstFree := 0 } : Volume), Except.error (0xffff : Int))
      | some (d0, fat) => ({ v with fat := fat, firstFree := d0 }, .ok d0)) = (v', .error e) ∧
        e ≠ 0 ∧ Full d v v') ∨
    ∃ v' n, (match newcl16_32 d v.fat firstcl with
      | none => (({ v with firstFree := 0 } : Volume), Except.error (0xffff : Int))
      | some (d0, fat) => ({ v with fat := fat, firstFree := d0 }, .ok d0)) = (v', .ok n) ∧
        Reserved d v v' n := by
  rcases newcl16_32_first ok hty v.fat firstcl with
    ⟨hr, hall⟩ | ⟨n, fat', -, hr, hc, hfree, -, -, -, hent, -⟩
  · rw [hr]
    exact .inl ⟨_, _, rfl, by decide, hall, rfl, rfl, rfl⟩
  · rw [hr]
    exact .inr ⟨_, n, rfl, hc, hfree, hent, rfl, rfl⟩

/-- A free cluster is reserved if there is one. -/
theorem fexReserve_cases (v : Volume) (d6 : Nat) (hd6 : d6 = 0 ∨ IsCluster d d6) :
    (∃ v' e, fexReserve d v d6 = (v', .error e) ∧ e ≠ 0 ∧ Full d v v') ∨
      ∃ v' n, fexReserve d v d6 = (v', .ok n) ∧ Reserved d v v' n := by
  have hn := ok.clusters
  unfold fexReserve
  cases hty : d.ftype with
  | fat12 =>
    simp only
    have hstart : IsCluster d (if d6 < 2 then 2 else d6) := by
      split
      · exact ⟨Nat.le_refl 2, hn⟩
      · rename_i h2
        rcases hd6 with rfl | hc
        · exact absurd (by decide) h2
        · exact hc
    rcases fexSrchloop_cases ok hty v.fat (d.numcl - 2) _ hstart with
      ⟨hr, hall⟩ | ⟨n, hr, hc, hfree⟩
    · rw [hr]
      refine .inl ⟨v, -1, rfl, by decide, fun b hb => ?_, rfl, rfl, rfl⟩
      rcases turn_surj ok _ b hb with ⟨i, hi, hbi⟩
      rw [← hbi]
      exact hall i hi
    · rw [hr]
      exact .inr ⟨_, n, rfl, hc, hfree, entered_EOF ok v.fat n hc, rfl, rfl⟩
  | fat16 => exact reserve16_32_cases ok v (by rw [hty]; decide) _
  | fat32 => exact reserve16_32_cases ok v (by rw [hty]; decide) _

/-- `f_extend` moves to the next cluster, or fails, or appends a free cluster. -/
theorem fExtend_cases (v : Volume) (id : Nat)
    (hccl : (v.fds id).ccl = 0 ∨ IsCluster d (v.fds id).ccl) :
    (fexNext d v id ≠ EOF ∧ fExtend d v id true = (fexSeeknxt d v id (fexNext d v id), 0)) ∨
    (fexNext d v id = EOF ∧ ∃ v' e, fExtend d v id true = (v', e) ∧ e ≠ 0 ∧ Full d v v') ∨
    (fexNext d v id = EOF ∧ ∃ v' n, Reserved d v v' n ∧ fExtend d v id true
      = (fexSeeknxt d (fexFound d v' (v.fds id).multi1 (v.fds id).ccl n) id n, 0)) := by
  unfold fExtend
  simp only
  by_cases hnext : fexNext d v id = EOF
  · refine .inr ?_
    rw [if_neg (not_not_intro hnext), if_neg (by decide)]
    rcases fexReserve_cases ok v (v.fds id).ccl hccl with
      ⟨v', e, hr, he, hfull⟩ | ⟨v', n, hr, hres⟩
    · rw [hr]
      exact .inl ⟨hnext, v', e, rfl, he, hfull⟩
    · rw [hr]
      exact .inr ⟨hnext, v', n, hres, rfl⟩
  · rw [if_pos hnext]
    exact .inl ⟨hnext, rfl⟩

theorem dfLoop_eq (hty : d.ftype ≠ .fat12) (fat : Sectors) (d7 c d4 d6 a0 : Nat)
    (hat : EntryAt d.toDmd c d6 a0) :
    dfLoop d fat d7 d4 d6 a0
      = d4 + (List.range' c d7).countP fun c => decide (rawEntry d.toDmd fat c = 0) := by
  induction d7 generalizing c d4 d6 a0 with
  | zero => rfl
  | succ d7 ih =>
    have hnext := entryAt_succ ok hty c d6 a0 hat
    have hd4 : (if freeAt d.toDmd fat d6 a0 = true then d4 + 1 else d4)
        = d4 + if decide (rawEntry d.toDmd fat c = 0) = true then 1 else 0 := by
      by_cases hfree : rawEntry d.toDmd fat c = 0
      · rw [if_pos ((freeAt_iff fat hty hat).mpr hfree), if_pos (decide_eq_true hfree)]
      · rw [if_neg fun h => hfree ((freeAt_iff fat hty hat).mp h),
          if_neg fun h => hfree (of_decide_eq_true h), Nat.add_zero]
    unfold dfLoop
    simp only [hd4]
    rw [List.range'_succ, List.countP_cons]
    split
    · rename_i hsec
      rw [if_pos hsec] at hnext
      rw [ih (c + 1) _ d6 _ hnext]
      omega
    · rename_i hsec
      rw [if_neg hsec] at hnext
      rw [ih (c + 1) _ (d6 + 1) 0 hnext]
      omega

theorem dfrLoop_eq (hty : d.ftype = .fat12) (fat : Sectors) (n c d5 : Nat) (h2 : 2 ≤ c)
    (hc : c + n ≤ d.numcl) :
    dfrLoop d fat n c d5
      = d5 + (List.range' c n).countP fun c => decide (rawEntry d.toDmd fat c = 0) := by
  induction n generalizing c d5 with
  | zero => rfl
  | succ n ih =>
    have hd5 : (if readFat d.toDmd fat c = 0 then d5 + 1 else d5)
        = d5 + if decide (rawEntry d.toDmd fat c = 0) = true then 1 else 0 := by
      have hiff := read_free12 ok hty fat c ⟨h2, by omega⟩
      by_cases hfree : rawEntry d.toDmd fat c = 0
      · rw [if_pos (hiff.mpr hfree), if_pos (decide_eq_true hfree)]
      · rw [if_neg fun h => hfree (hiff.mp h), if_neg fun h => hfree (of_decide_eq_true h),
          Nat.add_zero]
    unfold dfrLoop
    rw [hd5, ih (c + 1) _ (by omega) (by omega), List.range'_succ, List.countP_cons]
    omega

theorem dosfsDfree_eq (v : Volume) :
    dosfsDfree d v = if 0 ≤ v.nfree then (v, v.nfree)
      else ({ v with nfree := (freeCount d v.fat : Int) }, (freeCount d v.fat : Int)) := by
  have hn := ok.clusters
  have hwhole : d.ftype ≠ .fat12 → dfree16_32 d v.fat d.numcl = freeCount d v.fat := fun hty => by
    unfold dfree16_32 freeCount
    rw [dfLoop_eq ok hty v.fat _ 2 0 0 _ (entryAt_two ok hty), Nat.zero_add]
  unfold dosfsDfree
  cases hty : d.ftype with
  | fat12 =>
    have hcount : dfrLoop d v.fat (d.numcl - 2) 2 0 = freeCount d v.fat := by
      unfold freeCount
      rw [dfrLoop_eq ok hty v.fat _ 2 0 (Nat.le_refl 2) (by omega), Nat.zero_add]
    simp only [hcount]
  | fat16 => simp only [hwhole (by rw [hty]; decide)]
  | fat32 => simp only [hwhole (by rw [hty]; decide)]

end

end Fat

end MagiC
