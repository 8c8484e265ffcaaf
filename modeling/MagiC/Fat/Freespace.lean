import MagiC.Fat.Alloc

/-!
# Searching and Reading

Two ways to find the free clusters of a FAT of words or longwords, and when they agree.

`_dfree16_32` and `_newcl16_32` walk over the sectors of the FAT and test whole words or
longwords. `FAT_read` leaves out the top four bits of a longword, and `FAT_write` never sets
them. An entry that has nothing but some of these four bits set links to cluster 0 for
`FAT_read`, so it is free, but the searches take it for one that is in use: it is not
counted, and the search for a new cluster passes over it. On a FAT of words there is no such
entry.

Everything else is the same, whichever cluster the search begins with. Sectors are smaller than
32768 bytes, because the end of a sector is computed with a signed word.

## Main definitions

* `Found`: What a search that succeeds has to do.

## Theorems

* `agree_iff`: When the searches agree with `FAT_read`.
-/

namespace MagiC

namespace Fat

/-- The number of clusters for which `FAT_read` returns 0. -/
def readFree (d : Drive) (fat : Sectors) : Nat :=
  (List.range' 2 (d.numcl - 2)).countP fun c => decide (readFat d.toDmd fat c = 0)

/-- A search has found the first cluster from `firstcl` on that is free for `FAT_read`, and made
    it the end of a chain. -/
structure Found (d : Drive) (fat : Sectors) (firstcl n : Nat) (fat' : Sectors) : Prop where
  first : ∃ i < d.numcl - 2, n = turn d (searchStart d firstcl) i ∧
    ∀ j < i, readFat d.toDmd fat (turn d (searchStart d firstcl) j) ≠ 0
  cluster : IsCluster d n
  free : readFat d.toDmd fat n = 0
  marked : readFat d.toDmd fat' n = EOF
  others : ∀ b, b ≠ n → rawEntry d.toDmd fat' b = rawEntry d.toDmd fat b

/-- The count is that of the clusters that `FAT_read` takes for free, and every search finds one
    of them if there is one. -/
def Agree (d : Drive) (fat : Sectors) : Prop :=
  dfree16_32 d fat d.numcl = readFree d fat ∧
    ∀ firstcl, match newcl16_32 d fat firstcl with
      | none => ∀ c, IsCluster d c → readFat d.toDmd fat c ≠ 0
      | some (n, fat') => Found d fat firstcl n fat'

section

variable {d : Drive} (ok : DriveOk d)
include ok

theorem readFat_free (hty : d.ftype ≠ .fat12) (fat : Sectors) (c : Nat) (hc : IsCluster d c) :
    readFat d.toDmd fat c = 0 ↔ rawEntry d.toDmd fat c % 2 ^ 28 = 0 := by
  rw [readFat_eq d.toDmd fat ok.geo c (ok.inFat c hc.2)]
  have hEOF : EOF ≠ 0 := by decide
  have hmark := endMark_pos d.ftype
  have hentry : entry d.toDmd fat c = rawEntry d.toDmd fat c % 2 ^ 28 := by
    cases hft : d.ftype with
    | fat12 => exact absurd hft hty
    | fat16 =>
      have h0 := byteAt_lt d.toDmd fat (2 * c)
      have h1 := byteAt_lt d.toDmd fat (2 * c + 1)
      simp only [rawEntry, entry, hft, entryOff]
      omega
    | fat32 => simp only [rawEntry, entry, hft, entryOff]
  unfold link linkOf
  rw [hentry]
  split
  · exact Iff.rfl
  · rename_i hend
    exact ⟨fun h => absurd h hEOF, fun h => absurd (h ▸ hmark) hend⟩

theorem dfree16_32_eq (hty : d.ftype ≠ .fat12) (fat : Sectors) :
    dfree16_32 d fat d.numcl = freeCount d fat := by
  unfold dfree16_32 freeCount
  rw [dfLoop_eq ok hty fat _ 2 0 0 _ (entryAt_two ok hty), Nat.zero_add]

/-- The searches agree with `FAT_read` if and only if no longword has only some of its top four
    bits set. The size of a sector is positive as a word, or `getxbpb` refuses the drive. -/
theorem agree_iff (hty : d.ftype ≠ .fat12) (_hsize : d.recsiz < 2 ^ 15) (fat : Sectors) :
    Agree d fat ↔ ∀ c, IsCluster d c → rawEntry d.toDmd fat c % 2 ^ 28 = 0 →
      rawEntry d.toDmd fat c = 0 := by
  have hn := ok.clusters
  refine ⟨fun hagree c hc hlow => ?_, fun hno => ?_⟩
  · -- A search that begins with such a cluster has to find it.
    by_contra hbits
    have hread := (readFat_free ok hty fat c hc).mpr hlow
    have hbegin : searchStart d c = c := if_pos hc
    have hfound := hagree.2 c
    rcases newcl16_32_first ok hty fat c with ⟨hrun, -⟩ | ⟨n, fat', -, hrun, -, hfree, -⟩
    · rw [hrun] at hfound
      exact hfound c hc hread
    · rw [hrun] at hfound
      rcases hfound.first with ⟨i, -, hni, hbefore⟩
      rw [hbegin] at hni hbefore
      have hi : i = 0 := by
        by_contra hi
        refine hbefore 0 (Nat.pos_of_ne_zero hi) ?_
        rw [turn_zero c hc]
        exact hread
      rw [hi, turn_zero c hc] at hni
      rw [hni] at hfree
      exact hbits hfree
  · have hsame : ∀ c, IsCluster d c → (readFat d.toDmd fat c = 0 ↔ rawEntry d.toDmd fat c = 0) :=
      fun c hc => (readFat_free ok hty fat c hc).trans
        ⟨hno c hc, fun h0 => by rw [h0, Nat.zero_mod]⟩
    refine ⟨?_, fun firstcl => ?_⟩
    · rw [dfree16_32_eq ok hty]
      refine List.countP_congr fun c hc => ?_
      rw [List.mem_range'_1] at hc
      rw [decide_eq_true_eq, decide_eq_true_eq, hsame c ⟨hc.1, by omega⟩]
    · rcases newcl16_32_first ok hty fat firstcl with
        ⟨hrun, hnone⟩ | ⟨n, fat', i, hrun, hc, hfree, hi, hni, hbefore, hmark, hothers⟩
      · rw [hrun]
        exact fun c hc hread => hnone c hc ((hsame c hc).mp hread)
      · rw [hrun]
        refine ⟨⟨i, hi, hni, fun j hj hread => ?_⟩, hc, (hsame n hc).mpr hfree, ?_, hothers⟩
        · exact hbefore j hj ((hsame _ (turn_cluster hn _ j)).mp hread)
        · rw [readFat_eq d.toDmd fat' ok.geo n (ok.inFat n hc.2)]
          rw [hmark.link, Function.update_self]

end

/-- A drive with four clusters and a FAT of longwords. -/
def longDrive : Drive where
  ftype := .fat32
  lrecsiz := 9
  mrecsiz := 511
  fsiz := 1
  numcl := 6
  recsiz := 512
  clsiz := 1
  clsizb := 512
  lclsiz := 0
  mclsiz := 0
  lclsizb := 9

theorem longDrive_ok : DriveOk longDrive where
  geo := ⟨rfl, show 9 < 16 by decide, fun _ => show 4 ≤ 2 ^ 9 by decide,
    show 1 * 2 ^ 9 ≤ 2 ^ 32 by decide⟩
  recsiz := rfl
  sector := show 4 ≤ 9 by decide
  clusters := show 2 < 6 by decide
  inFat := fun c hc => by
    have hc' : c < 6 := hc
    show 4 * c + 4 ≤ 1 * 2 ^ 9
    omega
  marks := show 6 ≤ 0x0ffffff8 by decide
  cluster := Nat.one_pos

/-- A FAT of longwords with that byte at the end of the entry of cluster 2, and end marks in
    those of the other clusters. -/
def endMarks (b : UInt8) : Sectors := fun _ off =>
  if off = 11 then b else if off < 12 then 0 else if off % 4 = 3 then 0x0f else 0xff

/-- They agree when cluster 2 is the only free one, and a search from cluster 4 wraps to it. -/
theorem agree_wraps : Agree longDrive (endMarks 0) ∧
    (newcl16_32 longDrive (endMarks 0) 4).map Prod.fst = some 2 := by
  refine ⟨(agree_iff longDrive_ok (by decide) (by decide) _).mpr fun c hc hlow => ?_,
    by decide +kernel⟩
  have h2 : 2 ≤ c := hc.1
  have h6 : c < 6 := hc.2
  obtain rfl | rfl | rfl | rfl : c = 2 ∨ c = 3 ∨ c = 4 ∨ c = 5 := by omega
  · decide +kernel
  · exact absurd hlow (by decide +kernel)
  · exact absurd hlow (by decide +kernel)
  · exact absurd hlow (by decide +kernel)

/-- `FAT_read` takes cluster 2 for free, but it is not counted, and no search finds it. -/
theorem searches_disagree :
    readFat longDrive.toDmd (endMarks 0xf0) 2 = 0 ∧
      dfree16_32 longDrive (endMarks 0xf0) longDrive.numcl = 0 ∧
      (newcl16_32 longDrive (endMarks 0xf0) 2).isNone ∧ ¬ Agree longDrive (endMarks 0xf0) := by
  have hcount : dfree16_32 longDrive (endMarks 0xf0) longDrive.numcl = 0 := by decide +kernel
  have hread : readFree longDrive (endMarks 0xf0) = 1 := by decide +kernel
  refine ⟨by decide +kernel, hcount, by decide +kernel, fun hagree => ?_⟩
  exact absurd (hcount.symm.trans (hagree.1.trans hread)) (by decide)

end Fat

end MagiC
