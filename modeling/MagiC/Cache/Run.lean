import MagiC.Lib.Runs
import MagiC.Cache.Transfer

/-!
# Runs of the Sector Cache

Any sequence of calls, from empty buffers.

A `World` is the buffers and the disks together with a record that is not part
of the program: the contents stored last in each sector, and the sectors that
were stored at all, whose copies must follow. The callers use the sectors as the
layout says, and change a buffer only if they have said so when reading it.

Two limits are left to the callers. `mrw_sectors` hands the number of sectors to
the BIOS as a word, and `write_sector` the number of a copy. A copy that lies
further back on the disk is not written: `far_copy` shows a FAT sector
whose copy keeps its old contents, and another sector that gets them.

## Main definitions

* `runCall`: What a call does and delivers.

## Theorems

* `cache_transparent`: So does every call of a run.
-/

namespace MagiC

namespace Cache

section

variable {α : Type}

/-- A call. What is read may be changed at once, if it was read to be written. -/
inductive Call (α : Type) where
  | read (drv : Int) (secno secno2 : Nat) (list : Bufl) (modify : Option (α → α))
  | write (a : Nat)
  | sync (drv : Int)
  | mrwRead (drv : Int) (secno anzahl : Nat) (list : Bufl)
  | mrwWrite (drv : Int) (secno anzahl : Nat) (puffer : Nat → α) (list : Bufl)

/-- The buffers, and what was stored last. -/
structure World (α : Type) where
  buffers : Buffers α
  last : Int → Nat → α
  copied : Int → Nat → Prop

/-- The calls that use the sectors as the layout says. -/
def Admissible (L : Layout) : Call α → Prop
  | .read drv secno secno2 list _ =>
    L.used drv secno ∧ list = L.list drv secno ∧ secno2 = L.mirror drv secno
  | .write a => L.Buf a
  | .sync drv => 0 ≤ drv
  | .mrwRead drv secno anzahl list =>
    0 ≤ drv ∧ ∀ i < anzahl, L.used drv (secno + i) ∧ L.list drv (secno + i) = list
  | .mrwWrite drv secno anzahl _ list =>
    0 ≤ drv ∧ ∀ i < anzahl, L.used drv (secno + i) ∧ L.list drv (secno + i) = list ∧
      L.mirror drv (secno + i) = 0

/-- A number of sectors that is a word, on a disk whose sectors are longwords. -/
def ShortRun (secno anzahl : Nat) : Prop := anzahl < 2 ^ 16 ∧ secno + anzahl < 2 ^ 32

/-- The calls whose numbers of sectors and of copies survive as words. -/
def Short : Call α → Prop
  | .read _ _ secno2 _ _ => secno2 < 0xffff
  | .write _ | .sync _ => True
  | .mrwRead _ secno anzahl _ | .mrwWrite _ secno anzahl _ _ => ShortRun secno anzahl

def modifyBuffer (s : Buffers α) (a : Nat) (f : α → α) : Buffers α :=
  { s with xb := Function.update s.xb a { s.xb a with data := f (s.xb a).data } }

def runCall (s : Buffers α) : Call α → Option (Buffers α × List α)
  | .read drv secno secno2 list modify =>
    match readSector s drv secno secno2 list modify.isSome, modify with
    | none, _ => none
    | some (s, a), none => some (s, [(s.xb a).data])
    | some (s, a), some f => some (modifyBuffer s a f, [(s.xb a).data])
  | .write a => some (writeSector s a, [])
  | .sync drv => (dfsFatSync s drv).map fun s => (s, [])
  | .mrwRead drv secno anzahl list => mrwSectors s drv secno anzahl none list
  | .mrwWrite drv secno anzahl puffer list => mrwSectors s drv secno anzahl (some puffer) list

def expected (last : Int → Nat → α) : Call α → List α
  | .read drv secno _ _ _ => [last drv secno]
  | .mrwRead drv secno anzahl _ => (List.range anzahl).map fun i => last drv (secno + i)
  | .write _ | .sync _ | .mrwWrite .. => []

def stored (last : Int → Nat → α) : Call α → Int → Nat → α
  | .read drv secno _ _ (some f) => putSector last drv secno (f (last drv secno))
  | .mrwWrite drv secno anzahl puffer _ => fun d k =>
    if d = drv ∧ secno ≤ k ∧ k < secno + anzahl then puffer (k - secno) else last d k
  | .read _ _ _ _ none | .write _ | .sync _ | .mrwRead .. => last

/-- The sectors whose copies have to follow after a call. -/
def storedCopies (copied : Int → Nat → Prop) : Call α → Int → Nat → Prop
  | .read drv secno _ _ (some _) => fun d k => copied d k ∨ d = drv ∧ k = secno
  | .read _ _ _ _ none | .write _ | .sync _ | .mrwRead .. | .mrwWrite .. => copied

variable (L : Layout)

/-- One call, and the record of what was stored. -/
def step (w : World α) (c : Call α) (w' : World α) : Prop :=
  Admissible L c ∧ (∃ out, runCall w.buffers c = some (w'.buffers, out)) ∧
    w'.last = stored w.last c ∧ w'.copied = storedCopies w.copied c

/-- Empty buffers, and what is on the disks. Where a copy differs at first it need
    not follow before the sector is stored. -/
structure Fresh (w : World α) : Prop where
  ordered : Ordered L w.buffers
  empty : ∀ a, L.Buf a → (w.buffers.xb a).drv < 0
  last : w.last = w.buffers.disk
  copied : ∀ drv k, w.copied drv k →
    w.buffers.disk drv (L.mirror drv k) = w.buffers.disk drv k

/-- The cache cannot be told from the disks: the lists are linked and hold the same
    buffers as ever, no sector is in two buffers, every call delivers what was
    stored last, and the disk holds it after `dfs_fat_sync`. -/
structure Transparent (w : World α) : Prop where
  ordered : Ordered L w.buffers
  unique : ∀ a b drv k, L.Buf a → L.Buf b → 0 ≤ drv → Holds w.buffers.xb a drv k →
    Holds w.buffers.xb b drv k → a = b
  delivers : ∀ c, Admissible L c → Short c →
    ∃ s, runCall w.buffers c = some (s, expected w.last c)
  synced : ∀ drv, 0 ≤ drv → ∃ s, dfsFatSync w.buffers drv = some s ∧ ∀ k, L.used drv k →
    s.disk drv k = w.last drv k ∧
      (L.mirror drv k ≠ 0 → w.copied drv k → s.disk drv (L.mirror drv k) = w.last drv k)

variable {L}

theorem modifyBuffer_sound (s : Buffers α) (a : Nat) (drv : Int) (k : Nat) (last : Int → Nat → α)
    (copied : Int → Nat → Prop) (h0 : 0 ≤ drv) (h : Delivered L s a drv k true last copied)
    (f : α → α) :
    Sound L (modifyBuffer s a f) (putSector last drv k (f (last drv k)))
      (fun d n => copied d n ∨ d = drv ∧ n = k) := by
  refine ⟨h.sound.ordered.same (sameLinks_xb s a _), ?_⟩
  have hstore := coherent_store h.sound.coherent a h.buf drv k h0 h.holds (h.marked rfl)
    (f (s.xb a).data)
  rw [h.data] at hstore
  unfold modifyBuffer
  rw [h.data]
  exact hstore

/-- A call delivers what was stored last and keeps everything in order. -/
theorem runCall_sound (s : Buffers α) (last : Int → Nat → α) (copied : Int → Nat → Prop)
    (ok : Sound L s last copied) (c : Call α) (hc : Admissible L c) (hshort : Short c) :
    ∃ t, runCall s c = some (t, expected last c) ∧
      Sound L t (stored last c) (storedCopies copied c) := by
  cases c with
  | read drv secno secno2 list modify =>
    rcases hc with ⟨hu, rfl, rfl⟩
    rcases readSector_spec s ok drv secno modify.isSome hu hshort with ⟨t, a, hr, hd⟩
    cases modify with
    | none =>
      refine ⟨t, ?_, hd.sound⟩
      simp only [runCall, hr, hd.data, expected]
    | some f =>
      refine ⟨modifyBuffer t a f, ?_, ?_⟩
      · simp only [runCall, hr, hd.data, expected]
      · exact modifyBuffer_sound t a drv secno last copied (L.used_drv drv secno hu) hd f
  | write a => exact ⟨_, rfl, writeSector_sound s ok a hc⟩
  | sync drv =>
    rcases dfsFatSync_spec s ok drv hc with ⟨t, hr, okt, _⟩
    refine ⟨t, ?_, okt⟩
    simp only [runCall, hr, Option.map_some, expected]
  | mrwRead drv secno anzahl list =>
    exact mrwSectors_read s ok drv hc.1 secno anzahl list (fun i hi => (hc.2 i hi).2)
      (fun i hi => (hc.2 i hi).1) hshort.2 hshort.1
  | mrwWrite drv secno anzahl puffer list =>
    exact mrwSectors_write s ok drv hc.1 secno anzahl puffer list (fun i hi => (hc.2 i hi).2.1)
      (fun i hi => (hc.2 i hi).1) (fun i hi => (hc.2 i hi).2.2) hshort.2 hshort.1

theorem fresh_sound (w : World α) (h : Fresh L w) : Sound L w.buffers w.last w.copied := by
  have hneg : ∀ a, L.Buf a → ¬ 0 ≤ (w.buffers.xb a).drv := fun a ha =>
    Int.not_le.mpr (h.empty a ha)
  refine ⟨h.ordered, fun a ha h0 => absurd h0 (hneg a ha), fun a b drv k ha _ h0 hh _ => ?_,
    fun a drv k ha h0 hh => ?_, fun drv k _ _ => by rw [h.last], fun drv k _ _ hcop _ => ?_⟩
  · exact absurd (hh.1.symm ▸ h0) (hneg a ha)
  · exact absurd (hh.1.symm ▸ h0) (hneg a ha)
  · rw [h.last]
    exact h.copied drv k hcop

theorem sound_transparent (w : World α) (ok : Sound L w.buffers w.last w.copied) :
    Transparent L w := by
  refine ⟨ok.ordered, ok.coherent.unique, fun c hc hshort => ?_, fun drv h0 => ?_⟩
  · rcases runCall_sound w.buffers w.last w.copied ok c hc hshort with ⟨t, hr, _⟩
    exact ⟨t, hr⟩
  · rcases dfsFatSync_spec w.buffers ok drv h0 with ⟨t, hr, okt, hclean⟩
    refine ⟨t, hr, fun k hu => ⟨okt.coherent.clean drv k hu (hclean k), fun h2 hcop => ?_⟩⟩
    exact okt.coherent.copy drv k hu h2 hcop (hclean k)

theorem step_sound (w w' : World α) (c : Call α) (ok : Sound L w.buffers w.last w.copied)
    (hstep : step L w c w') (hshort : Short c) : Sound L w'.buffers w'.last w'.copied := by
  rcases hstep with ⟨hc, ⟨out, hr⟩, hlast, hcopied⟩
  rcases runCall_sound w.buffers w.last w.copied ok c hc hshort with ⟨t, ht, okt⟩
  rw [hr] at ht
  rw [hlast, hcopied, (Prod.mk.inj (Option.some.inj ht)).1]
  exact okt

/-- After any calls within the limits, the cache cannot be told from the disks. -/
theorem cache_transparent (w w' : World α) (calls : List (Call α)) (hfresh : Fresh L w)
    (hrun : Runs.Run (fun w c w' => step L w c w' ∧ Short c) w calls w') : Transparent L w' :=
  sound_transparent w' <| Runs.run_preserves _ (fun w => Sound L w.buffers w.last w.copied)
    (fun w c w' ok h => step_sound w w' c ok h.1 h.2) w w' calls hrun (fresh_sound w hfresh)

theorem runs_exist (w : World α) (calls : List (Call α)) (ok : Sound L w.buffers w.last w.copied)
    (hcalls : ∀ c ∈ calls, Admissible L c ∧ Short c) :
    ∃ w', Runs.Run (fun w c w' => step L w c w' ∧ Short c) w calls w' := by
  induction calls generalizing w with
  | nil => exact ⟨w, Runs.Run.nil w⟩
  | cons c calls ih =>
    rcases hcalls c List.mem_cons_self with ⟨hc, hshort⟩
    rcases runCall_sound w.buffers w.last w.copied ok c hc hshort with ⟨t, hr, okt⟩
    obtain ⟨w', hrun⟩ := ih ⟨t, stored w.last c, storedCopies w.copied c⟩ okt
      fun c hc => hcalls c (List.mem_cons_of_mem _ hc)
    exact ⟨w', Runs.Run.cons _ _ _ _ _ ⟨⟨hc, ⟨_, hr⟩, rfl, rfl⟩, hshort⟩ hrun⟩

end

/-- Two buffers in one list and one in the other, and one sector that has a copy. -/
def pairLayout (secno secno2 : Nat) : Layout where
  bufs := fun
    | .fat => [1, 2]
    | .data => [3]
  list := fun _ k => if k = secno then .fat else .data
  mirror := fun _ k => if k = secno then secno2 else 0
  used := fun drv k => drv = 0 ∧ k ≠ secno2
  nodup := by
    rintro (_ | _)
    · decide
    · decide
  nonempty := by
    rintro (_ | _)
    · decide
    · decide
  apart := by
    rintro a (_ | _) (_ | _) h1 h2
    · rfl
    · simp only [List.mem_cons, List.not_mem_nil, or_false] at h1 h2
      rw [h2] at h1
      exact absurd h1 (by decide)
    · simp only [List.mem_cons, List.not_mem_nil, or_false] at h1 h2
      rw [h1] at h2
      exact absurd h2 (by decide)
    · rfl
  used_drv := fun _ _ hu => Int.le_of_eq hu.1.symm
  mirror_unused := fun drv k _ h2 hu => by
    split at h2
    · rename_i hk
      rw [if_pos hk] at hu
      exact hu.2 rfl
    · exact h2 rfl
  mirror_inj := fun drv k n _ _ h2 heq => by
    split at h2
    · rename_i hk
      rw [if_pos hk] at heq
      split at heq
      · rename_i hn
        rw [hk, hn]
      · exact absurd heq h2
    · exact absurd rfl h2

/-- Three empty buffers and empty disks. -/
def emptyBuffers : Buffers Nat where
  bufl := fun
    | .fat => 1
    | .data => 3
  next := fun a => if a = 1 then 2 else 0
  prev := fun a => if a = 2 then 1 else 0
  first := fun a => if a = 3 then .data else .fat
  xb := fun _ => ⟨-1, 0, 0, false, 0⟩
  disk := fun _ _ => 0
  bufs := 3

/-- No sector was stored yet, and so all copies are what they should be. -/
def emptyWorld : World Nat := ⟨emptyBuffers, fun _ _ => 0, fun _ _ => True⟩

theorem emptyWorld_fresh (secno secno2 : Nat) :
    Fresh (pairLayout secno secno2) emptyWorld := by
  refine ⟨⟨?_, ?_, ?_⟩, fun a _ => Int.negSucc_lt_zero 0, rfl, fun _ _ _ => rfl⟩
  · rintro (_ | _)
    · exact ⟨[1, 2], List.Perm.refl _, rfl, by decide, rfl, rfl, by decide, rfl, rfl⟩
    · exact ⟨[3], List.Perm.refl _, rfl, by decide, rfl, rfl⟩
  · rintro (_ | _) a ha
    · simp only [pairLayout, List.mem_cons, List.not_mem_nil, or_false] at ha
      rcases ha with rfl | rfl
      · rfl
      · rfl
    · simp only [pairLayout, List.mem_cons, List.not_mem_nil, or_false] at ha
      subst ha
      rfl
  · rintro (_ | _)
    · exact Nat.le_succ 2
    · exact Nat.le_add_left 1 2

/-- A FAT sector is changed, and its list used up, before three sectors are written
    past the buffers and one of them is read. -/
def nearCalls : List (Call Nat) :=
  [.read 0 9 4 .fat (some (· + 1)), .read 0 20 0 .data (some (· + 2)),
    .mrwWrite 0 19 3 (fun i => i + 7) .data, .read 0 20 0 .data none, .sync 0]

theorem cache_transparent_near :
    ∃ w', Runs.Run (fun w c w' => step (pairLayout 9 4) w c w' ∧ Short c) emptyWorld
        nearCalls w' ∧ Transparent (pairLayout 9 4) w' := by
  have hfresh := emptyWorld_fresh 9 4
  obtain ⟨w', hrun⟩ := runs_exist emptyWorld nearCalls (fresh_sound emptyWorld hfresh) (by
    intro c hc
    simp only [nearCalls, List.mem_cons, List.not_mem_nil, or_false] at hc
    rcases hc with rfl | rfl | rfl | rfl | rfl
    · exact ⟨⟨⟨rfl, by decide⟩, rfl, rfl⟩, show 4 < 0xffff by decide⟩
    · exact ⟨⟨⟨rfl, by decide⟩, rfl, rfl⟩, show 0 < 0xffff by decide⟩
    · refine ⟨⟨by decide, fun i _ => ⟨⟨rfl, by omega⟩, ?_, ?_⟩⟩, by decide, by decide⟩
      · exact if_neg (by omega)
      · exact if_neg (by omega)
    · exact ⟨⟨⟨rfl, by decide⟩, rfl, rfl⟩, show 0 < 0xffff by decide⟩
    · exact ⟨Int.le_refl 0, trivial⟩)
  exact ⟨w', hrun, cache_transparent emptyWorld w' nearCalls hfresh hrun⟩

/-- A sector is changed whose copy lies behind sector 65535. -/
def farCall : Call Nat := .read 0 200000 70000 .fat (some (· + 1))

/-- The copy is written to sector 4464 instead. -/
theorem far_copy :
    ∃ w', Fresh (pairLayout 200000 70000) emptyWorld ∧
      Runs.Run (step (pairLayout 200000 70000)) emptyWorld [farCall] w' ∧
      ¬ Transparent (pairLayout 200000 70000) w' := by
  have hread : (runCall emptyBuffers farCall).isSome = true := by decide +kernel
  rcases Option.isSome_iff_exists.mp hread with ⟨⟨t, out⟩, ht⟩
  have hcopy : ((runCall emptyBuffers farCall).bind fun r =>
      (dfsFatSync r.1 0).map fun s => s.disk 0 70000) = some 0 := by decide +kernel
  refine ⟨⟨t, stored (fun _ _ => 0) farCall, storedCopies (fun _ _ => True) farCall⟩,
    emptyWorld_fresh _ _, ?_, fun htr => ?_⟩
  · have hstep : step (pairLayout 200000 70000) emptyWorld farCall
        ⟨t, stored (fun _ _ => 0) farCall, storedCopies (fun _ _ => True) farCall⟩ :=
      ⟨⟨⟨rfl, by decide⟩, rfl, rfl⟩, ⟨out, ht⟩, rfl, rfl⟩
    exact Runs.Run.cons _ _ _ _ _ hstep (Runs.Run.nil _)
  · rcases htr.synced 0 (by decide) with ⟨s, hs, hk⟩
    have hlast : s.disk 0 70000 = 1 :=
      (hk 200000 ⟨rfl, by decide⟩).2 (by decide) (.inl trivial)
    simp only [ht, Option.bind_some, hs, Option.map_some, Option.some.injEq] at hcopy
    rw [hlast] at hcopy
    exact absurd hcopy (by decide)

end Cache

end MagiC
