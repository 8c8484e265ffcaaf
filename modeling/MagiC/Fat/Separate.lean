import Mathlib.Data.List.TakeWhile
import MagiC.Fat.Chains
import MagiC.Lib.Runs

/-!
# Files Stay Apart

Any sequence of calls on the files of a volume.

Besides the calls there is `place`, for everything else that moves a descriptor:
opening, seeking, and the part of reading and writing that comes after `f_extend`. It
leaves the descriptor at a position of its file. Only the first descriptor of a file has
to be there when `Fshrink` is called.

`Fshrink` and `dosf_delete` take a number of `$fff0` or more for a mark and not for a
cluster, and on a FAT of longwords a number of `$ffffff0` or more. `_newcl16_32` hands
such clusters out on a volume that has them, and `FAT_read` follows links to them.
They are never freed: `high_cluster_kept` is a file whose second cluster is one of
these.

## Main definitions

* `Separated`: The chains of all files are apart.

## Theorems

* `chains_stay_apart`: So does every call of a run.
-/

namespace MagiC

namespace Fat

open Chains

/-- A call on a volume, or a descriptor is moved. -/
inductive Call where
  | dfree
  | extend (id : Nat)
  | delete (p : Nat)
  | shrink (id : Nat)
  | place (id ccl csec clpos fpos len : Nat)

/-- A descriptor is moved, and the length of its file set. -/
def Volume.place (v : Volume) (id ccl csec clpos fpos len : Nat) : Volume :=
  let v := v.setFd id { v.fds id with ccl := ccl, csec := csec, clpos := clpos, fpos := fpos }
  v.setFd (v.fds id).multi1 { v.fds (v.fds id).multi1 with len := len }

/-- What a call does. A file is removed from its directory before its chain is freed. -/
def runCall (d : Drive) (v : Volume) : Call → Option Volume
  | .dfree => some (dosfsDfree d v).1
  | .extend id => some (fExtend d v id true).1
  | .delete p => (dosfDelete d v (v.fds p).stcl).map fun w => w.setFd p (w.fds p).removed
  | .shrink id => (fshrink d v id).map fun r => r.1
  | .place id ccl csec clpos fpos len => some (v.place id ccl csec clpos fpos len)

/-- A descriptor is at its position when the file is cut off there, and after it was
    moved. -/
def Admissible (d : Drive) (v : Volume) : Call → Prop
  | .dfree | .extend _ | .delete _ => True
  | .shrink id => (v.fds id).multi1 = id → ∃ l, FileChain d v id l ∧ AtPosition d l (v.fds id)
  | .place id ccl _ _ fpos _ =>
    ∃ l, FileChain d v (v.fds id).multi1 l ∧
      AtPosition d l { v.fds id with ccl := ccl, fpos := fpos }

/-- The first number that is not freed. -/
def freeLimit (ftype : FatType) : Nat :=
  match ftype with
  | .fat32 => 0xffffff0
  | .fat12 | .fat16 => 0xfff0

/-- All clusters that are to be freed are below the limit. -/
def Freeable (d : Drive) (v : Volume) : Call → Prop
  | .dfree | .extend _ | .place .. => True
  | .delete p => ∀ l, FileChain d v p l → ∀ c ∈ l, c < freeLimit d.ftype
  | .shrink id => Truncates v id → ∀ l, FileChain d v id l → ∀ c ∈ behind d v id l,
      c < freeLimit d.ftype

def step (d : Drive) (v : Volume) (c : Call) (w : Volume) : Prop :=
  Admissible d v c ∧ runCall d v c = some w

/-- The chains of all files end in an end mark, visit no cluster twice, have no cluster in
    common, and none of their clusters is free. -/
structure Separated (d : Drive) (v : Volume) (chains : Nat → List Nat) : Prop where
  chain : ∀ p, FileChain d v p (chains p)
  acyclic : ∀ p, (chains p).Nodup
  apart : ∀ p q c, c ∈ chains p → c ∈ chains q → p = q
  used : ∀ p, ∀ c ∈ chains p, rawEntry d.toDmd v.fat c ≠ 0

/-- A chain gets a cluster that was free: that of the file if the descriptor is in it. -/
def Appended (d : Drive) (v : Volume) (id : Nat) (chains chains' : Nat → List Nat) : Prop :=
  ∃ q n, IsCluster d n ∧ rawEntry d.toDmd v.fat n = 0 ∧
    chains' = Function.update chains q (chains q ++ [n]) ∧
    ((v.fds id).ccl = 0 ∨ (v.fds id).ccl ∈ chains (v.fds id).multi1 → q = (v.fds id).multi1)

/-- What a call does to the chains. -/
def Effect (d : Drive) (v : Volume) (chains : Nat → List Nat) (w : Volume)
    (chains' : Nat → List Nat) : Call → Prop
  | .dfree | .place .. => chains' = chains
  | .extend id => chains' = chains ∨ Appended d v id chains chains'
  | .delete p =>
    chains' = Function.update chains p [] ∧ ∀ c ∈ chains p, rawEntry d.toDmd w.fat c = 0
  | .shrink id =>
    (¬ Truncates v id → w = v ∧ chains' = chains) ∧
    (Truncates v id →
      chains' = Function.update chains id ((chains id).take (clustersTo d (v.fds id).fpos)) ∧
      ∀ c ∈ behind d v id (chains id), rawEntry d.toDmd w.fat c = 0)

section

variable {d : Drive} (ok : DriveOk d)
include ok

theorem chained_separated (v : Volume) (chains : Nat → List Nat) (h : Chained d v chains) :
    Separated d v chains :=
  ⟨h.chain, fun p => (h.chain p).nodup ok, h.apart, fun p => (h.chain p).used ok⟩

theorem goesOn_of_lt (c : Nat) (hc : IsCluster d c) (hlt : c < freeLimit d.ftype) :
    goesOn d.ftype c = true := by
  have h0 : c ≠ 0 := (cluster_ne_EOF ok c hc).2
  unfold goesOn
  unfold freeLimit at hlt
  cases hty : d.ftype with
  | fat12 =>
    simp only [hty] at hlt ⊢
    simp only [Bool.and_eq_true, decide_eq_true_eq]
    exact ⟨h0, by omega⟩
  | fat16 =>
    simp only [hty] at hlt ⊢
    simp only [Bool.and_eq_true, decide_eq_true_eq]
    exact ⟨h0, by omega⟩
  | fat32 =>
    simp only [hty] at hlt ⊢
    simp only [Bool.and_eq_true, decide_eq_true_eq]
    exact ⟨h0, hlt⟩

theorem takeWhile_all (l : List Nat) (hcl : ∀ c ∈ l, IsCluster d c)
    (hlt : ∀ c ∈ l, c < freeLimit d.ftype) : l.takeWhile (goesOn d.ftype) = l :=
  List.takeWhile_eq_self_iff.mpr fun c hc => goesOn_of_lt ok c (hcl c hc) (hlt c hc)

section

variable (v : Volume) (chains : Nat → List Nat) (h : Chained d v chains)

include h

theorem place_chained (id ccl csec clpos fpos len : Nat)
    (hadm : Admissible d v (.place id ccl csec clpos fpos len)) :
    Chained d (v.place id ccl csec clpos fpos len) chains := by
  rcases hadm with ⟨l, hl, hwithin, hccl⟩
  simp only at hwithin hccl
  -- The new cluster is one of the file, or there is none.
  have hnew : ccl ≠ EOF ∧ Stops d v.fat ccl := by
    cases hlast : (l.take (clustersTo d fpos)).getLast? with
    | none =>
      rw [List.getLastD_eq_getLast?, hlast] at hccl
      rw [hccl]
      exact ⟨zero_ne_EOF, Ends.stop 0 (.inl rfl)⟩
    | some x =>
      rw [List.getLastD_eq_getLast?, hlast] at hccl
      have hmem : x ∈ l := List.mem_of_mem_take (List.mem_of_getLast? hlast)
      have hends := ends_of_path _ (IsCluster d) (fun c => c = 0 ∨ c = EOF) _ _ l hl.path
        hl.clusters (.inr rfl)
      rw [show ccl = x from hccl]
      exact ⟨(cluster_ne_EOF ok x (hl.clusters x hmem)).1, hends.2 x hmem⟩
  have hmoved := h.setFd id { v.fds id with ccl := ccl, csec := csec, clpos := clpos, fpos := fpos }
    rfl hnew.1 hnew.2
  exact hmoved.setFd _ _ rfl (hmoved.stops _).1 (hmoved.stops _).2

theorem runCall_chained (c : Call) (hadm : Admissible d v c) :
    ∃ w chains', runCall d v c = some w ∧ Chained d w chains' ∧
      (Freeable d v c → Effect d v chains w chains' c) := by
  cases c with
  | dfree =>
    refine ⟨_, chains, rfl, ?_, fun _ => rfl⟩
    rw [dosfsDfree_eq ok]
    split
    · exact h
    · exact ⟨fun p => ⟨(h.chain p).path, (h.chain p).clusters⟩, h.apart, h.stops⟩
  | extend id =>
    rcases extend_chained ok v chains h id with ⟨chains', hch, heff⟩
    exact ⟨_, chains', rfl, hch, fun _ => heff⟩
  | delete p =>
    rcases delete_chained ok v chains h p with ⟨w, hr, hch, hrel, _⟩
    refine ⟨_, _, by simp only [runCall, hr, Option.map_some], hch, fun hfree =>
      ⟨rfl, fun c hc => ?_⟩⟩
    unfold Volume.setFd
    simp only
    rw [hrel.free, takeWhile_all ok _ (h.chain p).clusters (hfree _ (h.chain p))]
    exact .inl hc
  | shrink id =>
    by_cases ht : Truncates v id
    · rcases hadm ht.2.1 with ⟨l, hl, hat⟩
      rw [hl.unique ok (h.chain id)] at hat
      rcases shrink_chained ok v chains h id ht hat with ⟨w, hr, hch, hfree, _⟩
      refine ⟨w, _, by simp only [runCall, hr, Option.map_some], hch, fun hlow =>
        ⟨fun hn => absurd ht hn, fun _ => ⟨rfl, fun c hc => ?_⟩⟩⟩
      have hall := takeWhile_all ok (behind d v id (chains id))
        (fun c hc => (h.chain id).clusters c (List.mem_of_mem_drop hc)) (hlow ht _ (h.chain id))
      rw [hfree, hall]
      exact .inl hc
    · rcases fshrink_idle (d := d) v id ht with ⟨r, hr⟩
      refine ⟨v, chains, by simp only [runCall, hr, Option.map_some], h, fun _ =>
        ⟨fun _ => ⟨rfl, rfl⟩, fun h => absurd h ht⟩⟩
  | place id ccl csec clpos fpos len =>
    exact ⟨_, chains, rfl, place_chained ok v chains h id ccl csec clpos fpos len hadm,
      fun _ => rfl⟩

/-- A call has its effect and keeps the chains apart. -/
theorem call_effect (c : Call) (hadm : Admissible d v c) (hfree : Freeable d v c) :
    ∃ w chains', runCall d v c = some w ∧ Separated d w chains' ∧
      Effect d v chains w chains' c := by
  rcases runCall_chained ok v chains h c hadm with ⟨w, chains', hr, hch, heff⟩
  exact ⟨w, chains', hr, chained_separated ok w chains' hch, heff hfree⟩

end

theorem step_chained (v w : Volume) (c : Call) (h : ∃ chains, Chained d v chains)
    (hstep : step d v c w) : ∃ chains, Chained d w chains := by
  rcases h with ⟨chains, h⟩
  rcases runCall_chained ok v chains h c hstep.1 with ⟨w', chains', hr, hch, _⟩
  rw [hstep.2] at hr
  rw [Option.some.inj hr]
  exact ⟨chains', hch⟩

/-- In every run in which only clusters below the limit are to be freed, the chains stay
    apart and every call has its effect. -/
theorem chains_stay_apart (v w : Volume) (chains : Nat → List Nat) (calls : List Call)
    (h : Chained d v chains)
    (hrun : Runs.Run (fun v c w => step d v c w ∧ Freeable d v c) v calls w) :
    ∃ chains, Separated d w chains ∧ ∀ c, Admissible d w c → Freeable d w c →
      ∃ w' chains', runCall d w c = some w' ∧ Separated d w' chains' ∧
        Effect d w chains w' chains' c := by
  obtain ⟨chains', hch⟩ := Runs.run_preserves _ (fun v => ∃ chains, Chained d v chains)
    (fun v c w h hstep => step_chained ok v w c h hstep.1) v w calls hrun ⟨chains, h⟩
  exact ⟨chains', chained_separated ok w chains' hch,
    fun c hadm hfree => call_effect ok w chains' hch c hadm hfree⟩

end

/-- A drive with sectors of 512 bytes, one to a cluster, and a FAT of words. -/
def wordDrive (fsiz numcl : Nat) : Drive where
  ftype := .fat16
  lrecsiz := 9
  mrecsiz := 511
  fsiz := fsiz
  numcl := numcl
  recsiz := 512
  clsiz := 1
  clsizb := 512
  lclsiz := 0
  mclsiz := 0
  lclsizb := 9

theorem wordDrive_ok (fsiz numcl : Nat) (hf : fsiz ≤ 256) (hn : 2 < numcl)
    (hfits : numcl ≤ fsiz * 256) (hm : numcl ≤ 0xfff8) : DriveOk (wordDrive fsiz numcl) where
  geo := ⟨rfl, show 9 < 16 by decide, fun _ => show 2 ≤ 2 ^ 9 by decide, by
    show fsiz * 2 ^ 9 ≤ 2 ^ 32
    omega⟩
  recsiz := rfl
  sector := show 4 ≤ 9 by decide
  clusters := hn
  inFat := fun c hc => by
    have hc' : c < numcl := hc
    show 2 * c + 2 ≤ fsiz * 2 ^ 9
    omega
  marks := hm
  cluster := Nat.one_pos

/-- A FAT of words in which one cluster links to a second one and that is the last. -/
def pairFat (c n : Nat) : Sectors := fun s off =>
  let k := s * 512 + off
  if k = 2 * c then UInt8.ofNat n else if k = 2 * c + 1 then UInt8.ofNat (n / 256)
  else if k = 2 * n ∨ k = 2 * n + 1 then 0xff else 0

/-- A volume with one file of two clusters, at its beginning. -/
def pairVolume (c n : Nat) (nfree : Int) : Volume where
  fat := pairFat c n
  nfree := nfree
  firstFree := EOF
  fds := fun i => ⟨i, if i = 0 then c else 0, if i = 0 then 1024 else 0, false, 0, 0, 0, 0, true⟩

/-- The chains of that volume. -/
def pairChains (c n : Nat) : Nat → List Nat := fun p => if p = 0 then [c, n] else []

theorem pairVolume_chained (d : Drive) (c n : Nat) (nfree : Int) (hc : IsCluster d c)
    (hn : IsCluster d n) (hcn : link d.toDmd (pairFat c n) c = n)
    (hlast : link d.toDmd (pairFat c n) n = EOF) :
    Chained d (pairVolume c n nfree) (pairChains c n) := by
  refine ⟨fun p => ?_, fun p q b hp hq => ?_, fun id => ⟨zero_ne_EOF, Ends.stop 0 (.inl rfl)⟩⟩
  · by_cases hp : p = 0
    · subst hp
      have hc0 : c ≠ 0 := fun h0 => absurd hc.1 (by omega)
      have hfirst : first (pairVolume c n nfree) 0 = c := if_neg hc0
      refine ⟨?_, fun b hb => ?_⟩
      · rw [hfirst]
        exact ⟨rfl, hcn, hlast⟩
      · simp only [pairChains, if_true, List.mem_cons, List.not_mem_nil, or_false] at hb
        rcases hb with rfl | rfl
        · exact hc
        · exact hn
    · have hnil : pairChains c n p = [] := if_neg hp
      rw [hnil]
      have hs : ((pairVolume c n nfree).fds p).stcl = 0 := if_neg hp
      exact ⟨first_EOF hs, fun b hb => absurd hb List.not_mem_nil⟩
  · have hown : ∀ r, b ∈ pairChains c n r → r = 0 := fun r hr => by
      by_contra hne
      rw [show pairChains c n r = [] from if_neg hne] at hr
      exact absurd hr List.not_mem_nil
    rw [hown p hp, hown q hq]

theorem pairVolume_at (d : Drive) (hd : 0 < d.clsiz * d.recsiz) (c n : Nat) (nfree : Int)
    (h : Chained d (pairVolume c n nfree) (pairChains c n)) :
    Admissible d (pairVolume c n nfree) (.shrink 0) := by
  have hpos : clustersTo d ((pairVolume c n nfree).fds 0).fpos = 0 := by
    show (0 + d.clsiz * d.recsiz - 1) / (d.clsiz * d.recsiz) = 0
    rw [Nat.div_eq_zero_iff]
    omega
  refine fun _ => ⟨_, h.chain 0, ?_, ?_⟩
  · rw [hpos]
    exact Nat.zero_le _
  · rw [hpos]
    rfl

theorem pairVolume_freeable (d : Drive) (ok : DriveOk d) (nfree : Int)
    (h : Chained d (pairVolume 2 3 nfree) (pairChains 2 3)) :
    Freeable d (pairVolume 2 3 nfree) (.shrink 0) := by
  intro _ l hl c hc
  rw [hl.unique ok (h.chain 0)] at hc
  have hmem := List.mem_of_mem_drop hc
  simp only [pairChains, if_true, List.mem_cons, List.not_mem_nil, or_false] at hmem
  have hlimit : 4 ≤ freeLimit d.ftype := by
    cases d.ftype
    · decide
    · decide
    · decide
  rcases hmem with rfl | rfl
  · exact Nat.lt_of_lt_of_le (by decide) hlimit
  · exact Nat.lt_of_lt_of_le (by decide) hlimit

theorem chains_stay_apart_pair :
    ∃ w chains, Runs.Run (fun v c w => step (wordDrive 1 8) v c w ∧ Freeable (wordDrive 1 8) v c)
        (pairVolume 2 3 (-1)) [.shrink 0] w ∧ Separated (wordDrive 1 8) w chains ∧
        chains 0 = [] := by
  have ok := wordDrive_ok 1 8 (by decide) (by decide) (by decide) (by decide)
  have hch := pairVolume_chained (wordDrive 1 8) 2 3 (-1) ⟨by decide, by decide⟩
    ⟨by decide, by decide⟩ (by decide +kernel) (by decide +kernel)
  have hadm := pairVolume_at (wordDrive 1 8) (by decide) 2 3 _ hch
  have hfree := pairVolume_freeable (wordDrive 1 8) ok _ hch
  rcases call_effect ok _ _ hch (.shrink 0) hadm hfree with ⟨w, chains', hr, hsep, heff⟩
  have hrun : Runs.Run (fun v c w => step (wordDrive 1 8) v c w ∧ Freeable (wordDrive 1 8) v c)
      (pairVolume 2 3 (-1)) [.shrink 0] w :=
    Runs.Run.cons _ w w _ [] ⟨⟨hadm, hr⟩, hfree⟩ (Runs.Run.nil w)
  rcases chains_stay_apart ok _ w _ _ hch hrun with ⟨chains, hsep', _⟩
  refine ⟨w, chains, hrun, hsep', ?_⟩
  rw [(hsep'.chain 0).unique ok (hsep.chain 0), (heff.2 ⟨by decide, rfl, rfl⟩).1,
    Function.update_self]
  rfl

/-- A file with the clusters 5 and `$fff3` is cut off at its beginning, and the second
    one is not freed. -/
theorem high_cluster_kept :
    ∃ w, Chained (wordDrive 256 0xfff6) (pairVolume 5 0xfff3 (-1)) (pairChains 5 0xfff3) ∧
      step (wordDrive 256 0xfff6) (pairVolume 5 0xfff3 (-1)) (.shrink 0) w ∧
      ∀ chains', ¬ Effect (wordDrive 256 0xfff6) (pairVolume 5 0xfff3 (-1)) (pairChains 5 0xfff3) w
        chains' (.shrink 0) := by
  have hch := pairVolume_chained (wordDrive 256 0xfff6) 5 0xfff3 (-1) ⟨by decide, by decide⟩
    ⟨by decide, by decide⟩ (by decide +kernel) (by decide +kernel)
  have hkept : (runCall (wordDrive 256 0xfff6) (pairVolume 5 0xfff3 (-1)) (.shrink 0)).map
      (fun w => rawEntry (wordDrive 256 0xfff6).toDmd w.fat 0xfff3) = some 0xffff := by
    decide +kernel
  rcases Option.map_eq_some_iff.mp hkept with ⟨w, hw, hraw⟩
  refine ⟨w, hch, ⟨pairVolume_at _ (by decide) 5 0xfff3 _ hch, hw⟩, fun chains' heff => ?_⟩
  have hzero := (heff.2 ⟨by decide, rfl, rfl⟩).2 0xfff3 (by decide)
  rw [hraw] at hzero
  exact absurd hzero (by decide)

end Fat

end MagiC
