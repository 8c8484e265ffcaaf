import MagiC.Fat.Separate

/-!
# No Cluster Is Lost

Every cluster is free or belongs to one file.

A cluster that is marked as used and on no chain is lost. `f_extend` reserves a cluster and
then links it to the one the descriptor is in, without a look at whether that still belongs
to the file. `Fshrink` does not move the other descriptors of the file, so one of them may be
left in a cluster that has been freed, or taken by another file.

## Main definitions

* `Complete`: Every cluster that is used is on a chain.

## Theorems

* `no_cluster_lost`: Nor does a run.
-/

namespace MagiC

namespace Fat

open Chains

/-- Every cluster that is used is on the chain of a file. -/
def Complete (d : Drive) (v : Volume) (chains : Nat → List Nat) : Prop :=
  ∀ c, IsCluster d c → rawEntry d.toDmd v.fat c ≠ 0 → ∃ p, c ∈ chains p

/-- A descriptor that is extended is in a cluster of its file, or in front of the first. -/
def Attached (d : Drive) (v : Volume) : Call → Prop
  | .extend id => ∀ l, FileChain d v (v.fds id).multi1 l → (v.fds id).ccl = 0 ∨ (v.fds id).ccl ∈ l
  | .dfree | .delete _ | .shrink _ | .place .. => True

/-- The clusters to be freed are taken for clusters, and only attached descriptors extended. -/
def Careful (d : Drive) (v : Volume) (c : Call) (w : Volume) : Prop :=
  step d v c w ∧ Freeable d v c ∧ Attached d v c

section

variable {d : Drive} (ok : DriveOk d) {v : Volume} {chains : Nat → List Nat}
include ok

/-- The cluster that is reserved comes to the file, and all others were used before. -/
theorem extend_takes (h : Chained d v chains) (id : Nat)
    (hat : (v.fds id).ccl = 0 ∨ (v.fds id).ccl ∈ chains (v.fds id).multi1) {m : List Nat}
    (hm : FileChain d (fExtend d v id true).1 (v.fds id).multi1 m)
    (hsub : ∀ c ∈ chains (v.fds id).multi1, c ∈ m) (c : Nat)
    (hc : rawEntry d.toDmd (fExtend d v id true).1.fat c ≠ 0) :
    rawEntry d.toDmd v.fat c ≠ 0 ∨ c ∈ m := by
  have hccl := h.ccl id
  rcases fExtend_cases ok v id hccl with ⟨_, hr⟩ | ⟨_, v', e, hr, _, hfull⟩ | ⟨_, v', n, hres, hr⟩
  · rw [hr] at hc
    exact .inl hc
  · rw [hr] at hc
    rw [← hfull.fat]
    exact .inl hc
  · have hn := (cluster_ne_EOF ok n hres.cluster).1
    rw [hr] at hm hc
    by_cases h0 : (v.fds id).ccl = 0
    · -- The file begins with the new cluster.
      have hfirst : first (fexSeeknxt d (fexFound d v' (v.fds id).multi1 (v.fds id).ccl n) id n)
          (v.fds id).multi1 = n := by
        unfold first fexSeeknxt fexFound Volume.setFd
        by_cases hid : (v.fds id).multi1 = id <;>
          simp [h0, hid, (cluster_ne_EOF ok n hres.cluster).2]
      have hmem : n ∈ m := by
        have hpath := hm.path
        rw [hfirst] at hpath
        cases m with
        | nil => exact absurd hpath hn
        | cons x xs => exact hpath.1 ▸ List.mem_cons_self
      have hfat : (fexSeeknxt d (fexFound d v' (v.fds id).multi1 (v.fds id).ccl n) id n).fat
          = v'.fat := by simp [fexSeeknxt, fexFound, Volume.setFd, h0]
      rw [hfat, Ne, hres.entered.free, not_and_or, not_not] at hc
      exact hc.elim (fun heq => .inr (heq ▸ hmem)) .inl
    · have hold := hat.resolve_left h0
      have hent := entered_cluster ok v'.fat _ n (hccl.resolve_left h0) hres.cluster
      have hfat : (fexSeeknxt d (fexFound d v' (v.fds id).multi1 (v.fds id).ccl n) id n).fat
          = writeFat d.toDmd v'.fat (v.fds id).ccl n := by
        simp [fexSeeknxt, fexFound, Volume.setFd, h0]
      have hmem : n ∈ m := by
        have hnext := path_next _ _ _ m hm.path _ (hsub _ hold)
        rw [hfat, hent.link, Function.update_self] at hnext
        exact hnext.resolve_right hn
      rw [hfat, Ne, hent.free, hres.entered.free, not_and_or, not_not, not_and_or, not_not] at hc
      rcases hc with rfl | rfl | hc
      · exact .inr (hsub _ hold)
      · exact .inr hmem
      · exact .inl hc

theorem call_complete (h : Chained d v chains) (hall : Complete d v chains) {w : Volume} {c : Call}
    (hstep : step d v c w) (hfree : Freeable d v c) (hat : Attached d v c) :
    ∃ chains', Chained d w chains' ∧ Complete d w chains' := by
  rcases runCall_chained ok v chains h c hstep.1 with ⟨w', chains', hr, hch, heff⟩
  have heff' := heff hfree
  rw [hstep.2] at hr
  cases hr
  refine ⟨chains', hch, fun x hx hused => ?_⟩
  have hrun := hstep.2
  cases c with
  | dfree =>
    rw [show chains' = chains from heff']
    refine hall x hx ?_
    rw [← Option.some.inj hrun, dosfsDfree_eq ok] at hused
    split at hused
    · exact hused
    · exact hused
  | place id ccl csec clpos fpos len =>
    rw [show chains' = chains from heff']
    refine hall x hx ?_
    rwa [← Option.some.inj hrun] at hused
  | extend id =>
    have hw : w = (fExtend d v id true).1 := (Option.some.inj hrun).symm
    have hsub : ∀ p, ∀ b ∈ chains p, b ∈ chains' p := by
      intro p b hb
      rcases heff' with rfl | ⟨q, n, _, _, rfl, _⟩
      · exact hb
      · by_cases hq : p = q
        · rw [hq, Function.update_self]
          exact List.mem_append_left _ (hq ▸ hb)
        · rwa [Function.update_of_ne hq]
    rw [hw] at hused hch
    rcases extend_takes ok h id (hat _ (h.chain _)) (hch.chain _) (hsub _) x hused with hold | hnew
    · rcases hall x hx hold with ⟨p, hp⟩
      exact ⟨p, hsub p x hp⟩
    · exact ⟨_, hnew⟩
  | delete p =>
    rcases heff' with ⟨rfl, hzero⟩
    rcases delete_chained ok v chains h p with ⟨u, hu, _, hrel, _⟩
    simp only [runCall, hu, Option.map_some, Option.some.injEq] at hrun
    rw [← hrun] at hused hzero
    rcases hall x hx fun h0 => hused ((hrel.free x).mpr (.inr h0)) with ⟨q, hq⟩
    refine ⟨q, ?_⟩
    rw [Function.update_of_ne]
    · exact hq
    · rintro rfl
      exact hused (hzero x hq)
  | shrink id =>
    by_cases ht : Truncates v id
    · rcases heff'.2 ht with ⟨rfl, hzero⟩
      rcases hstep.1 ht.2.1 with ⟨l, hl, hpos⟩
      rw [hl.unique ok (h.chain id)] at hpos
      rcases shrink_chained ok v chains h id ht hpos with ⟨u, hu, _, hraw, _⟩
      simp only [runCall, hu, Option.map_some, Option.some.injEq] at hrun
      rw [← hrun] at hused hzero
      rcases hall x hx fun h0 => hused ((hraw x).mpr (.inr h0)) with ⟨q, hq⟩
      refine ⟨q, ?_⟩
      by_cases hqi : q = id
      · -- What is not kept has been freed.
        subst hqi
        rw [← List.take_append_drop (clustersTo d (v.fds q).fpos) (chains q)] at hq
        rw [Function.update_self]
        exact (List.mem_append.mp hq).resolve_right fun hdrop => hused (hzero x hdrop)
      · rwa [Function.update_of_ne hqi]
    · rcases heff'.1 ht with ⟨rfl, rfl⟩
      exact hall x hx hused

/-- After a run of careful calls a cluster is free and on no chain, or it is used and on the
    chain of one file. -/
theorem no_cluster_lost {w : Volume} {calls : List Call} (h : Chained d v chains)
    (hall : Complete d v chains)
    (hrun : Runs.Run (Careful d) v calls w) :
    ∃ chains, Separated d w chains ∧ ∀ c, IsCluster d c →
      (rawEntry d.toDmd w.fat c = 0 ∧ ∀ p, c ∉ chains p) ∨
        (rawEntry d.toDmd w.fat c ≠ 0 ∧ ∃! p, c ∈ chains p) := by
  obtain ⟨chains', hch, hall'⟩ := Runs.run_preserves _
    (fun v => ∃ chains, Chained d v chains ∧ Complete d v chains)
    (fun v c w hv hstep => by
      rcases hv with ⟨chains, hch, hall⟩
      exact call_complete ok hch hall hstep.1 hstep.2.1 hstep.2.2)
    v w calls hrun ⟨chains, h, hall⟩
  refine ⟨chains', chained_separated ok w chains' hch, fun c hc => ?_⟩
  by_cases h0 : rawEntry d.toDmd w.fat c = 0
  · exact .inl ⟨h0, fun p hp => (hch.chain p).used ok c hp h0⟩
  · rcases hall' c hc h0 with ⟨p, hp⟩
    exact .inr ⟨h0, p, hp, fun q hq => hch.apart q p c hq hp⟩

end

/-- A file of two clusters is cut off at its beginning. -/
theorem no_cluster_lost_pair :
    ∃ w, Runs.Run (Careful (wordDrive 1 8)) (pairVolume 2 3 (-1)) [.shrink 0] w ∧
      ∃ chains, Separated (wordDrive 1 8) w chains ∧ ∀ c, IsCluster (wordDrive 1 8) c →
        (rawEntry (wordDrive 1 8).toDmd w.fat c = 0 ∧ ∀ p, c ∉ chains p) ∨
          (rawEntry (wordDrive 1 8).toDmd w.fat c ≠ 0 ∧ ∃! p, c ∈ chains p) := by
  have ok := wordDrive_ok 1 8 (by decide) (by decide) (by decide) (by decide)
  have hch := pairVolume_chained (wordDrive 1 8) 2 3 (-1) ⟨by decide, by decide⟩
    ⟨by decide, by decide⟩ (by decide +kernel) (by decide +kernel)
  have hadm := pairVolume_at (wordDrive 1 8) (by decide) 2 3 _ hch
  have hused : ∀ c < 8, rawEntry (wordDrive 1 8).toDmd (pairVolume 2 3 (-1)).fat c ≠ 0 →
      c ∈ pairChains 2 3 0 := by decide +kernel
  rcases runCall_chained ok _ _ hch (.shrink 0) hadm with ⟨w, _, hr, -⟩
  have hcare : Careful (wordDrive 1 8) (pairVolume 2 3 (-1)) (.shrink 0) w :=
    ⟨⟨hadm, hr⟩, pairVolume_freeable _ ok _ hch, trivial⟩
  have hrun := Runs.Run.cons _ w w _ [] hcare (Runs.Run.nil w)
  exact ⟨w, hrun, no_cluster_lost ok hch (fun c hc h => ⟨0, hused c hc.2 h⟩) hrun⟩

end Fat

end MagiC
