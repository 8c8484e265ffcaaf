import Mathlib.Data.List.Perm.Subperm
import MagiC.Fat.Alloc
import MagiC.Lib.Chain

/-!
# The Chains of a Volume

What the routines do to the chains of all files at once.

`Chained` is the invariant: the chains of the files are paths in the FAT that lead to
an end mark, and no cluster is in two of them. Descriptors point to a cluster from which
the links lead to a stop. It need not be a cluster of the file any more: a file may be cut
off while another descriptor of it is open.

The routines that free a chain do so until they come to a cluster that they do not
take for one (`goesOn`). What they free is `Released`, and nothing else changes.

## Main definitions

* `AtPosition`: A descriptor whose current cluster is the one its position lies behind.

## Theorems

* `delete_chained`: `dosf_delete` takes the whole chain.
-/

namespace MagiC

namespace Fat

open Chains

/-- The first cluster of a file, or the end mark if it has none. -/
def first (v : Volume) (p : Nat) : Nat := if (v.fds p).stcl = 0 then EOF else (v.fds p).stcl

/-- The clusters of a file. -/
structure FileChain (d : Drive) (v : Volume) (p : Nat) (l : List Nat) : Prop where
  path : Path (link d.toDmd v.fat) (first v p) l EOF
  clusters : ∀ c ∈ l, IsCluster d c

/-- The links lead to an end mark or to cluster 0. -/
def Stops (d : Drive) (fat : Sectors) (c : Nat) : Prop :=
  Ends (link d.toDmd fat) (IsCluster d) (fun c => c = 0 ∨ c = EOF) c

/-- The chains of all files. -/
structure Chained (d : Drive) (v : Volume) (chains : Nat → List Nat) : Prop where
  chain : ∀ p, FileChain d v p (chains p)
  apart : ∀ p q c, c ∈ chains p → c ∈ chains q → p = q
  stops : ∀ id, (v.fds id).ccl ≠ EOF ∧ Stops d v.fat (v.fds id).ccl

/-- The number of clusters up to a position. -/
def clustersTo (d : Drive) (pos : Nat) : Nat :=
  (pos + d.clsiz * d.recsiz - 1) / (d.clsiz * d.recsiz)

/-- The current cluster of a descriptor is the last one up to its position. -/
structure AtPosition (d : Drive) (l : List Nat) (fd : Fd) : Prop where
  within : clustersTo d fd.fpos ≤ l.length
  ccl : fd.ccl = (l.take (clustersTo d fd.fpos)).getLastD 0

/-- Some clusters have been freed. -/
structure Released (drv : Dmd) (fat fat' : Sectors) (l : List Nat) : Prop where
  link : ∀ b, link drv fat' b = if b ∈ l then 0 else link drv fat b
  free : ∀ b, rawEntry drv fat' b = 0 ↔ b ∈ l ∨ rawEntry drv fat b = 0

theorem zero_ne_EOF : (0 : Nat) ≠ EOF := by decide

section

variable {d : Drive} (ok : DriveOk d)
include ok

theorem EOF_not_mem (l : List Nat) (h : ∀ c ∈ l, IsCluster d c) : EOF ∉ l :=
  fun hm => (cluster_ne_EOF ok EOF (h EOF hm)).1 rfl

theorem FileChain.nodup {v : Volume} {p : Nat} {l : List Nat} (h : FileChain d v p l) : l.Nodup :=
  path_nodup _ _ _ l h.path (EOF_not_mem ok l h.clusters)

theorem FileChain.unique {v : Volume} {p : Nat} {l m : List Nat} (hl : FileChain d v p l)
    (hm : FileChain d v p m) : l = m :=
  path_unique _ _ _ l m hl.path hm.path (EOF_not_mem ok l hl.clusters)
    (EOF_not_mem ok m hm.clusters)

theorem FileChain.used {v : Volume} {p : Nat} {l : List Nat} (h : FileChain d v p l) :
    ∀ c ∈ l, rawEntry d.toDmd v.fat c ≠ 0 := by
  intro c hc
  refine raw_of_link d.toDmd v.fat c fun h0 => ?_
  rcases path_next _ _ _ l h.path c hc with hmem | hend
  · exact (cluster_ne_EOF ok _ (h.clusters _ hmem)).2 h0
  · rw [h0] at hend
    exact absurd hend (by decide)

theorem length_lt_numcl (l : List Nat) (hnd : l.Nodup) (h : ∀ c ∈ l, IsCluster d c) :
    l.length < d.numcl := by
  have hsub : l ⊆ List.range' 2 (d.numcl - 2) := fun c hc => by
    rcases h c hc with ⟨h2, hlt⟩
    rw [List.mem_range'_1]
    omega
  have hle := (List.subperm_of_subset hnd hsub).length_le
  have hn := ok.clusters
  rw [List.length_range'] at hle
  omega

omit ok in
theorem first_EOF {v : Volume} {p : Nat} (h : (v.fds p).stcl = 0) : first v p = EOF := by
  unfold first
  rw [if_pos h]

theorem FileChain.nil {v : Volume} {p : Nat} {l : List Nat} (h : FileChain d v p l)
    (h0 : first v p = EOF) : l = [] := by
  cases l with
  | nil => rfl
  | cons x xs =>
    have hx : first v p = x := h.path.1
    exact absurd (hx.symm.trans h0) (cluster_ne_EOF ok x (h.clusters x List.mem_cons_self)).1

theorem fexNext_eq (v : Volume) (id : Nat)
    (hccl : (v.fds id).ccl = 0 ∨ IsCluster d (v.fds id).ccl) :
    fexNext d v id = if (v.fds id).ccl = 0 then first v (v.fds id).multi1
      else link d.toDmd v.fat (v.fds id).ccl := by
  unfold fexNext first
  simp only
  by_cases h0 : (v.fds id).ccl = 0
  · rw [if_neg (not_not_intro h0), if_pos h0]
    by_cases hs : (v.fds (v.fds id).multi1).stcl = 0
    · rw [if_neg (not_not_intro hs), if_pos hs]
    · rw [if_pos hs, if_neg hs]
  · rw [if_pos h0, if_neg h0]
    exact readFat_eq d.toDmd v.fat ok.geo _ (ok.inFat _ (hccl.resolve_left h0).2)

omit ok in
theorem Chained.ccl {v : Volume} {chains : Nat → List Nat} (h : Chained d v chains) (id : Nat) :
    (v.fds id).ccl = 0 ∨ IsCluster d (v.fds id).ccl := by
  rcases h.stops id with ⟨hne, hstops⟩
  cases hstops with
  | stop _ hs => exact .inl (hs.resolve_right hne)
  | link _ hc _ => exact .inr hc

omit ok in
theorem Chained.setFd {v : Volume} {chains : Nat → List Nat} (h : Chained d v chains) (id : Nat)
    (fd : Fd) (hstcl : fd.stcl = (v.fds id).stcl) (hne : fd.ccl ≠ EOF)
    (hstops : Stops d v.fat fd.ccl) : Chained d (v.setFd id fd) chains := by
  have hfirst : ∀ p, first (v.setFd id fd) p = first v p := fun p => by
    unfold first Volume.setFd
    simp only
    by_cases hp : p = id
    · rw [hp, Function.update_self, hstcl]
    · rw [Function.update_of_ne hp]
  refine ⟨fun p => ⟨?_, (h.chain p).clusters⟩, h.apart, fun i => ?_⟩
  · rw [hfirst p]
    exact (h.chain p).path
  · unfold Volume.setFd
    simp only
    by_cases hi : i = id
    · rw [hi, Function.update_self]
      exact ⟨hne, hstops⟩
    · rw [Function.update_of_ne hi]
      exact h.stops i

omit ok in
theorem stops_entered (fat fat' : Sectors) (c x : Nat) (h : Entered d.toDmd fat fat' c x)
    (hx : x = EOF ∨ IsCluster d x ∧ link d.toDmd fat' x = EOF) (a : Nat) (ha : Stops d fat a) :
    Stops d fat' a := by
  refine ends_mono (link d.toDmd fat) _ _ _ (fun b _ => ?_) a ha
  rw [h.link]
  by_cases hb : b = c
  · right
    rw [hb, Function.update_self]
    rcases hx with rfl | ⟨hcl, hend⟩
    · exact Ends.stop _ (.inr rfl)
    · rw [h.link] at hend
      refine Ends.link x hcl ?_
      rw [hend]
      exact Ends.stop _ (.inr rfl)
  · left
    exact Function.update_of_ne hb ..

theorem Chained.reserve {v v' : Volume} {chains : Nat → List Nat} (h : Chained d v chains) (n : Nat)
    (hres : Reserved d v v' n) :
    Chained d v' chains ∧ (∀ p, n ∉ chains p) ∧ link d.toDmd v'.fat n = EOF := by
  have hnot : ∀ p, n ∉ chains p := fun p hn => (h.chain p).used ok n hn hres.free
  have hfirst : ∀ p, first v' p = first v p := fun p => by
    unfold first
    rw [hres.fds]
  refine ⟨⟨fun p => ⟨?_, (h.chain p).clusters⟩, h.apart, fun id => ?_⟩, hnot, ?_⟩
  · rw [hfirst p]
    refine path_congr _ _ _ _ _ (fun c hc => ?_) (h.chain p).path
    have hcn : c ≠ n := fun heq => hnot p (heq ▸ hc)
    rw [hres.entered.link, Function.update_of_ne hcn]
  · rw [hres.fds]
    exact ⟨(h.stops id).1, stops_entered _ _ n EOF hres.entered (.inl rfl) _ (h.stops id).2⟩
  · rw [hres.entered.link, Function.update_self]

theorem Chained.append {v v' : Volume} {chains : Nat → List Nat}
    (h : Chained d v chains) (c n : Nat)
    (hn : IsCluster d n) (hend : link d.toDmd v.fat c = EOF)
    (hnot : ∀ p, n ∉ chains p) (hnend : link d.toDmd v.fat n = EOF)
    (hcn : c ≠ n) (hent : Entered d.toDmd v.fat v'.fat c n) (hfds : v'.fds = v.fds) :
    ∃ chains', Chained d v' chains' ∧
      (chains' = chains ∧ (∀ p, c ∉ chains p) ∨
        ∃ q, c ∈ chains q ∧ chains' = Function.update chains q (chains q ++ [n])) := by
  have hfirst : ∀ p, first v' p = first v p := fun p => by
    unfold first
    rw [hfds]
  have hnend' : link d.toDmd v'.fat n = EOF := by
    rw [hent.link, Function.update_of_ne fun heq => hcn heq.symm]
    exact hnend
  have hstops : ∀ id, (v'.fds id).ccl ≠ EOF ∧ Stops d v'.fat (v'.fds id).ccl := fun id => by
    rw [hfds]
    exact ⟨(h.stops id).1, stops_entered _ _ c n hent (.inr ⟨hn, hnend'⟩) _ (h.stops id).2⟩
  -- Chains without the cluster stay as they are.
  have hother : ∀ p, c ∉ chains p → FileChain d v' p (chains p) := fun p hp => by
    refine ⟨?_, (h.chain p).clusters⟩
    rw [hfirst p]
    refine path_congr _ _ _ _ _ (fun b hb => ?_) (h.chain p).path
    have hbc : b ≠ c := fun heq => hp (heq ▸ hb)
    rw [hent.link, Function.update_of_ne hbc]
  by_cases hin : ∃ q, c ∈ chains q
  · rcases hin with ⟨q, hq⟩
    refine ⟨_, ⟨fun p => ?_, fun p r b hp hr => ?_, hstops⟩, .inr ⟨q, hq, rfl⟩⟩
    · by_cases hpq : p = q
      · subst hpq
        rw [Function.update_self]
        obtain ⟨m, hm⟩ := path_last _ _ _ c _ (h.chain p).path
          (EOF_not_mem ok _ (h.chain p).clusters) hq hend
        have hpath := (h.chain p).path
        have hnd := (h.chain p).nodup ok
        rw [hm] at hpath hnd
        have hcm : ∀ b ∈ m, link d.toDmd v'.fat b = link d.toDmd v.fat b := fun b hb => by
          rw [hent.link, Function.update_of_ne fun heq =>
            (List.nodup_append.mp hnd).2.2 b hb c (List.mem_singleton.mpr rfl) heq]
        have hcut := path_relink _ (link d.toDmd v'.fat) _ _ c m hcm hpath
        refine ⟨?_, ?_⟩
        · rw [hfirst p, hm]
          refine (path_append _ _ _ _ [n]).mpr ⟨_, hcut, ?_⟩
          have hlink : link d.toDmd v'.fat c = n := by rw [hent.link, Function.update_self]
          exact ⟨hlink, hnend'⟩
        · intro b hb
          rcases List.mem_append.mp hb with hb | hb
          · exact (h.chain p).clusters b hb
          · rw [List.mem_singleton.mp hb]
            exact hn
      · rw [Function.update_of_ne hpq]
        exact hother p fun hp => hpq (h.apart p q c hp hq)
    · -- The new cluster was in no chain.
      have hmem : ∀ s, b ∈ Function.update chains q (chains q ++ [n]) s →
          b ∈ chains s ∨ b = n ∧ s = q := fun s hs => by
        by_cases hsq : s = q
        · subst hsq
          rw [Function.update_self] at hs
          rcases List.mem_append.mp hs with hs | hs
          · exact .inl hs
          · exact .inr ⟨List.mem_singleton.mp hs, rfl⟩
        · rw [Function.update_of_ne hsq] at hs
          exact .inl hs
      rcases hmem p hp with hp | ⟨hbn, hpq⟩
      · rcases hmem r hr with hr | ⟨hbn, _⟩
        · exact h.apart p r b hp hr
        · exact absurd (hbn ▸ hp) (hnot p)
      · rcases hmem r hr with hr | ⟨_, hrq⟩
        · exact absurd (hbn ▸ hr) (hnot r)
        · rw [hpq, hrq]
  · have hno : ∀ p, c ∉ chains p := fun p hp => hin ⟨p, hp⟩
    exact ⟨chains, ⟨fun p => hother p (hno p), h.apart, hstops⟩, .inl ⟨rfl, hno⟩⟩

theorem Chained.start {v : Volume} {chains : Nat → List Nat} (h : Chained d v chains) (p n : Nat)
    (hn : IsCluster d n) (hp : first v p = EOF) (hnot : ∀ q, n ∉ chains q)
    (hnend : link d.toDmd v.fat n = EOF) :
    Chained d (v.setFd p { v.fds p with stcl := n, dirch := true })
      (Function.update chains p [n]) := by
  have hnil : chains p = [] := (h.chain p).nil ok hp
  have hn0 : n ≠ 0 := (cluster_ne_EOF ok n hn).2
  refine ⟨fun q => ?_, fun q r b hq hr => ?_, fun id => ?_⟩
  · by_cases hqp : q = p
    · subst hqp
      rw [Function.update_self]
      refine ⟨?_, fun c hc => (List.mem_singleton.mp hc) ▸ hn⟩
      have hfirst : first (v.setFd q { v.fds q with stcl := n, dirch := true }) q = n := by
        unfold first Volume.setFd
        simp only [Function.update_self, if_neg hn0]
      rw [hfirst]
      exact ⟨rfl, hnend⟩
    · rw [Function.update_of_ne hqp]
      have hfirst : first (v.setFd p { v.fds p with stcl := n, dirch := true }) q = first v q := by
        unfold first Volume.setFd
        simp only [Function.update_of_ne hqp]
      refine ⟨?_, (h.chain q).clusters⟩
      rw [hfirst]
      exact (h.chain q).path
  · have hmem : ∀ s, b ∈ Function.update chains p [n] s → b ∈ chains s ∨ b = n ∧ s = p :=
      fun s hs => by
        by_cases hsp : s = p
        · subst hsp
          rw [Function.update_self] at hs
          exact .inr ⟨List.mem_singleton.mp hs, rfl⟩
        · rw [Function.update_of_ne hsp] at hs
          exact .inl hs
    rcases hmem q hq with hq | ⟨hbn, hqp⟩
    · rcases hmem r hr with hr | ⟨hbn, _⟩
      · exact h.apart q r b hq hr
      · exact absurd (hbn ▸ hq) (hnot q)
    · rcases hmem r hr with hr | ⟨_, hrp⟩
      · exact absurd (hbn ▸ hr) (hnot r)
      · rw [hqp, hrp]
  · unfold Volume.setFd
    simp only
    by_cases hid : id = p
    · rw [hid, Function.update_self]
      exact h.stops p
    · rw [Function.update_of_ne hid]
      exact h.stops id

/-- What `f_extend` does to the chains: nothing, or a cluster that was free is
    appended to the chain the descriptor is at the end of. -/
theorem extend_chained (v : Volume) (chains : Nat → List Nat) (h : Chained d v chains) (id : Nat) :
    ∃ chains', Chained d (fExtend d v id true).1 chains' ∧
      (chains' = chains ∨ ∃ q n, IsCluster d n ∧ rawEntry d.toDmd v.fat n = 0 ∧
        chains' = Function.update chains q (chains q ++ [n]) ∧
        ((v.fds id).ccl = 0 ∨ (v.fds id).ccl ∈ chains (v.fds id).multi1 →
          q = (v.fds id).multi1)) := by
  have hccl := h.ccl id
  have hnext := fexNext_eq ok v id hccl
  rcases fExtend_cases ok v id hccl with ⟨hne, hr⟩ | ⟨hend, v', e, hr, he, hfull⟩ |
    ⟨hend, v', n, hres, hr⟩
  · -- The descriptor moves to the next cluster.
    rw [hr]
    refine ⟨chains, h.setFd id _ rfl hne ?_, .inl rfl⟩
    simp only
    rw [hnext]
    split
    · have hends := ends_of_path _ (IsCluster d) (fun c => c = 0 ∨ c = EOF) _ _ _
        (h.chain (v.fds id).multi1).path (h.chain (v.fds id).multi1).clusters (.inr rfl)
      exact hends.1
    · rename_i h0
      cases (h.stops id).2 with
      | stop _ hs => exact absurd (hs.resolve_right (h.stops id).1) h0
      | link _ _ hends => exact hends
  · rw [hr]
    refine ⟨chains, ⟨fun p => ⟨?_, (h.chain p).clusters⟩, h.apart, fun i => ?_⟩, .inl rfl⟩
    · have hfirst : first v' p = first v p := by
        unfold first
        rw [hfull.fds]
      rw [hfirst, hfull.fat]
      exact (h.chain p).path
    · rw [hfull.fds, hfull.fat]
      exact h.stops i
  · rw [hr]
    rw [hnext] at hend
    rcases h.reserve ok n hres with ⟨h', hnot, hnend⟩
    -- In both cases the descriptor moves to the new cluster at last.
    have hmove : ∀ (w : Volume) (chains' : Nat → List Nat), Chained d w chains' →
        link d.toDmd w.fat n = EOF → Chained d (fexSeeknxt d w id n) chains' :=
      fun w chains' hw hlast => hw.setFd id _ rfl (cluster_ne_EOF ok n hres.cluster).1
        (Ends.link n hres.cluster (hlast.symm ▸ Ends.stop _ (.inr rfl)))
    -- Counting the cluster changes no chain.
    have hcw : Chained d { v' with nfree := countDown v'.nfree } chains :=
      ⟨fun p => ⟨(h'.chain p).path, (h'.chain p).clusters⟩, h'.apart, h'.stops⟩
    unfold fexFound
    simp only
    by_cases h0 : (v.fds id).ccl = 0
    · rw [if_pos h0] at hend ⊢
      have hfirst : first v' (v.fds id).multi1 = EOF := by
        unfold first at hend ⊢
        rw [hres.fds]
        exact hend
      have hnil : chains (v.fds id).multi1 = [] := (h'.chain _).nil ok hfirst
      refine ⟨_, hmove _ _ (hcw.start ok _ n hres.cluster hfirst hnot hnend) hnend, .inr ?_⟩
      exact ⟨_, n, hres.cluster, hres.free, by rw [hnil, List.nil_append], fun _ => rfl⟩
    · rw [if_neg h0] at hend ⊢
      have hc := hccl.resolve_left h0
      have hcn : (v.fds id).ccl ≠ n := fun heq => by
        rw [heq, link_of_free d.toDmd v.fat n hres.free] at hend
        exact absurd hend (by decide)
      have hcend : link d.toDmd v'.fat (v.fds id).ccl = EOF := by
        rw [hres.entered.link, Function.update_of_ne hcn]
        exact hend
      have hent := entered_cluster ok v'.fat (v.fds id).ccl n hc hres.cluster
      let v1 : Volume :=
        { v' with nfree := countDown v'.nfree
                  fat := writeFat d.toDmd v'.fat (v.fds id).ccl n }
      have hfds1 : v1.fds = v'.fds := rfl
      obtain ⟨chains', hch, hcases⟩ :=
        Chained.append ok hcw _ n hres.cluster hcend hnot hnend hcn hent hfds1
      refine ⟨chains', hmove _ _ hch ?_, ?_⟩
      · simp only
        rw [hent.link, Function.update_of_ne fun heq => hcn heq.symm]
        exact hnend
      · rcases hcases with ⟨rfl, hout⟩ | ⟨q, hq, rfl⟩
        · exact .inl rfl
        · refine .inr ⟨q, n, hres.cluster, hres.free, rfl, fun hown => ?_⟩
          exact h.apart q _ _ hq (hown.resolve_left h0)

omit ok in
theorem released_nil (drv : Dmd) (fat : Sectors) : Released drv fat fat [] :=
  ⟨fun _ => (if_neg List.not_mem_nil).symm,
    fun _ => ⟨.inr, fun h => h.resolve_left List.not_mem_nil⟩⟩

omit ok in
theorem released_cons (drv : Dmd) (fat fat1 fat2 : Sectors) (c : Nat) (l : List Nat)
    (h1 : Freed drv fat fat1 c) (h2 : Released drv fat1 fat2 l) : Released drv fat fat2
      (c :: l) := by
  refine ⟨fun b => ?_, fun b => ?_⟩
  · rw [h2.link, h1.link]
    by_cases hl : b ∈ l
    · rw [if_pos hl, if_pos (List.mem_cons_of_mem _ hl)]
    · rw [if_neg hl, Function.update_apply]
      by_cases hc : b = c
      · rw [if_pos hc, if_pos (hc ▸ List.mem_cons_self)]
      · rw [if_neg hc, if_neg fun h => (List.mem_cons.mp h).elim hc hl]
  · rw [h2.free, h1.free, List.mem_cons]
    exact ⟨fun h => h.elim (fun h => .inl (.inr h)) fun h => h.elim (fun h => .inl (.inl h)) .inr,
      fun h => h.elim (fun h => h.elim (fun h => .inr (.inl h)) .inl) fun h => .inr (.inr h)⟩

omit ok in
theorem fshClear_eq (fuel : Nat) (v : Volume) (d7 : Nat) :
    fshClear d fuel v d7
      = fdelClear d fuel { v with firstFree := EOF, nfree := countUp v.nfree } d7 := by
  induction fuel generalizing v d7 with
  | zero => rfl
  | succ fuel ih =>
    unfold fshClear fdelClear
    simp only
    split
    · rw [ih]
    · rfl

omit ok in
theorem goesOn_EOF (ftype : FatType) : goesOn ftype EOF = false ∧ goesOn ftype 0 = false := by
  cases ftype
  · exact ⟨by decide, by decide⟩
  · exact ⟨by decide, by decide⟩
  · exact ⟨by decide, by decide⟩

/-- The loop frees the clusters of a path up to the first one that it does not take for
    a cluster, and counts them. -/
theorem fdelClear_spec (l : List Nat) (hcl : ∀ c ∈ l, IsCluster d c) (hnd : l.Nodup) (fuel : Nat)
    (hfuel : l.length < fuel) (v : Volume) (d7 : Nat)
    (hpath : Path (link d.toDmd v.fat) d7 l EOF ∨ d7 = 0 ∧ l = []) :
    ∃ v', fdelClear d fuel v d7 = some v' ∧ v'.fds = v.fds ∧
      Released d.toDmd v.fat v'.fat (l.takeWhile (goesOn d.ftype)) ∧
      v'.nfree = countUp^[(l.takeWhile (goesOn d.ftype)).length] v.nfree := by
  induction l generalizing fuel v d7 with
  | nil =>
    cases fuel with
    | zero => exact absurd hfuel (Nat.not_lt_zero _)
    | succ fuel =>
      have hstop : goesOn d.ftype d7 = false := by
        rcases hpath with heq | ⟨rfl, _⟩
        · rw [show d7 = EOF from heq]
          exact (goesOn_EOF d.ftype).1
        · exact (goesOn_EOF d.ftype).2
      refine ⟨v, ?_, rfl, released_nil _ _, rfl⟩
      unfold fdelClear
      rw [hstop, if_neg Bool.false_ne_true]
  | cons x xs ih =>
    cases fuel with
    | zero => exact absurd hfuel (Nat.not_lt_zero _)
    | succ fuel =>
      rcases hpath with ⟨rfl, hxs⟩ | ⟨_, hnil⟩
      · have hx : IsCluster d d7 := hcl d7 List.mem_cons_self
        rcases List.nodup_cons.mp hnd with ⟨hnot, hnd'⟩
        unfold fdelClear
        by_cases hgo : goesOn d.ftype d7 = true
        · rw [if_pos hgo, List.takeWhile_cons_of_pos hgo]
          have hfreed := freed_write ok v.fat d7 hx
          -- The rest of the path does not pass the freed cluster.
          have hrest : Path (link d.toDmd (writeFat d.toDmd v.fat d7 0))
              (readFat d.toDmd v.fat d7) xs EOF := by
            rw [readFat_eq d.toDmd v.fat ok.geo d7 (ok.inFat d7 hx.2)]
            refine path_congr _ _ _ _ xs (fun b hb => ?_) hxs
            rw [hfreed.link, Function.update_of_ne]
            rintro rfl
            exact hnot hb
          obtain ⟨v', hr, hfds, hrel, hcount⟩ := ih
            (fun c hc => hcl c (List.mem_cons_of_mem _ hc)) hnd' fuel
            (Nat.lt_of_succ_lt_succ hfuel)
            { v with fat := writeFat d.toDmd v.fat d7 0, firstFree := EOF
                     nfree := countUp v.nfree } _ (.inl hrest)
          refine ⟨v', hr, hfds, released_cons _ _ _ _ _ _ hfreed hrel, ?_⟩
          rw [hcount, List.length_cons, Function.iterate_succ_apply]
        · rw [if_neg hgo, List.takeWhile_cons_of_neg hgo]
          exact ⟨v, rfl, rfl, released_nil _ _, rfl⟩
      · exact absurd hnil (List.cons_ne_nil _ _)

omit ok in
theorem stops_released (fat fat' : Sectors) (l : List Nat) (h : Released d.toDmd fat fat' l)
    (a : Nat) (ha : Stops d fat a) : Stops d fat' a := by
  refine ends_mono (link d.toDmd fat) _ _ _ (fun b _ => ?_) a ha
  rw [h.link]
  by_cases hb : b ∈ l
  · right
    rw [if_pos hb]
    exact Ends.stop 0 (.inl rfl)
  · left
    exact if_neg hb

omit ok in
theorem Chained.replace {v v' : Volume} {chains : Nat → List Nat} (h : Chained d v chains) (p : Nat)
    (m : List Nat) (hm : ∀ c ∈ m, c ∈ chains p)
    (hpath : Path (link d.toDmd v'.fat) (first v' p) m EOF)
    (hfirst : ∀ q, q ≠ p → first v' q = first v q)
    (hlink : ∀ c, c ∉ chains p → link d.toDmd v'.fat c = link d.toDmd v.fat c)
    (hstops : ∀ id, (v'.fds id).ccl ≠ EOF ∧ Stops d v'.fat (v'.fds id).ccl) :
    Chained d v' (Function.update chains p m) := by
  have hsub : ∀ q c, c ∈ Function.update chains p m q → c ∈ chains q := fun q c hc => by
    by_cases hq : q = p
    · subst hq
      rw [Function.update_self] at hc
      exact hm c hc
    · rw [Function.update_of_ne hq] at hc
      exact hc
  refine ⟨fun q => ⟨?_, fun c hc => (h.chain q).clusters c (hsub q c hc)⟩,
    fun q r c hq hr => h.apart q r c (hsub q c hq) (hsub r c hr), hstops⟩
  by_cases hq : q = p
  · subst hq
    rw [Function.update_self]
    exact hpath
  · rw [Function.update_of_ne hq, hfirst q hq]
    refine path_congr _ _ _ _ _ (fun c hc => hlink c fun hp => ?_) (h.chain q).path
    exact hq (h.apart q p c hc hp)

omit ok in
theorem mem_of_mem_takeWhile (f : Nat → Bool) (l : List Nat) (c : Nat) (h : c ∈ l.takeWhile f) :
    c ∈ l := (List.takeWhile_prefix f).subset h

/-- A file that has been removed from its directory, as far as a volume knows it. -/
def Fd.removed (fd : Fd) : Fd :=
  { fd with stcl := 0, len := 0, ccl := 0, csec := 0, clpos := 0, fpos := 0 }

/-- `dosf_delete` frees the chain of a file, and the others stay as they are. -/
theorem delete_chained (v : Volume) (chains : Nat → List Nat) (h : Chained d v chains) (p : Nat) :
    ∃ v', dosfDelete d v (v.fds p).stcl = some v' ∧
      Chained d (v'.setFd p (v'.fds p).removed) (Function.update chains p []) ∧
      Released d.toDmd v.fat v'.fat ((chains p).takeWhile (goesOn d.ftype)) ∧
      v'.nfree = countUp^[((chains p).takeWhile (goesOn d.ftype)).length] v.nfree := by
  have hchain := h.chain p
  have hdel : ∃ v', dosfDelete d v (v.fds p).stcl = some v' ∧ v'.fds = v.fds ∧
      Released d.toDmd v.fat v'.fat ((chains p).takeWhile (goesOn d.ftype)) ∧
      v'.nfree = countUp^[((chains p).takeWhile (goesOn d.ftype)).length] v.nfree := by
    unfold dosfDelete
    by_cases h0 : (v.fds p).stcl = 0
    · rw [if_pos h0, hchain.nil ok (first_EOF h0)]
      exact ⟨v, rfl, rfl, released_nil _ _, rfl⟩
    · rw [if_neg h0]
      refine fdelClear_spec ok (chains p) hchain.clusters (hchain.nodup ok) d.numcl
        (length_lt_numcl ok _ (hchain.nodup ok) hchain.clusters) v _ (.inl ?_)
      have hpath := hchain.path
      unfold first at hpath
      rw [if_neg h0] at hpath
      exact hpath
  rcases hdel with ⟨v', hr, hfds, hrel, hcount⟩
  refine ⟨v', hr, ?_, hrel, hcount⟩
  refine h.replace p [] (fun c hc => absurd hc List.not_mem_nil) ?_ (fun q hq => ?_)
    (fun c hc => ?_) fun id => ?_
  · unfold first Volume.setFd Fd.removed
    simp only [Function.update_self, if_true]
    rfl
  · unfold first Volume.setFd
    simp only [Function.update_of_ne hq, hfds]
  · unfold Volume.setFd
    simp only
    rw [hrel.link, if_neg fun hm => hc (mem_of_mem_takeWhile _ _ c hm)]
  · unfold Volume.setFd
    simp only
    by_cases hid : id = p
    · rw [hid, Function.update_self]
      exact ⟨zero_ne_EOF, Ends.stop 0 (.inl rfl)⟩
    · rw [Function.update_of_ne hid, hfds]
      exact ⟨(h.stops id).1, stops_released _ _ _ hrel _ (h.stops id).2⟩

/-- Whether `Fshrink` cuts the file off. -/
def Truncates (v : Volume) (id : Nat) : Prop :=
  (v.fds id).fpos < (v.fds (v.fds id).multi1).len ∧ (v.fds id).multi1 = id ∧
    (v.fds id).wperm = true

/-- The clusters behind the position. -/
def behind (d : Drive) (v : Volume) (id : Nat) (l : List Nat) : List Nat :=
  l.drop (clustersTo d (v.fds id).fpos)

omit ok in
theorem fshrink_idle (v : Volume) (id : Nat) (h : ¬ Truncates v id) :
    ∃ r, fshrink d v id = some (v, r) := by
  unfold fshrink
  simp only
  by_cases hlen : (v.fds (v.fds id).multi1).len ≤ (v.fds id).fpos
  · rw [if_pos hlen]
    exact ⟨0, rfl⟩
  · rw [if_neg hlen]
    by_cases hacc : (v.fds id).multi1 ≠ id ∨ (v.fds id).wperm = false
    · rw [if_pos hacc]
      exact ⟨EACCDN, rfl⟩
    · refine absurd ⟨Nat.lt_of_not_le hlen, ?_, ?_⟩ h
      · exact not_not.mp fun hne => hacc (.inl hne)
      · exact Bool.eq_true_of_not_eq_false fun hf => hacc (.inr hf)

theorem clustersTo_eq_zero (pos : Nat) : clustersTo d pos = 0 ↔ pos = 0 := by
  have hsize : 0 < d.clsiz * d.recsiz := by
    rw [ok.recsiz]
    exact Nat.mul_pos ok.cluster (Nat.two_pow_pos _)
  unfold clustersTo
  rw [Nat.div_eq_zero_iff]
  omega

theorem shrink_cut (v : Volume) (id : Nat) (l : List Nat) (hl : FileChain d v id l)
    (hat : AtPosition d l (v.fds id)) (v1 : Volume)
    (hv1 : v1 = if (v.fds id).ccl = 0 then v
      else { v with fat := writeFat d.toDmd v.fat (v.fds id).ccl EOF }) (d7 : Nat)
    (hd7 : d7 = if (v.fds id).ccl = 0 then (v.fds id).stcl
      else readFat d.toDmd v.fat (v.fds id).ccl) :
    (Path (link d.toDmd v1.fat) d7 (behind d v id l) EOF ∨ d7 = 0 ∧ behind d v id l = []) ∧
      ((v.fds id).fpos ≠ 0 →
        Path (link d.toDmd v1.fat) (first v id) (l.take (clustersTo d (v.fds id).fpos)) EOF) ∧
      (∀ c, c ∉ l → link d.toDmd v1.fat c = link d.toDmd v.fat c) ∧
      (∀ b, rawEntry d.toDmd v1.fat b = 0 ↔ rawEntry d.toDmd v.fat b = 0) ∧
      (∀ c, Stops d v.fat c → Stops d v1.fat c) ∧ v1.fds = v.fds ∧ v1.nfree = v.nfree := by
  rcases hat with ⟨hwithin, hccl⟩
  have hsplit := List.take_append_drop (clustersTo d (v.fds id).fpos) l
  by_cases hk : clustersTo d (v.fds id).fpos = 0
  · -- At the beginning nothing is kept.
    have hpos := (clustersTo_eq_zero ok _).mp hk
    rw [hk, List.take_zero, List.getLastD_nil] at hccl
    rw [if_pos hccl] at hv1 hd7
    subst v1
    refine ⟨?_, fun h => absurd hpos h, fun _ _ => rfl, fun _ => Iff.rfl, fun _ h => h, rfl, rfl⟩
    unfold behind
    rw [hk, List.drop_zero]
    by_cases h0 : (v.fds id).stcl = 0
    · exact .inr ⟨hd7.trans h0, hl.nil ok (first_EOF h0)⟩
    · left
      have hpath := hl.path
      unfold first at hpath
      rw [if_neg h0] at hpath
      rw [hd7]
      exact hpath
  · -- The last cluster that is kept is the current one.
    have hne : l.take (clustersTo d (v.fds id).fpos) ≠ [] := fun h => by
      rw [List.take_eq_nil_iff] at h
      rcases h with h | h
      · exact hk h
      · rw [h, List.length_nil] at hwithin
        exact hk (Nat.le_zero.mp hwithin)
    obtain ⟨m, hm⟩ : ∃ m, l.take (clustersTo d (v.fds id).fpos) = m ++ [(v.fds id).ccl] := by
      refine ⟨(l.take (clustersTo d (v.fds id).fpos)).dropLast, ?_⟩
      rw [hccl, List.getLastD_eq_getLast?, List.getLast?_eq_some_getLast hne]
      exact (List.dropLast_append_getLast hne).symm
    have hmem : (v.fds id).ccl ∈ l := by
      rw [← hsplit, hm]
      exact List.mem_append_left _ (List.mem_append_right _ (List.mem_singleton.mpr rfl))
    have hc := hl.clusters _ hmem
    have h0 : (v.fds id).ccl ≠ 0 := (cluster_ne_EOF ok _ hc).2
    rw [if_neg h0] at hv1 hd7
    have hent := entered_EOF ok v.fat (v.fds id).ccl hc
    have hnd := hl.nodup ok
    have hpath := hl.path
    rw [← hsplit, hm] at hnd hpath
    rcases List.nodup_append.mp hnd with ⟨hndm, _, hdisj⟩
    have hother : ∀ b, b ≠ (v.fds id).ccl → link d.toDmd v1.fat b = link d.toDmd v.fat b :=
      fun b hb => by
        rw [hv1]
        simp only
        rw [hent.link, Function.update_of_ne hb]
    rcases (path_append _ _ _ _ _).mp hpath with ⟨c, hkeep, hrest⟩
    have hc7 : c = d7 := by
      rcases (path_append _ _ _ m _).mp hkeep with ⟨b, _, rfl, hlast⟩
      rw [hd7, readFat_eq d.toDmd v.fat ok.geo _ (ok.inFat _ hc.2)]
      exact hlast.symm
    refine ⟨.inl ?_, fun _ => ?_, fun b hb => hother b fun heq => hb (heq ▸ hmem), fun b => ?_,
      fun b hb => ?_, ?_, ?_⟩
    · rw [← hc7]
      refine path_congr _ _ _ _ _ (fun b hb => hother b ?_) hrest
      rintro rfl
      exact hdisj _ (List.mem_append_right _ (List.mem_singleton.mpr rfl)) _ hb rfl
    · rw [hm]
      have hcut := path_relink _ (link d.toDmd v1.fat) _ _ _ m (fun b hb => hother b ?_) hkeep
      · have hlast : link d.toDmd v1.fat (v.fds id).ccl = EOF := by
          rw [hv1]
          simp only
          rw [hent.link, Function.update_self]
        rw [hlast] at hcut
        exact hcut
      · rintro rfl
        exact (List.nodup_append.mp hndm).2.2 _ hb _ (List.mem_singleton.mpr rfl) rfl
    · rw [hv1]
      simp only
      rw [hent.free]
      refine ⟨fun h => h.2, fun h => ⟨?_, h⟩⟩
      rintro rfl
      exact hl.used ok _ hmem h
    · rw [hv1]
      exact stops_entered _ _ _ EOF hent (.inl rfl) b hb
    · rw [hv1]
    · rw [hv1]

/-- `Fshrink` keeps the clusters up to the position and frees those behind it, up to the
    first one that it does not take for a cluster. It counts one more than it frees. -/
theorem shrink_chained (v : Volume) (chains : Nat → List Nat) (h : Chained d v chains) (id : Nat)
    (ht : Truncates v id) (hat : AtPosition d (chains id) (v.fds id)) :
    ∃ v', fshrink d v id = some (v', 0) ∧
      Chained d v' (Function.update chains id
        ((chains id).take (clustersTo d (v.fds id).fpos))) ∧
      (∀ b, rawEntry d.toDmd v'.fat b = 0 ↔
        b ∈ (behind d v id (chains id)).takeWhile (goesOn d.ftype) ∨
          rawEntry d.toDmd v.fat b = 0) ∧
      v'.nfree = countUp^[((behind d v id (chains id)).takeWhile (goesOn d.ftype)).length + 1]
        v.nfree := by
  rcases ht with ⟨hlen, hproto, hperm⟩
  have hchain := h.chain id
  obtain ⟨v1, hv1⟩ : ∃ v1 : Volume, v1 = if (v.fds id).ccl = 0 then v
      else { v with fat := writeFat d.toDmd v.fat (v.fds id).ccl EOF } := ⟨_, rfl⟩
  obtain ⟨d7, hd7⟩ : ∃ d7, d7 = if (v.fds id).ccl = 0 then (v.fds id).stcl
      else readFat d.toDmd v.fat (v.fds id).ccl := ⟨_, rfl⟩
  rcases shrink_cut ok v id _ hchain hat v1 hv1 d7 hd7 with
    ⟨hpath, hkeep, hlink, hfree, hstops, hfds, hcount⟩
  have hsub : ∀ c ∈ behind d v id (chains id), c ∈ chains id := fun c hc => List.mem_of_mem_drop hc
  have hnd := hchain.nodup ok
  have hndb : (behind d v id (chains id)).Nodup := hnd.sublist (List.drop_sublist _ _)
  have hclb : ∀ c ∈ behind d v id (chains id), IsCluster d c :=
    fun c hc => hchain.clusters c (hsub c hc)
  obtain ⟨v2, hr, hfds2, hrel, hcount2⟩ := fdelClear_spec ok _ hclb hndb d.numcl
    (length_lt_numcl ok _ hndb hclb) { v1 with firstFree := EOF, nfree := countUp v1.nfree } d7
      hpath
  have hfds3 : v2.fds = v.fds := hfds2.trans hfds
  refine ⟨fshEnd v2 id, ?_, ?_, fun b => ?_, ?_⟩
  · unfold fshrink
    simp only
    rw [if_neg (Nat.not_le_of_lt hlen), if_neg, if_neg (h.stops id).1, ← hv1, ← hd7, fshClear_eq,
      hr]
    rintro (hne | hno)
    · exact hne hproto
    · rw [hperm] at hno
      exact Bool.noConfusion hno
  · refine h.replace id _ (fun c hc => List.mem_of_mem_take hc) ?_ (fun q hq => ?_) (fun c hc => ?_)
      fun i => ?_
    · by_cases hpos : (v.fds id).fpos = 0
      · have hfirst : first (fshEnd v2 id) id = EOF := by
          refine first_EOF ?_
          unfold fshEnd Volume.setFd
          simp only [Function.update_self, hfds3, if_pos hpos]
        rw [hfirst, (clustersTo_eq_zero ok _).mpr hpos, List.take_zero]
        rfl
      · have hfirst : first (fshEnd v2 id) id = first v id := by
          unfold first fshEnd Volume.setFd
          simp only [Function.update_self, hfds3, if_neg hpos]
        rw [hfirst]
        refine path_congr _ _ _ _ _ (fun c hc => ?_) (hkeep hpos)
        unfold fshEnd Volume.setFd
        simp only
        rw [hrel.link, if_neg fun hm => ?_]
        -- What is kept and what is freed have no cluster in common.
        have hsplit := List.take_append_drop (clustersTo d (v.fds id).fpos) (chains id)
        rw [← hsplit] at hnd
        exact (List.nodup_append.mp hnd).2.2 c hc c (mem_of_mem_takeWhile _ _ c hm) rfl
    · unfold first fshEnd Volume.setFd
      simp only [Function.update_of_ne hq, hfds3]
    · unfold fshEnd Volume.setFd
      simp only
      rw [hrel.link, if_neg fun hm => hc (hsub c (mem_of_mem_takeWhile _ _ c hm))]
      exact hlink c hc
    · have hsame : ((fshEnd v2 id).fds i).ccl = (v.fds i).ccl := by
        unfold fshEnd Volume.setFd
        simp only [hfds3]
        by_cases hi : i = id
        · rw [hi, Function.update_self]
        · rw [Function.update_of_ne hi]
      rw [hsame]
      exact ⟨(h.stops i).1, stops_released _ _ _ hrel _ (hstops _ (h.stops i).2)⟩
  · unfold fshEnd Volume.setFd
    simp only
    rw [hrel.free, hfree]
  · unfold fshEnd Volume.setFd
    simp only
    rw [hcount2, hcount, Function.iterate_succ_apply]

end

end Fat

end MagiC
