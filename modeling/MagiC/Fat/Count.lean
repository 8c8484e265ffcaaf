import MagiC.Fat.Separate

/-!
# The Number of Free Clusters

What is kept in the DMD as the number of free clusters is either not known or right.

`f_extend` takes one off for the cluster it reserves, and `dosf_delete` adds one for each
cluster it has freed. `Fshrink` adds one before it looks at a cluster, so it has added one
too many when it comes to the end: `shrink_miscounts` is a file of two clusters for
which it adds three. As long as the number is not known this does no harm.

## Main definitions

* `Exact`: The number is -1 or right.

## Theorems

* `count_stays_exact`: So does every call of a run.
-/

namespace MagiC

namespace Fat

/-- The number of free clusters is not known, or right. -/
def Exact (d : Drive) (v : Volume) : Prop := v.nfree = -1 ∨ v.nfree = (freeCount d v.fat : Int)

/-- No file is cut off while the number is known. -/
def Counted (v : Volume) : Call → Prop
  | .shrink id => Truncates v id → v.nfree = -1
  | .dfree | .extend _ | .delete _ | .place .. => True

theorem countP_succ (f g : Nat → Bool) (l : List Nat) (n : Nat) (hnd : l.Nodup) (hn : n ∈ l)
    (hf : f n = false) (hg : g n = true) (hfg : ∀ b, b ≠ n → g b = f b) :
    l.countP g = l.countP f + 1 := by
  rcases List.append_of_mem hn with ⟨u, w, rfl⟩
  rcases List.nodup_append.mp hnd with ⟨_, hndw, hdisj⟩
  have hu : u.countP g = u.countP f := List.countP_congr fun b hb => by
    rw [hfg b fun heq => hdisj b hb n List.mem_cons_self heq]
  have hw : w.countP g = w.countP f := List.countP_congr fun b hb => by
    rw [hfg b fun heq => (List.nodup_cons.mp hndw).1 (heq ▸ hb)]
  rw [List.countP_append, List.countP_append, List.countP_cons_of_pos hg,
    List.countP_cons_of_neg (by rw [hf]; exact Bool.false_ne_true), hu, hw]
  omega

section

variable {d : Drive}

theorem mem_clusters (c : Nat) (hc : IsCluster d c) : c ∈ List.range' 2 (d.numcl - 2) := by
  rcases hc with ⟨h2, hlt⟩
  rw [List.mem_range'_1]
  omega

theorem freeCount_congr (fat fat' : Sectors)
    (h : ∀ b, rawEntry d.toDmd fat' b = 0 ↔ rawEntry d.toDmd fat b = 0) :
    freeCount d fat' = freeCount d fat :=
  List.countP_congr fun b _ => by rw [decide_eq_true_eq, decide_eq_true_eq, h b]

theorem freeCount_succ (fat fat' : Sectors) (c : Nat) (hc : IsCluster d c)
    (hused : rawEntry d.toDmd fat c ≠ 0)
    (h : ∀ b, rawEntry d.toDmd fat' b = 0 ↔ b = c ∨ rawEntry d.toDmd fat b = 0) :
    freeCount d fat' = freeCount d fat + 1 := by
  refine countP_succ _ _ _ c List.nodup_range' (mem_clusters c hc) ?_ ?_ fun b hb => ?_
  · exact decide_eq_false hused
  · exact decide_eq_true ((h c).mpr (.inl rfl))
  · rw [decide_eq_decide, h b]
    exact ⟨fun h => h.resolve_left hb, .inr⟩

/-- A cluster that is reserved is free no more. -/
theorem freeCount_reserved (fat fat' : Sectors) (n x : Nat) (hn : IsCluster d n)
    (hfree : rawEntry d.toDmd fat n = 0) (h : Entered d.toDmd fat fat' n x) :
    freeCount d fat = freeCount d fat' + 1 := by
  refine freeCount_succ fat' fat n hn (fun h0 => ((h.free n).mp h0).1 rfl) fun b => ?_
  rw [h.free]
  by_cases hb : b = n
  · rw [hb]
    exact ⟨fun _ => .inl rfl, fun _ => hfree⟩
  · exact ⟨fun h0 => .inr ⟨hb, h0⟩, fun h0 => (h0.resolve_left hb).2⟩

theorem freeCount_released (fat fat' : Sectors) (l : List Nat) (hnd : l.Nodup)
    (hcl : ∀ c ∈ l, IsCluster d c) (hused : ∀ c ∈ l, rawEntry d.toDmd fat c ≠ 0)
    (h : ∀ b, rawEntry d.toDmd fat' b = 0 ↔ b ∈ l ∨ rawEntry d.toDmd fat b = 0) :
    freeCount d fat' = freeCount d fat + l.length := by
  -- Count the clusters that are free or in the list, along the list.
  have hcount : ∀ m : List Nat, m.Nodup → (∀ c ∈ m, c ∈ l) →
      (List.range' 2 (d.numcl - 2)).countP
        (fun b => decide (b ∈ m ∨ rawEntry d.toDmd fat b = 0)) = freeCount d fat + m.length := by
    intro m
    induction m with
    | nil =>
      intro _ _
      refine List.countP_congr fun b _ => ?_
      rw [decide_eq_true_eq, decide_eq_true_eq]
      exact ⟨fun h => h.resolve_left List.not_mem_nil, .inr⟩
    | cons x xs ih =>
      intro hndm hsub
      rcases List.nodup_cons.mp hndm with ⟨hx, hndx⟩
      have hxl := hsub x List.mem_cons_self
      have hrest := ih hndx fun c hc => hsub c (List.mem_cons_of_mem _ hc)
      rw [List.length_cons, ← Nat.add_assoc, ← hrest]
      refine countP_succ _ _ _ x List.nodup_range' (mem_clusters x (hcl x hxl)) ?_ ?_ fun b hb => ?_
      · exact decide_eq_false fun h0 => h0.elim hx (hused x hxl)
      · exact decide_eq_true (.inl List.mem_cons_self)
      · rw [decide_eq_decide, List.mem_cons]
        exact ⟨fun h0 => h0.elim (fun h1 => .inl (h1.resolve_left hb)) .inr,
          fun h0 => h0.elim (fun h1 => .inl (.inr h1)) .inr⟩
  rw [← hcount l hnd fun _ hc => hc]
  exact List.countP_congr fun b _ => by rw [decide_eq_true_eq, decide_eq_true_eq, h b]

theorem countUp_iterate (n : Nat) (x : Nat) : countUp^[n] (x : Int) = ((x + n : Nat) : Int) := by
  induction n generalizing x with
  | zero => rfl
  | succ n ih =>
    have hup : countUp (x : Int) = ((x + 1 : Nat) : Int) := by
      unfold countUp
      rw [if_neg (by omega)]
      omega
    rw [Function.iterate_succ_apply, hup, ih]
    omega

theorem countUp_unknown (n : Nat) : countUp^[n] (-1) = -1 := by
  induction n with
  | zero => rfl
  | succ n ih =>
    rw [Function.iterate_succ_apply]
    exact ih

theorem exact_released (v w : Volume) (l : List Nat) (hx : Exact d v)
    (hcount : w.nfree = countUp^[l.length] v.nfree)
    (hfree : freeCount d w.fat = freeCount d v.fat + l.length) : Exact d w := by
  rcases hx with hx | hx
  · left
    rw [hcount, hx, countUp_unknown]
  · right
    rw [hcount, hx, countUp_iterate, hfree]

variable (ok : DriveOk d)
include ok

theorem extend_exact (v : Volume) (id : Nat)
    (hccl : (v.fds id).ccl = 0 ∨ IsCluster d (v.fds id).ccl) (hx : Exact d v) :
    Exact d (fExtend d v id true).1 := by
  rcases fExtend_cases ok v id hccl with ⟨_, hr⟩ | ⟨_, v', e, hr, _, hfull⟩ |
    ⟨hend, v', n, hres, hr⟩
  · rw [hr]
    exact hx
  · rw [hr]
    unfold Exact
    rw [hfull.nfree, hfull.fat]
    exact hx
  · have hcount := freeCount_reserved v.fat v'.fat n EOF hres.cluster hres.free hres.entered
    have hnfree : (fExtend d v id true).1.nfree = countDown v.nfree := by
      rw [hr]
      unfold fexSeeknxt fexFound Volume.setFd
      simp only
      split
      · simp only [hres.nfree]
      · simp only [hres.nfree]
    -- Linking the cluster to one that is used frees none.
    have hfat : freeCount d (fExtend d v id true).1.fat = freeCount d v'.fat := by
      rw [hr]
      unfold fexSeeknxt fexFound Volume.setFd
      simp only
      split
      · rfl
      · rename_i h0
        have hc := hccl.resolve_left h0
        refine freeCount_congr _ _ fun b => ?_
        rw [(entered_cluster ok v'.fat _ n hc hres.cluster).free]
        refine ⟨fun h => h.2, fun h => ⟨?_, h⟩⟩
        rintro rfl
        rw [fexNext_eq ok v id hccl, if_neg h0] at hend
        have hfree := ((hres.entered.free _).mp h).2
        rw [link_of_free d.toDmd v.fat _ hfree] at hend
        exact zero_ne_EOF hend
    unfold Exact
    rw [hnfree, hfat]
    rcases hx with hx | hx
    · left
      rw [hx]
      rfl
    · right
      rw [hx, hcount]
      unfold countDown
      rw [if_neg (by omega)]
      omega

theorem call_exact (v w : Volume) (chains : Nat → List Nat) (h : Chained d v chains) (c : Call)
    (hstep : step d v c w) (hcounted : Counted v c) (hx : Exact d v) : Exact d w := by
  rcases hstep with ⟨hadm, hrun⟩
  cases c with
  | dfree =>
    rw [← Option.some.inj hrun, dosfsDfree_eq ok]
    split
    · exact hx
    · exact .inr rfl
  | extend id =>
    rw [← Option.some.inj hrun]
    exact extend_exact ok v id (h.ccl id) hx
  | delete p =>
    rcases delete_chained ok v chains h p with ⟨w', hr, _, hrel, hcount⟩
    simp only [runCall, hr, Option.map_some, Option.some.injEq] at hrun
    have hsub : ∀ c ∈ (chains p).takeWhile (goesOn d.ftype), c ∈ chains p :=
      fun c hc => mem_of_mem_takeWhile _ _ c hc
    have hfree := freeCount_released v.fat w'.fat _
      (((h.chain p).nodup ok).sublist (List.takeWhile_prefix _).sublist)
      (fun c hc => (h.chain p).clusters c (hsub c hc))
      (fun c hc => (h.chain p).used ok c (hsub c hc)) hrel.free
    have hx' := exact_released v w' _ hx hcount hfree
    rw [← hrun]
    exact hx'
  | shrink id =>
    by_cases ht : Truncates v id
    · rcases hadm ht.2.1 with ⟨l, hl, hat⟩
      rw [hl.unique ok (h.chain id)] at hat
      rcases shrink_chained ok v chains h id ht hat with ⟨w', hr, _, _, hcount⟩
      simp only [runCall, hr, Option.map_some, Option.some.injEq] at hrun
      left
      rw [← hrun, hcount, hcounted ht, countUp_unknown]
    · rcases fshrink_idle (d := d) v id ht with ⟨r, hr⟩
      simp only [runCall, hr, Option.map_some, Option.some.injEq] at hrun
      rw [← hrun]
      exact hx
  | place id ccl csec clpos fpos len =>
    rw [← Option.some.inj hrun]
    exact hx

/-- In every run in which no file is cut off while the number is known, the number is -1
    or right. -/
theorem count_stays_exact (v w : Volume) (chains : Nat → List Nat) (calls : List Call)
    (h : Chained d v chains) (hx : Exact d v)
    (hrun : Runs.Run (fun v c w => step d v c w ∧ Counted v c) v calls w) : Exact d w := by
  have hinv := Runs.run_preserves _ (fun v => (∃ chains, Chained d v chains) ∧ Exact d v)
    (fun v c w hv hstep => by
      rcases hv with ⟨⟨chains, hch⟩, hx⟩
      exact ⟨step_chained ok v w c ⟨chains, hch⟩ hstep.1,
        call_exact ok v w chains hch c hstep.1 hstep.2 hx⟩)
    v w calls hrun ⟨⟨chains, h⟩, hx⟩
  exact hinv.2

end

/-- The free clusters are counted after a file of two clusters has been removed. -/
theorem count_stays_exact_pair :
    ∃ w, Runs.Run (fun v c w => step (wordDrive 1 8) v c w ∧ Counted v c) (pairVolume 2 3 4)
      [.delete 0] w ∧ Exact (wordDrive 1 8) w ∧ w.nfree = 6 := by
  have ok := wordDrive_ok 1 8 (by decide) (by decide) (by decide) (by decide)
  have hch := pairVolume_chained (wordDrive 1 8) 2 3 4 ⟨by decide, by decide⟩
    ⟨by decide, by decide⟩ (by decide +kernel) (by decide +kernel)
  have hcount : (runCall (wordDrive 1 8) (pairVolume 2 3 4) (.delete 0)).map
      (fun w => w.nfree) = some 6 := by decide +kernel
  rcases Option.map_eq_some_iff.mp hcount with ⟨w, hw, hnfree⟩
  have hrun : Runs.Run (fun v c w => step (wordDrive 1 8) v c w ∧ Counted v c) (pairVolume 2 3 4)
      [.delete 0] w :=
    Runs.Run.cons _ w w _ [] ⟨⟨trivial, hw⟩, trivial⟩ (Runs.Run.nil w)
  exact ⟨w, hrun, count_stays_exact ok _ w _ _ hch (.inr (by decide +kernel)) hrun, hnfree⟩

/-- With four clusters free a file of two clusters is cut off at its beginning, and the number
    is 7 afterwards. -/
theorem shrink_miscounts :
    ∃ w, Chained (wordDrive 1 8) (pairVolume 2 3 4) (pairChains 2 3) ∧
      Exact (wordDrive 1 8) (pairVolume 2 3 4) ∧
      step (wordDrive 1 8) (pairVolume 2 3 4) (.shrink 0) w ∧ w.nfree = 7 ∧
      ¬ Exact (wordDrive 1 8) w := by
  have hch := pairVolume_chained (wordDrive 1 8) 2 3 4 ⟨by decide, by decide⟩
    ⟨by decide, by decide⟩ (by decide +kernel) (by decide +kernel)
  have hcount : (runCall (wordDrive 1 8) (pairVolume 2 3 4) (.shrink 0)).map
      (fun w => (w.nfree, freeCount (wordDrive 1 8) w.fat)) = some (7, 6) := by decide +kernel
  rcases Option.map_eq_some_iff.mp hcount with ⟨w, hw, hnum⟩
  rcases Prod.mk.inj hnum with ⟨hnfree, hfree⟩
  refine ⟨w, hch, .inr (by decide +kernel), ⟨pairVolume_at _ (by decide) 2 3 _ hch, hw⟩, hnfree, ?_⟩
  unfold Exact
  rw [hnfree, hfree]
  decide

end Fat

end MagiC
