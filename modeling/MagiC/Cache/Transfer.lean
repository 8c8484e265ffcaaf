import Mathlib.Tactic.Common
import MagiC.Cache.Search

/-!
# Transfers and Writing Back

`mrw_sectors` and `dfs_fat_sync`.

Both walk the lists and write buffers back. `mrw_sectors` also gives buffers up,
and begins again after each buffer it has written. Every time there is one changed
buffer less, so it comes to an end.

## Main definitions

* `Settled`: Some buffers were written back or given up.

## Theorems

* `mrwSectors_write`: Writing stores.
-/

namespace MagiC

namespace Cache

section

variable {α : Type} {L : Layout}

/-- Some buffers were written back or given up. -/
structure Settled (s t : Buffers α) : Prop where
  links : SameLinks s t
  holds : ∀ b drv k, 0 ≤ drv → Holds t.xb b drv k → Holds s.xb b drv k
  dirty : ∀ b, (t.xb b).dirty = true → (s.xb b).dirty = true

theorem Settled.refl (s : Buffers α) : Settled s s :=
  ⟨SameLinks.refl s, fun _ _ _ _ h => h, fun _ h => h⟩

theorem Settled.trans {s t u : Buffers α} (h1 : Settled s t) (h2 : Settled t u) : Settled s u :=
  ⟨h1.links.trans h2.links, fun b drv k h0 h => h1.holds b drv k h0 (h2.holds b drv k h0 h),
    fun b h => h1.dirty b (h2.dirty b h)⟩

theorem settled_write (s : Buffers α) (a : Nat) (h0 : 0 ≤ (s.xb a).drv) :
    Settled s (writeSector s a) := by
  refine ⟨writeSector_links s a, fun b drv k _ h => (writeSector_holds s a b drv k).mp h,
    fun b h => ?_⟩
  rw [writeSector_dirty s a b h0] at h
  split at h
  · simp only [Bool.false_eq_true] at h
  · exact h

theorem settled_invalid (s : Buffers α) (a : Nat) :
    Settled s { s with xb := Function.update s.xb a { s.xb a with drv := -1 } } := by
  refine ⟨sameLinks_xb s a _, fun b drv k h0 h => ?_, fun b h => ?_⟩
  · by_cases hba : b = a
    · subst hba
      have hdrv := h.1
      simp only [Function.update_self] at hdrv
      omega
    · exact (holds_update_ne s.xb a b _ drv k hba).mp h
  · by_cases hba : b = a
    · subst hba
      simp only [Function.update_self] at h
      exact h
    · simp only [Function.update_of_ne hba] at h
      exact h

variable {last : Int → Nat → α} {copied : Int → Nat → Prop}

/-- A pass over a list gives up all buffers in the range, or it ends early after
    writing a changed one back. -/
theorem mrwLoop_spec (drv : Int) (secno fin : Nat) (h0 : 0 ≤ drv) (m : List Nat)
    (hm : ∀ a ∈ m, L.Buf a) (s : Buffers α) (ok : Sound L s last copied) (fuel p d2 : Nat)
    (hseg : Dlist.Seg s.next s.prev p d2 m 0) (hfuel : m.length < fuel) :
    ∃ t again, mrwLoop drv secno fin fuel s d2 = some (t, again) ∧ Sound L t last copied ∧
      Settled s t ∧
      (again = false → ∀ a ∈ m, ∀ k, secno ≤ k → k < fin → ¬ Holds t.xb a drv k) ∧
      (again = true → ∃ a ∈ m, (s.xb a).dirty = true ∧ (t.xb a).dirty = false) := by
  induction m generalizing s fuel p d2 with
  | nil =>
    have hd2 : d2 = 0 := hseg
    cases fuel with
    | zero => exact absurd hfuel (Nat.not_lt_zero _)
    | succ fuel =>
      refine ⟨s, false, ?_, ok, Settled.refl s, fun _ a ha => absurd ha List.not_mem_nil,
        fun h => Bool.noConfusion h⟩
      unfold mrwLoop
      rw [if_pos hd2]
  | cons x xs ih =>
    rcases hseg with ⟨rfl, hx0, _, hxs⟩
    have hin : ∀ a ∈ xs, L.Buf a := fun a ha => hm a (List.mem_cons_of_mem _ ha)
    cases fuel with
    | zero => exact absurd hfuel (Nat.not_lt_zero _)
    | succ fuel =>
      have hf : xs.length < fuel := Nat.lt_of_succ_lt_succ hfuel
      -- The rest of the pass, from a state in which this buffer is out of the range.
      have hrest : ∀ s' : Buffers α, Sound L s' last copied → Settled s s' →
          (∀ k, secno ≤ k → k < fin → ¬ Holds s'.xb d2 drv k) →
          ∃ t again, mrwLoop drv secno fin fuel s' (s.next d2) = some (t, again) ∧
            Sound L t last copied ∧ Settled s t ∧
            (again = false → ∀ a ∈ d2 :: xs, ∀ k, secno ≤ k → k < fin → ¬ Holds t.xb a drv k) ∧
            (again = true → ∃ a ∈ d2 :: xs, (s.xb a).dirty = true ∧ (t.xb a).dirty = false) := by
        intro s' ok' hsettled hout
        obtain ⟨t, again, hr, okt, hst, hclear, hdirty⟩ := ih hin s' ok' fuel d2 (s.next d2)
          (by rw [hsettled.links.next, hsettled.links.prev]; exact hxs) hf
        refine ⟨t, again, hr, okt, hsettled.trans hst, fun hagain => ?_, fun hagain => ?_⟩
        · refine List.forall_mem_cons.mpr ⟨fun k h1 h2 hh => ?_, hclear hagain⟩
          exact hout k h1 h2 (hst.holds d2 drv k h0 hh)
        · rcases hdirty hagain with ⟨a, ha, hda, hta⟩
          exact ⟨a, List.mem_cons_of_mem _ ha, hsettled.dirty a hda, hta⟩
      unfold mrwLoop
      rw [if_neg hx0]
      by_cases hskip : (s.xb d2).drv ≠ drv ∨ (s.xb d2).secno < secno ∨ fin ≤ (s.xb d2).secno
      · rw [if_pos hskip]
        refine hrest s ok (Settled.refl s) fun k h1 h2 hh => ?_
        rcases hskip with hne | hlow | hhigh
        · exact hne hh.1
        · have := hh.2
          omega
        · have := hh.2
          omega
      · rw [if_neg hskip]
        have hdrv : (s.xb d2).drv = drv := not_not.mp fun h => hskip (.inl h)
        have hd0 : 0 ≤ (s.xb d2).drv := hdrv.symm ▸ h0
        by_cases hd : (s.xb d2).dirty = true
        · rw [if_pos hd]
          refine ⟨_, true, rfl, writeSector_sound s ok d2 (hm d2 List.mem_cons_self),
            settled_write s d2 hd0, fun h => Bool.noConfusion h, fun _ => ?_⟩
          refine ⟨d2, List.mem_cons_self, hd, ?_⟩
          rw [writeSector_dirty s d2 d2 hd0, if_pos rfl]
        · rw [if_neg hd]
          refine hrest _ ⟨ok.ordered.same (sameLinks_xb s d2 _), ?_⟩ (settled_invalid s d2)
            fun k _ _ hh => ?_
          · exact coherent_invalid ok.coherent d2 (Bool.eq_false_iff.mpr hd)
          · have hdrv' := hh.1
            simp only [Function.update_self] at hdrv'
            omega

theorem countP_lt_of_mem (f g : Nat → Bool) (bs : List Nat) (hfg : ∀ b, g b = true → f b = true)
    (a : Nat) (ha : a ∈ bs) (hf : f a = true) (hg : g a = false) : bs.countP g < bs.countP f := by
  rcases List.append_of_mem ha with ⟨l, m, rfl⟩
  have hl := List.countP_mono_left (l := l) fun b _ => hfg b
  have hm := List.countP_mono_left (l := m) fun b _ => hfg b
  rw [List.countP_append, List.countP_append, List.countP_cons_of_pos hf,
    List.countP_cons_of_neg (by rw [hg]; exact Bool.false_ne_true)]
  omega

/-- `mrw_again` gives up all buffers of the list that are in the range. -/
theorem mrwAgain_spec (drv : Int) (secno fin : Nat) (h0 : 0 ≤ drv) (l : Bufl) (again : Nat)
    (s : Buffers α) (ok : Sound L s last copied)
    (hcount : (L.bufs l).countP (fun b => (s.xb b).dirty) < again) :
    ∃ t, mrwAgain drv secno fin l again s = some t ∧ Sound L t last copied ∧ SameLinks s t ∧
      ∀ a ∈ L.bufs l, ∀ k, secno ≤ k → k < fin → ¬ Holds t.xb a drv k := by
  induction again generalizing s with
  | zero => exact absurd hcount (Nat.not_lt_zero _)
  | succ again ih =>
    rcases ok.ordered.linked l with ⟨bs, hperm, hbs⟩
    have hfuel : bs.length < s.bufs + 1 := by
      rw [hperm.length_eq]
      exact Nat.lt_succ_of_le (ok.ordered.count l)
    obtain ⟨t, again', hr, okt, hst, hclear, hdirty⟩ := mrwLoop_spec drv secno fin h0 bs
      (fun a ha => ⟨l, hperm.mem_iff.mp ha⟩) s ok (s.bufs + 1) 0 (s.bufl l) hbs hfuel
    unfold mrwAgain
    rw [hr]
    cases again' with
    | false =>
      refine ⟨t, rfl, okt, hst.links, fun a ha => ?_⟩
      exact hclear rfl a (hperm.mem_iff.mpr ha)
    | true =>
      rcases hdirty rfl with ⟨a, ha, hsa, hta⟩
      -- One changed buffer less.
      have hlt := countP_lt_of_mem (fun b => (s.xb b).dirty) (fun b => (t.xb b).dirty) (L.bufs l)
        hst.dirty a (hperm.mem_iff.mp ha) hsa hta
      rcases ih t okt (by omega) with ⟨u, hu, oku, hsu, hcu⟩
      exact ⟨u, hu, oku, hst.links.trans hsu, hcu⟩

theorem Coherent.unheld_of_list {xb : Nat → Xbcb α} {disk : Int → Nat → α}
    (ok : Coherent L xb disk last copied) (drv : Int) (k : Nat) (h0 : 0 ≤ drv)
    (hno : ∀ a ∈ L.bufs (L.list drv k), ¬ Holds xb a drv k) :
    ∀ a, L.Buf a → ¬ Holds xb a drv k := by
  intro a ha hh
  have hv := (ok.valid a ha (hh.1.symm ▸ h0)).2.1
  rw [hh.1, hh.2] at hv
  exact hno a hv hh

section

variable (s : Buffers α) (ok : Sound L s last copied) (drv : Int) (h0 : 0 ≤ drv)
  (secno anzahl : Nat)

include ok h0 secno anzahl

theorem mrwSectors_cleared (l : Bufl) (hlist : ∀ i < anzahl, L.list drv (secno + i) = l) :
    ∃ t, mrwAgain drv secno (secno + anzahl) l (s.bufs + 1) s = some t ∧ Sound L t last copied ∧
      SameLinks s t ∧ ∀ i < anzahl, ∀ a, L.Buf a → ¬ Holds t.xb a drv (secno + i) := by
  have hcount : (L.bufs l).countP (fun b => (s.xb b).dirty) < s.bufs + 1 :=
    Nat.lt_succ_of_le (Nat.le_trans List.countP_le_length (ok.ordered.count l))
  obtain ⟨t, hr, okt, hst, hclear⟩ :=
    mrwAgain_spec drv secno (secno + anzahl) h0 l (s.bufs + 1) s ok
    hcount
  refine ⟨t, hr, okt, hst, fun i hi => okt.coherent.unheld_of_list drv _ h0 ?_⟩
  rw [hlist i hi]
  exact fun a ha => hclear a ha _ (Nat.le_add_right _ _) (by omega)

theorem mrwSectors_read (l : Bufl) (hlist : ∀ i < anzahl, L.list drv (secno + i) = l)
    (hused : ∀ i < anzahl, L.used drv (secno + i)) (hfin : secno + anzahl < 2 ^ 32)
    (hn : anzahl < 2 ^ 16) :
    ∃ t, mrwSectors s drv secno anzahl none l
        = some (t, (List.range anzahl).map fun i => last drv (secno + i)) ∧
      Sound L t last copied := by
  rcases mrwSectors_cleared s ok drv h0 secno anzahl l hlist with ⟨t, hr, okt, _, hno⟩
  refine ⟨t, ?_, okt⟩
  unfold mrwSectors
  simp only [Nat.mod_eq_of_lt hfin, hr, rwabsSector_recnoOf, Nat.add_sub_cancel_left,
    Nat.mod_eq_of_lt hn]
  congr 2
  refine List.map_congr_left fun i hi => ?_
  have hi := List.mem_range.mp hi
  exact okt.coherent.unheld drv _ (hused i hi) (hno i hi)

theorem mrwSectors_write (data : Nat → α) (l : Bufl)
    (hlist : ∀ i < anzahl, L.list drv (secno + i) = l)
    (hused : ∀ i < anzahl, L.used drv (secno + i))
    (hmirror : ∀ i < anzahl, L.mirror drv (secno + i) = 0) (hfin : secno + anzahl < 2 ^ 32)
    (hn : anzahl < 2 ^ 16) :
    ∃ t, mrwSectors s drv secno anzahl (some data) l = some (t, []) ∧
      Sound L t (fun d k => if d = drv ∧ secno ≤ k ∧ k < secno + anzahl then data (k - secno)
        else last d k) copied := by
  rcases mrwSectors_cleared s ok drv h0 secno anzahl l hlist with ⟨t, hr, okt, _, hno⟩
  unfold mrwSectors
  simp only [Nat.mod_eq_of_lt hfin, hr, rwabsSector_recnoOf, Nat.add_sub_cancel_left,
    Nat.mod_eq_of_lt hn]
  refine ⟨_, rfl, ⟨okt.ordered.linked, okt.ordered.first, okt.ordered.count⟩, ?_⟩
  refine coherent_transfer okt.coherent drv secno anzahl data fun k h1 h2 => ?_
  rcases Nat.exists_eq_add_of_le h1 with ⟨i, rfl⟩
  have hi : i < anzahl := by omega
  exact ⟨hused i hi, hmirror i hi, hno i hi⟩

end

theorem syncLoop_spec (drv : Int) (h0 : 0 ≤ drv) (m : List Nat) (hm : ∀ a ∈ m, L.Buf a)
    (s : Buffers α) (ok : Sound L s last copied) (fuel p d2 : Nat)
    (hseg : Dlist.Seg s.next s.prev p d2 m 0) (hfuel : m.length < fuel) :
    ∃ t, syncLoop drv fuel s d2 = some t ∧ Sound L t last copied ∧ Settled s t ∧
      ∀ a ∈ m, (t.xb a).drv = drv → (t.xb a).dirty = false := by
  induction m generalizing s fuel p d2 with
  | nil =>
    have hd2 : d2 = 0 := hseg
    cases fuel with
    | zero => exact absurd hfuel (Nat.not_lt_zero _)
    | succ fuel =>
      refine ⟨s, ?_, ok, Settled.refl s, fun a ha => absurd ha List.not_mem_nil⟩
      unfold syncLoop
      rw [if_pos hd2]
  | cons x xs ih =>
    rcases hseg with ⟨rfl, hx0, _, hxs⟩
    cases fuel with
    | zero => exact absurd hfuel (Nat.not_lt_zero _)
    | succ fuel =>
      have hf : xs.length < fuel := Nat.lt_of_succ_lt_succ hfuel
      unfold syncLoop
      rw [if_neg hx0]
      simp only
      generalize hs' : (if (s.xb d2).drv = drv ∧ (s.xb d2).dirty = true then writeSector s d2
        else s) = s'
      have hstep : Sound L s' last copied ∧ Settled s s' ∧
          ((s'.xb d2).drv = drv → (s'.xb d2).dirty = false) := by
        rw [← hs']
        split
        · rename_i hc
          have hd0 : 0 ≤ (s.xb d2).drv := hc.1.symm ▸ h0
          refine ⟨writeSector_sound s ok d2 (hm d2 List.mem_cons_self), settled_write s d2 hd0,
            fun _ => ?_⟩
          rw [writeSector_dirty s d2 d2 hd0, if_pos rfl]
        · rename_i hc
          refine ⟨ok, Settled.refl s, fun hd => ?_⟩
          exact Bool.eq_false_iff.mpr fun h => hc ⟨hd, h⟩
      rcases hstep with ⟨ok', hss, hclean⟩
      obtain ⟨t, hr, okt, hst, hall⟩ := ih (fun a ha => hm a (List.mem_cons_of_mem _ ha)) s' ok'
        fuel d2 (s.next d2) (by rw [hss.links.next, hss.links.prev]; exact hxs) hf
      refine ⟨t, ?_, okt, hss.trans hst, List.forall_mem_cons.mpr ⟨fun hd => ?_, hall⟩⟩
      · rw [← hss.links.next] at hr
        rw [← hss.links.next]
        exact hr
      · have hh := hst.holds d2 drv _ h0 ⟨hd, rfl⟩
        exact Bool.eq_false_iff.mpr fun h =>
          Bool.eq_false_iff.mp (hclean hh.1) (hst.dirty d2 h)

theorem dfsFatSync_spec (s : Buffers α) (ok : Sound L s last copied) (drv : Int) (h0 : 0 ≤ drv) :
    ∃ t, dfsFatSync s drv = some t ∧ Sound L t last copied ∧ ∀ k, ¬ Dirty L t.xb drv k := by
  have hlist : ∀ (l : Bufl) (s : Buffers α), Sound L s last copied →
      ∃ t, syncLoop drv (s.bufs + 1) s (s.bufl l) = some t ∧ Sound L t last copied ∧
        Settled s t ∧ ∀ a ∈ L.bufs l, (t.xb a).drv = drv → (t.xb a).dirty = false := by
    intro l s ok
    rcases ok.ordered.linked l with ⟨bs, hperm, hbs⟩
    have hfuel : bs.length < s.bufs + 1 := by
      rw [hperm.length_eq]
      exact Nat.lt_succ_of_le (ok.ordered.count l)
    obtain ⟨t, hr, okt, hst, hall⟩ := syncLoop_spec drv h0 bs
      (fun a ha => ⟨l, hperm.mem_iff.mp ha⟩) s ok (s.bufs + 1) 0 (s.bufl l) hbs hfuel
    exact ⟨t, hr, okt, hst, fun a ha => hall a (hperm.mem_iff.mpr ha)⟩
  rcases hlist .data s ok with ⟨t, ht, okt, _, hdata⟩
  rcases hlist .fat t okt with ⟨u, hu, oku, htu, hfat⟩
  refine ⟨u, ?_, oku, ?_⟩
  · unfold dfsFatSync
    rw [ht]
    exact hu
  · rintro k ⟨a, ⟨l, hl⟩, hh, hd⟩
    cases l with
    | fat => exact Bool.eq_false_iff.mp (hfat a hl hh.1) hd
    | data =>
      -- The second pass leaves what the first one did.
      have hh' := htu.holds a drv k h0 hh
      exact Bool.eq_false_iff.mp (hdata a hl hh'.1) (htu.dirty a hd)

end

end Cache

end MagiC
