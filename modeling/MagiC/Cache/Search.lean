import Mathlib.Tactic.Common
import MagiC.Cache.Coherent

/-!
# Reading a Sector

What `read_sector` returns, whatever the buffers hold.

The search walks the links of a list, and `Ordered` says that these list the
buffers of the layout in some order. A search that fails ends at the last buffer.
If that one has been changed it is written back and the list is searched again,
and then it is not changed, so the second search is the last.

## Main definitions

* `Ordered`: The two lists are linked and hold the buffers of the layout.

## Theorems

* `readSector_spec`: `read_sector` delivers the sector.
-/

namespace MagiC

namespace Cache

section

variable {α : Type} (L : Layout)

/-- The lists are linked and hold the buffers of the layout in some order. -/
structure Ordered (s : Buffers α) : Prop where
  linked : ∀ l, ∃ bs, bs.Perm (L.bufs l) ∧ Dlist.Linked s.next s.prev (s.bufl l) bs
  first : ∀ l, ∀ a ∈ L.bufs l, s.first a = l
  count : ∀ l, (L.bufs l).length ≤ s.bufs

/-- The buffers as they are linked, and what they hold and the disks. -/
structure Sound (s : Buffers α) (last : Int → Nat → α) (copied : Int → Nat → Prop) : Prop where
  ordered : Ordered L s
  coherent : Coherent L s.xb s.disk last copied

/-- Two states whose lists are linked in the same way. -/
structure SameLinks (s t : Buffers α) : Prop where
  next : t.next = s.next
  prev : t.prev = s.prev
  bufl : t.bufl = s.bufl
  first : t.first = s.first
  bufs : t.bufs = s.bufs

theorem SameLinks.refl (s : Buffers α) : SameLinks s s := ⟨rfl, rfl, rfl, rfl, rfl⟩

theorem SameLinks.trans {s t u : Buffers α} (h1 : SameLinks s t) (h2 : SameLinks t u) :
    SameLinks s u :=
  ⟨h2.next.trans h1.next, h2.prev.trans h1.prev, h2.bufl.trans h1.bufl, h2.first.trans h1.first,
    h2.bufs.trans h1.bufs⟩

theorem sameLinks_xb (s : Buffers α) (a : Nat) (x : Xbcb α) :
    SameLinks s { s with xb := Function.update s.xb a x } := ⟨rfl, rfl, rfl, rfl, rfl⟩

theorem writeSector_links (s : Buffers α) (a : Nat) : SameLinks s (writeSector s a) := by
  unfold writeSector
  simp only
  split
  · exact SameLinks.refl s
  · exact ⟨rfl, rfl, rfl, rfl, rfl⟩

variable {L}

theorem Ordered.same {s t : Buffers α} (ok : Ordered L s) (h : SameLinks s t) : Ordered L t := by
  refine ⟨fun l => ?_, fun l a ha => ?_, fun l => ?_⟩
  · rw [h.next, h.prev, h.bufl]
    exact ok.linked l
  · rw [h.first]
    exact ok.first l a ha
  · rw [h.bufs]
    exact ok.count l

variable {last : Int → Nat → α} {copied : Int → Nat → Prop}

theorem writeSector_sound (s : Buffers α) (ok : Sound L s last copied) (a : Nat) (ha : L.Buf a) :
    Sound L (writeSector s a) last copied := by
  refine ⟨ok.ordered.same (writeSector_links s a), ?_⟩
  unfold writeSector
  simp only
  split
  · exact ok.coherent
  · rename_i h
    exact coherent_write ok.coherent a ha (Int.not_lt.mp fun hneg => h (.inr hneg))

theorem writeSector_holds (s : Buffers α) (a b : Nat) (drv : Int) (k : Nat) :
    Holds (writeSector s a).xb b drv k ↔ Holds s.xb b drv k := by
  unfold writeSector
  simp only
  split
  · exact Iff.rfl
  · exact holds_update_same s.xb a b { s.xb a with dirty := false } drv k ⟨rfl, rfl⟩

theorem writeSector_dirty (s : Buffers α) (a b : Nat) (h0 : 0 ≤ (s.xb a).drv) :
    ((writeSector s a).xb b).dirty = if b = a then false else (s.xb b).dirty := by
  unfold writeSector
  simp only
  by_cases hd : (s.xb a).dirty = false
  · rw [if_pos (.inl hd)]
    split
    · rename_i hba
      rw [hba, hd]
    · rfl
  · rw [if_neg fun h => h.elim hd fun hneg => absurd h0 (Int.not_le.mpr hneg)]
    simp only [Function.update_apply]
    split
    · rfl
    · rfl

/-- The search for a sector, from a buffer on to the end of the list. -/
theorem rsLoop_spec (s : Buffers α) (drv : Int) (k : Nat) (h0 : 0 ≤ drv) (bs : List Nat)
    (fuel p d2 free z : Nat) (hbs : Dlist.Seg s.next s.prev p d2 bs 0) (hfuel : bs.length < fuel) :
    (∃ a ∈ bs, Holds s.xb a drv k ∧ rsLoop s drv k fuel d2 free z = some (.found a)) ∨
      ((∀ a ∈ bs, ¬ Holds s.xb a drv k) ∧ ∃ f,
        rsLoop s drv k fuel d2 free z = some (.fail f (bs.getLastD z)) ∧
        (f ∈ bs ∧ (s.xb f).drv < 0 ∨ f = free ∧ ∀ a ∈ bs, 0 ≤ (s.xb a).drv)) := by
  induction bs generalizing fuel p d2 free z with
  | nil =>
    have hd2 : d2 = 0 := hbs
    cases fuel with
    | zero => exact absurd hfuel (Nat.not_lt_zero _)
    | succ fuel =>
      refine .inr ⟨fun a ha => absurd ha List.not_mem_nil, free, ?_,
        .inr ⟨rfl, fun a ha => absurd ha List.not_mem_nil⟩⟩
      unfold rsLoop
      rw [if_pos hd2]
      rfl
  | cons x xs ih =>
    rcases hbs with ⟨rfl, hx0, _, hxs⟩
    cases fuel with
    | zero => exact absurd hfuel (Nat.not_lt_zero _)
    | succ fuel =>
      have hf : xs.length < fuel := Nat.lt_of_succ_lt_succ hfuel
      rw [List.getLastD_cons]
      unfold rsLoop
      rw [if_neg hx0]
      by_cases hneg : (s.xb d2).drv < 0
      · -- A free buffer is kept in mind, and never the one sought.
        rw [if_pos hneg]
        have hno : ¬ Holds s.xb d2 drv k := fun h => by
          rw [h.1] at hneg
          omega
        rcases ih fuel d2 (s.next d2) d2 d2 hxs hf with
          ⟨a, ha, hh, hr⟩ | ⟨hnone, f, hr, hfree⟩
        · exact .inl ⟨a, List.mem_cons_of_mem _ ha, hh, hr⟩
        · refine .inr ⟨List.forall_mem_cons.mpr ⟨hno, hnone⟩, f, hr, .inl ?_⟩
          rcases hfree with ⟨hf, hfneg⟩ | ⟨rfl, _⟩
          · exact ⟨List.mem_cons_of_mem _ hf, hfneg⟩
          · exact ⟨List.mem_cons_self, hneg⟩
      · rw [if_neg hneg]
        by_cases hh : (s.xb d2).drv = drv ∧ (s.xb d2).secno = k
        · rw [if_pos hh]
          exact .inl ⟨d2, List.mem_cons_self, hh, rfl⟩
        · rw [if_neg hh]
          rcases ih fuel d2 (s.next d2) free d2 hxs hf with
            ⟨a, ha, hh, hr⟩ | ⟨hnone, f, hr, hfree⟩
          · exact .inl ⟨a, List.mem_cons_of_mem _ ha, hh, hr⟩
          · refine .inr ⟨List.forall_mem_cons.mpr ⟨hh, hnone⟩, f, hr, ?_⟩
            rcases hfree with ⟨hf, hfneg⟩ | ⟨hf, hall⟩
            · exact .inl ⟨List.mem_cons_of_mem _ hf, hfneg⟩
            · exact .inr ⟨hf, List.forall_mem_cons.mpr ⟨Int.not_lt.mp hneg, hall⟩⟩

theorem toFront_other (ls : Dlist.Links) (a x : Nat) (bs : List Nat) (hnd : bs.Nodup)
    (hbs : Dlist.Linked ls.next ls.prev ls.first bs) (ha : a ∈ bs) (hx : x ∉ bs) (hx0 : x ≠ 0) :
    (Dlist.toFront ls a).next x = ls.next x ∧ (Dlist.toFront ls a).prev x = ls.prev x := by
  rcases List.append_of_mem ha with ⟨l, m, rfl⟩
  rcases Dlist.seg_middle ls.next ls.prev ls.first a l m hbs with ⟨hseg, hprev, h0, hm⟩
  by_cases hp : ls.prev a = 0
  · unfold Dlist.toFront
    rw [if_pos hp]
    exact ⟨rfl, rfl⟩
  · rcases Dlist.toFront_of_prev ls a hp with ⟨_, _, _, hnext, hprev', _⟩
    have hxa : x ≠ a := fun h => hx (h ▸ ha)
    have hpmem : ls.prev a ∈ l := by
      cases l with
      | nil => exact absurd hprev hp
      | cons b l =>
        rw [hprev, List.getLastD_cons, List.getLastD_eq_getLast?]
        cases hl : l.getLast? with
        | none => exact List.mem_cons_self
        | some z => exact List.mem_cons_of_mem _ (List.mem_of_getLast? hl)
    have hxf : x ≠ ls.first := by
      intro h
      cases l with
      | nil => exact List.not_mem_nil hpmem
      | cons b l =>
        have hb : ls.first = b := hseg.1
        exact hx (List.mem_append_left _ (by rw [h, hb]; exact List.mem_cons_self))
    constructor
    · rw [hnext x hxa, if_neg]
      exact fun h => hx (List.mem_append_left _ (h ▸ hpmem))
    · rw [hprev' x hxa hxf, if_neg]
      rintro ⟨h, _⟩
      cases m with
      | nil => exact hx0 (h.trans hm)
      | cons y ys =>
        have hy : ls.next a = y := hm.1
        refine hx (List.mem_append_right _ (List.mem_cons_of_mem _ ?_))
        rw [h, hy]
        exact List.mem_cons_self

theorem rsReturn_ordered (s : Buffers α) (ok : Ordered L s) (a : Nat) (ha : L.Buf a)
    (toWrite : Bool) : Ordered L (rsReturn s a toWrite) := by
  rcases ha with ⟨l, hal⟩
  have hfirst := ok.first l a hal
  rcases ok.linked l with ⟨bs, hperm, hbs⟩
  have hmem : a ∈ bs := hperm.mem_iff.mpr hal
  have hnd : bs.Nodup := hperm.nodup_iff.mpr (L.nodup l)
  refine ⟨fun l' => ?_, ok.first, ok.count⟩
  unfold rsReturn linksOf
  simp only [hfirst]
  by_cases hl : l' = l
  · subst hl
    rcases List.append_of_mem hmem with ⟨b, m, rfl⟩
    refine ⟨a :: (b ++ m), ?_, ?_⟩
    · exact (List.perm_middle.symm).trans hperm
    · rw [Function.update_self]
      exact Dlist.toFront_linked ⟨s.next, s.prev, s.bufl l'⟩ a b m hnd hbs
  · rcases ok.linked l' with ⟨cs, hcperm, hcs⟩
    refine ⟨cs, hcperm, ?_⟩
    rw [Function.update_of_ne hl]
    -- The lists have no buffer in common.
    have hout : ∀ x ∈ cs, x ∉ bs ∧ x ≠ 0 := fun x hx =>
      ⟨fun hxb => hl (L.apart x l' l (hcperm.mem_iff.mp hx) (hperm.mem_iff.mp hxb)),
        Dlist.seg_ne_zero _ _ _ _ _ _ hcs x hx⟩
    refine Dlist.seg_congr s.next s.prev _ _ 0 (s.bufl l') 0 cs hcs ?_ ?_
    · intro x hx
      exact (toFront_other ⟨s.next, s.prev, s.bufl l⟩ a x bs hnd hbs hmem (hout x hx).1
        (hout x hx).2).2
    · intro x hx
      exact (toFront_other ⟨s.next, s.prev, s.bufl l⟩ a x bs hnd hbs hmem (hout x hx).1
        (hout x hx).2).1

variable (L) in
/-- What the caller of `read_sector` finds: a buffer with the sector, marked if
    the caller is going to write. -/
structure Delivered (s : Buffers α) (a : Nat) (drv : Int) (k : Nat) (toWrite : Bool)
    (last : Int → Nat → α) (copied : Int → Nat → Prop) : Prop where
  sound : Sound L s last copied
  buf : L.Buf a
  holds : Holds s.xb a drv k
  marked : toWrite = true → (s.xb a).dirty = true
  data : (s.xb a).data = last drv k

section

variable (s : Buffers α) (ok : Sound L s last copied)

include ok

theorem rsReturn_delivered (a : Nat) (ha : L.Buf a)
    (drv : Int) (k : Nat) (h0 : 0 ≤ drv) (hh : Holds s.xb a drv k) (toWrite : Bool) :
    Delivered L (rsReturn s a toWrite) a drv k toWrite last copied := by
  refine ⟨⟨rsReturn_ordered s ok.ordered a ha toWrite, ?_⟩, ha, ?_, ?_, ?_⟩
  · exact coherent_mark ok.coherent a toWrite
  · unfold Holds rsReturn
    simp only [Function.update_self]
    exact hh
  · rintro rfl
    unfold rsReturn
    simp only [Function.update_self, Bool.or_true]
  · unfold rsReturn
    simp only [Function.update_self]
    exact ok.coherent.held a drv k ha h0 hh

theorem rsRead_delivered (a : Nat) (drv : Int)
    (k secno2 : Nat) (toWrite : Bool) (hu : L.used drv k) (hl : a ∈ L.bufs (L.list drv k))
    (hm : secno2 = L.mirror drv k) (hlt : secno2 < 0xffff)
    (hno : ∀ b, L.Buf b → ¬ Holds s.xb b drv k)
    (hfree : (s.xb a).drv < 0 ∨ (s.xb a).dirty = false) :
    Delivered L (rsReturn (rsRead s a drv k secno2 toWrite) a toWrite) a drv k toWrite last
      copied := by
  have ha : L.Buf a := ⟨_, hl⟩
  have hread : Sound L (rsRead s a drv k secno2 toWrite) last copied := by
    refine ⟨ok.ordered.same (sameLinks_xb s a _), ?_⟩
    unfold rsRead
    simp only [rwabsSector_recnoOf]
    exact coherent_read ok.coherent a ha hfree drv k secno2 toWrite hu hl hm hlt hno
  refine rsReturn_delivered _ hread a ha drv k (L.used_drv drv k hu) ?_ toWrite
  unfold Holds rsRead
  simp only [Function.update_self, and_self]

/-- One search returns a buffer with the sector, or has written the last buffer
    back. -/
theorem rsAgain_round (drv : Int) (k secno2 : Nat)
    (toWrite : Bool) (hu : L.used drv k) (hm : secno2 = L.mirror drv k) (hlt : secno2 < 0xffff)
    (bs : List Nat) (hperm : bs.Perm (L.bufs (L.list drv k)))
    (hbs : Dlist.Linked s.next s.prev (s.bufl (L.list drv k)) bs) (again : Nat) :
    (∃ t a, rsAgain drv k secno2 (L.list drv k) toWrite (again + 1) s = some (t, a) ∧
        Delivered L t a drv k toWrite last copied) ∨
      ∃ z ∈ bs, z = bs.getLastD 0 ∧ (s.xb z).dirty = true ∧ 0 ≤ (s.xb z).drv ∧
        rsAgain drv k secno2 (L.list drv k) toWrite (again + 1) s
          = rsAgain drv k secno2 (L.list drv k) toWrite again (writeSector s z) := by
  have h0 := L.used_drv drv k hu
  have hfuel : bs.length < s.bufs + 1 := by
    rw [hperm.length_eq]
    exact Nat.lt_succ_of_le (ok.ordered.count _)
  have hin : ∀ b ∈ bs, b ∈ L.bufs (L.list drv k) := fun b hb => hperm.mem_iff.mp hb
  have hne : bs ≠ [] := fun h => L.nonempty (L.list drv k) (h ▸ hperm).symm.eq_nil
  have hlast : bs.getLastD 0 ∈ bs := by
    rw [List.getLastD_eq_getLast?, List.getLast?_eq_some_getLast hne]
    exact List.getLast_mem hne
  rw [rsAgain]
  rcases rsLoop_spec s drv k h0 bs (s.bufs + 1) 0 _ 0 0 hbs hfuel with
    ⟨a, ha, hh, hr⟩ | ⟨hnone, f, hr, hfree⟩
  · rw [hr]
    exact .inl ⟨_, a, rfl, rsReturn_delivered s ok a ⟨_, hin a ha⟩ drv k h0 hh toWrite⟩
  · -- The sector is in no buffer: a valid one with it would be in this list.
    have hno : ∀ b, L.Buf b → ¬ Holds s.xb b drv k := by
      intro b hb hh
      have hv := (ok.coherent.valid b hb (hh.1.symm ▸ h0)).2.1
      rw [hh.1, hh.2] at hv
      exact hnone b (hperm.mem_iff.mpr hv) hh
    rw [hr]
    simp only
    rcases hfree with ⟨hf, hneg⟩ | ⟨rfl, hall⟩
    · have hf0 : f ≠ 0 := Dlist.seg_ne_zero _ _ _ _ _ _ hbs f hf
      rw [if_pos hf0]
      exact .inl ⟨_, f, rfl, rsRead_delivered s ok f drv k secno2 toWrite hu (hin f hf) hm hlt hno
        (.inl hneg)⟩
    · rw [if_neg (not_not_intro rfl)]
      by_cases hd : (s.xb (bs.getLastD 0)).dirty = true
      · rw [if_pos hd]
        exact .inr ⟨_, hlast, rfl, hd, hall _ hlast, rfl⟩
      · rw [if_neg hd]
        exact .inl ⟨_, _, rfl, rsRead_delivered s ok _ drv k secno2 toWrite hu (hin _ hlast) hm hlt
          hno (.inr (Bool.eq_false_iff.mpr hd))⟩

theorem readSector_spec (drv : Int) (k : Nat)
    (toWrite : Bool) (hu : L.used drv k) (hlt : L.mirror drv k < 0xffff) :
    ∃ t a, readSector s drv k (L.mirror drv k) (L.list drv k) toWrite = some (t, a) ∧
      Delivered L t a drv k toWrite last copied := by
  rcases ok.ordered.linked (L.list drv k) with ⟨bs, hperm, hbs⟩
  have hbufs : 0 < s.bufs :=
    Nat.lt_of_lt_of_le (List.length_pos_of_ne_nil (L.nonempty _)) (ok.ordered.count (L.list drv k))
  obtain ⟨again, hagain⟩ : ∃ again, s.bufs = again + 1 := ⟨s.bufs - 1, by omega⟩
  unfold readSector
  rw [hagain]
  rcases rsAgain_round s ok drv k _ toWrite hu rfl hlt bs hperm hbs (again + 1) with
    hdone | ⟨z, hz, hlast, _, hz0, hr⟩
  · exact hdone
  · have hzb : L.Buf z := ⟨_, hperm.mem_iff.mp hz⟩
    have hlinks := writeSector_links s z
    rw [hr]
    -- The last buffer is the same one in the second search, and clean now.
    rcases rsAgain_round (writeSector s z) (writeSector_sound s ok z hzb) drv k _ toWrite hu rfl hlt
      bs hperm (by rw [hlinks.next, hlinks.prev, hlinks.bufl]; exact hbs) again with
      hdone | ⟨y, _, hy, hdirty, _, _⟩
    · exact hdone
    · rw [hy, ← hlast, writeSector_dirty s z z hz0, if_pos rfl] at hdirty
      simp only [Bool.false_eq_true] at hdirty

end

end

end Cache

end MagiC
