import MagiC.Cache.Code

/-!
# Coherence

What the buffers hold, what is on the disks, and what was stored last.

It is assumed that a sector is always read through the same list and with the
same copy, and that the copies are never read or written themselves: `Layout`.

`Coherent` relates the buffers and the disks to the contents that were stored
last: a buffer holds them, and the disk holds them unless there is a changed
buffer. For a sector with a copy the same goes for the copy.

## Main definitions

* `Dirty`: A sector with a changed buffer.

## Theorems

* `coherent_invalid`: Giving up a buffer.
-/

namespace MagiC

namespace Cache

/-- The buffers of the two lists, the sectors that are read and written, the list
    and the copy of each, and that a copy belongs to one sector and is not used. -/
structure Layout where
  bufs : Bufl → List Nat
  list : Int → Nat → Bufl
  mirror : Int → Nat → Nat
  used : Int → Nat → Prop
  nodup : ∀ l, (bufs l).Nodup
  nonempty : ∀ l, bufs l ≠ []
  apart : ∀ a l l', a ∈ bufs l → a ∈ bufs l' → l = l'
  used_drv : ∀ drv k, used drv k → 0 ≤ drv
  mirror_unused : ∀ drv k, used drv k → mirror drv k ≠ 0 → ¬ used drv (mirror drv k)
  mirror_inj : ∀ drv k n, used drv k → used drv n → mirror drv k ≠ 0 →
    mirror drv k = mirror drv n → k = n

def Layout.Buf (L : Layout) (a : Nat) : Prop := ∃ l, a ∈ L.bufs l

section

variable {α : Type} (L : Layout)

/-- A buffer that holds a sector. -/
def Holds (xb : Nat → Xbcb α) (a : Nat) (drv : Int) (k : Nat) : Prop :=
  (xb a).drv = drv ∧ (xb a).secno = k

/-- A sector with a changed buffer. -/
def Dirty (xb : Nat → Xbcb α) (drv : Int) (k : Nat) : Prop :=
  ∃ a, L.Buf a ∧ Holds xb a drv k ∧ (xb a).dirty = true

/-- The buffers and the disks hold the contents stored last. For the sectors in
    `copied`, so do the copies. -/
structure Coherent (xb : Nat → Xbcb α) (disk last : Int → Nat → α)
    (copied : Int → Nat → Prop) : Prop where
  valid : ∀ a, L.Buf a → 0 ≤ (xb a).drv → L.used (xb a).drv (xb a).secno ∧
    a ∈ L.bufs (L.list (xb a).drv (xb a).secno) ∧
    (xb a).secno2 = L.mirror (xb a).drv (xb a).secno ∧ (xb a).secno2 < 0xffff
  unique : ∀ a b drv k, L.Buf a → L.Buf b → 0 ≤ drv → Holds xb a drv k → Holds xb b drv k → a = b
  held : ∀ a drv k, L.Buf a → 0 ≤ drv → Holds xb a drv k → (xb a).data = last drv k
  clean : ∀ drv k, L.used drv k → ¬ Dirty L xb drv k → disk drv k = last drv k
  copy : ∀ drv k, L.used drv k → L.mirror drv k ≠ 0 → copied drv k → ¬ Dirty L xb drv k →
    disk drv (L.mirror drv k) = last drv k

theorem rwabsSector_recnoOf (secno : Nat) : rwabsSector (recnoOf secno) secno = secno := by
  unfold rwabsSector recnoOf
  by_cases h : secno / 2 ^ 16 = 0
  · rw [if_pos h]
    by_cases hff : secno % 2 ^ 16 = 0xffff
    · rw [if_pos hff]
    · rw [if_neg hff]
      omega
  · rw [if_neg h, if_pos rfl]

theorem rwabsSector_copy (k secno : Nat) (h : k < 0xffff) :
    rwabsSector (k % 2 ^ 16) secno = k := by
  unfold rwabsSector
  rw [Nat.mod_eq_of_lt (by omega), if_neg (by omega)]

theorem putSector_same (disk : Int → Nat → α) (drv : Int) (k : Nat) (data : α) :
    putSector disk drv k data drv k = data := if_pos ⟨rfl, rfl⟩

theorem putSector_other (disk : Int → Nat → α) (drv d : Int) (k n : Nat) (data : α)
    (h : ¬ (d = drv ∧ n = k)) : putSector disk drv k data d n = disk d n := if_neg h

/-- Writing back stores the data in the sector and in its copy, and nowhere else. -/
theorem writeBack_eq (disk : Int → Nat → α) (b : Xbcb α) (h2 : b.secno2 < 0xffff)
    (hne : b.secno2 ≠ 0 → b.secno2 ≠ b.secno) :
    writeBack disk b b.drv b.secno = b.data ∧
      (b.secno2 ≠ 0 → writeBack disk b b.drv b.secno2 = b.data) ∧
      ∀ d n, ¬ (d = b.drv ∧ n = b.secno) → ¬ (d = b.drv ∧ n = b.secno2 ∧ b.secno2 ≠ 0) →
        writeBack disk b d n = disk d n := by
  unfold writeBack
  rw [rwabsSector_recnoOf, rwabsSector_copy _ _ h2]
  by_cases h0 : b.secno2 = 0
  · simp only [if_pos h0]
    refine ⟨putSector_same .., fun h => absurd h0 h, fun d n hk _ => ?_⟩
    exact putSector_other _ _ _ _ _ _ hk
  · simp only [if_neg h0]
    refine ⟨?_, fun _ => putSector_same .., fun d n hk hm => ?_⟩
    · rw [putSector_other _ _ _ _ _ _ fun h => hne h0 h.2.symm]
      exact putSector_same ..
    · rw [putSector_other _ _ _ _ _ _ fun h => hm ⟨h.1, h.2, h0⟩]
      exact putSector_other _ _ _ _ _ _ hk

theorem holds_update_ne (xb : Nat → Xbcb α) (a b : Nat) (x : Xbcb α) (drv : Int) (k : Nat)
    (hne : b ≠ a) : Holds (Function.update xb a x) b drv k ↔ Holds xb b drv k := by
  unfold Holds
  rw [Function.update_of_ne hne]

theorem holds_update_same (xb : Nat → Xbcb α) (a b : Nat) (x : Xbcb α) (drv : Int) (k : Nat)
    (hx : x.drv = (xb a).drv ∧ x.secno = (xb a).secno) :
    Holds (Function.update xb a x) b drv k ↔ Holds xb b drv k := by
  by_cases hne : b = a
  · subst hne
    unfold Holds
    rw [Function.update_self, hx.1, hx.2]
  · exact holds_update_ne xb a b x drv k hne

variable {L} {xb : Nat → Xbcb α} {disk last : Int → Nat → α} {copied : Int → Nat → Prop}

theorem Coherent.unheld (ok : Coherent L xb disk last copied) (drv : Int) (k : Nat)
    (hu : L.used drv k) (hno : ∀ a, L.Buf a → ¬ Holds xb a drv k) : disk drv k = last drv k :=
  ok.clean drv k hu fun ⟨a, ha, hh, _⟩ => hno a ha hh

theorem Coherent.keep (ok : Coherent L xb disk last copied) (a : Nat) (x : Xbcb α)
    (hx : x.drv = (xb a).drv ∧ x.secno = (xb a).secno ∧ x.secno2 = (xb a).secno2) :
    (∀ b, L.Buf b → 0 ≤ (Function.update xb a x b).drv →
      L.used (Function.update xb a x b).drv (Function.update xb a x b).secno ∧
      b ∈ L.bufs (L.list (Function.update xb a x b).drv (Function.update xb a x b).secno) ∧
      (Function.update xb a x b).secno2
        = L.mirror (Function.update xb a x b).drv (Function.update xb a x b).secno ∧
      (Function.update xb a x b).secno2 < 0xffff) ∧
    ∀ b c drv k, L.Buf b → L.Buf c → 0 ≤ drv → Holds (Function.update xb a x) b drv k →
      Holds (Function.update xb a x) c drv k → b = c := by
  refine ⟨fun b hb h0 => ?_, fun b c drv k hb hc h0 h1 h2 => ?_⟩
  · by_cases hba : b = a
    · subst hba
      rw [Function.update_self, hx.1, hx.2.1, hx.2.2] at *
      exact ok.valid b hb h0
    · rw [Function.update_of_ne hba] at *
      exact ok.valid b hb h0
  · rw [holds_update_same xb a _ x drv k ⟨hx.1, hx.2.1⟩] at h1 h2
    exact ok.unique b c drv k hb hc h0 h1 h2

theorem dirty_cleaned (a : Nat) (drv : Int) (k : Nat) (hne : ¬ Holds xb a drv k)
    (h : Dirty L xb drv k) : Dirty L (Function.update xb a { xb a with dirty := false }) drv k := by
  rcases h with ⟨b, hb, hh, hd⟩
  have hba : b ≠ a := by
    rintro rfl
    exact hne hh
  refine ⟨b, hb, (holds_update_ne xb a b _ drv k hba).mpr hh, ?_⟩
  rw [Function.update_of_ne hba]
  exact hd

section

variable (ok : Coherent L xb disk last copied) (a : Nat)

include ok a

theorem coherent_write (ha : L.Buf a) (h0 : 0 ≤ (xb a).drv) :
    Coherent L (Function.update xb a { xb a with dirty := false }) (writeBack disk (xb a)) last
      copied := by
  rcases ok.valid a ha h0 with ⟨hused, _, hm, hlt⟩
  have hunused : (xb a).secno2 ≠ 0 → ¬ L.used (xb a).drv (xb a).secno2 := fun h2 => by
    rw [hm] at h2 ⊢
    exact L.mirror_unused _ _ hused h2
  have hdata := ok.held a _ _ ha h0 ⟨rfl, rfl⟩
  rcases writeBack_eq disk (xb a) hlt (fun h2 heq => hunused h2 (heq ▸ hused)) with
    ⟨hself, hcopy, hother⟩
  rcases ok.keep a { xb a with dirty := false } ⟨rfl, rfl, rfl⟩ with ⟨hvalid, hunique⟩
  refine ⟨hvalid, hunique, fun b drv k hb hd hh => ?_, fun drv k hu hnd => ?_,
    fun drv k hu h2 hc hnd => ?_⟩
  · rw [holds_update_same xb a b { xb a with dirty := false } drv k ⟨rfl, rfl⟩] at hh
    rw [← ok.held b drv k hb hd hh]
    by_cases hba : b = a
    · subst hba
      rw [Function.update_self]
    · rw [Function.update_of_ne hba]
  · by_cases hk : Holds xb a drv k
    · rcases hk with ⟨rfl, rfl⟩
      rw [hself, hdata]
    · rw [hother drv k (fun h => hk ⟨h.1.symm, h.2.symm⟩)]
      · exact ok.clean drv k hu fun h => hnd (dirty_cleaned a drv k hk h)
      · -- The copy is not used, so it is another sector.
        rintro ⟨rfl, rfl, h2⟩
        exact hunused h2 hu
  · by_cases hk : Holds xb a drv k
    · rcases hk with ⟨rfl, rfl⟩
      rw [← hm] at h2 ⊢
      rw [hcopy h2, hdata]
    · rw [hother drv _]
      · exact ok.copy drv k hu h2 hc fun h => hnd (dirty_cleaned a drv k hk h)
      · rintro ⟨rfl, heq⟩
        exact L.mirror_unused _ _ hu h2 (heq ▸ hused)
      · -- Two sectors have different copies.
        rintro ⟨rfl, heq, _⟩
        rw [hm] at heq
        exact hk ⟨rfl, (L.mirror_inj _ _ _ hu hused h2 heq).symm⟩

theorem coherent_read (ha : L.Buf a)
    (hfree : (xb a).drv < 0 ∨ (xb a).dirty = false) (drv : Int) (k secno2 : Nat) (toWrite : Bool)
    (hu : L.used drv k) (hl : a ∈ L.bufs (L.list drv k)) (hm : secno2 = L.mirror drv k)
    (hlt : secno2 < 0xffff) (hno : ∀ b, L.Buf b → ¬ Holds xb b drv k) :
    Coherent L (Function.update xb a ⟨drv, k, secno2, toWrite, disk drv k⟩) disk last copied := by
  have hdirty : ∀ d n, L.used d n → Dirty L xb d n →
      Dirty L (Function.update xb a ⟨drv, k, secno2, toWrite, disk drv k⟩) d n := by
    rintro d n hun ⟨b, hb, hh, hd⟩
    have hba : b ≠ a := by
      rintro rfl
      have h0 := L.used_drv d n hun
      rw [hd] at hfree
      rcases hfree with hneg | hclean
      · rw [hh.1] at hneg
        omega
      · simp only [reduceCtorEq] at hclean
    refine ⟨b, hb, (holds_update_ne xb a b _ d n hba).mpr hh, ?_⟩
    rw [Function.update_of_ne hba]
    exact hd
  refine ⟨fun b hb h0 => ?_, fun b c d n hb hc h0 h1 h2 => ?_, fun b d n hb h0 hh => ?_,
    fun d n hun hnd => ok.clean d n hun fun h => hnd (hdirty d n hun h),
    fun d n hun h2 hc hnd => ok.copy d n hun h2 hc fun h => hnd (hdirty d n hun h)⟩
  · by_cases hba : b = a
    · subst hba
      rw [Function.update_self]
      exact ⟨hu, hl, hm, hlt⟩
    · rw [Function.update_of_ne hba] at *
      exact ok.valid b hb h0
  · -- No other buffer holds the sector that is read.
    by_cases hba : b = a
    · by_cases hca : c = a
      · rw [hba, hca]
      · subst hba
        rw [holds_update_ne xb b c _ d n hca] at h2
        unfold Holds at h1
        rw [Function.update_self] at h1
        rcases h1 with ⟨rfl, rfl⟩
        exact absurd h2 (hno c hc)
    · rw [holds_update_ne xb a b _ d n hba] at h1
      by_cases hca : c = a
      · subst hca
        unfold Holds at h2
        rw [Function.update_self] at h2
        rcases h2 with ⟨rfl, rfl⟩
        exact absurd h1 (hno b hb)
      · rw [holds_update_ne xb a c _ d n hca] at h2
        exact ok.unique b c d n hb hc h0 h1 h2
  · by_cases hba : b = a
    · subst hba
      unfold Holds at hh
      rw [Function.update_self] at hh ⊢
      rcases hh with ⟨rfl, rfl⟩
      exact ok.unheld _ _ hu hno
    · rw [holds_update_ne xb a b _ d n hba] at hh
      rw [Function.update_of_ne hba]
      exact ok.held b d n hb h0 hh

theorem coherent_mark (toWrite : Bool) :
    Coherent L (Function.update xb a { xb a with dirty := (xb a).dirty || toWrite }) disk last
      copied := by
  have hdirty : ∀ d n, Dirty L xb d n →
      Dirty L (Function.update xb a { xb a with dirty := (xb a).dirty || toWrite }) d n := by
    rintro d n ⟨b, hb, hh, hd⟩
    refine ⟨b, hb, (holds_update_same xb a b { xb a with dirty := (xb a).dirty || toWrite } d n
      ⟨rfl, rfl⟩).mpr hh, ?_⟩
    by_cases hba : b = a
    · subst hba
      rw [Function.update_self]
      simp only [hd, Bool.true_or]
    · rw [Function.update_of_ne hba]
      exact hd
  rcases ok.keep a { xb a with dirty := (xb a).dirty || toWrite } ⟨rfl, rfl, rfl⟩ with
    ⟨hvalid, hunique⟩
  refine ⟨hvalid, hunique, fun b d n hb h0 hh => ?_,
    fun d n hu hnd => ok.clean d n hu fun h => hnd (hdirty d n h),
    fun d n hu h2 hc hnd => ok.copy d n hu h2 hc fun h => hnd (hdirty d n h)⟩
  rw [holds_update_same xb a b { xb a with dirty := (xb a).dirty || toWrite } d n
    ⟨rfl, rfl⟩] at hh
  rw [← ok.held b d n hb h0 hh]
  by_cases hba : b = a
  · subst hba
    rw [Function.update_self]
  · rw [Function.update_of_ne hba]

/-- Changing the contents of a buffer that is marked stores them. -/
theorem coherent_store (ha : L.Buf a)
    (drv : Int) (k : Nat) (h0 : 0 ≤ drv) (hh : Holds xb a drv k) (hd : (xb a).dirty = true)
    (data : α) :
    Coherent L (Function.update xb a { xb a with data := data }) disk (putSector last drv k data)
      (fun d n => copied d n ∨ d = drv ∧ n = k) := by
  have hdirty : ∀ d n, Dirty L xb d n →
      Dirty L (Function.update xb a { xb a with data := data }) d n := by
    rintro d n ⟨b, hb, hhb, hdb⟩
    refine ⟨b, hb, (holds_update_same xb a b { xb a with data := data } d n
      ⟨rfl, rfl⟩).mpr hhb, ?_⟩
    by_cases hba : b = a
    · subst hba
      rw [Function.update_self]
      exact hdb
    · rw [Function.update_of_ne hba]
      exact hdb
  have hself : Dirty L (Function.update xb a { xb a with data := data }) drv k :=
    hdirty drv k ⟨a, ha, hh, hd⟩
  rcases ok.keep a { xb a with data := data } ⟨rfl, rfl, rfl⟩ with ⟨hvalid, hunique⟩
  refine ⟨hvalid, hunique, fun b d n hb hd0 hhb => ?_, fun d n hu hnd => ?_,
    fun d n hu h2 hc hnd => ?_⟩
  · rw [holds_update_same xb a b { xb a with data := data } d n ⟨rfl, rfl⟩] at hhb
    by_cases hba : b = a
    · subst hba
      rw [Function.update_self]
      rcases hh with ⟨rfl, rfl⟩
      rcases hhb with ⟨rfl, rfl⟩
      exact (putSector_same ..).symm
    · rw [Function.update_of_ne hba, putSector_other _ _ _ _ _ _ fun h => ?_]
      · exact ok.held b d n hb hd0 hhb
      · rcases h with ⟨rfl, rfl⟩
        exact hba (ok.unique b a _ _ hb ha hd0 hhb hh)
  · have hne : ¬ (d = drv ∧ n = k) := by
      rintro ⟨rfl, rfl⟩
      exact hnd hself
    rw [putSector_other _ _ _ _ _ _ hne]
    exact ok.clean d n hu fun h => hnd (hdirty d n h)
  · have hne : ¬ (d = drv ∧ n = k) := by
      rintro ⟨rfl, rfl⟩
      exact hnd hself
    rw [putSector_other _ _ _ _ _ _ hne]
    exact ok.copy d n hu h2 (hc.resolve_right hne) fun h => hnd (hdirty d n h)

theorem coherent_invalid (hd : (xb a).dirty = false) :
    Coherent L (Function.update xb a { xb a with drv := -1 }) disk last copied := by
  have hdirty : ∀ d n, Dirty L xb d n →
      Dirty L (Function.update xb a { xb a with drv := -1 }) d n := by
    rintro d n ⟨b, hb, hh, hdb⟩
    have hba : b ≠ a := by
      rintro rfl
      rw [hd] at hdb
      simp only [reduceCtorEq] at hdb
    refine ⟨b, hb, (holds_update_ne xb a b _ d n hba).mpr hh, ?_⟩
    rw [Function.update_of_ne hba]
    exact hdb
  have hnot : ∀ d n, 0 ≤ d → ¬ Holds (Function.update xb a { xb a with drv := -1 }) a d n := by
    rintro d n h0 ⟨hdrv, _⟩
    rw [Function.update_self] at hdrv
    simp only at hdrv
    omega
  refine ⟨fun b hb h0 => ?_, fun b c d n hb hc h0 h1 h2 => ?_, fun b d n hb h0 hh => ?_,
    fun d n hu hnd => ok.clean d n hu fun h => hnd (hdirty d n h),
    fun d n hu h2 hc hnd => ok.copy d n hu h2 hc fun h => hnd (hdirty d n h)⟩
  · have hba : b ≠ a := by
      rintro rfl
      rw [Function.update_self] at h0
      simp only at h0
      omega
    rw [Function.update_of_ne hba] at *
    exact ok.valid b hb h0
  · have hba : b ≠ a := fun h => hnot d n h0 (h ▸ h1)
    have hca : c ≠ a := fun h => hnot d n h0 (h ▸ h2)
    rw [holds_update_ne xb a b _ d n hba] at h1
    rw [holds_update_ne xb a c _ d n hca] at h2
    exact ok.unique b c d n hb hc h0 h1 h2
  · have hba : b ≠ a := fun h => hnot d n h0 (h ▸ hh)
    rw [holds_update_ne xb a b _ d n hba] at hh
    rw [Function.update_of_ne hba]
    exact ok.held b d n hb h0 hh

end

theorem coherent_transfer (ok : Coherent L xb disk last copied) (drv : Int) (start count : Nat)
    (data : Nat → α) (hrange : ∀ k, start ≤ k → k < start + count →
      L.used drv k ∧ L.mirror drv k = 0 ∧ ∀ a, L.Buf a → ¬ Holds xb a drv k) :
    Coherent L xb
      (fun d k => if d = drv ∧ start ≤ k ∧ k < start + count then data (k - start) else disk d k)
      (fun d k => if d = drv ∧ start ≤ k ∧ k < start + count then data (k - start) else last d k)
      copied := by
  refine ⟨ok.valid, ok.unique, fun a d k ha h0 hh => ?_, fun d k hu hnd => ?_,
    fun d k hu h2 hc hnd => ?_⟩
  · rw [if_neg]
    · exact ok.held a d k ha h0 hh
    · rintro ⟨rfl, h1, h2⟩
      exact (hrange k h1 h2).2.2 a ha hh
  · by_cases hin : d = drv ∧ start ≤ k ∧ k < start + count
    · rw [if_pos hin, if_pos hin]
    · rw [if_neg hin, if_neg hin]
      exact ok.clean d k hu hnd
  · rw [if_neg, if_neg]
    · exact ok.copy d k hu h2 hc hnd
    · rintro ⟨rfl, h1, h3⟩
      exact h2 (hrange k h1 h3).2.1
    · -- A copy is not used.
      rintro ⟨rfl, h1, h3⟩
      exact L.mirror_unused _ _ hu h2 (hrange _ h1 h3).1

end

end Cache

end MagiC
