import MagiC.Malloc.Memsave

/-!
# Saving and Restoring a Process

`Pmemsave` and `Pmemrestore` together. Whatever the process does to the data of
its blocks in between, the restore brings back every block there is a copy of,
leaves all others as it finds them, and frees the copies.

Whether these are the blocks they should be is another matter: a block that is
not named in the exclusion list is to be copied, a block that is named in it is
not. That holds when the process is not named itself, and the last block of the
last list is the one shared block there is.

## Main definitions

* `Restores`: What a restore does for a process.

## Theorems

* `pmemsave_restores`: When a save and a restore bring a process back.
-/

namespace MagiC

namespace Malloc

/-- A block of the process, which it owns or which is in its list of shared
    blocks. -/
def OwnBlock (h : Heap) (proc : Nat) (b : Block) : Prop :=
  Alloc h b ∧ (b.owner = proc ∨ b.adr + mcbData ∈ (h.pds proc).memlist.getD [])

/-- Two memories hold the same data in a block. -/
def SameData (m m' : Mem) (b : Block) : Prop :=
  ∀ k, k < b.len → k % 4 = 0 → m (b.adr + mcbData + k) = m' (b.adr + mcbData + k)

/-- A memory in which only the data of the process's blocks have changed. -/
def Scribbles (h : Heap) (proc : Nat) (m m' : Mem) : Prop :=
  ∀ x, m' x ≠ m x → ∃ b, OwnBlock h proc b ∧ b.adr + mcbData ≤ x ∧ x < b.fin

/-- What a restore does for a process: whatever has become of the data of its
    blocks, those not named in the exclusion list are as they were when saved,
    all others are as they have become, and there are no copies any more. -/
def Restores (h0 h1 : Heap) (proc : Nat) (excl : List Nat) (a3 : Nat) : Prop :=
  ∀ m, Scribbles h0 proc h1.mem m →
    ∃ h', pmemrestore { h1 with mem := m } a3 proc true = some h' ∧ HeapOk h' ∧
      (∀ c, Alloc h' c ↔ Alloc h0 c) ∧
      ∀ b, Alloc h0 b →
        (OwnBlock h0 proc b → b.adr + mcbData ∉ excl → SameData h'.mem h0.mem b) ∧
        (OwnBlock h0 proc b → b.adr + mcbData ∈ excl → SameData h'.mem m b) ∧
        (¬ OwnBlock h0 proc b → SameData h'.mem h0.mem b)

/-- Of the process's blocks with data those are copied that are not named in
    the exclusion list. -/
def SavesRight (h : Heap) (proc : Nat) (excl : List Nat) : Prop :=
  ∀ b, OwnBlock h proc b → 0 < b.len → (b.adr + mcbData ∉ excl ↔ Copied h proc excl b)

/-- Where the restore stands: the copies still to be put back are as they were
    when they were made, and what they go to is in no header. -/
structure Undoing (h0 h1 h : Heap) (a6 : Nat) (recs : List Rec) : Prop where
  ok : HeapOk h
  same : Same h0 h
  chain : Chains.Linked h.mem 0 a6 (recs.map Rec.copy)
  alloc : ∀ c, Alloc h c ↔ Alloc h0 c ∨ ∃ r ∈ recs, c = r.block
  copies : ∀ r ∈ recs, ∀ k, k < svmbData + r.len → k % 4 = 0 →
    h.mem (r.copy + k) = h1.mem (r.copy + k)
  clear : ∀ r ∈ recs, ∀ k, k < r.len → NoHeader h (r.adr + k)

section

variable (h0 h1 : Heap) (proc a3 : Nat) (recs : List Rec) (hp : Parked h0 h1 proc a3 recs)

include hp

theorem Parked.hit (r : Rec) (hr : r ∈ recs) (b : Block) (hb : Alloc h1 b)
    (k : Nat) (hk : k < r.len) (hlo : b.adr ≤ r.adr + k) (hhi : r.adr + k < b.fin) :
    b.adr + mcbData = r.adr ∧ b.len = r.len := by
  rcases hp.target r hr with ⟨d, hd, hadr, hlen⟩
  rcases hasBlock_apart h1 hp.ok b d hb.1 hd with rfl | hlt | hlt
  · exact ⟨hadr, hlen⟩
  all_goals
    unfold Block.fin at hlt hhi
    unfold mcbData at *
    omega

theorem Parked.written (r : Rec) (hr : r ∈ recs) (b : Block) (hb : Alloc h1 b)
    (k : Nat) (hk : k < r.len) (h4 : k % 4 = 0) (hlo : b.adr ≤ r.adr + k)
    (hhi : r.adr + k < b.fin) : h1.mem (r.copy + svmbData + k) = h1.mem (r.adr + k) := by
  have hhit := hp.hit h0 h1 proc a3 recs r hr b hb k hk hlo hhi
  exact hp.content r hr b hb hhit.1 k hk h4

theorem Parked.length : recs.length < addresses := by
  rw [← List.length_map (f := Rec.copy)]
  refine nodup_addresses _ (Chains.linked_nodup hp.chain) (fun x hx => ?_)
  rcases List.mem_map.mp hx with ⟨r, hr, rfl⟩
  have hb := (hp.alloc r.block).mpr (Or.inr ⟨r, hr, rfl⟩)
  have hlt := hasBlock_lt h1 hp.ok r.block hb.1
  have hsize := (hp.size r hr).1
  unfold Rec.copy
  unfold Block.fin mcbData at *
  unfold svmbData at hsize
  unfold addresses
  omega

end

/-- The memory after one copy has been put back: no more is written than was copied, and no
    more than the block holds. -/
def Rec.undo (h : Heap) (r : Rec) : Mem :=
  moveLongs h.mem r.adr (r.copy + svmbData)
    (if r.len ≤ h.mem (mcbOf r.adr + mcbLen) then r.len else h.mem (mcbOf r.adr + mcbLen))

/-- Only the place a copy goes to is written to. -/
theorem Rec.undo_other (h : Heap) (r : Rec) (x : Nat) (hx : x < r.adr ∨ r.adr + r.len ≤ x) :
    r.undo h x = h.mem x := by
  refine moveLongs_other _ _ _ _ _ ?_
  split_ifs <;> omega

section

variable {h0 h1 h : Heap} {proc a3 a6 : Nat} {all recs : List Rec} {r : Rec}

theorem Undoing.undo_header (hu : Undoing h0 h1 h a6 (r :: recs)) (x : Nat)
    (hx : ¬ NoHeader h x) : r.undo h x = h.mem x := by
  refine r.undo_other h x ?_
  by_contra hno
  refine hx ?_
  have hx' := hu.clear r List.mem_cons_self (x - r.adr) (by omega)
  rwa [Nat.add_sub_cancel' (by omega)] at hx'

/-- What is written into the data of an allocated block was there before. -/
theorem Undoing.undo_written (hu : Undoing h0 h1 h a6 (r :: recs))
    (hp : Parked h0 h1 proc a3 all) (hr : r ∈ all) {b : Block} (hb : Alloc h1 b) {x : Nat}
    (hlo : b.adr ≤ x) (hhi : x < b.fin) : r.undo h x = h.mem x ∨ r.undo h x = h1.mem x := by
  unfold Rec.undo
  obtain ⟨n, hn⟩ : ∃ n, n = if r.len ≤ h.mem (mcbOf r.adr + mcbLen) then r.len
    else h.mem (mcbOf r.adr + mcbLen) := ⟨_, rfl⟩
  have hnle : n ≤ r.len := by
    rw [hn]
    split_ifs <;> omega
  rw [← hn]
  unfold moveLongs
  split_ifs with hx
  · right
    have hcopy := hu.copies r List.mem_cons_self (svmbData + (x - r.adr)) (by omega)
      (by unfold svmbData; omega)
    have hw := hp.written h0 h1 proc a3 all r hr b hb (x - r.adr) (by omega) hx.2.2
      (by omega) (by omega)
    rw [← Nat.add_assoc] at hcopy
    rw [hcopy, hw, Nat.add_sub_cancel' hx.1]
  · exact Or.inl rfl

theorem Undoing.step (table : Table h0) (hproc : 0x1000 ≤ proc) (hp : Parked h0 h1 proc a3 all)
    (hsub : r :: recs ⊆ all) (hu : Undoing h0 h1 h a6 (r :: recs)) :
    ∃ h2, (∀ fuel, pmrLoop proc true (fuel + 1) h a6 = pmrLoop proc true fuel h2 (h.mem r.copy)) ∧
      Undoing h0 h1 h2 (h.mem r.copy) recs ∧
      ∀ b, Alloc h b → ∀ x, b.adr + mcbData ≤ x → x < b.fin → h2.mem x = r.undo h x := by
  rcases (Chains.linked_cons _).mp hu.chain with ⟨ha6, hne, hrest⟩
  have hnd := Chains.linked_nodup hu.chain
  rw [List.map_cons, List.nodup_cons] at hnd
  have hr : r ∈ all := hsub List.mem_cons_self
  have hrb : Alloc h r.block := (hu.alloc _).mpr (Or.inr ⟨r, List.mem_cons_self, rfl⟩)
  have hfields := hp.fields r hr
  rw [← hu.copies r List.mem_cons_self svmbAdr (by unfold svmbAdr svmbData; omega) (by decide),
    ← hu.copies r List.mem_cons_self svmbLen (by unfold svmbLen svmbData; omega) (by decide)]
    at hfields
  have hcongr := heap_congr h hu.ok (r.undo h) hu.undo_header
  have halloc : ∀ c, Alloc { h with mem := r.undo h } c ↔ Alloc h c := fun c =>
    and_congr_left' (hcongr.2 c)
  have hclear : ∀ x, NoHeader { h with mem := r.undo h } x ↔ NoHeader h x := by
    intro x
    unfold NoHeader
    simp only [hcongr.2]
  rcases mxfree_owned { h with mem := r.undo h } hcongr.1
    (table_same h0 _ (hu.same.store _ _ (r.undo h)) table) r.block ((halloc _).mpr hrb) proc
    (Or.inr (by rw [(hp.size r hr).2]; exact hproc)) with ⟨h2, heq, hfrees⟩
  have hstay : ∀ b, Alloc h b → ∀ x, b.adr + mcbData ≤ x → x < b.fin →
      h2.mem x = r.undo h x := by
    intro b hb x hlo hhi
    exact (hfrees.clear x ((hclear x).mpr (inside_noHeader h hu.ok b hb.1 x hlo hhi))).1
  have hlater : ∀ q ∈ recs, ∀ j, j < svmbData + q.len → j % 4 = 0 →
      h2.mem (q.copy + j) = h1.mem (q.copy + j) := by
    intro q hq j hj h4
    have hqin : q ∈ r :: recs := List.mem_cons_of_mem _ hq
    have hsize := (hp.size q (hsub hqin)).1
    have hlo : q.block.adr + mcbData ≤ q.copy + j := Nat.le_add_right _ _
    have hhi : q.copy + j < q.block.fin := by
      unfold Rec.copy Block.fin
      omega
    rw [hstay q.block ((hu.alloc _).mpr (Or.inr ⟨q, hqin, rfl⟩)) _ hlo hhi]
    have hq1 : Alloc h1 q.block := (hp.alloc _).mpr (Or.inr ⟨q, hsub hqin, rfl⟩)
    rcases hu.undo_written hp hr hq1 (by omega) hhi with hw | hw
    · rw [hw]
      exact hu.copies q hqin j hj h4
    · exact hw
  refine ⟨h2, fun fuel => ?_, ⟨hfrees.ok, (hu.same.store _ _ (r.undo h)).trans _ _ _ hfrees.same,
    ?_, ?_, hlater, ?_⟩, hstay⟩
  · rw [ha6]
    conv_lhs => unfold pmrLoop
    rw [if_neg hne]
    simp only [hfields.1, hfields.2, if_true]
    have heq0 : mxfree { h with mem := r.undo h } r.copy proc = some (h2, 0) := heq
    unfold Rec.undo at heq0
    rw [heq0]
  · refine Chains.linked_congr hrest (fun x hx => ?_)
    rcases List.mem_map.mp hx with ⟨q, hq, rfl⟩
    have h2q := hlater q hq 0 (by unfold svmbData; omega) (by decide)
    have hq0 := hu.copies q (List.mem_cons_of_mem _ hq) 0 (by unfold svmbData; omega) (by decide)
    exact h2q.trans hq0.symm
  · intro c
    rw [hfrees.alloc c, halloc c, hu.alloc c]
    constructor
    · rintro ⟨hc | ⟨q, hq, hcq⟩, hcr⟩
      · exact Or.inl hc
      · rcases List.mem_cons.mp hq with rfl | hq
        · exact absurd hcq hcr
        · exact Or.inr ⟨q, hq, hcq⟩
    · rintro (hc | ⟨q, hq, hcq⟩)
      · exact ⟨Or.inl hc, fun hcr => hp.fresh r hr c hc (congrArg Block.adr hcr)⟩
      · refine ⟨Or.inr ⟨q, List.mem_cons_of_mem _ hq, hcq⟩, fun hcr => hnd.1 ?_⟩
        refine List.mem_map.mpr ⟨q, hq, ?_⟩
        unfold Rec.copy
        rw [← hcq, hcr]
  · intro q hq j hj
    exact (hfrees.clear _ ((hclear _).mpr (hu.clear q (List.mem_cons_of_mem _ hq) j hj))).2

/-- The block a copy goes to has its length still, so all of it is written. -/
theorem Undoing.undo_target (hu : Undoing h0 h1 h a6 (r :: recs)) (hp : Parked h0 h1 proc a3 all)
    (hr : r ∈ all) {b : Block} (hb : Alloc h b) (hb1 : Alloc h1 b)
    (hadr : r.adr = b.adr + mcbData) : SameData (r.undo h) h1.mem b := by
  intro j hj h4
  have hlen : b.len = r.len := by
    rcases hp.target r hr with ⟨d, hd, hda, hdlen⟩
    rw [hasBlock_same h1 hp.ok b d hb1.1 hd (Nat.add_right_cancel (hadr.symm.trans hda.symm)),
      hdlen]
  have hroom : r.len ≤ h.mem (mcbOf r.adr + mcbLen) := by
    rw [hadr, mcbOf_data h hu.ok b hb.1, (hasBlock_len h b hb.1).1]
    exact hlen.ge
  unfold Rec.undo
  rw [if_pos hroom, ← hadr, moveLongs_at _ _ _ _ _ (by rw [← hlen]; exact hj) h4]
  have hcopy := hu.copies r List.mem_cons_self (svmbData + j) (by omega)
    (by unfold svmbData; omega)
  rw [← Nat.add_assoc] at hcopy
  exact hcopy.trans (hp.content r hr b hb1 hadr.symm j (by omega) h4)

theorem Undoing.undo_keeps (hp : Parked h0 h1 proc a3 all) (hr : r ∈ all) {b : Block}
    (hb1 : Alloc h1 b) (hadr : r.adr ≠ b.adr + mcbData) : SameData (r.undo h) h.mem b := by
  intro j hj _
  have hin : b.adr + mcbData + j < b.fin := by
    unfold Block.fin
    omega
  refine r.undo_other h _ ?_
  by_contra hno
  have hhit := hp.hit h0 h1 proc a3 all r hr b hb1 (b.adr + mcbData + j - r.adr)
    (by omega) (by omega) (by omega)
  exact hadr hhit.1.symm

end

theorem pmrLoop_spec (h0 h1 : Heap) (table : Table h0) (proc a3 : Nat) (hproc : 0x1000 ≤ proc)
    (all : List Rec) (hp : Parked h0 h1 proc a3 all) :
    ∀ (recs : List Rec) (fuel : Nat) (h : Heap) (a6 : Nat), recs.length < fuel →
      recs ⊆ all → Undoing h0 h1 h a6 recs →
      ∃ h', pmrLoop proc true fuel h a6 = some h' ∧ HeapOk h' ∧ (∀ c, Alloc h' c ↔ Alloc h0 c) ∧
        ∀ b, Alloc h0 b →
          ((∃ r ∈ recs, r.adr = b.adr + mcbData) → SameData h'.mem h1.mem b) ∧
          ((¬ ∃ r ∈ recs, r.adr = b.adr + mcbData) → SameData h'.mem h.mem b) := by
  intro recs
  induction recs with
  | nil =>
    intro fuel h a6 hf _ hu
    obtain ⟨k, rfl⟩ : ∃ k, fuel = k + 1 := ⟨fuel - 1, by omega⟩
    have ha6 : a6 = 0 := hu.chain.1
    unfold pmrLoop
    rw [if_pos ha6]
    refine ⟨h, rfl, hu.ok, fun c => (hu.alloc c).trans ⟨fun hc => ?_, Or.inl⟩, fun b _ =>
      ⟨fun hr => ?_, fun _ _ _ _ => rfl⟩⟩
    · exact hc.elim id fun ⟨_, hr, _⟩ => absurd hr List.not_mem_nil
    · rcases hr with ⟨r, hr, _⟩
      exact absurd hr List.not_mem_nil
  | cons r recs ih =>
    intro fuel h a6 hf hsub hu
    obtain ⟨k, rfl⟩ : ∃ k, fuel = k + 1 := ⟨fuel - 1, by omega⟩
    have hr : r ∈ all := hsub List.mem_cons_self
    rcases hu.step table hproc hp hsub with ⟨h2, hstep, hnext, hstay⟩
    rcases ih k h2 (h.mem r.copy) (by rw [List.length_cons] at hf; omega)
      (fun q hq => hsub (List.mem_cons_of_mem _ hq)) hnext with ⟨h', heq', hok, hal, hdata⟩
    rw [hstep]
    refine ⟨h', heq', hok, hal, fun b hb => ?_⟩
    have hbh : Alloc h b := (hu.alloc b).mpr (Or.inl hb)
    have hb1 : Alloc h1 b := (hp.alloc b).mpr (Or.inl hb)
    have hback : SameData h2.mem (r.undo h) b := by
      intro j hj _
      refine hstay b hbh _ (Nat.le_add_right _ _) ?_
      unfold Block.fin
      omega
    by_cases hlater : ∃ q ∈ recs, q.adr = b.adr + mcbData
    · exact ⟨fun _ => (hdata b hb).1 hlater, fun hno => absurd (by
        rcases hlater with ⟨q, hq, hadr⟩
        exact ⟨q, List.mem_cons_of_mem _ hq, hadr⟩) hno⟩
    · have hrest := (hdata b hb).2 hlater
      by_cases hadr : r.adr = b.adr + mcbData
      · refine ⟨fun _ j hj h4 => ?_, fun hno => absurd ⟨r, List.mem_cons_self, hadr⟩ hno⟩
        rw [hrest j hj h4, hback j hj h4]
        exact hu.undo_target hp hr hbh hb1 hadr j hj h4
      · refine ⟨fun hex => ?_, fun _ j hj h4 => ?_⟩
        · rcases hex with ⟨q, hq, hqadr⟩
          rcases List.mem_cons.mp hq with rfl | hq
          · exact absurd hqadr hadr
          · exact absurd ⟨q, hq, hqadr⟩ hlater
        · rw [hrest j hj h4, hback j hj h4]
          exact Undoing.undo_keeps hp hr hb1 hadr j hj h4

theorem parked_undoing (h0 h1 : Heap) (proc a3 : Nat) (recs : List Rec)
    (hp : Parked h0 h1 proc a3 recs) (m : Mem) (hm : Scribbles h0 proc h1.mem m) :
    Undoing h0 h1 { h1 with mem := m } a3 recs := by
  have hown : ∀ b, OwnBlock h0 proc b → Alloc h1 b := fun b hb => (hp.alloc b).mpr (Or.inl hb.1)
  have hcongr := heap_congr h1 hp.ok m (fun x hx => by
    by_contra hne
    rcases hm x hne with ⟨b, hb, hlo, hhi⟩
    exact hx (inside_noHeader h1 hp.ok b (hown b hb).1 x hlo hhi))
  have hcopies : ∀ r ∈ recs, ∀ k, k < svmbData + r.len → m (r.copy + k) = h1.mem (r.copy + k) := by
    intro r hr k hk
    by_contra hne
    rcases hm _ hne with ⟨b, hb, hlo, hhi⟩
    have hsize := (hp.size r hr).1
    rcases hasBlock_apart h1 hp.ok b r.block (hown b hb).1
      ((hp.alloc _).mpr (Or.inr ⟨r, hr, rfl⟩)).1 with hbr | hlt | hlt
    · exact hp.fresh r hr b hb.1 (congrArg Block.adr hbr)
    all_goals
      unfold Rec.copy Block.fin at *
      omega
  refine ⟨hcongr.1, hp.same.store _ _ m, ?_, fun c => ?_, fun r hr k hk _ => hcopies r hr k hk,
    fun r hr k hk => ?_⟩
  · refine Chains.linked_congr hp.chain (fun x hx => ?_)
    rcases List.mem_map.mp hx with ⟨r, hr, rfl⟩
    exact hcopies r hr 0 (by unfold svmbData; omega)
  · rw [← hp.alloc c]
    exact and_congr_left' (hcongr.2 c)
  · rcases hp.target r hr with ⟨d, hd, hadr, hlen⟩
    unfold NoHeader
    simp only [hcongr.2]
    refine inside_noHeader h1 hp.ok d hd _ (by omega) ?_
    rw [← hadr]
    unfold Block.fin
    omega

theorem pmemrestore_spec (h0 h1 : Heap) (table : Table h0) (proc a3 : Nat) (hproc : 0x1000 ≤ proc)
    (recs : List Rec) (hp : Parked h0 h1 proc a3 recs) (m : Mem)
    (hm : Scribbles h0 proc h1.mem m) :
    ∃ h', pmemrestore { h1 with mem := m } a3 proc true = some h' ∧ HeapOk h' ∧
      (∀ c, Alloc h' c ↔ Alloc h0 c) ∧
      ∀ b, Alloc h0 b →
        ((∃ r ∈ recs, r.adr = b.adr + mcbData) → SameData h'.mem h0.mem b) ∧
        ((¬ ∃ r ∈ recs, r.adr = b.adr + mcbData) → SameData h'.mem m b) := by
  rcases pmrLoop_spec h0 h1 table proc a3 hproc recs hp recs addresses _ a3
    (hp.length h0 h1 proc a3 recs) (List.Subset.refl _)
    (parked_undoing h0 h1 proc a3 recs hp m hm) with ⟨h', heq, hok, hal, hdata⟩
  refine ⟨h', heq, hok, hal, fun b hb => ⟨fun hex k hk h4 => ?_, (hdata b hb).2⟩⟩
  rw [(hdata b hb).1 hex k hk h4]
  refine hp.data _ ⟨b, hb, Nat.le_add_right _ _, ?_⟩
  unfold Block.fin
  omega

theorem restores_iff (h0 h1 : Heap) (ok : HeapOk h0) (table : Table h0) (proc a3 : Nat)
    (hproc : 0x1000 ≤ proc) (excl : List Nat) (recs : List Rec) (hp : Parked h0 h1 proc a3 recs)
    (hcopied : ∀ b, Alloc h0 b →
      ((∃ r ∈ recs, r.adr = b.adr + mcbData) ↔ Copied h0 proc excl b)) :
    Restores h0 h1 proc excl a3 ↔ SavesRight h0 proc excl := by
  have hin : ∀ b : Block, ∀ k, k < b.len → b.adr + mcbData + k < b.fin := by
    intro b k hk
    unfold Block.fin
    omega
  constructor
  · -- A process that changes all of its data finds out.
    classical
    intro hres b hb hlen
    obtain ⟨m, hm⟩ : ∃ m : Mem, m = fun x =>
      if ∃ c, OwnBlock h0 proc c ∧ c.adr + mcbData ≤ x ∧ x < c.fin then h1.mem x + 1
      else h1.mem x := ⟨_, rfl⟩
    have hscr : Scribbles h0 proc h1.mem m := by
      intro x hx
      by_contra hno
      refine hx ?_
      rw [hm]
      exact if_neg hno
    have hchanged : m (b.adr + mcbData + 0) ≠ h0.mem (b.adr + mcbData + 0) := by
      rw [hm, ← hp.data _ ⟨b, hb.1, Nat.le_add_right _ _, hin b 0 hlen⟩]
      simp only
      rw [if_pos ⟨b, hb, Nat.le_add_right _ _, hin b 0 hlen⟩]
      omega
    rcases pmemrestore_spec h0 h1 table proc a3 hproc recs hp m hscr with ⟨h', heq, _, _, hspec⟩
    rcases hres m hscr with ⟨h'', heq', _, _, hdata⟩
    rw [heq] at heq'
    have hhh : h' = h'' := Option.some.inj heq'
    rw [← hhh] at hdata
    rw [← hcopied b hb.1]
    constructor
    · intro hex
      by_contra hno
      have hsaved := (hdata b hb.1).1 hb hex 0 hlen (by decide)
      have hleft := (hspec b hb.1).2 hno 0 hlen (by decide)
      exact hchanged (hleft.symm.trans hsaved)
    · intro hsv hex
      have hkept := (hdata b hb.1).2.1 hb hex 0 hlen (by decide)
      have hback := (hspec b hb.1).1 hsv 0 hlen (by decide)
      exact hchanged (hkept.symm.trans hback)
  · intro hright m hscr
    rcases pmemrestore_spec h0 h1 table proc a3 hproc recs hp m hscr with
      ⟨h', heq, hok, hal, hspec⟩
    refine ⟨h', heq, hok, hal, fun b hb => ⟨fun hob hex k hk h4 => ?_, fun hob hex k hk h4 => ?_,
      fun hno k hk h4 => ?_⟩⟩
    · exact (hspec b hb).1 ((hcopied b hb).mpr ((hright b hob (by omega)).mp hex)) k hk h4
    · refine (hspec b hb).2 (fun hsv => ?_) k hk h4
      exact (hright b hob (by omega)).mpr ((hcopied b hb).mp hsv) hex
    · by_cases hsv : ∃ r ∈ recs, r.adr = b.adr + mcbData
      · exact (hspec b hb).1 hsv k hk h4
      · -- Nobody has changed a block that is not the process's.
        have hx : Data h0 (b.adr + mcbData + k) := ⟨b, hb, Nat.le_add_right _ _, hin b k hk⟩
        rw [(hspec b hb).2 hsv k hk h4, ← hp.data _ hx]
        by_contra hne
        rcases hscr _ hne with ⟨c, hc, hlo, hhi⟩
        have hbk := hin b k hk
        rcases hasBlock_apart h0 ok b c hb.1 hc.1.1 with rfl | hlt | hlt
        · exact hno hc
        all_goals omega

/-- `Pmemsave` fails without leaving a copy behind, or it succeeds, and then the
    restore brings the process back if and only if the blocks of the process
    that are copied are those not named in the exclusion list. -/
theorem pmemsave_restores (h0 : Heap) (ok : HeapOk h0) (table : Table h0)
    (hur : 0x1000 ≤ h0.urPd) (proc : Nat) (hproc : 0x1000 ≤ proc) (excl : List Nat)
    (hn : Names h0 excl) (a5 : Nat) :
    (∃ h', pmemsave h0 proc excl a5 = some (h', none) ∧ HeapOk h' ∧
        ∀ c, Alloc h' c ↔ Alloc h0 c) ∨
      ∃ h1 a3, pmemsave h0 proc excl a5 = some (h1, some a3) ∧
        (Restores h0 h1 proc excl a3 ↔ SavesRight h0 proc excl) := by
  rcases pmemsave_spec h0 ok table hur proc (by omega) excl hn a5 with
    ⟨h', heq, hok, _, hal, _⟩ | ⟨h1, a3, recs, heq, hp, hcopied⟩
  · exact Or.inl ⟨h', heq, hok, hal⟩
  · exact Or.inr ⟨h1, a3, heq, restores_iff h0 h1 ok table proc a3 hproc excl recs hp hcopied⟩

/-- A block at 4096, two of the process and a free one behind it, and at the
    end one of another process. -/
def forkMem : Mem := fun x =>
  if x = 4096 then ANDR else if x = 4100 then 16 else if x = 4104 then 1 else
  if x = 4128 then ANDR else if x = 4132 then 32 else if x = 4136 then 0x8000 else
  if x = 4140 then 4096 else
  if x = 4176 then ANDR else if x = 4180 then 64 else if x = 4184 then 0x8000 else
  if x = 4188 then 4128 else
  if x = 4256 then ANDR else if x = 4260 then 3872 else if x = 4268 then 4176 else
  if x = 8144 then KROM else if x = 8148 then 16 else if x = 8152 then 0xa000 else
  if x = 8156 then 4256 else 0

theorem forkMem_ramList :
    RamList forkMem 4096 8176
      [⟨4096, ANDR, 16, 1⟩, ⟨4128, ANDR, 32, 0x8000⟩, ⟨4176, ANDR, 64, 0x8000⟩,
        ⟨4256, ANDR, 3872, 0⟩, ⟨8144, KROM, 16, 0xa000⟩] := by
  refine ⟨⟨⟨rfl, rfl, rfl, rfl⟩, ⟨rfl, rfl, rfl, rfl⟩, ⟨rfl, rfl, rfl, rfl⟩,
    ⟨rfl, rfl, rfl, rfl⟩, ⟨rfl, rfl, rfl, rfl⟩, trivial⟩,
    ⟨⟨rfl, rfl, rfl, rfl, rfl, rfl⟩, ⟨rfl, rfl, rfl, rfl, rfl⟩, ?_⟩, ?_⟩
  · intro b hb
    simp only [List.mem_cons, List.not_mem_nil, or_false] at hb
    rcases hb with rfl | rfl | rfl | rfl | rfl <;> (simp only; decide)
  · simp [Coalesced]

/-- A heap with that memory. The process shares the first block. -/
def forked : Heap :=
  (oneList forkMem 4096 8176).setPd 0x8000 ⟨2 ^ 32 - 1, some [4112]⟩

theorem heapOk_forked : HeapOk forked :=
  heapOk_setPd _ _ _
    (heapOk_oneList forkMem 4096 8176 _ (by decide) (by decide) forkMem_ramList)

theorem table_forked : Table forked := by
  have hzero : ∀ i, IsList forked i → i = 0 := isList_oneList forkMem 4096 8176
  refine ⟨Nat.succ_ne_zero _, fun j hj i hij => ?_, fun i hi => ?_, fun i hi => ?_⟩
  · rw [hzero j hj] at hij
    exact absurd hij (Nat.not_lt_zero i)
  · rw [hzero i hi]
    show (8176 : Nat) ≤ 2 ^ 31
    decide
  · rw [hzero i hi]
    show (4 : Nat) ∣ 4096
    decide

theorem alloc_forked (b : Block) :
    Alloc forked b ↔
      b = ⟨4096, ANDR, 16, 1⟩ ∨ b = ⟨4128, ANDR, 32, 0x8000⟩ ∨
        b = ⟨4176, ANDR, 64, 0x8000⟩ ∨ b = ⟨8144, KROM, 16, 0xa000⟩ := by
  have hzero : IsList forked 0 :=
    ⟨by decide, Nat.succ_ne_zero _, (by decide : (4096 : Nat) ≠ 2 ^ 32 - 1)⟩
  constructor
  · rintro ⟨⟨i, bs, hi, hbs, hin⟩, hne⟩
    rw [isList_oneList forkMem 4096 8176 i hi] at hbs
    rw [ramList_unique forkMem 4096 8176 8176 _ _ hbs forkMem_ramList] at hin
    simp only [List.mem_cons, List.not_mem_nil, or_false] at hin
    rcases hin with rfl | rfl | rfl | rfl | rfl
    · exact Or.inl rfl
    · exact Or.inr (Or.inl rfl)
    · exact Or.inr (Or.inr (Or.inl rfl))
    · exact absurd rfl hne
    · exact Or.inr (Or.inr (Or.inr rfl))
  · rintro (rfl | rfl | rfl | rfl)
    · exact ⟨⟨0, _, hzero, forkMem_ramList, by simp⟩, by decide⟩
    · exact ⟨⟨0, _, hzero, forkMem_ramList, by simp⟩, by decide⟩
    · exact ⟨⟨0, _, hzero, forkMem_ramList, by simp⟩, by decide⟩
    · exact ⟨⟨0, _, hzero, forkMem_ramList, by simp⟩, by decide⟩

theorem pmemsave_forked (excl : List Nat)
    (hrun : ((pmsMemloop2 excl 0x8000 nblocks 0 forked ⟨0x8000, 0, 0⟩).bind
      fun p => p.2.bind fun s => (pmsShmloop excl ((p.1.pds 0x8000).memlist.getD []) p.1 s).bind
        Prod.snd).isSome) :
    ∀ h', pmemsave forked 0x8000 excl 0 ≠ some (h', none) := by
  intro h' heq
  unfold pmemsave at heq
  rcases hmem : pmsMemloop2 excl 0x8000 nblocks 0 forked ⟨0x8000, 0, 0⟩ with
    - | ⟨g, - | s⟩
  · rw [hmem] at hrun
    cases hrun
  · rw [hmem] at hrun
    cases hrun
  rw [hmem] at heq hrun
  dsimp only [Option.bind_some] at heq hrun
  rcases hsh : pmsShmloop excl ((g.pds 0x8000).memlist.getD []) g s with - | ⟨g', - | t⟩
  · rw [hsh] at hrun
    cases hrun
  · rw [hsh] at hrun
    cases hrun
  rw [hsh] at heq
  dsimp only at heq
  cases hown : pmsOwnloop 0x8000 addresses g'.mem t.a3 with
  | none => rw [hown] at heq; exact absurd heq (by simp)
  | some m => rw [hown] at heq; exact absurd heq (by simp)

/-- A process with two blocks of its own and a shared one that is named in the
    exclusion list is saved and restored. -/
theorem pmemsave_restores_exclusive :
    ∃ h1 a3, pmemsave forked 0x8000 [4112] 0 = some (h1, some a3) ∧
      Restores forked h1 0x8000 [4112] a3 := by
  have hright : SavesRight forked 0x8000 [4112] := by
    intro b hb _
    have hin : b.owner = 0x8000 ∨ b.adr + mcbData ∈ [4112] := hb.2
    rcases (alloc_forked b).mp hb.1 with rfl | rfl | rfl | rfl
    · -- The shared block is not copied, as none is left that is not named.
      refine ⟨fun h => absurd (List.mem_singleton.mpr rfl) h, ?_⟩
      rintro (⟨howner, -⟩ | ⟨-, e, he, -, hne⟩)
      · exact absurd howner (by decide)
      · exact absurd he hne
    · exact ⟨fun _ => Or.inl ⟨rfl, by decide⟩, fun _ => by decide⟩
    · exact ⟨fun _ => Or.inl ⟨rfl, by decide⟩, fun _ => by decide⟩
    · exact absurd hin (by decide)
  have hnames : Names forked [4112] := by
    intro e he
    rw [List.mem_singleton.mp he]
    exact ⟨_, (alloc_forked _).mpr (Or.inl rfl), rfl⟩
  rcases pmemsave_restores forked heapOk_forked
    table_forked (by decide) 0x8000 (by decide) [4112] hnames 0
    with ⟨h', heq, _⟩ | ⟨h1, a3, heq, hiff⟩
  · exact absurd heq (pmemsave_forked [4112] (by decide +kernel) h')
  · exact ⟨h1, a3, heq, hiff.mpr hright⟩

/-- A shared block that is not the last block is not brought back. -/
theorem pmemsave_loses_shared :
    HeapOk forked ∧ Table forked ∧
      ∃ h1 a3, pmemsave forked 0x8000 [] 0 = some (h1, some a3) ∧
        ¬ Restores forked h1 0x8000 [] a3 := by
  have ok := heapOk_forked
  have table := table_forked
  refine ⟨ok, table, ?_⟩
  rcases pmemsave_spec forked ok table (by decide) 0x8000 (by decide) []
    (fun _ he => absurd he List.not_mem_nil) 0 with ⟨h', heq, _⟩ | ⟨h1, a3, recs, heq, hp, hc⟩
  · exact absurd heq (pmemsave_forked [] (by decide +kernel) h')
  · refine ⟨h1, a3, heq, fun hres => ?_⟩
    have hright := (restores_iff _ h1 ok table 0x8000 a3 (by decide) [] recs hp hc).mp hres
    have hb := (alloc_forked ⟨4096, ANDR, 16, 1⟩).mpr (Or.inl rfl)
    rcases (hright _ ⟨hb, Or.inr (List.mem_singleton.mpr rfl)⟩ (by decide)).mp List.not_mem_nil with
      ⟨howner, _⟩ | ⟨⟨_, _, _, _, hk⟩, _⟩
    · exact absurd howner (by decide)
    · exact absurd hk (by decide)

end Malloc

end MagiC
