import MagiC.Malloc.Invariant

/-!
# Freeing and Shrinking

What `Mxfree` and `Mxshrink` do to the heap.

Freeing clears the owner, which may leave three free neighbours in a row, and
then melts: first the block into its predecessor, then its successor into the
result. The list is not coalesced between the two, so what is carried along is
the part before the block and the part behind it, each coalesced in itself.

A shared block only loses a reference. Its owner field then holds the new
count, which may be anything but zero, so the list stays as it is.

Shrinking splits the block and makes an allocated block of the rest, which is
freed like any other.

## Main definitions

* `Release`: The outcome of giving up all or part of a block.

## Theorems

* `mshShrink_spec`: Splitting off and freeing the rest of a block.
-/

namespace MagiC

namespace Malloc

/-- The outcome of giving up all or part of the block at `e`: the heap stays
    well formed and nobody else loses a block. -/
structure Release (h h' : Heap) (e : Nat) : Prop where
  ok : HeapOk h'
  keeps : Keeps h h' e

/-- A block given up for good: it is the only allocated block that goes, and
    only headers are stored into. -/
structure Frees (h h' : Heap) (b : Block) : Prop where
  ok : HeapOk h'
  same : Same h h'
  alloc : ∀ c, Alloc h' c ↔ Alloc h c ∧ c ≠ b
  clear : ∀ x, NoHeader h x → h'.mem x = h.mem x ∧ NoHeader h' x

theorem Frees.release (h h' : Heap) (b : Block) (hf : Frees h h' b) : Release h h' b.adr :=
  ⟨hf.ok, fun c hc hco hne => ((hf.alloc c).mpr ⟨⟨hc, hco⟩, fun hcb => hne (hcb ▸ rfl)⟩).1⟩

/-- Melting a freed block into its predecessor. What comes out ends where the
    block ended, and no free block is left before it. -/
theorem mfreePrev_linked (m : Mem) (a fin : Nat) (pre post : List Block) (b : Block)
    (ha : a ≠ 0) (hl : Linked m 0 (pre ++ [b] ++ post)) (ht : Tiled a fin (pre ++ [b] ++ post))
    (hb : b.owner = 0) (hpre : Coalesced pre) :
    ∃ m' pre' q, mfreePrev m b.adr = some (m', q.adr) ∧ Linked m' 0 (pre' ++ [q] ++ post) ∧
      Tiled a fin (pre' ++ [q] ++ post) ∧ q.owner = 0 ∧ q.fin = b.fin ∧ q.magic = b.magic ∧
      Coalesced pre' ∧ (∀ c ∈ pre'.getLast?, c.owner ≠ 0) ∧
      (∀ c, c.owner ≠ 0 → (c ∈ pre' ↔ c ∈ pre)) ∧
      (∀ x, Clear (pre ++ [b] ++ post) x → Clear (pre' ++ [q] ++ post) x) ∧
      ∀ x, Clear (pre ++ [b] ++ post) x → m' x = m x := by
  have hprev : m (b.adr + mcbPrev) = prevOf 0 pre :=
    (ramList_at m a fin pre post b hl ht).2.2.2.1.2.2.2
  unfold mfreePrev
  simp only [hprev]
  rcases List.eq_nil_or_concat pre with rfl | ⟨pre0, p, rfl⟩
  · -- The first block of the list has no predecessor.
    rw [if_neg (by simp only [prevOf, ne_eq, not_true_eq_false, false_and, not_false_eq_true])]
    exact ⟨m, [], b, rfl, hl, ht, hb, rfl, rfl, hpre, fun c hc => absurd hc (by simp),
      fun c _ => Iff.rfl, fun x hx => hx, fun x _ => rfl⟩
  · rw [List.concat_eq_append] at *
    have hpair : pre0 ++ [p] ++ [b] ++ post = pre0 ++ [p, b] ++ post := by simp
    have hpmem : p ∈ pre0 ++ [p] ++ [b] ++ post := by simp
    have hpadr := (span_mem _ _ _ ht.span p hpmem).1
    have hpown := (linked_fields m 0 _ hl p hpmem).2.2
    simp only [prevOf_append, prevOf, hpown]
    by_cases hp : p.owner = 0
    · rw [if_pos ⟨by omega, hp⟩]
      rw [hpair] at hl ht ⊢
      rcases meltMcbs_linked m a fin pre0 post p b hl ht with ⟨m', heq, hl', ht', hout⟩
      have hbp := (linked_pair_at m a fin pre0 post p b hl ht).2.1
      unfold Coalesced at hpre
      rw [List.isChain_append] at hpre
      refine ⟨m', pre0, merge p b, by rw [heq]; rfl, hl', ht', hp, ?_, rfl, hpre.1, ?_, ?_, ?_,
        hout⟩
      · simp only [merge, Block.fin, mcbData] at hbp ⊢
        omega
      · intro c hc
        rcases hpre.2.2 c hc p rfl with h0 | h0
        · exact h0
        · exact absurd hp h0
      · intro c hco
        rw [List.mem_append, List.mem_singleton]
        exact ⟨Or.inl, fun hc => hc.resolve_right (fun hcp => hco (hcp ▸ hp))⟩
      · -- The melted block has the predecessor's header.
        intro x hx e he
        simp only [List.mem_append, List.mem_singleton] at he
        rcases he with (he | rfl) | he
        · exact hx e (by simp [he])
        · exact hx p (by simp)
        · exact hx e (by simp [he])
    · rw [if_neg (fun hc => hp hc.2)]
      refine ⟨m, pre0 ++ [p], b, rfl, hl, ht, hb, rfl, rfl, hpre, ?_, fun c _ => Iff.rfl,
        fun x hx => hx, fun x _ => rfl⟩
      intro c hc
      rw [List.getLast?_append, List.getLast?_singleton, Option.some_or, Option.mem_some_iff] at hc
      rw [← hc]
      exact hp

/-- Melting the successor into a freed block before which no free block lies,
    which leaves no two free neighbours. -/
theorem mfreeNext_linked (m : Mem) (a fin a2 : Nat) (pre post : List Block) (q : Block)
    (hl : Linked m 0 (pre ++ [q] ++ post)) (ht : Tiled a fin (pre ++ [q] ++ post))
    (ha2 : a2 = if q.magic = KROM then 0 else q.fin) (hq0 : q.owner = 0)
    (hpre : Coalesced pre) (hlast : ∀ c ∈ pre.getLast?, c.owner ≠ 0) (hpost : Coalesced post) :
    ∃ m' bs, mfreeNext m q.adr a2 = some m' ∧ RamList m' a fin bs ∧
      (∀ c, c.owner ≠ 0 → (c ∈ bs ↔ c ∈ pre ++ post)) ∧
      (∀ x, Clear (pre ++ [q] ++ post) x → Clear bs x) ∧
      ∀ x, Clear (pre ++ [q] ++ post) x → m' x = m x := by
  rcases ramList_at m a fin pre post q hl ht with ⟨_, hspost, hmark, _, _, _, _⟩
  -- With no free block on either side the whole list is coalesced.
  have hcoal : ∀ (r : Block) (post' : List Block), Coalesced post' →
      (∀ c ∈ post'.head?, c.owner ≠ 0) → Coalesced (pre ++ [r] ++ post') := by
    intro r post' hp' hhead
    unfold Coalesced
    rw [List.isChain_append, List.isChain_append]
    exact ⟨⟨hpre, List.isChain_singleton _, fun c hc _ _ => Or.inl (hlast c hc)⟩, hp',
      fun c _ y hy => Or.inr (hhead y hy)⟩
  -- The freed block itself is not among the owned ones.
  have hkeep : ∀ (r : Block) (post' : List Block), r.owner = 0 → ∀ c, c.owner ≠ 0 →
      (c ∈ pre ++ [r] ++ post' ↔ c ∈ pre ++ post') := by
    intro r post' hr c hco
    simp only [List.mem_append, List.mem_singleton]
    exact ⟨fun hc => hc.imp_left (fun h => h.resolve_right (fun hcr => hco (hcr ▸ hr))),
      fun hc => hc.imp_left Or.inl⟩
  unfold mfreeNext
  rcases marked_next q post fin hspost hmark with ⟨rfl, hk⟩ | ⟨c, cs, rfl, hq, hc⟩
  · rw [if_pos hk] at ha2
    rw [ha2, if_neg (fun h0 => h0.1 rfl)]
    exact ⟨m, _, rfl, ⟨hl, ht, hcoal q [] hpost (fun c hc => absurd hc (by simp))⟩,
      hkeep q [] hq0, fun x hx => hx, fun x _ => rfl⟩
  · rw [if_neg (by rw [hq]; exact andr_ne_krom)] at ha2
    have hcadr : a2 = c.adr := by rw [ha2, hc]; rfl
    have hcmem : c ∈ pre ++ [q] ++ c :: cs := by simp
    have hcown := (linked_fields m 0 _ hl c hcmem).2.2
    rw [hcadr, hcown]
    by_cases hfree : c.owner = 0
    · rw [if_pos ⟨by rw [hc]; unfold mcbData; omega, hfree⟩]
      have hpair : pre ++ [q] ++ c :: cs = pre ++ [q, c] ++ cs := by simp
      rw [hpair] at hl ht ⊢
      rcases meltMcbs_linked m a fin pre cs q c hl ht with ⟨m', heq, hl', ht', hout⟩
      have hcs := List.isChain_cons.mp hpost
      refine ⟨m', _, heq, ⟨hl', ht', hcoal _ cs hcs.2 (fun d hd => ?_)⟩, fun d hdo => ?_,
        fun x hx e he => ?_, hout⟩
      · rcases hcs.1 d hd with h0 | h0
        · exact absurd hfree h0
        · exact h0
      · rw [hkeep (merge q c) cs hq0 d hdo]
        simp only [List.mem_append, List.mem_cons]
        exact or_congr_right ⟨Or.inr, fun hd => hd.resolve_left (fun hdc => hdo (hdc ▸ hfree))⟩
      · -- The melted block has the first one's header.
        simp only [List.mem_append, List.mem_singleton] at he
        rcases he with (he | rfl) | he
        · exact hx e (by simp [he])
        · exact hx q (by simp)
        · exact hx e (by simp [he])
    · rw [if_neg (fun h0 => hfree h0.2)]
      refine ⟨m, _, rfl, ⟨hl, ht, hcoal q (c :: cs) hpost (fun d hd => ?_)⟩,
        hkeep q (c :: cs) hq0, fun x hx => hx, fun x _ => rfl⟩
      rw [List.head?_cons, Option.mem_some_iff] at hd
      rw [← hd]
      exact hfree

theorem release_setPd (h h' : Heap) (e pd : Nat) (p : Pd) (hr : Release h h' e) :
    Release h (h'.setPd pd p) e := ⟨heapOk_setPd h' pd p hr.ok, hr.keeps⟩

theorem marked_magic (bs : List Block) (h : Marked bs) (b : Block) (hb : b ∈ bs) :
    b.magic = KROM ∨ b.magic = ANDR := by
  induction bs with
  | nil => exact absurd hb List.not_mem_nil
  | cons c cs ih =>
    rcases (marked_cons_iff c cs).mp h with ⟨rfl, hk⟩ | ⟨_, ha, hcs⟩
    · rw [List.mem_singleton.mp hb]
      exact Or.inl hk
    · rcases List.mem_cons.mp hb with rfl | hin
      · exact Or.inr ha
      · exact ih hcs hin

/-- Freeing a block of a list for good: an error for a free block, and else
    the block is gone and its free neighbours with it. -/
theorem mfreeBlock_spec (h : Heap) (ok : HeapOk h) (b : Block) (hb : HasBlock h b) (pd : Nat) :
    ∃ h' r, mfreeBlock h b.adr pd = some (h', r) ∧
      ((r = EIMBA ∧ h' = h ∧ b.owner = 0) ∨ (r = 0 ∧ b.owner ≠ 0 ∧ Frees h h' b)) := by
  rcases hb with ⟨i, bs, hi, hbs, hin⟩
  have hf := linked_fields h.mem 0 bs hbs.linked b hin
  unfold mfreeBlock
  simp only [hf.1, hf.2.1, hf.2.2]
  have hmagic := marked_magic bs hbs.tiled.marked b hin
  rw [if_neg (by rintro ⟨hk, ha⟩; exact hmagic.elim hk ha)]
  by_cases hown : b.owner = 0
  · rw [if_pos hown]
    exact ⟨h, EIMBA, rfl, Or.inl ⟨rfl, rfl, hown⟩⟩
  rw [if_neg hown]
  rcases split_at bs b hin with ⟨pre, post, rfl⟩
  rcases put_owner_linked h.mem _ _ 0 pre post b hbs.linked hbs.tiled with ⟨hl, ht⟩
  have hcoal := hbs.coalesced
  unfold Coalesced at hcoal
  rw [List.isChain_append, List.isChain_append] at hcoal
  rcases mfreePrev_linked _ _ _ pre post { b with owner := 0 } hi.2.1 hl ht rfl hcoal.1.1 with
    ⟨m1, pre', q, hprev, hl1, ht1, hq, hqfin, hqmagic, hpre', hlast, hkeep1, hclear1, hout1⟩
  have ha2 : (if b.magic = KROM then 0 else b.adr + mcbData + b.len)
      = if q.magic = KROM then 0 else q.fin := by rw [hqmagic, hqfin]; rfl
  rcases mfreeNext_linked m1 _ _ _ pre' post q hl1 ht1 ha2 hq hpre' hlast hcoal.2.1 with
    ⟨m2, cs, hnext, hcs, hkeep2, hclear2, hout2⟩
  simp only at hprev
  -- The freed block has the header it had, whoever owns it.
  have hclear : ∀ x, Clear (pre ++ [b] ++ post) x → m2 x = h.mem x ∧ Clear cs x := by
    intro x hx
    have hx' : Clear (pre ++ [{ b with owner := 0 }] ++ post) x := by
      intro e he
      simp only [List.mem_append, List.mem_singleton] at he
      rcases he with (he | rfl) | he
      · exact hx e (by simp [he])
      · exact hx b (by simp)
      · exact hx e (by simp [he])
    refine ⟨?_, hclear2 x (hclear1 x hx')⟩
    rw [hout2 x (hclear1 x hx'), hout1 x hx']
    refine put_other _ _ _ _ ?_
    have := hx b (by simp)
    unfold mcbData at this
    unfold mcbOwner
    omega
  have hout : ∀ x, x < h.root i ∨ h.memEnd i ≤ x → m2 x = h.mem x :=
    fun x hx => (hclear x (clear_outside _ _ x _ hbs.tiled.span hx)).1
  have hlist : ∀ c, c.owner ≠ 0 → (c ∈ cs ↔ (c ∈ pre ++ [b] ++ post ∧ ¬ c = b) ∨ False) := by
    intro c hco
    rw [hkeep2 c hco, List.mem_append, hkeep1 c hco, or_false]
    simp only [List.mem_append, List.mem_singleton]
    constructor
    · intro hc
      exact ⟨hc.imp_left Or.inl, fun hcb => span_once _ _ pre post b hbs.tiled.span
        (hcb ▸ List.mem_append.mpr hc)⟩
    · rintro ⟨(hc | hc) | hc, hne⟩
      · exact Or.inl hc
      · exact absurd hc hne
      · exact Or.inr hc
  have hfrees : Frees h { h with mem := m2 } b := by
    refine ⟨heapOk_update h ok i hi m2 cs hcs hout, ⟨rfl, rfl, rfl, rfl, fun _ => rfl⟩,
      fun c => ?_, fun x hx => ?_⟩
    · rw [alloc_exchange h ok i hi m2 _ cs hbs hcs hout (fun c => c = b) (fun _ => False)
        (fun c _ hcb => hcb ▸ hin) hlist c]
      simp only [false_and, or_false, ne_eq]
    · have hx' := hclear x (fun e he => hx e ⟨i, _, hi, hbs, he⟩)
      refine ⟨hx'.1, fun e he => ?_⟩
      rcases (hasBlock_exchange h ok i hi m2 _ cs hbs hcs hout e).mp he with ⟨he, _⟩ | he
      · exact hx e he
      · exact hx'.2 e he
  by_cases hpd : pd = 0
  · simp only [if_pos hpd, hprev, hnext, Option.map_some]
    exact ⟨_, _, rfl, Or.inr ⟨rfl, hown, hfrees⟩⟩
  · simp only [if_neg hpd, Heap.refund, Heap.setPd, hprev, hnext, Option.map_some]
    refine ⟨_, _, rfl, Or.inr ⟨rfl, hown, heapOk_setPd _ pd _ hfrees.ok,
      ⟨rfl, rfl, rfl, rfl, fun p => ?_⟩, hfrees.alloc, hfrees.clear⟩⟩
    simp only
    split_ifs with hp
    · rw [hp]
    · rfl

/-- What `Mxfree` makes of a block of a list: either it is gone, or it stays
    where it is with the length it had, and as an allocated block if it was
    one. -/
structure Freed (h h' : Heap) (b : Block) (pd : Nat) (r : Int) : Prop extends
    Release h h' b.adr where
  held : ¬ (r = 0 ∧ (pd = 0 ∨ 0x1000 ≤ b.owner ∨ b.owner = 1)) → b.owner ≠ 0 →
    ∃ v, v ≠ 0 ∧ HasBlock h' { b with owner := v }

section

variable (h : Heap) (ok : HeapOk h) (b : Block) (hb : HasBlock h b)

include ok hb

theorem freed_refl (pd : Nat) (r : Int) : Freed h h b pd r :=
  ⟨⟨ok, fun _ hc _ _ => hc⟩, fun _ hown => ⟨b.owner, hown, hb⟩⟩

theorem mfreeFree_spec (pd : Nat) :
    ∃ h' r, mfreeFree h b.adr pd = some (h', r) ∧ Freed h h' b pd r := by
  have hown : h.mem (b.adr + mcbOwner) = b.owner := by
    rcases hb with ⟨i, bs, _, hbs, hin⟩
    exact (linked_fields h.mem 0 bs hbs.linked b hin).2.2
  unfold mfreeFree
  simp only [hown]
  by_cases hshm : pd ≠ 0 ∧ b.owner < 0x1000
  · rw [if_pos hshm]
    cases hlist : (h.pds pd).memlist with
    | none => exact ⟨h, EIMBA, rfl, freed_refl h ok b hb pd _⟩
    | some list =>
      cases hrem : shmRemove (b.adr + mcbData) list with
      | none => exact ⟨h, EIMBA, by simp only [hrem], freed_refl h ok b hb pd _⟩
      | some list' =>
        simp only [hrem]
        by_cases hrefs : (b.owner + (2 ^ 32 - 1)) % 2 ^ 32 = 0
        · -- The last reference goes, so the process becomes the owner and frees the block.
          rw [if_neg (not_not.mpr hrefs)]
          have hone : b.owner = 1 := by omega
          have ho := owns_put h ok b hb pd hshm.1
          have hnew := ((ho.alloc _).mpr (Or.inr rfl)).1
          have hok := ho.ok
          have hkeep := ho.keeps
          rw [← put_put h.mem (b.adr + mcbOwner) ((b.owner + (2 ^ 32 - 1)) % 2 ^ 32) pd]
            at hok hnew hkeep
          rcases mfreeBlock_spec _ (heapOk_setPd _ pd _ hok) _ hnew pd with
            ⟨h', r, heq, ⟨_, _, hpd0⟩ | ⟨rfl, _, hfr⟩⟩
          · exact absurd hpd0 hshm.1
          · have hrel := hfr.release
            exact ⟨h', 0, heq, ⟨hrel.ok, fun c hc hco hne =>
              hrel.keeps c (hkeep c hc (fun hcb => hne (hcb ▸ rfl))) hco hne⟩,
              fun hno => absurd ⟨rfl, Or.inr (Or.inr hone)⟩ hno⟩
        · rw [if_pos hrefs]
          have ho := owns_put h ok b hb _ hrefs
          exact ⟨_, 0, rfl, ⟨release_setPd _ _ _ pd _ ⟨ho.ok, fun c hc _ hne =>
            ho.keeps c hc (fun hcb => hne (hcb ▸ rfl))⟩,
            fun _ _ => ⟨_, hrefs, ((ho.alloc _).mpr (Or.inr rfl)).1⟩⟩⟩
  · rw [if_neg hshm]
    rcases mfreeBlock_spec h ok b hb pd with ⟨h', r, heq, ⟨_, rfl, _⟩ | ⟨rfl, _, hfr⟩⟩
    · exact ⟨h', r, heq, freed_refl h' ok b hb pd r⟩
    · refine ⟨h', 0, heq, ⟨hfr.release, fun hno => absurd ⟨rfl, ?_⟩ hno⟩⟩
      by_cases hpd0 : pd = 0
      · exact Or.inl hpd0
      · exact Or.inr (Or.inl (by omega))

theorem hasBlock_lt : b.fin < 2 ^ 32 := by
  rcases hb with ⟨i, bs, hi, hbs, hin⟩
  exact lt_of_le_of_lt (span_mem _ _ _ hbs.tiled.span b hin).2 (ok.bound i hi)

theorem mcbOf_data : mcbOf (b.adr + mcbData) = b.adr := by
  have := hasBlock_lt h ok b hb
  unfold Block.fin mcbData at this
  unfold mcbOf mcbData
  omega

end

theorem inNextList_isList (h : Heap) (a : Nat) : ∀ (fuel list : Nat), list + fuel ≤ nblocks →
    inNextList h a fuel list = true → ∃ i, IsList h i ∧ h.root i ≤ a ∧ a < h.memEnd i := by
  intro fuel
  induction fuel with
  | zero => intro _ _ hc; exact absurd hc Bool.false_ne_true
  | succ k ih =>
    intro list hn hin
    unfold inNextList at hin
    split_ifs at hin with hr hneg hreg
    · exact ih (list + 1) (by omega) hin
    · refine ⟨list, ⟨by omega, hr, fun hc => hneg ?_⟩, hreg⟩
      rw [hc]
      rfl
    · exact ih (list + 1) (by omega) hin

theorem inLists_isList (h : Heap) (ok : HeapOk h) (a : Nat) (hin : inLists h a = true) :
    ∃ i, IsList h i ∧ h.root i ≤ a ∧ a < h.memEnd i := by
  unfold inLists at hin
  split_ifs at hin with hreg
  · refine ⟨0, ⟨by decide, fun hc => ?_, ok.marker 0 (by decide)⟩, hreg⟩
    have := ok.empty hc
    omega
  · exact inNextList_isList h a _ 1 (by decide) hin

/-- `Mxfree` of the data address of a block. -/
theorem mxfree_block (h : Heap) (ok : HeapOk h) (b : Block) (hb : HasBlock h b) (pd : Nat) :
    ∃ h' r, mxfree h (b.adr + mcbData) pd = some (h', r) ∧ Freed h h' b pd r := by
  unfold mxfree
  by_cases hal : (b.adr + mcbData) % 4 ≠ 0
  · rw [if_pos hal]
    exact ⟨h, EIMBA, rfl, freed_refl h ok b hb pd _⟩
  rw [if_neg hal, mcbOf_data h ok b hb]
  simp only
  by_cases hin : inLists h b.adr = true
  · rw [if_pos hin]
    exact mfreeFree_spec h ok b hb pd
  · rw [if_neg hin]
    split_ifs <;> exact ⟨h, _, rfl, freed_refl h ok b hb pd _⟩

/-- `Mxfree` of an address whose MCB would lie in no list. -/
theorem mxfree_outside (h : Heap) (ok : HeapOk h) (memblk pd : Nat)
    (hout : ∀ i, IsList h i → ¬ (h.root i ≤ mcbOf memblk ∧ mcbOf memblk < h.memEnd i)) :
    ∃ r, mxfree h memblk pd = some (h, r) := by
  unfold mxfree
  have hin : ¬ inLists h (mcbOf memblk) = true := by
    intro hc
    rcases inLists_isList h ok _ hc with ⟨i, hi, hreg⟩
    exact hout i hi hreg
  simp only [if_neg hin]
  split_ifs <;> exact ⟨_, rfl⟩

/-- A block cut in two, both of them owned. -/
def cut (size owner : Nat) (b : Block) : List Block :=
  [⟨b.adr, ANDR, size, b.owner⟩,
    ⟨b.adr + mcbData + size, b.magic, b.len - size - mcbData, owner⟩]

theorem cut_owned (size owner : Nat) (b : Block) (hb : b.owner ≠ 0) (ho : owner ≠ 0) :
    ∀ x ∈ cut size owner b, x.owner ≠ 0 := by
  intro x hx
  simp only [cut, List.mem_cons, List.not_mem_nil, or_false] at hx
  rcases hx with rfl | rfl
  · exact hb
  · exact ho

theorem cut_span (size owner : Nat) (b : Block) (hbig : ¬ b.len - size ≤ mcbData) :
    Span b.adr (cut size owner b) b.fin := by
  refine ⟨rfl, rfl, ?_⟩
  simp only [Span, Block.fin, mcbData] at hbig ⊢
  omega

theorem cut_sized (size owner : Nat) (b : Block) (hs : 4 ∣ size) (hb : 4 ∣ b.len) :
    LongSized (cut size owner b) := by
  unfold cut LongSized mcbData
  simp only [List.mem_cons, List.not_mem_nil, or_false, forall_eq_or_imp, forall_eq]
  exact ⟨hs, by omega⟩

theorem cut_tiled (a fin size owner : Nat) (pre post : List Block) (b : Block)
    (ht : Tiled a fin (pre ++ [b] ++ post)) (hpre : Span a pre b.adr) (hpost : Span b.fin post fin)
    (hs : 4 ∣ size) (hbig : ¬ b.len - size ≤ mcbData) :
    Tiled a fin (pre ++ cut size owner b ++ post) :=
  tiled_splice a fin b.adr b.fin pre [b] _ post ht hpre (cut_span size owner b hbig) hpost
    (List.cons_ne_nil _ _) (List.cons_ne_nil _ _) (marked_two _ _ b post rfl rfl)
    (cut_sized size owner b hs (ht.sized b (by simp)))

/-- What `msh_shrink` stores before it frees the rest. -/
def shrinkStores (m : Mem) (a6 a5 d7 actPd : Nat) : Mem :=
  let d2 := m (a6 + mcbLen) - d7 - mcbData
  let a0 := a6 + mcbData + d7
  let m := if a5 = 0 then m else m.put (a5 + mcbPrev) a0
  let m := (m.put a0 (m a6)).put a6 ANDR
  let m := (m.put (a6 + mcbLen) d7).put (a0 + mcbLen) d2
  (m.put (a0 + mcbOwner) actPd).put (a0 + mcbPrev) a6

theorem shrinkStores_ramList (m : Mem) (a fin d7 actPd : Nat) (pre post : List Block) (b : Block)
    (h : RamList m a fin (pre ++ [b] ++ post)) (hown : b.owner ≠ 0)
    (hact : actPd ≠ 0) (h4 : 4 ∣ d7) (hbig : ¬ b.len - d7 ≤ mcbData) :
    RamList (shrinkStores m b.adr (if b.magic = KROM then 0 else b.fin) d7 actPd) a fin
        (pre ++ cut d7 actPd b ++ post) ∧
      ∀ x, x < a ∨ fin ≤ x →
        shrinkStores m b.adr (if b.magic = KROM then 0 else b.fin) d7 actPd x = m x := by
  rcases ramList_at m a fin pre post b h.linked h.tiled with
    ⟨hpre, hpost, hmark, ⟨h0, h1, h2, h3⟩, hlo, hhi, hb4⟩
  have htiled := cut_tiled a fin d7 actPd pre post b h.tiled hpre hpost h4 hbig
  have hcoal : Coalesced (pre ++ cut d7 actPd b ++ post) := by
    rcases coalesced_sides pre _ post h.coalesced with ⟨hcpre, hcpost⟩
    exact coalesced_owned pre post hcpre hcpost _ (List.cons_ne_nil _ _)
      (cut_owned d7 actPd b hown hact)
  have hsplice := fun m' => linked_splice m m' 0 a fin b.adr b.fin pre [b] (cut d7 actPd b) post
    h.linked hpre ⟨rfl, rfl⟩ hpost
  have hnext := marked_next b post fin hpost hmark
  unfold cut at *
  simp only [mcbOwner, mcbLen, mcbPrev, mcbData, Block.fin] at *
  rcases hnext with ⟨rfl, hk⟩ | ⟨c, cs, rfl, hb, hc⟩
  · rw [if_pos hk]
    simp only [shrinkStores, mcbOwner, mcbLen, mcbPrev, mcbData, if_true, h0, h1]
    refine ⟨⟨hsplice _ ⟨mcbAt_mk _ _ _ _ _ _ ?_ ?_ ?_ ?_, mcbAt_mk _ _ _ _ _ _ ?_ ?_ ?_ ?_,
      trivial⟩ ?_ ?_, htiled, hcoal⟩, ?_⟩
    any_goals simp (disch := omega) only [put_self, put_other, h2, h3]
    · intro x hx _
      simp (disch := omega) only [put_other]
    · intro d hd
      exact absurd hd (by simp)
    · intro x hx
      simp (disch := omega) only [put_other]
  · have hcfin : c.adr + 16 ≤ fin := by
      have := (span_mem _ _ _ hpost c List.mem_cons_self).2
      unfold Block.fin mcbData at this
      omega
    rw [if_neg (by rw [hb]; exact andr_ne_krom), ← hc]
    have hcpos : c.adr ≠ 0 := by omega
    simp only [shrinkStores, mcbOwner, mcbLen, mcbPrev, mcbData, if_neg hcpos, h1]
    have hm0 : m.put (c.adr + 12) (b.adr + 16 + d7) b.adr = b.magic := by
      rw [put_other _ _ _ _ (by omega), h0]
    rw [hm0]
    refine ⟨⟨hsplice _ ⟨mcbAt_mk _ _ _ _ _ _ ?_ ?_ ?_ ?_, mcbAt_mk _ _ _ _ _ _ ?_ ?_ ?_ ?_,
      trivial⟩ ?_ ?_, htiled, hcoal⟩, ?_⟩
    any_goals simp (disch := omega) only [put_self, put_other, h2, h3]
    · intro x hx hne
      have := hne c rfl
      simp (disch := omega) only [put_other]
    · intro d hd
      rw [List.head?_cons, Option.mem_some_iff] at hd
      rw [← hd]
      simp (disch := omega) only [put_self, put_other]
      rfl
    · intro x hx
      simp (disch := omega) only [put_other]

/-- What `Mxshrink` makes of an owned block: it stays, with a length between
    the one asked for and the one it had. -/
structure Shrunk (h h' : Heap) (b : Block) (size : Nat) : Prop extends
    Release h h' b.adr where
  held : ∃ c, HasBlock h' c ∧ c.adr = b.adr ∧ c.owner = b.owner ∧ size ≤ c.len ∧ c.len ≤ b.len

theorem mshShrink_eq (h : Heap) (a6 a5 d7 pd : Nat)
    (hbig : ¬ h.mem (a6 + mcbLen) - d7 ≤ mcbData) :
    mshShrink h a6 a5 d7 pd =
      mxfree { h with mem := shrinkStores h.mem a6 a5 d7 h.actPd } (a6 + mcbData + d7 + mcbData)
        pd := by
  unfold mshShrink
  simp only [if_neg hbig]
  rfl

theorem cut_heap (h : Heap) (ok : HeapOk h) (b : Block) (hb : HasBlock h b) (hown : b.owner ≠ 0)
    (d7 : Nat) (h4 : 4 ∣ d7) (hbig : ¬ b.len - d7 ≤ mcbData) (m : Mem)
    (hm : m = shrinkStores h.mem b.adr (if b.magic = KROM then 0 else b.fin) d7 h.actPd) :
    HeapOk { h with mem := m } ∧ HasBlock { h with mem := m } ⟨b.adr, ANDR, d7, b.owner⟩ ∧
      HasBlock { h with mem := m }
        ⟨b.adr + mcbData + d7, b.magic, b.len - d7 - mcbData, h.actPd⟩ ∧
      ∀ c, HasBlock h c → c.owner ≠ 0 → c.adr ≠ b.adr →
        HasBlock { h with mem := m } c ∧ c.adr ≠ b.adr + mcbData + d7 := by
  rcases hb with ⟨i, bs, hi, hbs, hin⟩
  rcases split_at bs b hin with ⟨pre, post, rfl⟩
  rcases shrinkStores_ramList h.mem _ _ d7 h.actPd pre post b hbs hown ok.actPd h4 hbig
    with ⟨hnew, hout⟩
  rw [← hm] at hnew hout
  refine ⟨heapOk_update h ok i hi _ _ hnew hout, ⟨i, _, hi, hnew, by simp [cut]⟩,
    ⟨i, _, hi, hnew, by simp [cut]⟩, fun c hc hco hne => ⟨?_, ?_⟩⟩
  · refine hasBlock_update h ok i hi _ _ _ hbs hnew hout c hc (fun hcin => ?_)
    simp only [List.mem_append, List.mem_singleton] at hcin ⊢
    rcases hcin with (hcin | rfl) | hcin
    · exact Or.inl (Or.inl hcin)
    · exact absurd rfl hne
    · exact Or.inr hcin
  · -- Another block lies apart from the one that was cut, so it is not the rest.
    rcases hasBlock_apart h ok c b hc ⟨i, _, hi, hbs, hin⟩ with rfl | hlt | hlt
    · exact absurd rfl hne
    all_goals
      simp only [Block.fin, mcbData] at hlt hbig ⊢
      omega

/-- `msh_shrink` of an owned block, with the block behind it, if any. -/
theorem mshShrink_spec (h : Heap) (ok : HeapOk h) (b : Block) (hb : HasBlock h b)
    (hown : b.owner ≠ 0) (d7 pd : Nat) (h4 : 4 ∣ d7) (hle : d7 ≤ b.len) :
    ∃ h' r, mshShrink h b.adr (if b.magic = KROM then 0 else b.fin) d7 pd = some (h', r) ∧
      Shrunk h h' b d7 := by
  have hlen : h.mem (b.adr + mcbLen) = b.len := by
    rcases hb with ⟨i, bs, _, hbs, hin⟩
    exact (linked_fields h.mem 0 bs hbs.linked b hin).2.1
  by_cases hbig : b.len - d7 ≤ mcbData
  · refine ⟨h, 0, ?_, ⟨ok, fun c hc _ _ => hc⟩, b, hb, rfl, rfl, hle, le_refl _⟩
    unfold mshShrink
    simp only [hlen, if_pos hbig]
  · rw [mshShrink_eq h b.adr _ d7 pd (by rw [hlen]; exact hbig)]
    rcases cut_heap h ok b hb hown d7 h4 hbig _ rfl with ⟨hok, hhead, hrest, hkeep⟩
    -- The rest is a block of the new list, so `Mxfree` may be asked to free it.
    rcases mxfree_block _ hok _ hrest pd with ⟨h', r, heq, hfreed⟩
    have hadr : b.adr ≠ b.adr + mcbData + d7 := by unfold mcbData; omega
    refine ⟨h', r, heq, ⟨hfreed.ok, fun c hc hco hne => ?_⟩, _,
      hfreed.keeps _ hhead hown hadr, rfl, rfl, le_refl _, hle⟩
    exact hfreed.keeps c (hkeep c hc hco hne).1 hco (hkeep c hc hco hne).2

theorem roundUp_le (size n : Nat) (hs : size ≤ n) (h4 : 4 ∣ n) (hn : n + 3 < 2 ^ 32) :
    roundUp size ≤ n ∧ size ≤ roundUp size := by
  unfold roundUp
  omega

/-- `Mxshrink` of a block to a size that is neither zero nor larger than its
    length: an error for a free block, and else a shorter block. -/
theorem mxshrink_block (h : Heap) (ok : HeapOk h) (b : Block) (hb : HasBlock h b) (size pd : Nat)
    (h0 : size ≠ 0) (hle : size ≤ b.len) :
    ∃ h' r, mxshrink h (b.adr + mcbData) size pd = some (h', r) ∧
      (h' = h ∧ r = EIMBA ∨ Shrunk h h' b (roundUp size)) := by
  have hlt := hasBlock_lt h ok b hb
  have hb' := hb
  rcases hb' with ⟨i, bs, hi, hbs, hin⟩
  have hf := linked_fields h.mem 0 bs hbs.linked b hin
  have h4 := hbs.tiled.sized b hin
  have hmagic := marked_magic bs hbs.tiled.marked b hin
  have hround := roundUp_le size b.len hle h4 (by unfold Block.fin mcbData at hlt; omega)
  unfold mxshrink
  rw [if_neg h0, mcbOf_data h ok b hb]
  simp only [hf.1, hf.2.1, hf.2.2]
  by_cases htop : 0xff000000 < b.adr
  · rw [if_pos htop]
    exact ⟨h, EIMBA, rfl, Or.inl ⟨rfl, rfl⟩⟩
  rw [if_neg htop]
  by_cases hown : b.owner = 0
  · rw [if_pos hown]
    exact ⟨h, EIMBA, rfl, Or.inl ⟨rfl, rfl⟩⟩
  rw [if_neg hown, if_neg (by rintro ⟨hk, ha⟩; exact hmagic.elim hk ha)]
  rw [if_neg (by unfold Block.fin mcbData at hlt; omega)]
  by_cases heq : roundUp size = b.len
  · rw [if_pos heq]
    exact ⟨h, 0, rfl, Or.inr ⟨⟨ok, fun c hc _ _ => hc⟩, b, hb, rfl, rfl, hround.1, le_refl _⟩⟩
  · rw [if_neg heq, if_pos (by omega)]
    rcases mshShrink_spec h ok b hb hown _ pd (roundUp_dvd size) hround.1 with ⟨h', r, hmsh, hsh⟩
    exact ⟨h', r, hmsh, Or.inr hsh⟩

end Malloc

end MagiC
