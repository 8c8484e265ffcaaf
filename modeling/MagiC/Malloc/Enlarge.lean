import MagiC.Malloc.Run

/-!
# Enlarging a Block in Place

What `Mxshrink` does when a block takes in the free block behind it.

The two are melted, which sets the back link of the block behind them to the
grown block, and then the remainder is split off again. The split mends the
back link of its `a5`, and that register still holds the successor from before
the melting. It is no MCB any more: the store goes into the grown block, and
the block behind the remainder keeps pointing at the grown block.

So the outcome depends on whether there is a block behind the remainder. Without
one the list is well formed, as it is when no remainder is split off. With one
the list is broken for good: freeing the remainder, which lies between two owned
blocks, stores nothing but an owner.

## Main definitions

* `Enlarges`: A request that `Mxshrink` accepts as an enlargement.

## Theorems

* `enlarge_wellFormed_iff`: When an enlargement keeps the heap well formed.
-/

namespace MagiC

namespace Malloc

/-- A request that `Mxshrink` accepts as an enlargement of the block `b` into
    the free block `c` behind it: KAOS mode, no memory limit, and room. -/
structure Enlarges (h : Heap) (b c : Block) (size pd : Nat) : Prop where
  list : ∃ i pre post, IsList h i ∧ RamList h.mem (h.root i) (h.memEnd i) (pre ++ [b, c] ++ post)
  owned : b.owner ≠ 0
  free : c.owner = 0
  low : b.adr ≤ 0xff000000
  kaos : h.tosMode = false
  more : b.len < roundUp size
  fits : roundUp size ≤ b.len + (mcbData + c.len)
  nolimit : pd = 0 ∨ negative (h.pds pd).pMem = true

/-- No remainder is split off, or nothing lies behind it. -/
def NoRest (b c : Block) (size : Nat) : Prop :=
  c.magic = KROM ∨ b.len + (mcbData + c.len) - roundUp size ≤ mcbData

/-- An accepted enlargement melts the two blocks and goes on as a split. -/
theorem mxshrink_melts (h : Heap) (ok : HeapOk h) (b c : Block) (size pd : Nat)
    (hen : Enlarges h b c size pd) (m : Mem) (hmelt : meltMcbs h.mem c.adr b.adr = some m) :
    mxshrink h (b.adr + mcbData) size pd =
      mshShrink { h with mem := m } b.adr c.adr (roundUp size) pd := by
  rcases hen.list with ⟨i, pre, post, hi, hbs⟩
  have hb : HasBlock h b := ⟨i, _, hi, hbs, by simp⟩
  rcases linked_pair_at _ _ _ pre post b c hbs.linked hbs.tiled with
    ⟨_, hadr, _, hmagic, _, ⟨b0, b1, b2, _⟩, ⟨_, c1, c2, _⟩, _⟩
  have ha5 : c.adr = b.adr + mcbData + b.len := hadr
  have hmore := hen.more
  have hfits := hen.fits
  have hlow := hen.low
  -- The sizes zero and minus one round to zero, which is no enlargement.
  have hs0 : size ≠ 0 := by
    rintro rfl
    exact absurd hmore (by unfold roundUp; omega)
  have hs1 : size ≠ 2 ^ 32 - 1 := by
    rintro rfl
    exact absurd hmore (by unfold roundUp; omega)
  have hlim : ¬ (pd ≠ 0 ∧ (!negative (h.pds pd).pMem) = true) := by
    rintro ⟨hpd, hneg⟩
    rcases hen.nolimit with h0 | h0
    · exact hpd h0
    · rw [h0] at hneg
      exact absurd hneg Bool.false_ne_true
  unfold mxshrink
  rw [if_neg hs0, mcbOf_data h ok b hb]
  simp only [b0, b1, b2, hmagic, if_neg andr_ne_krom, ← ha5, c1, c2, hen.free, hen.kaos,
    and_self, if_true]
  rw [if_neg (by omega), if_neg hen.owned, if_neg (fun hc => hc.2 rfl), if_neg hs1,
    if_neg (by omega), if_neg (by omega), if_neg Bool.false_ne_true, if_neg (by omega),
    if_neg hlim]
  simp only [hmelt]

/-- Freeing an `ANDR` block between two owned ones stores its owner and nothing
    else. The process may be charged, and the call may refuse. -/
theorem mxfree_between (h : Heap) (a0 pd : Nat) (hlt : a0 + mcbData < 2 ^ 32)
    (hmagic : h.mem a0 = ANDR) (hprev : h.mem (a0 + mcbPrev) ≠ a0)
    (hpown : h.mem (h.mem (a0 + mcbPrev) + mcbOwner) ≠ 0)
    (hnown : h.mem (a0 + mcbData + h.mem (a0 + mcbLen) + mcbOwner) ≠ 0) :
    ∃ h' r v, mxfree h (a0 + mcbData) pd = some (h', r) ∧ h'.root = h.root ∧
      h'.memEnd = h.memEnd ∧ h'.mem = h.mem.put (a0 + mcbOwner) v := by
  have hsame : h.mem = h.mem.put (a0 + mcbOwner) (h.mem (a0 + mcbOwner)) := by
    funext x
    simp only [Mem.put]
    split_ifs with hx
    · rw [hx]
    · rfl
  have hmcb : mcbOf (a0 + mcbData) = a0 := by
    unfold mcbOf mcbData at *
    omega
  -- For good, whatever the owner was before.
  have hblock : ∀ (g : Heap) (w : Nat), g.root = h.root → g.memEnd = h.memEnd →
      g.mem = h.mem.put (a0 + mcbOwner) w →
      ∃ h' r v, mfreeBlock g a0 pd = some (h', r) ∧ h'.root = h.root ∧
        h'.memEnd = h.memEnd ∧ h'.mem = h.mem.put (a0 + mcbOwner) v := by
    intro g w hroot hend hmem
    have hg0 : g.mem a0 = ANDR := by
      rw [hmem, put_other _ _ _ _ (by unfold mcbOwner; omega), hmagic]
    have hg1 : g.mem (a0 + mcbLen) = h.mem (a0 + mcbLen) := by
      rw [hmem, put_other _ _ _ _ (by unfold mcbOwner mcbLen; omega)]
    unfold mfreeBlock
    simp only [hg0, hg1, if_neg andr_ne_krom]
    rw [if_neg (fun hc => hc.2 rfl)]
    by_cases hfree : g.mem (a0 + mcbOwner) = 0
    · rw [if_pos hfree]
      exact ⟨g, EIMBA, w, rfl, hroot, hend, hmem⟩
    · rw [if_neg hfree]
      have hm0 : g.mem.put (a0 + mcbOwner) 0 = h.mem.put (a0 + mcbOwner) 0 := by
        rw [hmem, put_put]
      have hp : mfreePrev (h.mem.put (a0 + mcbOwner) 0) a0
          = some (h.mem.put (a0 + mcbOwner) 0, a0) := by
        unfold mfreePrev
        have hlink : h.mem.put (a0 + mcbOwner) 0 (a0 + mcbPrev) = h.mem (a0 + mcbPrev) :=
          put_other _ _ _ _ (by unfold mcbOwner mcbPrev; omega)
        simp only [hlink]
        rw [if_neg]
        rintro ⟨_, h0⟩
        rw [put_other _ _ _ _ (by omega)] at h0
        exact hpown h0
      have hn : mfreeNext (h.mem.put (a0 + mcbOwner) 0) a0
          (a0 + mcbData + h.mem (a0 + mcbLen)) = some (h.mem.put (a0 + mcbOwner) 0) := by
        unfold mfreeNext
        rw [if_neg]
        rintro ⟨_, h0⟩
        rw [put_other _ _ _ _ (by unfold mcbData; omega)] at h0
        exact hnown h0
      by_cases hpd : pd = 0
      · simp only [if_pos hpd, hm0, hp, hn, Option.map_some]
        exact ⟨_, _, 0, rfl, hroot, hend, rfl⟩
      · simp only [if_neg hpd, Heap.refund, Heap.setPd, hm0, hp, hn, Option.map_some]
        exact ⟨_, _, 0, rfl, hroot, hend, rfl⟩
  unfold mxfree
  rw [hmcb]
  by_cases hal : (a0 + mcbData) % 4 ≠ 0
  · rw [if_pos hal]
    exact ⟨h, _, _, rfl, rfl, rfl, hsame⟩
  rw [if_neg hal]
  simp only
  by_cases hin : inLists h a0 = true
  · rw [if_pos hin]
    unfold mfreeFree
    by_cases hshm : pd ≠ 0 ∧ h.mem (a0 + mcbOwner) < 0x1000
    · rw [if_pos hshm]
      cases hlist : (h.pds pd).memlist with
      | none => exact ⟨h, _, _, rfl, rfl, rfl, hsame⟩
      | some list =>
        cases hrem : shmRemove (a0 + mcbData) list with
        | none => exact ⟨h, EIMBA, _, by simp only [hrem], rfl, rfl, hsame⟩
        | some list' =>
          simp only [hrem]
          by_cases hrefs : (h.mem (a0 + mcbOwner) + (2 ^ 32 - 1)) % 2 ^ 32 = 0
          · rw [if_neg (not_not.mpr hrefs)]
            refine hblock _ pd rfl rfl ?_
            simp only [Heap.setPd, put_put]
          · rw [if_pos hrefs]
            exact ⟨_, _, _, rfl, rfl, rfl, rfl⟩
    · rw [if_neg hshm]
      exact hblock h _ rfl rfl hsame
  · rw [if_neg hin]
    split_ifs <;> exact ⟨h, _, _, rfl, rfl, rfl, hsame⟩

/-- In a memory whose headers read as a certain list, no other list can be well
    formed, so the back links have to be those of that list. -/
theorem backlink_of_ramList (m : Mem) (a fin fin' : Nat) (xs ds cs : List Block) (y d : Block)
    (hfields : ∀ b ∈ xs ++ [y] ++ d :: ds, m b.adr = b.magic ∧ m (b.adr + mcbLen) = b.len ∧
      m (b.adr + mcbOwner) = b.owner)
    (hspan : Span a (xs ++ [y] ++ d :: ds) fin) (hmark : Marked (xs ++ [y] ++ d :: ds))
    (hcs : RamList m a fin' cs) : m (d.adr + mcbPrev) = y.adr := by
  have heq : xs ++ [y] ++ d :: ds = cs :=
    same_blocks m a fin fin' _ cs hfields (linked_fields m 0 cs hcs.linked) hspan
      hcs.tiled.span hmark hcs.tiled.marked
  have hl := hcs.linked
  rw [← heq] at hl
  have := linked_head_prev m 0 (xs ++ [y]) (d :: ds) hl d rfl
  rw [prevOf_append] at this
  exact this

theorem shrinkStores_stale (m : Mem) (a fin d7 actPd a5 : Nat) (pre post : List Block) (b : Block)
    (hl : Linked m 0 (pre ++ [b] ++ post)) (ht : Tiled a fin (pre ++ [b] ++ post))
    (hbig : ¬ b.len - d7 ≤ mcbData) (hlo : b.adr + mcbData ≤ a5) (hhi : a5 + mcbData ≤ b.fin) :
    Linked (shrinkStores m b.adr a5 d7 actPd) 0 (pre ++ cut d7 actPd b) ∧
      Linked (shrinkStores m b.adr a5 d7 actPd) b.adr post ∧
      ∀ x, x < a ∨ fin ≤ x → shrinkStores m b.adr a5 d7 actPd x = m x := by
  rcases ramList_at m a fin pre post b hl ht with
    ⟨hpre, hpost, _, ⟨h0, h1, h2, h3⟩, hblo, hbhi, _⟩
  have hl' := (linked_append m 0 (pre ++ [b]) post).mp hl
  have hsplice := linked_splice m (shrinkStores m b.adr a5 d7 actPd) 0 a b.fin b.adr b.fin pre [b]
    (cut d7 actPd b) [] (by rw [List.append_nil]; exact hl'.1) hpre ⟨rfl, rfl⟩ rfl
  have hne : a5 ≠ 0 := by unfold mcbData at hlo; omega
  have hout : ∀ x, x < b.adr ∨ b.fin ≤ x → shrinkStores m b.adr a5 d7 actPd x = m x := by
    intro x hx
    simp only [shrinkStores, if_neg hne, mcbOwner, mcbLen, mcbPrev, mcbData, Block.fin] at *
    simp (disch := omega) only [put_other]
  refine ⟨?_, ?_, fun x hx => hout x ?_⟩
  · rw [List.append_nil] at hsplice
    refine hsplice ?_ (fun x hx _ => hout x hx) (fun c hc => absurd hc (by simp))
    simp only [shrinkStores, if_neg hne, cut, mcbOwner, mcbLen, mcbPrev, mcbData, Block.fin] at *
    rw [put_other m _ _ b.adr (by omega), h0, h1]
    refine ⟨mcbAt_mk _ _ _ _ _ _ ?_ ?_ ?_ ?_, mcbAt_mk _ _ _ _ _ _ ?_ ?_ ?_ ?_, trivial⟩
    all_goals simp (disch := omega) only [put_self, put_other, h2, h3]
  · refine linked_congr m _ b.adr post (fun x hx k _ => hout _ (Or.inr ?_)) ?_
    · have := (span_mem _ _ _ hpost x hx).1
      omega
    · have := hl'.2
      rw [prevOf_append] at this
      exact this
  · unfold Block.fin mcbData at *
    omega

theorem enlarge_melt (h : Heap) (b c : Block) (i : Nat) (pre post : List Block)
    (hbs : RamList h.mem (h.root i) (h.memEnd i) (pre ++ [b, c] ++ post)) (hown : b.owner ≠ 0) :
    ∃ m, meltMcbs h.mem c.adr b.adr = some m ∧
      RamList m (h.root i) (h.memEnd i) (pre ++ [merge b c] ++ post) ∧
      ∀ x, x < h.root i ∨ h.memEnd i ≤ x → m x = h.mem x := by
  rcases meltMcbs_linked _ _ _ pre post b c hbs.linked hbs.tiled with ⟨m, hmelt, hl, ht, hout⟩
  rcases coalesced_sides pre _ post hbs.coalesced with ⟨hpre, hpost⟩
  refine ⟨m, hmelt, ⟨hl, ht, coalesced_owned pre post hpre hpost _ (List.cons_ne_nil _ _) ?_⟩,
    fun x hx => hout x (clear_outside _ _ x _ hbs.tiled.span hx)⟩
  intro x hx
  rw [List.mem_singleton.mp hx]
  exact hown

theorem enlarge_split (h : Heap) (ok : HeapOk h) (b c : Block) (size pd : Nat)
    (hen : Enlarges h b c size pd) (hbig : ¬ b.len + (mcbData + c.len) - roundUp size ≤ mcbData)
    (i : Nat) (pre post : List Block)
    (hbs : RamList h.mem (h.root i) (h.memEnd i) (pre ++ [b, c] ++ post)) :
    ∃ m, mxshrink h (b.adr + mcbData) size pd =
        mxfree { h with mem := m } (b.adr + mcbData + roundUp size + mcbData) pd ∧
      Linked m 0 (pre ++ cut (roundUp size) h.actPd (merge b c)) ∧ Linked m b.adr post ∧
      Tiled (h.root i) (h.memEnd i) (pre ++ cut (roundUp size) h.actPd (merge b c) ++ post) ∧
      ∀ x, x < h.root i ∨ h.memEnd i ≤ x → m x = h.mem x := by
  rcases enlarge_melt h b c i pre post hbs hen.owned with ⟨m, hmelt, hm, hout⟩
  have hlen : m (b.adr + mcbLen) = b.len + (mcbData + c.len) :=
    (linked_fields m 0 _ hm.linked (merge b c) (by simp)).2.1
  rcases linked_pair_at _ _ _ pre post b c hbs.linked hbs.tiled with ⟨hpre, hadr, hpost, -⟩
  have hfin : (merge b c).fin = c.fin := by
    unfold merge
    simp only [Block.fin, mcbData] at hadr ⊢
    omega
  have hbig' : ¬ (merge b c).len - roundUp size ≤ mcbData := hbig
  rcases shrinkStores_stale m _ _ (roundUp size) h.actPd c.adr pre post (merge b c) hm.linked
    hm.tiled hbig' (by rw [hadr]; unfold Block.fin; exact Nat.le_add_right _ _)
    (by rw [hfin]; unfold Block.fin; omega) with ⟨hcut, hbehind, hout2⟩
  refine ⟨_, ?_, hcut, hbehind, cut_tiled _ _ (roundUp size) h.actPd pre post (merge b c) hm.tiled
    hpre (by rw [hfin]; exact hpost) (roundUp_dvd size) hbig',
    fun x hx => (hout2 x hx).trans (hout x hx)⟩
  rw [mxshrink_melts h ok b c size pd hen m hmelt,
    mshShrink_eq _ _ _ _ _ (by simp only [hlen]; exact hbig)]
  rfl

theorem enlarge_ok (h : Heap) (ok : HeapOk h) (b c : Block) (size pd : Nat)
    (hen : Enlarges h b c size pd) (hno : NoRest b c size) :
    ∃ h' r, mxshrink h (b.adr + mcbData) size pd = some (h', r) ∧ HeapOk h' := by
  rcases hen.list with ⟨i, pre, post, hi, hbs⟩
  by_cases hbig : b.len + (mcbData + c.len) - roundUp size ≤ mcbData
  · rcases enlarge_melt h b c i pre post hbs hen.owned with ⟨m, hmelt, hm, hout⟩
    have hlen : m (b.adr + mcbLen) = b.len + (mcbData + c.len) :=
      (linked_fields m 0 _ hm.linked (merge b c) (by simp)).2.1
    rw [mxshrink_melts h ok b c size pd hen m hmelt]
    refine ⟨_, 0, ?_, heapOk_update h ok i hi m _ hm hout⟩
    unfold mshShrink
    simp only [hlen, if_pos hbig]
  · -- The successor was the last block, so the remainder is the last one now.
    have hk : c.magic = KROM := hno.resolve_right hbig
    have hnil : post = [] := by
      rcases linked_pair_at _ _ _ pre post b c hbs.linked hbs.tiled with
        ⟨_, _, _, _, hmark, _, _, _, _, _, _⟩
      rcases (marked_cons_iff c post).mp hmark with ⟨hnil, _⟩ | ⟨_, ha, _⟩
      · exact hnil
      · exact absurd (ha.symm.trans hk) andr_ne_krom
    rcases enlarge_split h ok b c size pd hen hbig i pre post hbs with
      ⟨m, heq, hcut, -, ht, hout⟩
    rw [heq]
    rw [hnil] at hbs ht
    have hco := coalesced_owned pre [] (coalesced_sides pre _ [] hbs.coalesced).1 List.isChain_nil
      (cut (roundUp size) h.actPd (merge b c)) (List.cons_ne_nil _ _)
      (cut_owned _ _ _ hen.owned ok.actPd)
    have hnew : RamList m (h.root i) (h.memEnd i)
        (pre ++ cut (roundUp size) h.actPd (merge b c) ++ []) :=
      ⟨by rw [List.append_nil]; exact hcut, ht, hco⟩
    have hrest : HasBlock { h with mem := m }
        ⟨b.adr + mcbData + roundUp size, c.magic,
          b.len + (mcbData + c.len) - roundUp size - mcbData, h.actPd⟩ :=
      ⟨i, _, hi, hnew, by simp [cut, merge]⟩
    rcases mxfree_block _ (heapOk_update h ok i hi _ _ hnew hout) _ hrest pd with
      ⟨h', r, heq, hfreed⟩
    exact ⟨h', r, heq, hfreed.ok⟩

theorem enlarge_broken (h : Heap) (ok : HeapOk h) (b c : Block) (size pd : Nat)
    (hen : Enlarges h b c size pd) (hrest : ¬ NoRest b c size) :
    ∃ h' r, mxshrink h (b.adr + mcbData) size pd = some (h', r) ∧ ¬ HeapOk h' := by
  rcases hen.list with ⟨i, pre, post, hi, hbs⟩
  have hbig : ¬ b.len + (mcbData + c.len) - roundUp size ≤ mcbData := fun hc =>
    hrest (Or.inr hc)
  rcases linked_pair_at _ _ _ pre post b c hbs.linked hbs.tiled with
    ⟨-, -, hpost, _, hmark, _, _, _, _, _, _⟩
  obtain ⟨d, ds, rfl, ha⟩ : ∃ d ds, post = d :: ds ∧ c.magic = ANDR := by
    rcases marked_next c post _ hpost hmark with ⟨_, hk⟩ | ⟨d, ds, heq, ha, _⟩
    · exact absurd (Or.inl hk) hrest
    · exact ⟨d, ds, heq, ha⟩
  rcases enlarge_split h ok b c size pd hen hbig i pre (d :: ds) hbs with
    ⟨m2, heq, hcut, hbehind, ht, -⟩
  rw [heq]
  -- The remainder, between the grown block and the block behind.
  generalize ha0 : b.adr + mcbData + roundUp size = a0
  generalize hn : b.len + (mcbData + c.len) - roundUp size - mcbData = n
  have hcuteq : cut (roundUp size) h.actPd (merge b c)
      = [⟨b.adr, ANDR, roundUp size, b.owner⟩, ⟨a0, ANDR, n, h.actPd⟩] := by
    simp only [cut, merge, ha0, hn, ha]
  rw [hcuteq] at hcut ht
  rcases (linked_append m2 0 pre _).mp hcut with ⟨_, ⟨_, _, b2, _⟩, ⟨r0, r1, r2, r3⟩, _⟩
  have hsp := ht.span
  rw [List.append_assoc] at hsp
  rcases span_at _ _ pre _ _ hsp with ⟨hspre, hra, hdadr, hsds⟩
  have hne : b.adr ≠ a0 := by unfold mcbData at ha0; omega
  have hdown : d.owner ≠ 0 := by
    have hco := hbs.coalesced
    unfold Coalesced at hco
    rw [List.isChain_append] at hco
    rcases hco.2.2 c (by simp) d rfl with h0 | h0
    · exact absurd hen.free h0
    · exact h0
  have hdfin := (span_mem _ _ _ ht.span d (by simp)).2
  have hend := ok.bound i hi
  have hnext : m2 (a0 + mcbData + n + mcbOwner) = d.owner := by
    have hd := (linked_fields m2 b.adr _ hbehind d List.mem_cons_self).2.2
    rw [hdadr] at hd
    exact hd
  simp only at r1 r2 r3 b2
  rcases mxfree_between { h with mem := m2 } a0 pd
    (by unfold Block.fin mcbData at *; simp only at *; omega) r0 (by simp only [r3]; exact hne)
    (by simp only [r3, b2]; exact hen.owned) (by simp only [r1, hnext]; exact hdown) with
    ⟨h', r, v, heq, hroot, hmemEnd, hmem'⟩
  refine ⟨h', r, heq, fun hok => ?_⟩
  rcases hok.lists i (by unfold IsList; rw [hroot]; exact hi) with ⟨cs, hcs⟩
  rw [hroot, hmemEnd, hmem'] at hcs
  have hy : Tiled (h.root i) (h.memEnd i)
      (pre ++ [⟨b.adr, ANDR, roundUp size, b.owner⟩] ++ [⟨a0, ANDR, n, v⟩] ++ d :: ds) := by
    refine tiled_owner _ _ v (pre ++ [⟨b.adr, ANDR, roundUp size, b.owner⟩]) (d :: ds)
      ⟨a0, ANDR, n, h.actPd⟩ ?_
    simpa only [List.append_assoc, List.cons_append, List.nil_append] using ht
  -- Every header reads as it should, so a well formed list would have to be this one.
  have hlink := backlink_of_ramList _ _ _ _ _ ds cs ⟨a0, ANDR, n, v⟩ d ?_ hy.span hy.marked hcs
  · have hafter : d.adr + mcbPrev ≠ a0 + mcbOwner := by
      rw [hdadr]
      unfold Block.fin mcbData mcbOwner mcbPrev
      simp only
      omega
    rw [put_other _ _ _ _ hafter] at hlink
    exact hne (hbehind.1.2.2.2.symm.trans hlink)
  · -- Only the remainder's owner has changed since the split.
    have hread : ∀ x : Block, x.fin ≤ a0 ∨ a0 + mcbData ≤ x.adr →
        (m2 x.adr = x.magic ∧ m2 (x.adr + mcbLen) = x.len ∧ m2 (x.adr + mcbOwner) = x.owner) →
        m2.put (a0 + mcbOwner) v x.adr = x.magic ∧
          m2.put (a0 + mcbOwner) v (x.adr + mcbLen) = x.len ∧
          m2.put (a0 + mcbOwner) v (x.adr + mcbOwner) = x.owner := by
      rintro x hx ⟨h0, h1, h2⟩
      unfold Block.fin at hx
      simp only [mcbData, mcbOwner, mcbLen] at *
      rw [put_other _ _ _ _ (by omega), put_other _ _ _ _ (by omega),
        put_other _ _ _ _ (by omega)]
      exact ⟨h0, h1, h2⟩
    intro x hx
    have hspan := hy.span
    rw [List.append_assoc] at hx hspan
    rcases List.mem_append.mp hx with hx | hx
    · have hfin := span_before _ _ _ _ hspan x ⟨a0, ANDR, n, v⟩ hx (by simp)
      refine hread x (Or.inl hfin) (linked_fields m2 0 _ hcut x ?_)
      rcases List.mem_append.mp hx with hx | hx
      · exact List.mem_append_left _ hx
      · rw [List.mem_singleton.mp hx]
        exact List.mem_append_right _ List.mem_cons_self
    · rcases List.mem_cons.mp hx with rfl | hx
      · simp only [mcbOwner, mcbLen] at *
        rw [put_self, put_other _ _ _ _ (by omega), put_other _ _ _ _ (by omega)]
        exact ⟨r0, r1, rfl⟩
      · have hin := (span_mem _ _ _ (show Span d.adr (d :: ds) _ from ⟨rfl, hsds⟩) x hx).1
        refine hread x (Or.inr ?_) (linked_fields m2 b.adr _ hbehind x hx)
        rw [hdadr] at hin
        unfold Block.fin at hin
        simp only at hin
        omega

/-- What an enlargement is meant to leave behind: a well formed heap, and with
    it blocks that never overlap, whatever is requested afterwards. -/
def KeepsBlocks (h : Heap) : Prop :=
  HeapOk h ∧ ∀ calls t, Runs.Run step ⟨h, []⟩ calls t → t.held.Pairwise Held.Apart

/-- An accepted enlargement returns, and it keeps the heap well formed exactly
    when it splits off no remainder in front of another block. -/
theorem enlarge_wellFormed_iff (h : Heap) (ok : HeapOk h) (b c : Block) (size pd : Nat)
    (hen : Enlarges h b c size pd) :
    ∃ h' r, mxshrink h (b.adr + mcbData) size pd = some (h', r) ∧
      (KeepsBlocks h' ↔ NoRest b c size) := by
  by_cases hno : NoRest b c size
  · rcases enlarge_ok h ok b c size pd hen hno with ⟨h', r, heq, hok⟩
    refine ⟨h', r, heq, fun _ => hno, fun _ => ⟨hok, fun calls t hrun => ?_⟩⟩
    have hw : WorldOk ⟨h', []⟩ :=
      ⟨hok, fun e he => absurd he List.not_mem_nil, List.nodup_nil⟩
    exact held_apart t (run_ok _ t calls hrun hw)
  · rcases enlarge_broken h ok b c size pd hen hno with ⟨h', r, heq, hbad⟩
    exact ⟨h', r, heq, fun hk => absurd hk.1 hbad, fun hk => absurd hk hno⟩

/-- Three blocks, the middle one free. -/
def tripleMem : Mem := fun x =>
  if x = 4096 then ANDR else if x = 4100 then 16 else if x = 4104 then 0x8000 else
  if x = 4128 then ANDR else if x = 4132 then 64 else if x = 4140 then 4096 else
  if x = 4208 then KROM else if x = 4212 then 32 else if x = 4216 then 0x8000 else
  if x = 4220 then 4128 else 0

theorem tripleMem_ramList :
    RamList tripleMem 4096 4256
      ([] ++ [⟨4096, ANDR, 16, 0x8000⟩, ⟨4128, ANDR, 64, 0⟩] ++ [⟨4208, KROM, 32, 0x8000⟩]) := by
  refine ⟨⟨⟨rfl, rfl, rfl, rfl⟩, ⟨rfl, rfl, rfl, rfl⟩, ⟨rfl, rfl, rfl, rfl⟩, trivial⟩,
    ⟨⟨rfl, rfl, rfl, rfl⟩, ⟨rfl, rfl, rfl⟩, ?_⟩, ?_⟩
  · intro b hb
    simp only [List.nil_append, List.cons_append, List.mem_cons, List.not_mem_nil, or_false] at hb
    rcases hb with rfl | rfl | rfl <;> decide
  · exact List.isChain_cons_cons.mpr ⟨Or.inl (Nat.succ_ne_zero _),
      List.isChain_pair.mpr (Or.inr (Nat.succ_ne_zero _))⟩

theorem tripleMem_enlarges (size : Nat) (hlo : 16 < roundUp size) (hhi : roundUp size ≤ 96) :
    Enlarges (oneList tripleMem 4096 4256) ⟨4096, ANDR, 16, 0x8000⟩ ⟨4128, ANDR, 64, 0⟩ size 0 where
  list := ⟨0, [], [⟨4208, KROM, 32, 0x8000⟩], ⟨by decide, by decide, by decide⟩, tripleMem_ramList⟩
  owned := Nat.succ_ne_zero _
  free := rfl
  low := by decide
  kaos := rfl
  more := hlo
  fits := hhi
  nolimit := Or.inl rfl

/-- The first block is enlarged into all of the second one. -/
theorem enlarge_wellFormed_iff_triple :
    ∃ h' r, mxshrink (oneList tripleMem 4096 4256) (4096 + mcbData) 80 0 = some (h', r) ∧
      KeepsBlocks h' := by
  have ok := heapOk_oneList tripleMem 4096 4256 _ (by decide) (by decide) tripleMem_ramList
  rcases enlarge_wellFormed_iff _ ok _ _ 80 0 (tripleMem_enlarges 80 (by decide) (by decide)) with
    ⟨h', r, heq, hiff⟩
  exact ⟨h', r, heq, hiff.mpr (Or.inr (by decide))⟩

/-- The first block is enlarged to forty bytes, and the remainder handed out.
    Then the first and the last block are freed. They are melted across the
    remainder, and a request is given memory that the remainder's holder has. -/
theorem enlarge_overlap :
    HeapOk (oneList tripleMem 4096 4256) ∧
      Enlarges (oneList tripleMem 4096 4256) ⟨4096, ANDR, 16, 0x8000⟩ ⟨4128, ANDR, 64, 0⟩ 40 0 ∧
      ∃ h1, mxshrink (oneList tripleMem 4096 4256) 4112 40 0 = some (h1, 0) ∧ ¬ HeapOk h1 ∧
        ∃ h2 h3 h4 h5, mxalloc h1 40 0 0x8000 = some (h2, 4168) ∧
          mxfree h2 4112 0 = some (h3, 0) ∧ mxfree h3 4224 0 = some (h4, 0) ∧
          mxalloc h4 88 0 0x8000 = some (h5, 4112) ∧ 4112 < 4168 + 40 ∧ 4168 < 4112 + 88 := by
  have ok := heapOk_oneList tripleMem 4096 4256 _ (by decide) (by decide) tripleMem_ramList
  have hen := tripleMem_enlarges 40 (by decide) (by decide)
  refine ⟨ok, hen, ?_⟩
  rcases enlarge_broken _ ok _ _ 40 0 hen (by unfold NoRest; decide) with ⟨h1, r, heq, hbad⟩
  have hrun : ∃ g1, mxshrink (oneList tripleMem 4096 4256) 4112 40 0 = some (g1, 0) ∧
      ∃ h2 h3 h4 h5, mxalloc g1 40 0 0x8000 = some (h2, 4168) ∧
        mxfree h2 4112 0 = some (h3, 0) ∧ mxfree h3 4224 0 = some (h4, 0) ∧
        mxalloc h4 88 0 0x8000 = some (h5, 4112) :=
    ⟨_, rfl, _, _, _, _, rfl, rfl, rfl, rfl⟩
  rcases hrun with ⟨g1, hg1, h2, h3, h4, h5, e2, e3, e4, e5⟩
  have hsame : h1 = g1 := (Prod.mk.inj (Option.some_injective _ (heq.symm.trans hg1))).1
  rw [hsame] at hbad
  exact ⟨g1, hg1, hbad, h2, h3, h4, h5, e2, e3, e4, e5, by decide, by decide⟩

end Malloc

end MagiC
