import MagiC.Malloc.Query
import MagiC.Malloc.Restore

/-!
# What Stays

What is left of a heap after blocks have been handed out and taken back. The blocks that were
allocated before stay, and their data, except for those that the steps are about (`Spares`).

And when the same blocks are allocated as before, the same blocks are free. There are no two
free neighbours, so what lies between two allocated blocks is one free block.

## Main definitions

* `Gains`: One more block is allocated.

## Theorems

* `ramList_of_alloc`, `hasBlock_of_alloc`: The allocated blocks determine the free ones.
-/

namespace MagiC

namespace Malloc

/-- The allocated blocks stay, except for those at the addresses `E`, and so do their data,
    except for those of the blocks at the addresses `D`. -/
structure Spares (E D : List Nat) (h h' : Heap) : Prop where
  ok : HeapOk h'
  same : Same h h'
  stays : ∀ c, Alloc h c → c.adr ∉ E → Alloc h' c
  data : ∀ c, Alloc h c → c.adr ∉ E → c.adr ∉ D → ∀ x, c.adr + mcbData ≤ x → x < c.fin →
    h'.mem x = h.mem x

section

variable {E D : List Nat} {h g k : Heap} {b c : Block}

theorem Spares.refl (ok : HeapOk h) : Spares E D h h :=
  ⟨ok, Same.refl h, fun _ hc _ => hc, fun _ _ _ _ _ _ _ => rfl⟩

theorem Spares.trans (hg : Spares E D h g) (hk : Spares E D g k) : Spares E D h k where
  ok := hk.ok
  same := hg.same.trans _ _ _ hk.same
  stays c hc he := hk.stays c (hg.stays c hc he) he
  data c hc he hd x hlo hhi :=
    (hk.data c (hg.stays c hc he) he hd x hlo hhi).trans (hg.data c hc he hd x hlo hhi)

theorem Frees.spares (ok : HeapOk h) (hf : Frees h g b) (hb : b.adr ∈ E) : Spares E D h g where
  ok := hf.ok
  same := hf.same
  stays c hc he := (hf.alloc c).mpr ⟨hc, fun hcb => he (hcb ▸ hb)⟩
  data c hc _ _ x hlo hhi := (hf.clear x (inside_noHeader h ok c hc.1 x hlo hhi)).1

theorem Owns.spares {v : Nat} (ok : HeapOk h) (ho : Owns h g b v) (hb : b.adr ∈ E) :
    Spares E D h g where
  ok := ho.ok
  same := ho.same
  stays c hc he := (ho.alloc c).mpr (Or.inl ⟨hc, fun hcb => he (hcb ▸ hb)⟩)
  data c hc _ _ x hlo hhi := ho.clear x (inside_noHeader h ok c hc.1 x hlo hhi)

theorem store_spares (ok : HeapOk h) (hb : HasBlock h b) (hd : b.adr ∈ D) {m : Mem}
    (hm : ∀ x, m x ≠ h.mem x → b.adr + mcbData ≤ x ∧ x < b.fin) :
    Spares E D h { h with mem := m } ∧ ∀ c, HasBlock { h with mem := m } c ↔ HasBlock h c := by
  obtain ⟨hok, hblock⟩ := heap_congr h ok m fun x hx => by
    by_contra hne
    obtain ⟨hlo, hhi⟩ := hm x hne
    exact hx (inside_noHeader h ok b hb x hlo hhi)
  refine ⟨⟨hok, (Same.refl h).store _ _ m, fun c hc _ => ⟨(hblock c).mpr hc.1, hc.2⟩,
    fun c hc _ hcd x hlo hhi => ?_⟩, hblock⟩
  by_contra hne
  obtain ⟨hblo, hbhi⟩ := hm x hne
  -- Two blocks that have an address in common are the same.
  rcases hasBlock_apart h ok b c hb hc.1 with rfl | hlt | hlt
  · exact hcd hd
  · omega
  · omega

end

section

variable {m m' : Mem} {a fin : Nat} {b c : Block} {bs cs : List Block}

theorem block_ext (hadr : b.adr = c.adr) (hmagic : b.magic = c.magic) (hlen : b.len = c.len)
    (howner : b.owner = c.owner) : b = c := by
  cases b
  cases c
  simp only at hadr hmagic hlen howner
  rw [hadr, hmagic, hlen, howner]

theorem free_fin_le (hb : Span a (b :: bs) fin) (hc : Span a (c :: cs) fin)
    (hcoal : Coalesced (b :: bs)) (hfree : b.owner = 0)
    (hin : ∀ d ∈ bs, d.owner ≠ 0 → d ∈ c :: cs) : c.fin ≤ b.fin := by
  by_contra hlt
  have hfin := (span_mem a fin _ hc c List.mem_cons_self).2
  cases bs with
  | nil =>
    have hend : b.fin = fin := hb.2
    omega
  | cons d ds =>
    have hown : d.owner ≠ 0 := by
      rcases (List.isChain_cons_cons.mp hcoal).1 with h0 | h0
      · exact absurd hfree h0
      · exact h0
    have hd : d.adr = b.fin := hb.2.1
    have hpos : b.adr < b.fin := by
      unfold Block.fin mcbData
      omega
    rcases List.mem_cons.mp (hin d List.mem_cons_self hown) with rfl | hdc
    · have := hb.1
      have := hc.1
      omega
    · have := (span_mem _ _ _ hc.2 d hdc).1
      omega

theorem marked_head (hs : Span a (b :: bs) fin) (hm : Marked (b :: bs)) :
    b.magic = if b.fin = fin then KROM else ANDR := by
  cases bs with
  | nil =>
    have hend : b.fin = fin := hs.2
    rw [if_pos hend]
    exact hm
  | cons d ds =>
    have hd : d.adr = b.fin := hs.2.1
    have hfin := (span_mem _ _ _ hs.2 d List.mem_cons_self).2
    have hpos : d.adr < d.fin := by
      unfold Block.fin mcbData
      omega
    rw [if_neg (by omega)]
    exact hm.1

theorem blocks_of_alloc (hb : Span a bs fin) (hc : Span a cs fin)
    (hbm : bs ≠ [] → Marked bs) (hcm : cs ≠ [] → Marked cs) (hbc : Coalesced bs)
    (hcc : Coalesced cs) (hin : ∀ d, d.owner ≠ 0 → (d ∈ bs ↔ d ∈ cs)) : bs = cs := by
  induction bs generalizing a cs with
  | nil =>
    cases cs with
    | nil => rfl
    | cons c cs =>
      have hend : a = fin := hb
      have hfin := span_mem a fin _ hc c List.mem_cons_self
      unfold Block.fin mcbData at hfin
      omega
  | cons b bs ih =>
    cases cs with
    | nil =>
      have hend : a = fin := hc
      have hfin := span_mem a fin _ hb b List.mem_cons_self
      unfold Block.fin mcbData at hfin
      omega
    | cons c cs =>
      have hadr : b.adr = c.adr := hb.1.trans hc.1.symm
      have hbpos : b.adr < b.fin := by
        unfold Block.fin mcbData
        omega
      have hcpos : c.adr < c.fin := by
        unfold Block.fin mcbData
        omega
      have hbc' : ∀ d ∈ bs, d.owner ≠ 0 → d ∈ c :: cs := fun d hd ho =>
        (hin d ho).mp (List.mem_cons_of_mem b hd)
      have hcb' : ∀ d ∈ cs, d.owner ≠ 0 → d ∈ b :: bs := fun d hd ho =>
        (hin d ho).mpr (List.mem_cons_of_mem c hd)
      obtain rfl : b = c := by
        by_cases hbo : b.owner = 0
        · by_cases hco : c.owner = 0
          · -- Both are free, and end where the next allocated block begins.
            have hfin : b.fin = c.fin :=
              Nat.le_antisymm (free_fin_le hc hb hcc hco hcb') (free_fin_le hb hc hbc hbo hbc')
            have hmagic : b.magic = c.magic := by
              rw [marked_head hb (hbm (List.cons_ne_nil _ _)),
                marked_head hc (hcm (List.cons_ne_nil _ _)), hfin]
            have hlen : b.len = c.len := by
              unfold Block.fin at hfin
              omega
            exact block_ext hadr hmagic hlen (hbo.trans hco.symm)
          · rcases List.mem_cons.mp ((hin c hco).mpr List.mem_cons_self) with hcb | hcb
            · exact hcb.symm
            · have := (span_mem _ _ _ hb.2 c hcb).1
              omega
        · rcases List.mem_cons.mp ((hin b hbo).mp List.mem_cons_self) with hbc | hbc
          · exact hbc
          · have := (span_mem _ _ _ hc.2 b hbc).1
            omega
      congr 1
      have hmarked : ∀ {l : List Block}, Marked (b :: l) → l ≠ [] → Marked l := by
        intro l hm hne
        cases l with
        | nil => exact absurd rfl hne
        | cons d ds => exact hm.2
      refine ih hb.2 hc.2 (hmarked (hbm (List.cons_ne_nil _ _)))
        (hmarked (hcm (List.cons_ne_nil _ _))) (List.IsChain.tail hbc) (List.IsChain.tail hcc)
        fun d ho => ?_
      constructor
      · intro hd
        rcases List.mem_cons.mp (hbc' d hd ho) with rfl | hd'
        · have := (span_mem _ _ _ hb.2 d hd).1
          omega
        · exact hd'
      · intro hd
        rcases List.mem_cons.mp (hcb' d hd ho) with rfl | hd'
        · have := (span_mem _ _ _ hc.2 d hd).1
          omega
        · exact hd'

theorem ramList_of_alloc (hb : RamList m a fin bs) (hc : RamList m' a fin cs)
    (hin : ∀ d, d.owner ≠ 0 → (d ∈ bs ↔ d ∈ cs)) : bs = cs :=
  blocks_of_alloc hb.tiled.span hc.tiled.span (fun _ => hb.tiled.marked) (fun _ => hc.tiled.marked)
    hb.coalesced hc.coalesced hin

end

section

variable {h h' : Heap} {b : Block}

theorem mem_of_alloc (hs : Same h h') (ok' : HeapOk h') (hal : ∀ c, Alloc h c → Alloc h' c)
    {i : Nat} (hi : IsList h i) {bs cs : List Block} (hb : RamList h.mem (h.root i) (h.memEnd i) bs)
    (hc : RamList h'.mem (h.root i) (h.memEnd i) cs) {d : Block} (ho : d.owner ≠ 0) (hd : d ∈ bs) :
    d ∈ cs := by
  have hd' := hal d ⟨⟨i, bs, hi, hb, hd⟩, ho⟩
  obtain ⟨cs', hcs', hin⟩ := InList.same h h' hs ok' i hi d ⟨bs, hb, hd⟩ hd'.1
  rw [hs.root, hs.memEnd] at hcs'
  rw [ramList_unique _ _ _ _ _ _ hcs' hc] at hin
  exact hin

/-- The allocated blocks determine the free ones. -/
theorem hasBlock_of_alloc (ok : HeapOk h) (ok' : HeapOk h') (hs : Same h h')
    (hal : ∀ c, Alloc h' c ↔ Alloc h c) (hb : HasBlock h b) : HasBlock h' b := by
  obtain ⟨i, bs, hi, hbs, hin⟩ := hb
  have hi' : IsList h' i := by
    unfold IsList
    rw [hs.root]
    exact hi
  obtain ⟨cs, hcs⟩ := ok'.lists i hi'
  have hcs' := hcs
  rw [hs.root, hs.memEnd] at hcs
  have heq : bs = cs := ramList_of_alloc hbs hcs fun d ho =>
    ⟨mem_of_alloc hs ok' (fun c => (hal c).mpr) hi hbs hcs ho, fun hd => by
      have hbs' := hbs
      rw [← hs.root, ← hs.memEnd] at hbs'
      exact mem_of_alloc (hs.symm h h') ok (fun c => (hal c).mp) hi' hcs' hbs' ho hd⟩
  exact ⟨i, cs, hi', hcs', heq ▸ hin⟩

end

section

variable {h : Heap} {b : Block} {size : Nat} (pd : Nat)

theorem HasBlock.header (hb : HasBlock h b) :
    h.mem b.adr = b.magic ∧ h.mem (b.adr + mcbLen) = b.len ∧ h.mem (b.adr + mcbOwner) = b.owner ∧
      (b.magic = KROM ∨ b.magic = ANDR) := by
  obtain ⟨i, bs, -, hbs, hin⟩ := hb
  obtain ⟨h0, h1, h2⟩ := linked_fields h.mem 0 bs hbs.linked b hin
  exact ⟨h0, h1, h2, marked_magic bs hbs.tiled.marked b hin⟩

theorem HasBlock.next (hb : HasBlock h b) (ha : b.magic = ANDR) :
    ∃ c, HasBlock h c ∧ c.adr = b.fin := by
  obtain ⟨i, bs, hi, hbs, hin⟩ := hb
  obtain ⟨c, hc, hadr⟩ := InList.next h i b ⟨bs, hbs, hin⟩ ha
  exact ⟨c, hc.hasBlock h i hi c, hadr⟩

/-- The block behind a block, if there is one in its list, is not free. -/
def NextOwned (h : Heap) (b : Block) : Prop :=
  b.magic = ANDR → ∀ c, HasBlock h c → c.adr = b.fin → c.owner ≠ 0

/-- A block cannot grow when the one behind it is not free. -/
theorem mxshrink_refused (ok : HeapOk h) (table : Table h) (hb : Alloc h b) (hsize : size ≠ 0)
    (hmax : size ≠ 2 ^ 32 - 1) (hnext : NextOwned h b) (hlt : b.len < roundUp size) :
    mxshrink h (b.adr + mcbData) size pd = some (h, EGSBF) := by
  obtain ⟨h0, h1, h2, hmagic⟩ := hb.1.header
  have hlow : ¬ 0xff000000 < b.adr := by
    obtain ⟨i, bs, hi, hbs, hin⟩ := hb.1
    have hfin := (span_mem _ _ _ hbs.tiled.span b hin).2
    have hend := table.low i hi
    unfold Block.fin at hfin
    omega
  -- The block behind it does not count.
  have hroom : (if b.magic = ANDR ∧ h.mem ((if b.magic = KROM then 0 else
      b.adr + mcbData + b.len) + mcbOwner) = 0 then b.len + mcbData + h.mem ((if b.magic = KROM then
      0 else b.adr + mcbData + b.len) + mcbLen) else b.len) = b.len := by
    refine if_neg ?_
    rintro ⟨ha, hfree⟩
    obtain ⟨c, hc, hadr⟩ := hb.1.next ha
    have hown := hnext ha c hc hadr
    have hc2 := hc.header.2.2.1
    rw [if_neg (by rw [ha]; exact andr_ne_krom)] at hfree
    rw [hadr] at hc2
    exact hown (hc2.symm.trans hfree)
  unfold mxshrink
  rw [if_neg hsize, mcbOf_data h ok b hb.1]
  simp only [h0, h1, h2]
  rw [if_neg hlow, if_neg hb.2, if_neg (by rintro ⟨hk, ha⟩; exact hmagic.elim hk ha), hroom,
    if_neg hmax, if_neg (by omega), if_neg (by omega), if_pos hlt, ite_self]

theorem shrinkStores_other {m : Mem} {a6 a5 d7 actPd x : Nat} (h0 : x ≠ a6)
    (h1 : x ≠ a6 + mcbLen) (h5 : a5 = 0 ∨ x ≠ a5 + mcbPrev)
    (hrest : x < a6 + mcbData + d7 ∨ a6 + mcbData + d7 + mcbData ≤ x) :
    shrinkStores m a6 a5 d7 actPd x = m x := by
  unfold mcbData at hrest
  unfold mcbLen at h1
  unfold shrinkStores
  simp only [mcbData, mcbLen, mcbOwner, mcbPrev] at *
  rw [put_other _ _ _ _ (by omega), put_other _ _ _ _ (by omega), put_other _ _ _ _ (by omega),
    put_other _ _ _ _ (by omega), put_other _ _ _ _ (by omega), put_other _ _ _ _ (by omega)]
  by_cases ha5 : a5 = 0
  · rw [if_pos ha5]
  · rw [if_neg ha5]
    exact put_other _ _ _ _ (h5.resolve_left ha5)

theorem mxshrink_spares {E D : List Nat} (ok : HeapOk h) (table : Table h) (hact : 0x1000 ≤ h.actPd)
    (hb : Alloc h b) (hsize : size ≠ 0) (hmax : size ≠ 2 ^ 32 - 1) (hle : roundUp size ≤ b.len)
    (hE : b.adr ∈ E) :
    ∃ h' b', mxshrink h (b.adr + mcbData) size pd = some (h', 0) ∧ Spares E D h h' ∧
      Alloc h' b' ∧ b'.adr = b.adr ∧ b'.owner = b.owner := by
  obtain ⟨h0, h1, h2, hmagic⟩ := hb.1.header
  have hlow : ¬ 0xff000000 < b.adr := by
    obtain ⟨i, bs, hi, hbs, hin⟩ := hb.1
    have hfin := (span_mem _ _ _ hbs.tiled.span b hin).2
    have hend := table.low i hi
    unfold Block.fin at hfin
    omega
  have hrun : mxshrink h (b.adr + mcbData) size pd =
      if roundUp size = b.len then some (h, 0)
      else mshShrink h b.adr (if b.magic = KROM then 0 else b.fin) (roundUp size) pd := by
    unfold mxshrink
    rw [if_neg hsize, mcbOf_data h ok b hb.1]
    simp only [h0, h1, h2]
    rw [if_neg hlow, if_neg hb.2, if_neg (by rintro ⟨hk, ha⟩; exact hmagic.elim hk ha), if_neg hmax]
    by_cases heq : roundUp size = b.len
    · rw [if_pos heq, if_pos heq]
    · rw [if_neg heq, if_neg heq, if_pos (by omega)]
      rfl
  rw [hrun]
  by_cases heq : roundUp size = b.len
  · rw [if_pos heq]
    exact ⟨h, b, rfl, Spares.refl ok, hb, rfl, rfl⟩
  rw [if_neg heq]
  by_cases hbig : b.len - roundUp size ≤ mcbData
  · refine ⟨h, b, ?_, Spares.refl ok, hb, rfl, rfl⟩
    unfold mshShrink
    simp only [h1, if_pos hbig]
  -- The block is cut in two, and the rest is freed.
  rw [mshShrink_eq h b.adr _ _ pd (by rw [h1]; exact hbig)]
  obtain ⟨m, hm⟩ : ∃ m, m = shrinkStores h.mem b.adr (if b.magic = KROM then 0 else b.fin)
      (roundUp size) h.actPd := ⟨_, rfl⟩
  rw [← hm]
  obtain ⟨hok, hhead, hrest, hkeep⟩ :=
    cut_heap h ok b hb.1 hb.2 (roundUp size) (roundUp_dvd size) hbig m hm
  have hne : b.adr ≠ b.adr + mcbData + roundUp size := by
    unfold mcbData
    omega
  have hcut : Spares E D h { h with mem := m } := by
    refine ⟨hok, (Same.refl h).store _ _ _, fun c hc he => ⟨(hkeep c hc.1 hc.2 fun hcb =>
      he (hcb ▸ hE)).1, hc.2⟩, fun c hc he _ x hlo hhi => ?_⟩
    -- The stores go to the block itself and to the header behind it.
    have hno := inside_noHeader h ok c hc.1 x hlo hhi
    have hapart : x < b.adr ∨ b.fin ≤ x := by
      rcases hasBlock_apart h ok b c hb.1 hc.1 with rfl | hlt | hlt
      · exact absurd hE he
      · exact Or.inr (by omega)
      · exact Or.inl (by omega)
    unfold Block.fin mcbData at hapart hbig
    rw [show ({ h with mem := m } : Heap).mem = m from rfl, hm]
    refine shrinkStores_other (by omega) (by unfold mcbLen; omega) ?_ (by unfold mcbData; omega)
    by_cases hk : b.magic = KROM
    · exact Or.inl (if_pos hk)
    · rw [if_neg hk]
      obtain ⟨n, hn, hadr⟩ := hb.1.next (hmagic.resolve_left hk)
      have := hno n hn
      unfold mcbData at this
      unfold mcbPrev
      exact Or.inr (by omega)
  have hact0 : h.actPd ≠ 0 := by omega
  obtain ⟨h', hfree, hfrees⟩ := mxfree_owned _ hok (table_same h _ hcut.same table) _ ⟨hrest, hact0⟩
    pd (Or.inr hact)
  have hhead' : Alloc h' ⟨b.adr, ANDR, roundUp size, b.owner⟩ :=
    (hfrees.alloc _).mpr ⟨⟨hhead, hb.2⟩, fun h => hne (congrArg Block.adr h)⟩
  refine ⟨h', _, hfree, ?_, hhead', rfl, rfl⟩
  -- The rest is not one of the blocks there were.
  refine ⟨hfrees.ok, hcut.same.trans _ _ _ hfrees.same, fun c hc he => ?_,
    fun c hc he hd x hlo hhi => ?_⟩
  · refine (hfrees.alloc c).mpr ⟨hcut.stays c hc he, fun hcr => ?_⟩
    exact (hkeep c hc.1 hc.2 fun hcb => he (hcb ▸ hE)).2 (congrArg Block.adr hcr)
  · rw [← hcut.data c hc he hd x hlo hhi]
    exact (hfrees.clear x (inside_noHeader _ hok c (hcut.stays c hc he).1 x hlo hhi)).1

end

section

variable {h : Heap} {n pd : Nat}

/-- The largest free block of the first list is handed out as a whole, and the block behind it
    is not free. -/
theorem mxalloc_largest (ok : HeapOk h) (hpd : pd ≠ 0) (hpos : 0 < n) (h4 : 4 ∣ n)
    (hn : n + 3 < 2 ^ 32) (hfit : ListFits h n 0) (hmost : ¬ ListFits h (n + 1) 0) :
    ∃ h' b, mxalloc h n 0x2000 pd = some (h', b.adr + mcbData) ∧ Takes h h' b ∧ b.owner = pd ∧
      b.len = n ∧ NextOwned h' b := by
  have hround : roundUp n = n := by
    unfold roundUp
    omega
  have hr := hfit.1
  have hi := isList_of_root h ok 0 (by decide) (by decide) hr
  obtain ⟨bs, hbs⟩ := ok.lists 0 hi
  have hlow : ∀ e ∈ bs, e.owner = 0 → e.len ≤ n := by
    intro e he hfree
    by_contra hlt
    exact hmost ⟨hr, bs, hbs, e, he, hfree, by omega⟩
  -- The search finds a block of that length.
  rcases malLoop_spec h.mem n bs (h.extent 0) 0 (h.root 0) (h.memEnd 0) hbs.linked hbs.tiled.span
    hbs.tiled.marked (span_length_le _ _ _ hbs.tiled.span) with
    ⟨-, hno⟩ | ⟨pre, e, post, rfl, hloop, hefit, -⟩
  · obtain ⟨-, cs, hcs, e, he, hefit⟩ := hfit
    rw [ramList_unique _ _ _ _ _ _ hcs hbs] at he
    exact absurd hefit (hno e he)
  have hin : e ∈ pre ++ [e] ++ post := by simp
  have he : HasBlock h e := ⟨0, _, hi, hbs, hin⟩
  have hlen : e.len = n := Nat.le_antisymm (hlow e hin hefit.1) hefit.2
  obtain ⟨h', r, hmal, hres⟩ := malloc_spec h ok n 0 pd false (by decide) (by decide) h4 hpd
  have hmal' := hmal
  unfold malloc at hmal'
  rw [if_neg hr, if_neg (by simp), hloop] at hmal'
  have hadr : e.adr = r := (Prod.mk.inj (Option.some.inj hmal')).2
  have hepos := hasBlock_adr_pos h e he
  rcases hres with ⟨rfl, -⟩ | ⟨b, hrb, hown, hble, htakes⟩
  · exact absurd hadr hepos
  have hbe : b.adr = e.adr := hrb.symm.trans hadr.symm
  -- The block that was found is the one that made room.
  obtain ⟨e', he', hfree', hlo, hhi, hkeep⟩ := htakes.room
  obtain rfl : e' = e := by
    rcases hasBlock_apart h ok e' e he' he with h0 | hlt | hlt
    · exact h0
    · unfold Block.fin mcbData at hlt hhi
      omega
    · unfold Block.fin mcbData at hlt hhi
      omega
  have hblen : b.len = n := by
    unfold Block.fin at hhi
    omega
  have hfin : b.fin = e'.fin := by
    unfold Block.fin
    rw [hbe, hblen, hlen]
  refine ⟨h', b, ?_, htakes, hown, hblen, fun ha c hc hcadr => ?_⟩
  · unfold mxalloc mallocMode
    rw [if_neg (by omega)]
    have hnolimit : (!nolimit 0x2000) = false := rfl
    have hmode : 0x2000 % 4 = 0 := rfl
    have hdont : ¬ dontfree 0x2000 = true := by decide
    simp only [hround, hmode, if_true, hnolimit, hmal, hrb]
    rw [if_neg (by omega), if_neg hdont]
  · -- A free block would be a free neighbour of the one that was found.
    have hreg := span_mem _ _ _ hbs.tiled.span e' hin
    obtain ⟨i, cs, hi', hcs, hbin⟩ := ((htakes.alloc b).mpr (Or.inr rfl)).1
    obtain ⟨d, hd, hdadr⟩ := InList.next h' i b ⟨cs, hcs, hbin⟩ ha
    obtain ⟨-, hpost, hmark, -⟩ := ramList_at h.mem _ _ pre post e' hbs.linked hbs.tiled
    rcases marked_next e' post _ hpost hmark with ⟨rfl, -⟩ | ⟨f, fs, rfl, -, hfadr⟩
    · -- The block that was found is the last one of the list.
      have hend : e'.fin = h.memEnd 0 := hpost
      have hdr := hd.range h' i d
      have hbr := InList.range h' i b ⟨cs, hcs, hbin⟩
      rw [htakes.same.memEnd, htakes.same.root] at hdr hbr
      have hi0 : i = 0 := by
        by_contra hne
        unfold IsList at hi'
        rw [htakes.same.root] at hi'
        unfold Block.fin mcbData at hbr hreg
        rcases ok.apart i 0 hi' hi hne with hlt | hlt
        · omega
        · omega
      rw [hi0] at hdr
      unfold Block.fin mcbData at hdr hdadr hfin hend
      omega
    have hfown : f.owner ≠ 0 := by
      have hcoal := hbs.coalesced
      unfold Coalesced at hcoal
      rw [List.isChain_append] at hcoal
      rcases hcoal.2.2 e' (by simp) f (by simp) with h0 | h0
      · exact absurd hefit.1 h0
      · exact h0
    have hf : HasBlock h f := ⟨0, _, hi, hbs, by simp⟩
    have hfe : f ≠ e' := by
      rintro rfl
      unfold mcbData at hfadr
      omega
    have hf' := hkeep f hf hfe
    have hcf : c = f :=
      hasBlock_same h' htakes.ok c f hc hf' (hcadr.trans (hfin.trans hfadr.symm))
    rw [hcf]
    exact hfown

end

section

variable {h : Heap} {a6 fuel : Nat} {recs : List Rec} (proc : Nat)

theorem pmrLoop_zero (h : Heap) : pmrLoop proc false (fuel + 1) h 0 = some h := by
  unfold pmrLoop
  rw [if_pos rfl]

theorem pmrLoop_step (ha : a6 ≠ 0) : pmrLoop proc false (fuel + 1) h a6 =
    (mxfree h a6 proc).bind fun p => pmrLoop proc false fuel p.1 (h.mem a6) := by
  conv_lhs => unfold pmrLoop
  rw [if_neg ha]
  simp only [Bool.false_eq_true, if_false]
  cases mxfree h a6 proc with
  | none => rfl
  | some p => rfl

theorem pmrLoop_frees (ok : HeapOk h) (table : Table h)
    (hchain : Chains.Linked h.mem 0 a6 (recs.map Rec.copy)) (hf : recs.length < fuel)
    (hrecs : ∀ r ∈ recs, Alloc h r.block ∧ 0x1000 ≤ r.block.owner ∧ 0 < r.block.len) :
    ∃ h', pmrLoop proc false fuel h a6 = some h' ∧ HeapOk h' ∧ Same h h' ∧
      (∀ c, Alloc h' c ↔ Alloc h c ∧ ∀ r ∈ recs, c ≠ r.block) ∧
      ∀ x, NoHeader h x → h'.mem x = h.mem x :=
  freeLoop_frees (fun _ => pmrLoop_zero proc) (fun _ _ _ => pmrLoop_step proc) ok table hchain
    hf hrecs

end

/-- The heap with one more allocated block, of which the data may be anything. -/
structure Gains (h h' : Heap) (b : Block) : Prop where
  ok : HeapOk h'
  same : Same h h'
  alloc : ∀ c, Alloc h' c ↔ Alloc h c ∨ c = b
  fresh : ∀ c, Alloc h c → c.adr ≠ b.adr
  data : ∀ x, Data h x → h'.mem x = h.mem x

/-- The heap in which one block is left allocated that was not allocated before. -/
structure Loses (h h' : Heap) (b : Block) : Prop where
  ok : HeapOk h'
  same : Same h h'
  stays : ∀ c, Alloc h c → Alloc h' c
  data : ∀ x, Data h x → h'.mem x = h.mem x
  left : Alloc h' b
  new : ¬ Alloc h b

section

variable {h g k : Heap} {b c : Block}

theorem Takes.gains (ok : HeapOk h) (ht : Takes h g b) : Gains h g b where
  ok := ht.ok
  same := ht.same
  alloc := ht.alloc
  fresh c hc := by
    have hpos : c.adr < c.fin ∧ b.adr < b.fin := by
      unfold Block.fin mcbData
      omega
    rcases ht.apart h g ok b c hc with hlt | hlt
    · omega
    · omega
  data x hx := ht.clear x (data_noHeader h ok x hx) (data_notFree h ok x hx)

theorem Gains.new (hg : Gains h g b) : ¬ Alloc h b := fun hb => hg.fresh b hb rfl

theorem Gains.here (hg : Gains h g b) : Alloc g b := (hg.alloc b).mpr (Or.inr rfl)

theorem Gains.stays (hg : Gains h g b) (hc : Alloc h c) : Alloc g c :=
  (hg.alloc c).mpr (Or.inl hc)

theorem Gains.store (hg : Gains h g b) {m : Mem}
    (hm : ∀ x, m x ≠ g.mem x → b.adr + mcbData ≤ x ∧ x < b.fin) :
    Gains h { g with mem := m } b ∧ ∀ c, HasBlock { g with mem := m } c ↔ HasBlock g c := by
  obtain ⟨hs, hblock⟩ := store_spares (E := []) hg.ok hg.here.1 (List.mem_singleton_self b.adr) hm
  refine ⟨⟨hs.ok, hg.same.store _ _ m, fun c => ?_, hg.fresh, fun x hx => ?_⟩, hblock⟩
  · exact (and_congr_left' (hblock c)).trans (hg.alloc c)
  · obtain ⟨c, hc, hlo, hhi⟩ := hx
    have hne : c.adr ∉ [b.adr] := fun h => hg.fresh c hc (List.mem_singleton.mp h)
    rw [hs.data c (hg.stays hc) List.not_mem_nil hne x hlo hhi]
    exact hg.data x ⟨c, hc, hlo, hhi⟩

theorem Gains.givenUp (hg : Gains h g b) (hf : Frees g k b) : GivenUp h k := by
  refine ⟨hf.ok, hg.same.trans _ _ _ hf.same, fun c => ?_, fun x hx => ?_⟩
  · rw [hf.alloc c, hg.alloc c]
    constructor
    · rintro ⟨hc | hc, hne⟩
      · exact hc
      · exact absurd hc hne
    · exact fun hc => ⟨Or.inl hc, fun hcb => hg.new (hcb ▸ hc)⟩
  · obtain ⟨c, hc, hlo, hhi⟩ := hx
    rw [(hf.clear x (inside_noHeader g hg.ok c (hg.stays hc).1 x hlo hhi)).1]
    exact hg.data x ⟨c, hc, hlo, hhi⟩

theorem Gains.loses {k' : Heap} (hb : Gains h g b) (hc : Gains g k c)
    (hs : Spares [c.adr] [b.adr] k k') : Loses h k' b where
  ok := hs.ok
  same := (hb.same.trans _ _ _ hc.same).trans _ _ _ hs.same
  stays d hd := hs.stays d (hc.stays (hb.stays hd)) fun h =>
    hc.fresh d (hb.stays hd) (List.mem_singleton.mp h)
  data x hx := by
    obtain ⟨d, hd, hlo, hhi⟩ := hx
    have hdc : d.adr ∉ [c.adr] := fun h => hc.fresh d (hb.stays hd) (List.mem_singleton.mp h)
    have hdb : d.adr ∉ [b.adr] := fun h => hb.fresh d hd (List.mem_singleton.mp h)
    rw [hs.data d (hc.stays (hb.stays hd)) hdc hdb x hlo hhi,
      hc.data x ⟨d, hb.stays hd, hlo, hhi⟩]
    exact hb.data x ⟨d, hd, hlo, hhi⟩
  left := hs.stays b (hc.stays hb.here) fun h => hc.fresh b hb.here (List.mem_singleton.mp h)
  new := hb.new

theorem span_covers {a fin x : Nat} {bs : List Block} (hs : Span a bs fin) (hlo : a ≤ x)
    (hhi : x < fin) : ∃ b ∈ bs, b.adr ≤ x ∧ x < b.fin := by
  induction bs generalizing a with
  | nil =>
    have hend : a = fin := hs
    omega
  | cons b bs ih =>
    by_cases hx : x < b.fin
    · exact ⟨b, List.mem_cons_self, by rw [hs.1]; exact hlo, hx⟩
    · obtain ⟨c, hc, hin⟩ := ih hs.2 (by omega)
      exact ⟨c, List.mem_cons_of_mem b hc, hin⟩

/-- A block that is left allocated takes the place of free ones. -/
theorem Loses.not_free (ok : HeapOk h) (hl : Loses h g b) :
    ¬ ∀ c, HasBlock h c → c.owner = 0 → HasBlock g c := by
  intro hfree
  obtain ⟨i, bs, hi, hbs, hin⟩ := hl.left.1
  have hr := span_mem _ _ _ hbs.tiled.span b hin
  have hpos : b.adr < b.fin := by
    unfold Block.fin mcbData
    omega
  rw [hl.same.root, hl.same.memEnd] at hr
  have hi' : IsList h i := by
    unfold IsList at hi
    rwa [hl.same.root] at hi
  obtain ⟨cs, hcs⟩ := ok.lists i hi'
  obtain ⟨c, hc, hlo, hhi⟩ := span_covers hcs.tiled.span hr.1 (by omega)
  have hch : HasBlock h c := ⟨i, cs, hi', hcs, hc⟩
  -- What was at its place is still there, so it is the same block.
  have hcg : HasBlock g c := by
    by_cases hco : c.owner = 0
    · exact hfree c hch hco
    · exact (hl.stays c ⟨hch, hco⟩).1
  rcases hasBlock_apart g hl.ok c b hcg hl.left.1 with rfl | hlt | hlt
  · exact hl.new ⟨hch, hl.left.2⟩
  · omega
  · omega

end

end Malloc

end MagiC
