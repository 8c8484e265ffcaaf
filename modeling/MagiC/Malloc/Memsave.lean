import MagiC.Malloc.Save

/-!
# What a Save Copies

The two walks of `Pmemsave`, with the blocks they make copies of.

While the RAM lists are walked nothing sets the register that `_memsave`
compares with the exclusion list. It holds the process the walk was started
for, and from the first copy on the data of the last copy. A process that is
named in the list itself therefore keeps all its own blocks out of the save,
and any other entry keeps none of them out.

## Main definitions

* `Copied`: The blocks of which a save makes copies.

## Theorems

* `pmemsave_spec`: What `Pmemsave` leaves behind.
-/

namespace MagiC

namespace Malloc

def InList (h : Heap) (i : Nat) (b : Block) : Prop :=
  ∃ bs, RamList h.mem (h.root i) (h.memEnd i) bs ∧ b ∈ bs

theorem InList.hasBlock (h : Heap) (i : Nat) (hi : IsList h i) (b : Block) (hb : InList h i b) :
    HasBlock h b := by
  rcases hb with ⟨bs, hbs, hin⟩
  exact ⟨i, bs, hi, hbs, hin⟩

theorem inList_of_range (h : Heap) (ok : HeapOk h) (i : Nat) (hi : IsList h i) (b : Block)
    (hb : HasBlock h b) (hlo : h.root i ≤ b.adr) (hhi : b.adr < h.memEnd i) : InList h i b := by
  rcases hb with ⟨j, bs, hj, hbs, hin⟩
  by_cases hij : j = i
  · rw [hij] at hbs
    exact ⟨bs, hbs, hin⟩
  · have hadr := span_mem _ _ _ hbs.tiled.span b hin
    have hpos : b.adr < b.fin := by
      unfold Block.fin mcbData
      omega
    rcases ok.apart j i hj hi hij with hlt | hlt <;> omega

theorem InList.range (h : Heap) (i : Nat) (b : Block) (hb : InList h i b) :
    h.root i ≤ b.adr ∧ b.fin ≤ h.memEnd i := by
  rcases hb with ⟨bs, hbs, hin⟩
  exact span_mem _ _ _ hbs.tiled.span b hin

theorem InList.same (h h' : Heap) (hs : Same h h') (ok : HeapOk h') (i : Nat) (hi : IsList h i)
    (b : Block) (hb : InList h i b) (hb' : HasBlock h' b) : InList h' i b := by
  have hr := hb.range h i b
  have hi' : IsList h' i := by
    unfold IsList
    rw [hs.root]
    exact hi
  refine inList_of_range h' ok i hi' b hb' ?_ ?_
  · rw [hs.root]
    exact hr.1
  · rw [hs.memEnd]
    have : b.adr < b.fin := by
      unfold Block.fin mcbData
      omega
    omega

section

variable (h : Heap) (i : Nat) (b : Block) (hb : InList h i b)

include hb

theorem InList.head : h.mem b.adr = b.magic := by
  rcases hb with ⟨bs, hbs, hin⟩
  exact (linked_fields h.mem 0 bs hbs.linked b hin).1

theorem InList.magic : b.magic = KROM ∨ b.magic = ANDR := by
  rcases hb with ⟨bs, hbs, hin⟩
  exact marked_magic bs hbs.tiled.marked b hin

theorem InList.next (ha : b.magic = ANDR) : ∃ c, InList h i c ∧ c.adr = b.fin := by
  rcases hb with ⟨bs, hbs, hin⟩
  rcases split_at bs b hin with ⟨pre, post, rfl⟩
  rcases ramList_at h.mem _ _ pre post b hbs.linked hbs.tiled with ⟨_, hpost, hmark, _⟩
  rcases marked_next b post _ hpost hmark with ⟨_, hk⟩ | ⟨c, cs, rfl, _, hc⟩
  · exact absurd (ha.symm.trans hk) andr_ne_krom
  · exact ⟨c, ⟨_, hbs, by simp⟩, hc⟩

theorem InList.fin (hk : b.magic = KROM) : b.fin = h.memEnd i := by
  rcases hb with ⟨bs, hbs, hin⟩
  rcases split_at bs b hin with ⟨pre, post, rfl⟩
  rcases ramList_at h.mem _ _ pre post b hbs.linked hbs.tiled with ⟨_, hpost, hmark, _⟩
  rcases marked_next b post _ hpost hmark with ⟨hp, _⟩ | ⟨c, cs, _, ha, _⟩
  · rw [hp] at hpost
    exact hpost
  · exact absurd (ha.symm.trans hk) andr_ne_krom

end

theorem InList.krom_unique (h : Heap) (i : Nat) (b c : Block) (hb : InList h i b)
    (hc : InList h i c) (hbk : b.magic = KROM) (hck : c.magic = KROM) : b = c := by
  rcases hb with ⟨bs, hbs, hbin⟩
  rcases hc with ⟨cs, hcs, hcin⟩
  rw [ramList_unique _ _ _ _ _ _ hcs hbs] at hcin
  have hmark := hbs.tiled.marked
  clear hbs hcs
  induction bs with
  | nil => exact absurd hbin List.not_mem_nil
  | cons d ds ih =>
    rcases (marked_cons_iff d ds).mp hmark with ⟨rfl, _⟩ | ⟨_, ha, hmark'⟩
    · rw [List.mem_singleton.mp hbin, List.mem_singleton.mp hcin]
    · rcases List.mem_cons.mp hbin with rfl | hbin
      · exact absurd (ha.symm.trans hbk) andr_ne_krom
      · rcases List.mem_cons.mp hcin with rfl | hcin
        · exact absurd (ha.symm.trans hck) andr_ne_krom
        · exact ih hbin hcin hmark'

def LastBlock (h : Heap) (b : Block) : Prop :=
  ∃ i, IsList h i ∧ (∀ j, IsList h j → j ≤ i) ∧ InList h i b ∧ b.magic = KROM

/-- The entries of an exclusion list are addresses of blocks. -/
def Names (h : Heap) (excl : List Nat) : Prop :=
  ∀ e ∈ excl, ∃ b, Alloc h b ∧ e = b.adr + mcbData

/-- Where the walk over the RAM lists stands: the copies so far are of blocks
    of the process, and there are none if it is named in the exclusion list. -/
structure Walking (h0 h : Heap) (proc : Nat) (excl : List Nat) (s : Regs) (recs : List Rec) :
    Prop where
  saved : Saved h0 h s.a3 recs
  skip : proc ∈ excl → recs = [] ∧ s.a0 = proc
  keep : proc ∉ excl → s.a0 ∉ excl
  owned : ∀ r ∈ recs, ∃ d, Alloc h d ∧ d.adr + mcbData = r.adr ∧ d.owner = proc

theorem Walking.move (h0 h : Heap) (proc : Nat) (excl : List Nat) (s : Regs) (recs : List Rec)
    (hw : Walking h0 h proc excl s recs) (a5 : Nat) :
    Walking h0 h proc excl { s with a5 := a5 } recs :=
  ⟨hw.saved, hw.skip, hw.keep, hw.owned⟩

theorem Saved.mono (h0 h h' : Heap) (a3 a3' : Nat) (recs recs' : List Rec)
    (hs : Saved h0 h a3 recs) (hs' : Saved h0 h' a3' recs') (hsub : recs ⊆ recs') (b : Block)
    (hb : Alloc h b) : Alloc h' b := by
  refine (hs'.alloc b).mpr (((hs.alloc b).mp hb).imp_right fun hr => ?_)
  rcases hr with ⟨r, hr, hbr⟩
  exact ⟨r, hsub hr, hbr⟩

theorem Saved.copy_not_named (h0 h : Heap) (a3 : Nat) (recs : List Rec) (hs : Saved h0 h a3 recs)
    (excl : List Nat) (hn : Names h0 excl) (r : Rec) (hr : r ∈ recs) :
    r.copy + svmbData ∉ excl := by
  intro hin
  rcases hn _ hin with ⟨b, hb, heq⟩
  have hcb := (hs.alloc _).mpr (Or.inr ⟨r, hr, rfl⟩)
  unfold Rec.copy at heq
  rcases hasBlock_apart h hs.ok b r.block ((hs.alloc b).mpr (Or.inl hb)).1 hcb.1 with hbr | hlt |
    hlt
  · rw [hbr] at heq
    unfold svmbData at heq
    omega
  all_goals
    unfold Block.fin mcbData at *
    unfold svmbData at *
    omega

theorem memsave_walk (h0 h : Heap) (table : Table h0) (hur : 0x1000 ≤ h0.urPd) (proc : Nat)
    (excl : List Nat) (hn : Names h0 excl) (s : Regs) (recs : List Rec)
    (hw : Walking h0 h proc excl s recs) (d : Block) (hd : Alloc h d) (hown : d.owner = proc)
    (ha5 : s.a5 = d.adr + mcbData) :
    (∃ h', memsave h excl s = some (h', none) ∧ GivenUp h0 h') ∨
      ∃ h' s' recs', memsave h excl s = some (h', some s') ∧ s'.a5 = s.a5 ∧
        Walking h0 h' proc excl s' recs' ∧ recs ⊆ recs' ∧
        (proc ∉ excl → ∃ r ∈ recs', r.adr = d.adr + mcbData) := by
  by_cases hproc : proc ∈ excl
  · -- The process is named, so nothing is copied.
    refine Or.inr ⟨h, s, recs, ?_, rfl, hw, fun _ hr => hr, fun hno => absurd hproc hno⟩
    unfold memsave
    rw [if_pos (by rw [(hw.skip hproc).2]; exact hproc)]
  · have hfree : ∀ r ∈ recs, ∀ e, HasBlock h e → e.owner = 0 → e.adr + mcbData = r.adr →
        e.len ≤ d.len := by
      intro r hr e he hfree hadr
      rcases hw.owned r hr with ⟨g, hg, hgadr, _⟩
      have hsame := hasBlock_same h hw.saved.ok e g he hg.1
        (Nat.add_right_cancel (hadr.trans hgadr.symm))
      rw [hsame] at hfree
      exact absurd hfree hg.2
    rcases memsave_spec h0 h table hur excl s recs hw.saved d hd.1 ha5 (hw.keep hproc) hfree with
      hfail | ⟨h', r, heq, hadr, hs', _⟩
    · exact Or.inl hfail
    · have hsub : recs ⊆ r :: recs := List.subset_cons_self r recs
      have hmono := hw.saved.mono h0 h h' _ _ recs _ hs' hsub
      refine Or.inr ⟨h', _, r :: recs, heq, rfl, ⟨hs', fun hin => absurd hin hproc, fun _ => ?_,
        List.forall_mem_cons.mpr ⟨⟨d, hmono d hd, ?_, hown⟩, fun q hq => ?_⟩⟩, hsub,
        fun _ => ⟨r, List.mem_cons_self, hadr.trans ha5⟩⟩
      · exact hs'.copy_not_named h0 h' _ _ excl hn r List.mem_cons_self
      · rw [hadr, ha5]
      · rcases hw.owned q hq with ⟨g, hg, hgadr, hgown⟩
        exact ⟨g, hmono g hg, hgadr, hgown⟩

/-- How the walk over one list ends. The blocks of the process from `adr` on have been copied. -/
def Walked (h0 : Heap) (proc : Nat) (excl : List Nat) (i : Nat) (recs : List Rec) (adr : Nat)
    (r : Option (Heap × Option Regs)) : Prop :=
  (∃ h', r = some (h', none) ∧ GivenUp h0 h') ∨
    ∃ h' s' recs' l, r = some (h', some s') ∧ Walking h0 h' proc excl s' recs' ∧ recs ⊆ recs' ∧
      InList h' i l ∧ l.magic = KROM ∧ s'.a5 = l.adr + mcbData ∧
      (proc ∉ excl → ∀ b, Alloc h0 b → InList h0 i b → adr ≤ b.adr → b.owner = proc →
        ∃ r ∈ recs', r.adr = b.adr + mcbData)

/-- The walk goes on behind the block `c`, which has been dealt with. -/
theorem Walked.behind {h0 : Heap} {proc i : Nat} {excl : List Nat} {recs recs1 : List Rec}
    {c : Block} {r : Option (Heap × Option Regs)} (hsub : recs ⊆ recs1)
    (hbehind : ∀ b, Alloc h0 b → c.adr ≤ b.adr → b = c ∨ c.fin ≤ b.adr)
    (hdone : proc ∉ excl → c.owner = proc → ∃ r ∈ recs1, r.adr = c.adr + mcbData)
    (hw : Walked h0 proc excl i recs1 c.fin r) : Walked h0 proc excl i recs c.adr r := by
  rcases hw with hfail | ⟨h', s', recs', l, heq, hw', hsub', hl, hlk, hla, hall⟩
  · exact Or.inl hfail
  · refine Or.inr ⟨h', s', recs', l, heq, hw', fun r hr => hsub' (hsub hr), hl, hlk, hla,
      fun hpe b hb hbi hle hbo => ?_⟩
    rcases hbehind b hb hle with rfl | hlt
    · rcases hdone hpe hbo with ⟨r, hr, hadr⟩
      exact ⟨r, hsub' hr, hadr⟩
    · exact hall hpe b hb hbi hlt hbo

/-- The walk over one list, from the block at `a5` on. -/
theorem pmsMemloop_spec (h0 : Heap) (table : Table h0) (hur : 0x1000 ≤ h0.urPd) (proc : Nat)
    (hproc : proc ≠ 0) (excl : List Nat) (hn : Names h0 excl) (i : Nat) (hi : IsList h0 i) :
    ∀ (fuel : Nat) (h : Heap) (s : Regs) (recs : List Rec) (c : Block),
      Walking h0 h proc excl s recs → InList h i c → s.a5 = c.adr →
      h0.memEnd i - c.adr ≤ fuel →
      Walked h0 proc excl i recs c.adr (pmsMemloop excl proc fuel h s) := by
  intro fuel
  induction fuel with
  | zero =>
    intro h s recs c hw hc _ hf
    have hr := hc.range h i c
    rw [hw.saved.same.memEnd] at hr
    unfold Block.fin mcbData at hr
    omega
  | succ k ih =>
    intro h s recs c hw hc ha5 hf
    have hr := hc.range h i c
    rw [hw.saved.same.memEnd] at hr
    have hi' : IsList h i := by
      unfold IsList
      rw [hw.saved.same.root]
      exact hi
    have hcin := hc.hasBlock h i hi' c
    have hfields := hc.head h i c
    have hlen := hasBlock_len h c hcin
    -- A block from here on is this one or lies behind it.
    have hbehind : ∀ b, Alloc h0 b → c.adr ≤ b.adr → b = c ∨ c.fin ≤ b.adr := by
      intro b hb hle
      have hbh := (hw.saved.alloc b).mpr (Or.inl hb)
      rcases hasBlock_apart h hw.saved.ok b c hbh.1 hcin with hbc | hlt | hlt
      · exact Or.inl hbc
      · unfold Block.fin mcbData at hlt
        omega
      · exact Or.inr hlt
    have hgo : ∀ (h1 : Heap) (s1 : Regs) (recs1 : List Rec), Walking h0 h1 proc excl s1 recs1 →
        recs ⊆ recs1 → InList h1 i c → s1.a5 = c.adr + mcbData → c.magic = ANDR →
        (proc ∉ excl → c.owner = proc → ∃ r ∈ recs1, r.adr = c.adr + mcbData) →
        Walked h0 proc excl i recs c.adr
          (pmsMemloop excl proc k h1 { s1 with a5 := s1.a5 + c.len }) := by
      intro h1 s1 recs1 hw1 hsub hc1 ha1 hma hdone
      rcases hc1.next h1 i c hma with ⟨n, hn1, hnadr⟩
      refine Walked.behind hsub hbehind hdone (hnadr ▸ ih h1 _ recs1 n
        (hw1.move h0 h1 proc excl s1 recs1 _) hn1 (by rw [ha1, hnadr]; rfl) ?_)
      unfold Block.fin mcbData at *
      omega
    -- Behind the last block there is none.
    have hlast : c.magic = KROM → ∀ b, InList h0 i b → ¬ c.fin ≤ b.adr := by
      intro hk b hb hle
      have hfin := hc.fin h i c hk
      have hrb := hb.range h0 i b
      rw [hw.saved.same.memEnd] at hfin
      unfold Block.fin mcbData at *
      omega
    have hsame : ∀ h' s' recs', Walking h0 h' proc excl s' recs' → Same h h' :=
      fun h' _ _ hw' => (hw.saved.same.symm h0 h).trans _ _ _ hw'.saved.same
    unfold pmsMemloop
    rw [ha5]
    simp only [hfields, hlen.1, hlen.2]
    rcases hc.magic h i c with hk | ha
    · -- The last block of the list.
      rw [if_neg (by rw [hk]; exact andr_ne_krom.symm), if_pos hk]
      by_cases hown : c.owner = proc
      · rw [if_pos hown]
        have hcal : Alloc h c := ⟨hcin, by rw [hown]; exact hproc⟩
        rcases memsave_walk h0 h table hur proc excl hn { s with a5 := c.adr + mcbData } recs
          (hw.move h0 h proc excl s recs _) c hcal hown rfl with
          hfail | ⟨h', s', recs', heq, hsa, hw', hsub, hdone⟩
        · exact Or.inl hfail
        · have hc' := hw.saved.mono h0 h h' _ _ recs recs' hw'.saved hsub c hcal
          refine Or.inr ⟨h', s', recs', c, heq, hw', hsub,
            hc.same h h' (hsame h' s' recs' hw') hw'.saved.ok i hi' c hc'.1, hk, hsa, ?_⟩
          intro hpe b hb hbi hle _
          rcases hbehind b hb hle with rfl | hlt
          · exact hdone hpe
          · exact absurd hlt (hlast hk b hbi)
      · rw [if_neg hown]
        refine Or.inr ⟨h, _, recs, c, rfl, hw.move h0 h proc excl s recs _, fun _ hr => hr, hc, hk,
          rfl, fun _ b hb hbi hle hbo => ?_⟩
        rcases hbehind b hb hle with rfl | hlt
        · exact absurd hbo hown
        · exact absurd hlt (hlast hk b hbi)
    · rw [if_pos ha]
      by_cases hown : c.owner = proc
      · have hcal : Alloc h c := ⟨hcin, by rw [hown]; exact hproc⟩
        have hnext : h.mem (c.adr + mcbData + c.len) = ANDR ∨
            h.mem (c.adr + mcbData + c.len) = KROM := by
          rcases hc.next h i c ha with ⟨n, hn, hnadr⟩
          have hnfin : n.adr = c.adr + mcbData + c.len := hnadr
          rw [← hnfin, hn.head]
          exact (hn.magic h i n).symm
        rw [if_pos hown, if_pos hnext]
        rcases memsave_walk h0 h table hur proc excl hn { s with a5 := c.adr + mcbData } recs
          (hw.move h0 h proc excl s recs _) c hcal hown rfl with
          ⟨h', heq, hup⟩ | ⟨h', s', recs', heq, hsa, hw', hsub, hdone⟩
        · rw [heq]
          exact Or.inl ⟨h', rfl, hup⟩
        · have hc' := hw.saved.mono h0 h h' _ _ recs recs' hw'.saved hsub c hcal
          rw [heq]
          exact hgo h' s' recs' hw' hsub
            (hc.same h h' (hsame h' s' recs' hw') hw'.saved.ok i hi' c hc'.1) hsa ha
            (fun hpe _ => hdone hpe)
      · rw [if_neg hown]
        exact hgo h { s with a5 := c.adr + mcbData } recs (hw.move h0 h proc excl s recs _)
          (fun _ hr => hr) hc rfl ha (fun _ hco => absurd hco hown)

theorem isList_positive (h : Heap) (ok : HeapOk h) (table : Table h) (i : Nat) (hi : IsList h i) :
    ¬ negative (h.root i) = true := by
  rcases ok.lists i hi with ⟨bs, hbs⟩
  have := span_le _ _ _ hbs.tiled.span
  have := table.low i hi
  have hne : h.root i ≠ h.memEnd i := by
    intro heq
    have hsp := hbs.tiled.span
    cases bs with
    | nil => exact hbs.tiled.marked
    | cons b bs =>
      have hb := span_mem _ _ _ hsp b List.mem_cons_self
      unfold Block.fin mcbData at hb
      omega
  unfold negative
  rw [decide_eq_true_eq]
  omega

/-- The walk over the lists from `list` on. It ends on the last block, or it has
    come past all lists before it began. -/
theorem pmsMemloop2_spec (h0 : Heap) (ok : HeapOk h0) (table : Table h0) (hur : 0x1000 ≤ h0.urPd)
    (proc : Nat) (hproc : proc ≠ 0) (excl : List Nat) (hn : Names h0 excl) :
    ∀ (fuel list : Nat) (h : Heap) (s : Regs) (recs : List Rec), list + fuel = nblocks →
      0 < fuel → Walking h0 h proc excl s recs →
      (∃ h', pmsMemloop2 excl proc fuel list h s = some (h', none) ∧ GivenUp h0 h') ∨
        ∃ h' s' recs', pmsMemloop2 excl proc fuel list h s = some (h', some s') ∧
          Walking h0 h' proc excl s' recs' ∧ recs ⊆ recs' ∧
          (proc ∉ excl → ∀ i, list ≤ i → IsList h0 i → ∀ b, Alloc h0 b → InList h0 i b →
            b.owner = proc → ∃ r ∈ recs', r.adr = b.adr + mcbData) ∧
          ((∃ l, LastBlock h' l ∧ s'.a5 = l.adr + mcbData) ∨
            ((∀ j, IsList h0 j → j < list) ∧ h' = h ∧ s' = s)) := by
  intro fuel
  induction fuel with
  | zero => intro list h s recs _ hf; omega
  | succ k ih =>
    intro list h s recs hsum _ hw
    have hroot := hw.saved.same.root
    have hlast : h0.root 15 = 0 := ok.last
    have hk : h0.root list ≠ 0 → 0 < k := by
      intro hne
      by_contra hk
      have hl15 : list = 15 := by unfold nblocks at hsum; omega
      exact hne (hl15 ▸ hlast)
    unfold pmsMemloop2
    rw [hroot]
    by_cases hneg : negative (h0.root list) = true
    · -- The marker is no list.
      have hno : ¬ IsList h0 list := fun hi => isList_positive h0 ok table list hi hneg
      have hne : h0.root list ≠ 0 := by
        intro h00
        rw [h00] at hneg
        exact absurd hneg (by decide)
      rw [if_pos hneg]
      rcases ih (list + 1) h s recs (by omega) (hk hne) hw with
        hfail | ⟨h', s', recs', heq, hw', hsub, hall, hend⟩
      · exact Or.inl hfail
      · refine Or.inr ⟨h', s', recs', heq, hw', hsub, fun hpe i hle hi => ?_,
          hend.imp_right fun hend => ⟨fun j hj => ?_, hend.2⟩⟩
        · have hne : i ≠ list := fun heq => hno (heq ▸ hi)
          exact hall hpe i (by omega) hi
        · have hne : j ≠ list := fun heq => hno (heq ▸ hj)
          have := hend.1 j hj
          omega
    · rw [if_neg hneg]
      by_cases hzero : h0.root list = 0
      · -- The end of the table.
        have hnone : ∀ j, IsList h0 j → j < list := by
          intro j hj
          by_contra hge
          rcases Nat.lt_or_eq_of_le (Nat.le_of_not_lt hge) with hlt | heq
          · exact table.dense j hj list hlt hzero
          · exact hj.2.1 (heq ▸ hzero)
        rw [if_pos hzero]
        refine Or.inr ⟨h, s, recs, rfl, hw, fun _ hr => hr, fun _ i hle hi => ?_,
          Or.inr ⟨hnone, rfl, rfl⟩⟩
        have := hnone i hi
        omega
      · have hi : IsList h0 list := by
          refine ⟨by omega, hzero, fun hmark => hneg ?_⟩
          rw [hmark]
          decide
        have hi' : IsList h list := by
          unfold IsList
          rw [hroot]
          exact hi
        rcases hw.saved.ok.lists list hi' with ⟨bs, hbs⟩
        obtain ⟨c, cs, rfl⟩ : ∃ c cs, bs = c :: cs := by
          cases bs with
          | nil => exact absurd hbs.tiled.marked id
          | cons c cs => exact ⟨c, cs, rfl⟩
        have hcadr : c.adr = h0.root list := by
          rw [← hroot]
          exact hbs.tiled.span.1
        have hext : h.extent list = h0.memEnd list - c.adr := by
          unfold Heap.extent
          rw [hw.saved.same.memEnd, hroot, hcadr]
        rw [if_neg hzero, hext]
        rcases pmsMemloop_spec h0 table hur proc hproc excl hn list hi _ h
          { s with a5 := h0.root list } recs c (hw.move h0 h proc excl s recs _)
          ⟨_, hbs, List.mem_cons_self⟩ hcadr.symm (le_refl _) with
          ⟨h1, heq1, hup⟩ | ⟨h1, s1, recs1, l, heq1, hw1, hsub1, hl, hlk, hla, hall1⟩
        · rw [heq1]
          exact Or.inl ⟨h1, rfl, hup⟩
        · rw [heq1]
          rcases ih (list + 1) h1 s1 recs1 (by omega) (hk hzero) hw1 with
            hfail | ⟨h', s', recs', heq, hw', hsub, hall, hend⟩
          · exact Or.inl hfail
          · refine Or.inr ⟨h', s', recs', heq, hw', fun r hr => hsub (hsub1 hr),
              fun hpe i hle hii b hb hbi hbo => ?_, Or.inl ?_⟩
            · rcases Nat.lt_or_eq_of_le hle with hlt | rfl
              · exact hall hpe i hlt hii b hb hbi hbo
              · rcases hall1 hpe b hb hbi (by rw [hcadr]; exact (hbi.range h0 list b).1) hbo with
                  ⟨r, hr, hadr⟩
                exact ⟨r, hsub hr, hadr⟩
            · rcases hend with hend | ⟨hnone, rfl, rfl⟩
              · exact hend
              · have hiff : ∀ j, IsList h' j ↔ IsList h0 j := by
                  intro j
                  unfold IsList
                  rw [hw'.saved.same.root]
                refine ⟨l, ⟨list, (hiff list).mpr hi, fun j hj => ?_, hl, hlk⟩, hla⟩
                have := hnone j ((hiff j).mp hj)
                omega

/-- Where the walk over the shared blocks stands: each copy is one of a block of
    the process or of the block `l`. -/
structure Sharing (h0 h : Heap) (proc : Nat) (excl : List Nat) (l : Block) (s : Regs)
    (recs : List Rec) : Prop where
  saved : Saved h0 h s.a3 recs
  block : HasBlock h l
  here : s.a5 = l.adr + mcbData
  kinds : ∀ r ∈ recs,
    (proc ∉ excl ∧ ∃ d, Alloc h d ∧ d.adr + mcbData = r.adr ∧ d.owner = proc) ∨
      r.adr = l.adr + mcbData

/-- The walk over the shared blocks: if one of them is not left out, there is a
    copy of the block `l`, and otherwise there are no new copies. -/
theorem pmsShmloop_spec (h0 : Heap) (table : Table h0) (hur : 0x1000 ≤ h0.urPd) (proc : Nat)
    (excl : List Nat) (l : Block) :
    ∀ (es : List Nat) (h : Heap) (s : Regs) (recs : List Rec), Sharing h0 h proc excl l s recs →
      (∃ h', pmsShmloop excl es h s = some (h', none) ∧ GivenUp h0 h') ∨
        ∃ h' s' recs', pmsShmloop excl es h s = some (h', some s') ∧
          Sharing h0 h' proc excl l s' recs' ∧ recs ⊆ recs' ∧
          ((∃ e ∈ es, e ≠ 0 ∧ e ∉ excl) → ∃ r ∈ recs', r.adr = l.adr + mcbData) ∧
          ((∀ e ∈ es, e ≠ 0 → e ∈ excl) → recs' = recs) := by
  intro es
  induction es with
  | nil =>
    intro h s recs hw
    exact Or.inr ⟨h, s, recs, rfl, hw, fun _ hr => hr, fun ⟨_, he, _⟩ =>
      absurd he List.not_mem_nil, fun _ => rfl⟩
  | cons e es ih =>
    intro h s recs hw
    unfold pmsShmloop
    -- An entry that is passed over changes nothing.
    have hpass : (e ≠ 0 → e ∈ excl) → ∀ s', s'.a3 = s.a3 → s'.a5 = s.a5 →
        (∃ h', pmsShmloop excl es h s' = some (h', none) ∧ GivenUp h0 h') ∨
        ∃ h' t recs', pmsShmloop excl es h s' = some (h', some t) ∧
          Sharing h0 h' proc excl l t recs' ∧ recs ⊆ recs' ∧
          ((∃ d ∈ e :: es, d ≠ 0 ∧ d ∉ excl) → ∃ r ∈ recs', r.adr = l.adr + mcbData) ∧
          ((∀ d ∈ e :: es, d ≠ 0 → d ∈ excl) → recs' = recs) := by
      intro hskip s' h3 h5
      rcases ih h s' recs ⟨by rw [h3]; exact hw.saved, hw.block, h5.trans hw.here, hw.kinds⟩ with
        hfail | ⟨h', t, recs', heq, hw', hsub, hone, hnone⟩
      · exact Or.inl hfail
      · refine Or.inr ⟨h', t, recs', heq, hw', hsub, ?_, fun hall =>
          hnone fun d hd => hall d (List.mem_cons_of_mem _ hd)⟩
        rintro ⟨d, hd, hd0, hdx⟩
        rcases List.mem_cons.mp hd with rfl | hd
        · exact absurd (hskip hd0) hdx
        · exact hone ⟨d, hd, hd0, hdx⟩
    by_cases he0 : e = 0
    · rw [if_pos he0]
      exact hpass (fun hne => absurd he0 hne) s rfl rfl
    · rw [if_neg he0]
      by_cases hex : e ∈ excl
      · have hmem : memsave h excl { s with a0 := e } = some (h, some { s with a0 := e }) := by
          unfold memsave
          rw [if_pos hex]
        rw [hmem]
        exact hpass (fun _ => hex) { s with a0 := e } rfl rfl
      · have hfree : ∀ r ∈ recs, ∀ d, HasBlock h d → d.owner = 0 → d.adr + mcbData = r.adr →
            d.len ≤ l.len := by
          intro r hr d hd hd0 hadr
          rcases hw.kinds r hr with ⟨_, g, hg, hgadr, _⟩ | hrl
          · have hdg := hasBlock_same h hw.saved.ok d g hd hg.1
              (Nat.add_right_cancel (hadr.trans hgadr.symm))
            exact absurd (hdg ▸ hd0) hg.2
          · rw [hasBlock_same h hw.saved.ok d l hd hw.block
              (Nat.add_right_cancel (hadr.trans hrl))]
        rcases memsave_spec h0 h table hur excl { s with a0 := e } recs hw.saved l hw.block
          hw.here hex hfree with ⟨h', heq, hup⟩ | ⟨h', r, heq, hadr, hs', hl'⟩
        · rw [heq]
          exact Or.inl ⟨h', rfl, hup⟩
        · rw [heq]
          have hrl : r.adr = l.adr + mcbData := hadr.trans hw.here
          have hsub : recs ⊆ r :: recs := List.subset_cons_self r recs
          rcases ih h' ⟨r.copy + svmbData, r.copy, s.a5⟩ (r :: recs) ⟨hs', hl', hw.here,
            List.forall_mem_cons.mpr
            ⟨Or.inr hrl, fun q hq => (hw.kinds q hq).imp_left fun ⟨hpe, d, hd, hda, hdo⟩ =>
              ⟨hpe, d, hw.saved.mono h0 h h' _ _ recs _ hs' hsub d hd, hda, hdo⟩⟩⟩ with
            hfail | ⟨h'', t, recs', heq', hw', hsub', _, _⟩
          · exact Or.inl hfail
          · exact Or.inr ⟨h'', t, recs', heq', hw', fun q hq => hsub' (hsub hq),
              fun _ => ⟨r, hsub' List.mem_cons_self, hrl⟩,
              fun hall => absurd (hall e List.mem_cons_self he0) hex⟩

theorem pmsOwnloop_spec (proc : Nat) (hproc : proc ≠ 0) :
    ∀ (recs : List Rec) (fuel : Nat) (h : Heap) (a0 : Nat), recs.length < fuel → HeapOk h →
      Chains.Linked h.mem 0 a0 (recs.map Rec.copy) →
      (∀ r ∈ recs, Alloc h r.block ∧ 0 < r.block.len) →
      ∃ m, pmsOwnloop proc fuel h.mem a0 = some m ∧ HeapOk { h with mem := m } ∧
        (∀ c, Alloc { h with mem := m } c ↔
          (Alloc h c ∧ ∀ r ∈ recs, c ≠ r.block) ∨ ∃ r ∈ recs, c = { r.block with owner := proc }) ∧
        (∀ d, HasBlock h d → (∀ r ∈ recs, d ≠ r.block) → HasBlock { h with mem := m } d) ∧
        ∀ x, (∀ r ∈ recs, x ≠ r.block.adr + mcbOwner) → m x = h.mem x := by
  intro recs
  induction recs with
  | nil =>
    intro fuel h a0 hf ok hchain _
    obtain ⟨k, rfl⟩ : ∃ k, fuel = k + 1 := ⟨fuel - 1, by omega⟩
    have ha0 : a0 = 0 := hchain.1
    unfold pmsOwnloop
    rw [if_pos ha0]
    refine ⟨h.mem, rfl, ok, fun c => ⟨fun hc => Or.inl ⟨hc, ?_⟩, ?_⟩, fun d hd _ => hd,
      fun _ _ => rfl⟩
    · exact fun r hr => absurd hr List.not_mem_nil
    · rintro (hc | ⟨r, hr, _⟩)
      · exact hc.1
      · exact absurd hr List.not_mem_nil
  | cons r recs ih =>
    intro fuel h a0 hf ok hchain hrecs
    obtain ⟨k, rfl⟩ : ∃ k, fuel = k + 1 := ⟨fuel - 1, by omega⟩
    rcases (Chains.linked_cons _).mp hchain with ⟨ha0, hne, hrest⟩
    have hnd := Chains.linked_nodup hchain
    rw [List.map_cons, List.nodup_cons] at hnd
    have hr := hrecs r List.mem_cons_self
    have howns := owns_put h ok r.block hr.1.1 proc hproc
    have hother : ∀ q ∈ recs, q.block.adr ≠ r.block.adr := by
      intro q hq heq
      refine hnd.1 (List.mem_map.mpr ⟨q, hq, ?_⟩)
      unfold Rec.copy
      rw [heq]
    have halloc : ∀ q ∈ recs,
        Alloc { h with mem := h.mem.put (r.block.adr + mcbOwner) proc } q.block := by
      intro q hq
      have hqr := hother q hq
      exact (howns.alloc _).mpr (Or.inl ⟨(hrecs q (List.mem_cons_of_mem _ hq)).1,
        fun heq => hqr (congrArg Block.adr heq)⟩)
    unfold pmsOwnloop
    rw [ha0, if_neg hne]
    have hmcb : mcbOf r.copy = r.block.adr := mcbOf_data h ok r.block hr.1.1
    simp only [hmcb]
    have hlink : h.mem.put (r.block.adr + mcbOwner) proc r.copy = h.mem r.copy := by
      refine put_other _ _ _ _ ?_
      unfold Rec.copy mcbData mcbOwner
      omega
    rcases ih k { h with mem := h.mem.put (r.block.adr + mcbOwner) proc }
      (h.mem.put (r.block.adr + mcbOwner) proc r.copy)
      (by rw [List.length_cons] at hf; omega) howns.ok (by
        rw [hlink]
        refine Chains.linked_congr hrest (fun x hx => ?_)
        rcases List.mem_map.mp hx with ⟨q, hq, rfl⟩
        have hqb := hrecs q (List.mem_cons_of_mem _ hq)
        refine howns.clear _ (inside_noHeader h ok q.block hqb.1.1 _ (le_refl _) ?_)
        unfold Rec.copy Block.fin
        omega)
      (fun q hq => ⟨halloc q hq, (hrecs q (List.mem_cons_of_mem _ hq)).2⟩) with
      ⟨m, heq, hok, hal, hkeep, hmem⟩
    refine ⟨m, heq, hok, fun c => ?_, fun d hd hdr => ?_, fun x hx => ?_⟩
    · refine (hal c).trans ((or_congr_left (and_congr_left' (howns.alloc c))).trans ?_)
      simp only [List.mem_cons, forall_eq_or_imp, exists_eq_or_imp]
      constructor
      · rintro (⟨⟨hc, hcr⟩ | hc, hall⟩ | hq)
        · exact Or.inl ⟨hc, hcr, hall⟩
        · exact Or.inr (Or.inl hc)
        · exact Or.inr (Or.inr hq)
      · rintro (⟨hc, hcr, hall⟩ | hc | hq)
        · exact Or.inl ⟨Or.inl ⟨hc, hcr⟩, hall⟩
        · refine Or.inl ⟨Or.inr hc, fun q hq hcq => hother q hq ?_⟩
          rw [← hcq, hc]
        · exact Or.inr hq
    · refine hkeep d (howns.keeps d hd (hdr r List.mem_cons_self)) (fun q hq => ?_)
      exact hdr q (List.mem_cons_of_mem _ hq)
    · rw [hmem x (fun q hq => hx q (List.mem_cons_of_mem _ hq))]
      exact put_other _ _ _ _ (hx r List.mem_cons_self)

/-- A copy in the hands of the process. -/
def Rec.give (proc : Nat) (r : Rec) : Rec := { r with block := { r.block with owner := proc } }

/-- The heap as `Pmemsave` leaves it: the blocks there were, with their data, and
    the copies, which belong to the process. -/
structure Parked (h0 h1 : Heap) (proc a3 : Nat) (recs : List Rec) : Prop where
  ok : HeapOk h1
  same : Same h0 h1
  chain : Chains.Linked h1.mem 0 a3 (recs.map Rec.copy)
  fields : ∀ r ∈ recs, h1.mem (r.copy + svmbAdr) = r.adr ∧ h1.mem (r.copy + svmbLen) = r.len
  size : ∀ r ∈ recs, svmbData + r.len ≤ r.block.len ∧ r.block.owner = proc
  alloc : ∀ c, Alloc h1 c ↔ Alloc h0 c ∨ ∃ r ∈ recs, c = r.block
  fresh : ∀ r ∈ recs, ∀ b, Alloc h0 b → b.adr ≠ r.block.adr
  data : ∀ x, Data h0 x → h1.mem x = h0.mem x
  target : ∀ r ∈ recs, ∃ d, HasBlock h1 d ∧ d.adr + mcbData = r.adr ∧ d.len = r.len
  content : ∀ r ∈ recs, ∀ b, Alloc h1 b → b.adr + mcbData = r.adr → ∀ k, k < r.len → k % 4 = 0 →
    h1.mem (r.copy + svmbData + k) = h1.mem (r.adr + k)

theorem Saved.parked (h0 h : Heap) (a3 : Nat) (recs : List Rec) (hs : Saved h0 h a3 recs)
    (proc : Nat) (hproc : proc ≠ 0) :
    ∃ m, pmsOwnloop proc addresses h.mem a3 = some m ∧
      Parked h0 { h with mem := m } proc a3 (recs.map (Rec.give proc)) := by
  have hblocks : ∀ r ∈ recs, Alloc h r.block ∧ 0 < r.block.len := by
    intro r hr
    have := (hs.size r hr).1
    unfold svmbData at this
    exact ⟨(hs.alloc _).mpr (Or.inr ⟨r, hr, rfl⟩), by omega⟩
  rcases pmsOwnloop_spec proc hproc recs addresses h a3 hs.length hs.ok hs.chain hblocks with
    ⟨m, heq, hok, hal, hkeep, hmem⟩
  -- Owners are stored into headers, so the data stay.
  have hdata : ∀ x, NoHeader h x → m x = h.mem x := by
    intro x hx
    refine hmem x (fun r hr heq => ?_)
    have := hx r.block (hblocks r hr).1.1
    unfold mcbOwner mcbData at *
    omega
  have hcopy : ∀ r ∈ recs, ∀ k, k < r.block.len → m (r.copy + k) = h.mem (r.copy + k) := by
    intro r hr k hk
    refine hdata _ (inside_noHeader h hs.ok r.block (hblocks r hr).1.1 _ ?_ ?_)
    · unfold Rec.copy
      omega
    · unfold Rec.copy Block.fin
      omega
  have hold : ∀ b, Alloc h0 b → ∀ r ∈ recs, b.adr ≠ r.block.adr := by
    intro b hb r hr heq
    have hbr := hasBlock_same h hs.ok b r.block ((hs.alloc b).mpr (Or.inl hb)).1
      (hblocks r hr).1.1 heq
    exact hs.fresh r hr (hbr ▸ hb)
  refine ⟨m, heq, ⟨hok, hs.same.store _ _ m, ?_, ?_, ?_, ?_, ?_, ?_, ?_, ?_⟩⟩
  · rw [List.map_map]
    refine Chains.linked_congr hs.chain (fun x hx => ?_)
    rcases List.mem_map.mp hx with ⟨r, hr, rfl⟩
    exact hcopy r hr 0 (hblocks r hr).2
  · refine List.forall_mem_map.mpr (fun r hr => ?_)
    have hsize := (hs.size r hr).1
    unfold svmbData at hsize
    have hf := hs.fields r hr
    rw [← hcopy r hr svmbAdr (by unfold svmbAdr; omega),
      ← hcopy r hr svmbLen (by unfold svmbLen; omega)] at hf
    exact hf
  · exact List.forall_mem_map.mpr (fun r hr => ⟨(hs.size r hr).1, rfl⟩)
  · intro c
    rw [hal c]
    constructor
    · rintro (⟨hc, hcr⟩ | ⟨r, hr, hcr⟩)
      · rcases (hs.alloc c).mp hc with hc0 | ⟨r, hr, hc0⟩
        · exact Or.inl hc0
        · exact absurd hc0 (hcr r hr)
      · exact Or.inr ⟨r.give proc, List.mem_map_of_mem hr, hcr⟩
    · rintro (hc | ⟨q, hq, hcq⟩)
      · refine Or.inl ⟨(hs.alloc c).mpr (Or.inl hc), fun r hr hcr => ?_⟩
        exact hold c hc r hr (congrArg Block.adr hcr)
      · rcases List.mem_map.mp hq with ⟨r, hr, rfl⟩
        exact Or.inr ⟨r, hr, hcq⟩
  · exact List.forall_mem_map.mpr (fun r hr b hb => hold b hb r hr)
  · intro x hx
    have hxh : Data h x := by
      rcases hx with ⟨b, hb, hlo, hhi⟩
      exact ⟨b, (hs.alloc b).mpr (Or.inl hb), hlo, hhi⟩
    rw [← hs.data x hx]
    exact hdata x (data_noHeader h hs.ok x hxh)
  · refine List.forall_mem_map.mpr (fun r hr => ?_)
    rcases hs.target r hr with ⟨d, hd, hadr, hlen⟩
    by_cases hcopyd : ∃ q ∈ recs, d = q.block
    · rcases hcopyd with ⟨q, hq, rfl⟩
      exact ⟨_, ((hal _).mpr (Or.inr ⟨q, hq, rfl⟩)).1, hadr, hlen⟩
    · exact ⟨d, hkeep d hd (fun q hq hdq => hcopyd ⟨q, hq, hdq⟩), hadr, hlen⟩
  · refine List.forall_mem_map.mpr (fun r hr b hb hadr k hk h4 => ?_)
    have hsize := (hs.size r hr).1
    -- Whoever owns the block now, it was allocated while the copies were made.
    have hbefore : ∃ d, Alloc h d ∧ d.adr = b.adr := by
      rcases (hal b).mp hb with ⟨hb, _⟩ | ⟨q, hq, hbq⟩
      · exact ⟨b, hb, rfl⟩
      · exact ⟨q.block, (hblocks q hq).1, by rw [hbq]⟩
    rcases hbefore with ⟨d, hd, hdadr⟩
    have hda : d.adr + mcbData = r.adr := by rw [hdadr]; exact hadr
    rcases hs.target r hr with ⟨g, hg, hgadr, hglen⟩
    have hdg := hasBlock_same h hs.ok d g hd.1 hg (Nat.add_right_cancel (hda.trans hgadr.symm))
    have hk' : k < r.len := hk
    have hc := hcopy r hr (svmbData + k) (by omega)
    rw [← Nat.add_assoc] at hc
    have ht : m (r.adr + k) = h.mem (r.adr + k) := by
      refine hdata _ (inside_noHeader h hs.ok d hd.1 _ (by omega) ?_)
      rw [← hda]
      unfold Block.fin
      rw [hdg, hglen]
      omega
    exact hc.trans ((hs.content r hr d hd hda k hk' h4).trans ht.symm)

/-- The blocks of which a save makes copies: all blocks of the process, unless
    it is itself named in the exclusion list, and the last block of the last
    list, if one of its shared blocks is not left out. -/
def Copied (h : Heap) (proc : Nat) (excl : List Nat) (b : Block) : Prop :=
  (b.owner = proc ∧ proc ∉ excl) ∨
    (LastBlock h b ∧ ∃ e ∈ (h.pds proc).memlist.getD [], e ≠ 0 ∧ e ∉ excl)

/-- `Pmemsave` makes copies of some blocks, or gives all copies up. -/
theorem pmemsave_spec (h0 : Heap) (ok : HeapOk h0) (table : Table h0) (hur : 0x1000 ≤ h0.urPd)
    (proc : Nat) (hproc : proc ≠ 0) (excl : List Nat) (hn : Names h0 excl) (a5 : Nat) :
    (∃ h', pmemsave h0 proc excl a5 = some (h', none) ∧ GivenUp h0 h') ∨
      ∃ h1 a3 recs, pmemsave h0 proc excl a5 = some (h1, some a3) ∧ Parked h0 h1 proc a3 recs ∧
        ∀ b, Alloc h0 b → ((∃ r ∈ recs, r.adr = b.adr + mcbData) ↔ Copied h0 proc excl b) := by
  have hstart : Walking h0 h0 proc excl ⟨proc, 0, a5⟩ [] :=
    ⟨Saved.nil h0 ok, fun _ => ⟨rfl, rfl⟩, fun hno => hno, fun r hr => absurd hr List.not_mem_nil⟩
  unfold pmemsave
  rcases pmsMemloop2_spec h0 ok table hur proc hproc excl hn nblocks 0 h0 ⟨proc, 0, a5⟩ []
    (by decide) (by decide) hstart with
    ⟨h', heq, hup⟩ | ⟨h, s, recs, heq, hw, _, hall, hend⟩
  · rw [heq]
    exact Or.inl ⟨h', rfl, hup⟩
  · rw [heq]
    rcases hend with ⟨l, hl, hla⟩ | ⟨hnone, _⟩
    · have hlin := hl
      rcases hlin with ⟨i, hi, himax, hlin, hlk⟩
      have hown : ∀ r ∈ recs, (proc ∉ excl ∧ ∃ d, Alloc h d ∧ d.adr + mcbData = r.adr ∧
          d.owner = proc) ∨ r.adr = l.adr + mcbData := by
        refine fun r hr => Or.inl ⟨fun hin => ?_, hw.owned r hr⟩
        rw [(hw.skip hin).1] at hr
        exact List.not_mem_nil hr
      simp only [hw.saved.same.memlist proc]
      rcases pmsShmloop_spec h0 table hur proc excl l ((h0.pds proc).memlist.getD []) h s recs
        ⟨hw.saved, hlin.hasBlock h i hi l, hla, hown⟩ with
        ⟨h', heq', hup⟩ | ⟨h', s', recs', heq', hw', hsub, hone, hnone⟩
      · rw [heq']
        exact Or.inl ⟨h', rfl, hup⟩
      · rw [heq']
        rcases hw'.saved.parked h0 h' s'.a3 recs' proc hproc with ⟨m, hm, hpark⟩
        simp only [hm, Option.map_some]
        refine Or.inr ⟨_, _, _, rfl, hpark, fun b hb => ?_⟩
        have hbh := (hw.saved.alloc b).mpr (Or.inl hb)
        -- The last block of the heap before is the last block of the walk.
        have hlast : LastBlock h0 b ↔ b.adr = l.adr := by
          have hiff : ∀ j, IsList h j ↔ IsList h0 j := by
            intro j
            unfold IsList
            rw [hw.saved.same.root]
          constructor
          · rintro ⟨j, hj, hjmax, hbj, hbk⟩
            have hij : j = i := le_antisymm (himax j ((hiff j).mpr hj)) (hjmax i ((hiff i).mp hi))
            rw [hij] at hbj
            exact congrArg Block.adr ((hbj.same h0 h hw.saved.same hw.saved.ok i
              ((hiff i).mp hi) b hbh.1).krom_unique h i b l hlin hbk hlk)
          · intro hadr
            have hbl := hasBlock_same h hw.saved.ok b l hbh.1 (hlin.hasBlock h i hi l) hadr
            rw [← hbl] at hlin hlk
            exact ⟨i, (hiff i).mp hi, fun j hj => himax j ((hiff j).mpr hj),
              hlin.same h h0 (hw.saved.same.symm h0 h) ok i hi b hb.1, hlk⟩
        unfold Copied
        rw [hlast]
        have hgive : (∃ r ∈ recs'.map (Rec.give proc), r.adr = b.adr + mcbData) ↔
            ∃ r ∈ recs', r.adr = b.adr + mcbData := by
          simp only [List.mem_map, exists_exists_and_eq_and, Rec.give]
        rw [hgive]
        constructor
        · rintro ⟨r, hr, hadr⟩
          by_cases hsh : ∃ e ∈ (h0.pds proc).memlist.getD [], e ≠ 0 ∧ e ∉ excl
          · rcases hw'.kinds r hr with ⟨hpe, d, hd, hda, hdo⟩ | hrl
            · have hbd := hasBlock_same h' hw'.saved.ok b d
                ((hw'.saved.alloc b).mpr (Or.inl hb)).1 hd.1
                (Nat.add_right_cancel (hadr.symm.trans hda.symm))
              exact Or.inl ⟨hbd ▸ hdo, hpe⟩
            · exact Or.inr ⟨Nat.add_right_cancel (hadr.symm.trans hrl), hsh⟩
          · rw [hnone (fun e he he0 => by_contra fun hex => hsh ⟨e, he, he0, hex⟩)] at hr
            rcases hw.owned r hr with ⟨d, hd, hda, hdo⟩
            have hbd := hasBlock_same h hw.saved.ok b d hbh.1 hd.1
              (Nat.add_right_cancel (hadr.symm.trans hda.symm))
            refine Or.inl ⟨hbd ▸ hdo, fun hin => ?_⟩
            rw [(hw.skip hin).1] at hr
            exact List.not_mem_nil hr
        · rintro (⟨hbo, hpe⟩ | ⟨hbl, hsh⟩)
          · rcases hb.1 with ⟨j, bs, hj, hbs, hin⟩
            rcases hall hpe j (Nat.zero_le _) hj b hb ⟨bs, hbs, hin⟩ hbo with ⟨r, hr, hadr⟩
            exact ⟨r, hsub hr, hadr⟩
          · rw [hbl]
            exact hone hsh
    · exact absurd (hnone 0 (isList_of_root h0 ok 0 (by decide) (by decide) table.first))
        (Nat.not_lt_zero 0)

end Malloc

end MagiC
