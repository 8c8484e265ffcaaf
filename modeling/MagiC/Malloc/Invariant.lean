import MagiC.Malloc.Search

/-!
# The Heap Invariant

All RAM lists at once, and what handing out a block does to them.

`HeapOk` asks for a well formed list at every list head, for lists that lie
apart from one another, and for the shape of `mem_root` the searches rely on:
the second head is the marker `-1` or a list, no other head is `-1`, and the
last one is empty, which ends every walk over the heads.

An operation works on one list and stores inside that list's region only, so
`heapOk_update` reduces it to its list. `Keeps` says that a step leaves every
allocated block alone, apart from the one it was asked to change. `Grant` is the
outcome of a successful request.

## Main definitions

* `Grant`: A new block apart from all others.

## Theorems

* `mxalloc_spec`: Every mode of `Mxalloc` does.
-/

namespace MagiC

namespace Malloc

/-- A list head that starts a RAM list. -/
def IsList (h : Heap) (i : Nat) : Prop :=
  i < nblocks ∧ h.root i ≠ 0 ∧ h.root i ≠ 2 ^ 32 - 1

/-- The heap invariant. -/
structure HeapOk (h : Heap) : Prop where
  lists : ∀ i, IsList h i → ∃ bs, RamList h.mem (h.root i) (h.memEnd i) bs
  apart : ∀ i j, IsList h i → IsList h j → i ≠ j →
    h.memEnd i ≤ h.root j ∨ h.memEnd j ≤ h.root i
  bound : ∀ i, IsList h i → h.memEnd i < 2 ^ 32
  marker : ∀ i, i ≠ 1 → h.root i ≠ 2 ^ 32 - 1
  last : h.root (nblocks - 1) = 0
  empty : h.root 0 = 0 → h.memEnd 0 = 0
  actPd : h.actPd ≠ 0
  urPd : h.urPd ≠ 0

/-- A block of some RAM list. -/
def HasBlock (h : Heap) (b : Block) : Prop :=
  ∃ i bs, IsList h i ∧ RamList h.mem (h.root i) (h.memEnd i) bs ∧ b ∈ bs

/-- Every allocated block stays as it is, but for the one at `e`. -/
def Keeps (h h' : Heap) (e : Nat) : Prop :=
  ∀ b, HasBlock h b → b.owner ≠ 0 → b.adr ≠ e → HasBlock h' b

/-- A request granted: a block at `a` that holds `amount` bytes and lies apart
    from every block held before, all of which stay. -/
structure Grant (h h' : Heap) (a amount : Nat) : Prop where
  ok : HeapOk h'
  keeps : ∀ b, HasBlock h b → b.owner ≠ 0 → HasBlock h' b
  fresh : ∃ b, HasBlock h' b ∧ b.adr = a ∧ b.owner ≠ 0 ∧ amount ≤ b.len ∧
    ∀ c, HasBlock h c → c.owner ≠ 0 → c.fin ≤ b.adr ∨ b.fin ≤ c.adr

theorem ramList_unique (m : Mem) (a fin fin' : Nat) (bs cs : List Block)
    (hb : RamList m a fin bs) (hc : RamList m a fin' cs) : bs = cs :=
  same_blocks m a fin fin' bs cs (linked_fields m 0 bs hb.linked) (linked_fields m 0 cs hc.linked)
    hb.tiled.span hc.tiled.span hb.tiled.marked hc.tiled.marked

section

variable (h : Heap) (ok : HeapOk h) (i : Nat) (hi : IsList h i) (m : Mem)

include ok hi m

/-- The heap with another memory in which one list has been exchanged. -/
theorem heapOk_update (bs : List Block) (hbs : RamList m (h.root i) (h.memEnd i) bs)
    (hout : ∀ x, x < h.root i ∨ h.memEnd i ≤ x → m x = h.mem x) :
    HeapOk { h with mem := m } := by
  refine ⟨fun j hj => ?_, ok.apart, ok.bound, ok.marker, ok.last, ok.empty, ok.actPd, ok.urPd⟩
  by_cases hij : j = i
  · rw [hij]
    exact ⟨bs, hbs⟩
  · rcases ok.lists j hj with ⟨cs, hcs⟩
    refine ⟨cs, linked_congr h.mem m 0 cs (fun b hb k hk => hout _ ?_) hcs.linked, hcs.tiled,
      hcs.coalesced⟩
    have hin := span_mem _ _ _ hcs.tiled.span b hb
    unfold Block.fin at hin
    rcases ok.apart j i hj hi hij with hlt | hlt
    · exact Or.inl (by omega)
    · exact Or.inr (by omega)

theorem hasBlock_update (bs cs : List Block) (hbs : RamList h.mem (h.root i) (h.memEnd i) bs)
    (hcs : RamList m (h.root i) (h.memEnd i) cs)
    (hout : ∀ x, x < h.root i ∨ h.memEnd i ≤ x → m x = h.mem x)
    (b : Block) (hb : HasBlock h b) (hkeep : b ∈ bs → b ∈ cs) :
    HasBlock { h with mem := m } b := by
  rcases hb with ⟨j, ds, hj, hds, hin⟩
  by_cases hij : j = i
  · subst hij
    rw [ramList_unique _ _ _ _ _ _ hds hbs] at hin
    exact ⟨j, cs, hj, hcs, hkeep hin⟩
  · refine ⟨j, ds, hj, ⟨linked_congr h.mem m 0 ds (fun c hc k hk => hout _ ?_) hds.linked,
      hds.tiled, hds.coalesced⟩, hin⟩
    have hin := span_mem _ _ _ hds.tiled.span c hc
    unfold Block.fin at hin
    rcases ok.apart j i hj hi hij with hlt | hlt
    · exact Or.inl (by omega)
    · exact Or.inr (by omega)

theorem hasBlock_exchange (bs cs : List Block) (hbs : RamList h.mem (h.root i) (h.memEnd i) bs)
    (hcs : RamList m (h.root i) (h.memEnd i) cs)
    (hout : ∀ x, x < h.root i ∨ h.memEnd i ≤ x → m x = h.mem x) (c : Block) :
    HasBlock { h with mem := m } c ↔ (HasBlock h c ∧ c ∉ bs) ∨ c ∈ cs := by
  have okm := heapOk_update h ok i hi m cs hcs hout
  constructor
  · intro hc
    by_cases hin : c ∈ cs
    · exact Or.inr hin
    · -- The old memory again: what is not in the new list was there before.
      have hold := hasBlock_update { h with mem := m } okm i hi h.mem cs bs hcs hbs
        (fun x hx => (hout x hx).symm) c hc (fun hc' => absurd hc' hin)
      refine Or.inl ⟨hold, fun hb => ?_⟩
      rcases hc with ⟨j, ds, hj, hds, hcd⟩
      by_cases hij : j = i
      · subst hij
        rw [ramList_unique _ _ _ _ _ _ hds hcs] at hcd
        exact hin hcd
      · have hci := span_mem _ _ _ hbs.tiled.span c hb
        have hcj := span_mem _ _ _ hds.tiled.span c hcd
        have hlen : c.adr < c.fin := by
          unfold Block.fin mcbData
          omega
        simp only at hcj
        rcases ok.apart j i hj hi hij with hlt | hlt <;> omega
  · rintro (⟨hc, hno⟩ | hc)
    · exact hasBlock_update h ok i hi m bs cs hbs hcs hout c hc (fun hb => absurd hb hno)
    · exact ⟨i, cs, hi, hcs, hc⟩

end

def Alloc (h : Heap) (b : Block) : Prop := HasBlock h b ∧ b.owner ≠ 0

/-- An address in no header. -/
def NoHeader (h : Heap) (x : Nat) : Prop :=
  ∀ e, HasBlock h e → x < e.adr ∨ e.adr + mcbData ≤ x

/-- What an operation on the lists leaves alone: where the lists are, whom the
    kernel's own blocks belong to, and the lists of shared blocks. -/
structure Same (h h' : Heap) : Prop where
  root : h'.root = h.root
  memEnd : h'.memEnd = h.memEnd
  actPd : h'.actPd = h.actPd
  urPd : h'.urPd = h.urPd
  memlist : ∀ p, (h'.pds p).memlist = (h.pds p).memlist

theorem Same.refl (h : Heap) : Same h h := ⟨rfl, rfl, rfl, rfl, fun _ => rfl⟩

theorem Same.trans (h g k : Heap) (hg : Same h g) (gk : Same g k) : Same h k :=
  ⟨gk.root.trans hg.root, gk.memEnd.trans hg.memEnd, gk.actPd.trans hg.actPd,
    gk.urPd.trans hg.urPd, fun p => (gk.memlist p).trans (hg.memlist p)⟩

theorem Same.symm (h g : Heap) (hg : Same h g) : Same g h :=
  ⟨hg.root.symm, hg.memEnd.symm, hg.actPd.symm, hg.urPd.symm, fun p => (hg.memlist p).symm⟩

theorem Same.store (h g : Heap) (m : Mem) (hg : Same h g) : Same h { g with mem := m } :=
  ⟨hg.root, hg.memEnd, hg.actPd, hg.urPd, hg.memlist⟩

theorem alloc_exchange (h : Heap) (ok : HeapOk h) (i : Nat) (hi : IsList h i) (m : Mem)
    (bs cs : List Block) (hbs : RamList h.mem (h.root i) (h.memEnd i) bs)
    (hcs : RamList m (h.root i) (h.memEnd i) cs)
    (hout : ∀ x, x < h.root i ∨ h.memEnd i ≤ x → m x = h.mem x) (old new : Block → Prop)
    (hold : ∀ c, c.owner ≠ 0 → old c → c ∈ bs)
    (hlist : ∀ c, c.owner ≠ 0 → (c ∈ cs ↔ (c ∈ bs ∧ ¬ old c) ∨ new c)) (c : Block) :
    Alloc { h with mem := m } c ↔
      (Alloc h c ∧ ¬ old c) ∨ (new c ∧ c.owner ≠ 0) := by
  unfold Alloc
  rw [hasBlock_exchange h ok i hi m bs cs hbs hcs hout c]
  constructor
  · rintro ⟨(⟨hc, hno⟩ | hc), hco⟩
    · exact Or.inl ⟨⟨hc, hco⟩, fun ho => hno (hold c hco ho)⟩
    · rcases (hlist c hco).mp hc with ⟨hb, ho⟩ | hn
      · exact Or.inl ⟨⟨⟨i, bs, hi, hbs, hb⟩, hco⟩, ho⟩
      · exact Or.inr ⟨hn, hco⟩
  · rintro (⟨⟨hc, hco⟩, ho⟩ | ⟨hn, hco⟩)
    · by_cases hb : c ∈ bs
      · exact ⟨Or.inr ((hlist c hco).mpr (Or.inl ⟨hb, ho⟩)), hco⟩
      · exact ⟨Or.inl ⟨hc, hb⟩, hco⟩
    · exact ⟨Or.inr ((hlist c hco).mpr (Or.inr hn)), hco⟩

theorem span_apart (a fin : Nat) (bs : List Block) (h : Span a bs fin) (b c : Block)
    (hb : b ∈ bs) (hc : c ∈ bs) : b = c ∨ b.fin ≤ c.adr ∨ c.fin ≤ b.adr := by
  induction bs generalizing a with
  | nil => exact absurd hb List.not_mem_nil
  | cons d ds ih =>
    have hrest := h.2
    rcases List.mem_cons.mp hb with rfl | hb'
    · rcases List.mem_cons.mp hc with rfl | hc'
      · exact Or.inl rfl
      · exact Or.inr (Or.inl (span_mem _ _ _ hrest c hc').1)
    · rcases List.mem_cons.mp hc with rfl | hc'
      · exact Or.inr (Or.inr (span_mem _ _ _ hrest b hb').1)
      · exact ih d.fin hrest hb' hc'

/-- Two blocks of a heap are the same or disjoint. -/
theorem hasBlock_apart (h : Heap) (ok : HeapOk h) (b c : Block) (hb : HasBlock h b)
    (hc : HasBlock h c) : b = c ∨ b.fin ≤ c.adr ∨ c.fin ≤ b.adr := by
  rcases hb with ⟨i, bs, hi, hbs, hbin⟩
  rcases hc with ⟨j, cs, hj, hcs, hcin⟩
  by_cases hij : i = j
  · subst hij
    rw [ramList_unique _ _ _ _ _ _ hcs hbs] at hcin
    exact span_apart _ _ _ hbs.tiled.span b c hbin hcin
  · have hb' := span_mem _ _ _ hbs.tiled.span b hbin
    have hc' := span_mem _ _ _ hcs.tiled.span c hcin
    rcases ok.apart i j hi hj hij with hlt | hlt
    · exact Or.inr (Or.inl (by omega))
    · exact Or.inr (Or.inr (by omega))

theorem hasBlock_len (h : Heap) (b : Block) (hb : HasBlock h b) :
    h.mem (b.adr + mcbLen) = b.len ∧ h.mem (b.adr + mcbOwner) = b.owner := by
  rcases hb with ⟨i, bs, _, hbs, hin⟩
  exact (linked_fields h.mem 0 bs hbs.linked b hin).2

theorem hasBlock_same (h : Heap) (ok : HeapOk h) (b c : Block) (hb : HasBlock h b)
    (hc : HasBlock h c) (hadr : b.adr = c.adr) : b = c := by
  rcases hasBlock_apart h ok b c hb hc with heq | hlt | hlt
  · exact heq
  all_goals
    unfold Block.fin mcbData at hlt
    omega

theorem isList_of_root (h : Heap) (ok : HeapOk h) (i : Nat) (hi : i ≠ 1) (hn : i < nblocks)
    (hr : h.root i ≠ 0) : IsList h i := ⟨hn, hr, ok.marker i hi⟩

/-- A block handed out: it is the only new allocated block, it lies in what was
    a free block, and only free blocks and headers are stored into. -/
structure Takes (h h' : Heap) (b : Block) : Prop where
  ok : HeapOk h'
  same : Same h h'
  owned : b.owner ≠ 0
  alloc : ∀ c, Alloc h' c ↔ Alloc h c ∨ c = b
  room : ∃ e, HasBlock h e ∧ e.owner = 0 ∧ e.adr ≤ b.adr ∧ b.fin ≤ e.fin ∧
    ∀ d, HasBlock h d → d ≠ e → HasBlock h' d
  clear : ∀ x, NoHeader h x →
    (∀ e, HasBlock h e → e.owner = 0 → x < e.adr ∨ e.fin ≤ x) → h'.mem x = h.mem x

theorem Takes.apart (h h' : Heap) (ok : HeapOk h) (b : Block) (ht : Takes h h' b) (c : Block)
    (hc : Alloc h c) : c.fin ≤ b.adr ∨ b.fin ≤ c.adr := by
  rcases ht.room with ⟨e, he, hfree, hlo, hhi, _⟩
  rcases hasBlock_apart h ok c e hc.1 he with rfl | hlt | hlt
  · exact absurd hfree hc.2
  · exact Or.inl (le_trans hlt hlo)
  · exact Or.inr (le_trans hhi hlt)

theorem Takes.grant (h h' : Heap) (ok : HeapOk h) (b : Block) (amount : Nat) (ht : Takes h h' b)
    (hlen : amount ≤ b.len) : Grant h h' b.adr amount :=
  ⟨ht.ok, fun c hc hco => ((ht.alloc c).mpr (Or.inl ⟨hc, hco⟩)).1, b,
    ((ht.alloc b).mpr (Or.inr rfl)).1, rfl, ht.owned, hlen,
    fun c hc hco => ht.apart h h' ok b c ⟨hc, hco⟩⟩

theorem takes_of_splice (h : Heap) (ok : HeapOk h) (i : Nat) (hi : IsList h i) (m : Mem)
    (pre post new : List Block) (b n : Block)
    (hold : RamList h.mem (h.root i) (h.memEnd i) (pre ++ [b] ++ post))
    (hnew : RamList m (h.root i) (h.memEnd i) (pre ++ new ++ post))
    (hstores : ∀ x, x < b.adr ∨ b.fin ≤ x → Clear (pre ++ [b] ++ post) x → m x = h.mem x)
    (hfree : b.owner = 0) (hlo : b.adr ≤ n.adr) (hhi : n.fin ≤ b.fin) (howner : n.owner ≠ 0)
    (hn : ∀ c, c.owner ≠ 0 → (c ∈ new ↔ c = n)) :
    Takes h { h with mem := m } n := by
  have hin : HasBlock h b := ⟨i, _, hi, hold, by simp⟩
  have hreg := span_mem _ _ _ hold.tiled.span b (by simp)
  have hout : ∀ x, x < h.root i ∨ h.memEnd i ≤ x → m x = h.mem x := fun x hx =>
    hstores x (by omega) (clear_outside _ _ x _ hold.tiled.span hx)
  have hlist : ∀ c, c.owner ≠ 0 →
      (c ∈ pre ++ new ++ post ↔ (c ∈ pre ++ [b] ++ post ∧ ¬ False) ∨ c = n) := by
    intro c hco
    have hcb : c ≠ b := fun hc => hco (hc ▸ hfree)
    simp only [List.mem_append, List.mem_singleton, hn c hco, hcb, or_false, not_false_eq_true,
      and_true]
    exact or_right_comm
  refine ⟨heapOk_update h ok i hi m _ hnew hout, ⟨rfl, rfl, rfl, rfl, fun _ => rfl⟩, howner,
    fun c => ?_, ⟨b, hin, hfree, hlo, hhi, fun d hd hne => ?_⟩, fun x hx hfr => ?_⟩
  · rw [alloc_exchange h ok i hi m _ _ hold hnew hout (fun _ => False) (fun c => c = n)
      (fun _ _ hc => absurd hc id) hlist c]
    simp only [not_false_eq_true, and_true]
    exact or_congr_right ⟨fun hc => hc.1, fun hc => ⟨hc, hc ▸ howner⟩⟩
  · refine hasBlock_update h ok i hi m _ _ hold hnew hout d hd (fun hmem => ?_)
    simp only [List.mem_append, List.mem_singleton] at hmem ⊢
    exact hmem.imp_left (fun hl => Or.inl (hl.resolve_right hne))
  · exact hstores x (hfr b hin hfree) (fun e he => hx e ⟨i, _, hi, hold, he⟩)

theorem heapOk_setPd (h : Heap) (pd : Nat) (p : Pd) (ok : HeapOk h) : HeapOk (h.setPd pd p) :=
  ⟨ok.lists, ok.apart, ok.bound, ok.marker, ok.last, ok.empty, ok.actPd, ok.urPd⟩

theorem takes_charge (h h' : Heap) (b : Block) (pd n : Nat) (ht : Takes h h' b) :
    Takes h (h'.charge pd n) b := by
  unfold Heap.charge
  split_ifs
  · exact ht
  · refine ⟨heapOk_setPd h' pd _ ht.ok, ⟨ht.same.root, ht.same.memEnd, ht.same.actPd,
      ht.same.urPd, fun p => ?_⟩, ht.owned, ht.alloc, ht.room, ht.clear⟩
    rw [← ht.same.memlist p]
    simp only [Heap.setPd]
    split_ifs with hp
    · rw [hp]
    · rfl

theorem hasBlock_adr_pos (h : Heap) (b : Block) (hb : HasBlock h b) : b.adr ≠ 0 := by
  rcases hb with ⟨i, bs, hi, hbs, hin⟩
  have := (span_mem _ _ _ hbs.tiled.span b hin).1
  have := hi.2.1
  omega

/-- `_malloc` hands out a block or changes nothing. -/
theorem malloc_spec (h : Heap) (ok : HeapOk h) (amount list pd : Nat) (limit : Bool)
    (hl : list ≠ 1) (hn : list < nblocks) (h4 : 4 ∣ amount) (hpd : pd ≠ 0) :
    ∃ h' r, malloc h amount limit list pd = some (h', r) ∧
      ((r = 0 ∧ h' = h) ∨ ∃ b, r = b.adr ∧ b.owner = pd ∧ amount ≤ b.len ∧ Takes h h' b) := by
  unfold malloc
  by_cases hr : h.root list = 0
  · rw [if_pos hr]
    exact ⟨h, 0, rfl, Or.inl ⟨rfl, rfl⟩⟩
  rw [if_neg hr]
  by_cases hlim : limit ∧ (h.pds pd).pMem < amount
  · rw [if_pos hlim]
    exact ⟨h, 0, rfl, Or.inl ⟨rfl, rfl⟩⟩
  rw [if_neg hlim]
  have hi := isList_of_root h ok list hl hn hr
  rcases ok.lists list hi with ⟨bs, hbs⟩
  rcases malLoop_spec h.mem amount bs (h.extent list) 0 (h.root list) (h.memEnd list) hbs.linked
    hbs.tiled.span hbs.tiled.marked (span_length_le _ _ _ hbs.tiled.span) with
    ⟨heq, _⟩ | ⟨pre, b, post, rfl, heq, hfit, _⟩
  · rw [heq]
    exact ⟨h, 0, rfl, Or.inl ⟨rfl, rfl⟩⟩
  · rw [heq]
    rcases malFound_ramList h.mem _ _ amount pd pre post b hbs hfit.1 hfit.2 h4 hpd with
      ⟨hnew, hstores⟩
    have ht : ∃ n, b.adr = n.adr ∧ n.owner = pd ∧ amount ≤ n.len ∧
        Takes h { h with mem := malFound h.mem amount pd b.adr } n := by
      by_cases hsmall : b.len - amount ≤ mcbData
      · refine ⟨{ b with owner := pd }, rfl, rfl, hfit.2, takes_of_splice h ok list hi _ pre post _
          b _ hbs hnew hstores hfit.1 (le_refl _) (le_refl _) hpd fun c _ => ?_⟩
        unfold carve
        rw [if_pos hsmall, List.mem_singleton]
      · refine ⟨⟨b.adr, ANDR, amount, pd⟩, rfl, rfl, le_refl _, takes_of_splice h ok list hi _ pre
          post _ b _ hbs hnew hstores hfit.1 (le_refl _) ?_ hpd fun c hco => ?_⟩
        · have := hfit.2
          unfold Block.fin
          simp only
          omega
        · unfold carve
          rw [if_neg hsmall, List.mem_cons, List.mem_singleton]
          exact ⟨fun hc => hc.resolve_right (fun hc' => hco (hc' ▸ rfl)), Or.inl⟩
    rcases ht with ⟨n, hadr, hown, hlen, ht⟩
    refine ⟨_, _, rfl, Or.inr ⟨n, hadr, hown, hlen, ?_⟩⟩
    split_ifs
    · exact takes_charge _ _ _ _ _ ht
    · exact ht

theorem mllFound_takes (h : Heap) (ok : HeapOk h) (amount list : Nat) (hi : IsList h list)
    (pre post : List Block) (b : Block)
    (hbs : RamList h.mem (h.root list) (h.memEnd list) (pre ++ [b] ++ post))
    (hfit : Fits amount b) (h4 : 4 ∣ amount) :
    ∃ n pre', (mllFound h.mem amount h.urPd b.adr).2 = n.adr ∧ n.owner = h.urPd ∧
      amount ≤ n.len ∧ Takes h { h with mem := (mllFound h.mem amount h.urPd b.adr).1 } n ∧
      RamList (mllFound h.mem amount h.urPd b.adr).1 (h.root list) (h.memEnd list)
        (pre' ++ [n] ++ post) := by
  rcases mllFound_ramList h.mem _ _ amount h.urPd pre post b hbs hfit.1 hfit.2 h4 ok.urPd with
    ⟨hnew, hstores⟩
  have hf := linked_fields h.mem 0 _ hbs.linked b (by simp)
  by_cases hsmall : b.len - amount ≤ mcbData
  · have hr2 : (mllFound h.mem amount h.urPd b.adr).2 = b.adr := by
      simp only [mllFound, hf.2.1, if_pos hsmall]
    have hcarve : carveLast amount h.urPd b = [{ b with owner := h.urPd }] := if_pos hsmall
    refine ⟨{ b with owner := h.urPd }, pre, hr2, rfl, hfit.2, takes_of_splice h ok list hi _
      pre post _ b _ hbs hnew hstores hfit.1 (le_refl _) (le_refl _) ok.urPd fun c _ => ?_, ?_⟩
    · rw [hcarve, List.mem_singleton]
    · rw [← hcarve]
      exact hnew
  · have hr2 : (mllFound h.mem amount h.urPd b.adr).2
        = b.adr + mcbData + (b.len - amount - mcbData) := by
      rw [mllFound_split h.mem amount h.urPd b hf.1 hf.2.1 hsmall]
      rfl
    have hcarve : carveLast amount h.urPd b = [⟨b.adr, ANDR, b.len - amount - mcbData, 0⟩,
        ⟨b.adr + mcbData + (b.len - amount - mcbData), b.magic, amount, h.urPd⟩] := if_neg hsmall
    have hle := hfit.2
    refine ⟨⟨b.adr + mcbData + (b.len - amount - mcbData), b.magic, amount, h.urPd⟩,
      pre ++ [⟨b.adr, ANDR, b.len - amount - mcbData, 0⟩], hr2, rfl, le_refl _,
      takes_of_splice h ok list hi _ pre post _ b _ hbs hnew hstores hfit.1 ?_ ?_ ok.urPd
        fun c hco => ?_, ?_⟩
    · simp only
      omega
    · unfold Block.fin mcbData at *
      simp only
      omega
    · rw [hcarve, List.mem_cons, List.mem_singleton]
      exact ⟨fun hc => hc.resolve_left (fun hc' => hco (hc' ▸ rfl)), Or.inr⟩
    · rw [hcarve] at hnew
      simpa only [List.append_assoc, List.cons_append, List.nil_append] using hnew

theorem mallocLast_spec (h : Heap) (ok : HeapOk h) (amount list : Nat)
    (hl : h.root list ≠ 2 ^ 32 - 1) (hn : list < nblocks) (h4 : 4 ∣ amount) :
    ∃ h' r, mallocLast h amount list = some (h', r) ∧
      ((r = 0 ∧ h' = h) ∨ (r ≠ 0 ∧ Grant h h' r amount)) := by
  unfold mallocLast
  by_cases hr : h.root list = 0
  · rw [if_pos hr]
    exact ⟨h, 0, rfl, Or.inl ⟨rfl, rfl⟩⟩
  rw [if_neg hr]
  have hi : IsList h list := ⟨hn, hr, hl⟩
  rcases ok.lists list hi with ⟨bs, hbs⟩
  rcases mllLoop_spec h.mem amount bs (h.extent list) 0 0 (h.root list) (h.memEnd list) hbs.linked
    hbs.tiled.span hbs.tiled.marked (span_length_le _ _ _ hbs.tiled.span) with
    ⟨heq, _⟩ | ⟨pre, b, post, rfl, heq, hfit, _⟩
  · rw [heq]
    exact ⟨h, 0, rfl, Or.inl ⟨rfl, rfl⟩⟩
  · rw [heq]
    have hne : b.adr ≠ 0 := hasBlock_adr_pos h b ⟨list, _, hi, hbs, by simp⟩
    rcases mllFound_takes h ok amount list hi pre post b hbs hfit h4 with
      ⟨n, pre', hadr, _, hlen, ht, _⟩
    simp only [if_neg hne]
    refine ⟨_, _, rfl, Or.inr ?_⟩
    rw [hadr]
    exact ⟨hasBlock_adr_pos _ n ((ht.alloc n).mpr (Or.inr rfl)).1, ht.grant h _ ok n amount hlen⟩

theorem split_at (bs : List Block) (b : Block) (hb : b ∈ bs) :
    ∃ pre post, bs = pre ++ [b] ++ post := by
  rcases List.append_of_mem hb with ⟨pre, post, h⟩
  exact ⟨pre, post, by rw [h, List.append_assoc, List.singleton_append]⟩

/-- Storing the owner of an allocated block. -/
structure Owns (h h' : Heap) (b : Block) (v : Nat) : Prop where
  ok : HeapOk h'
  same : Same h h'
  alloc : ∀ c, Alloc h' c ↔ (Alloc h c ∧ c ≠ b) ∨ c = { b with owner := v }
  keeps : ∀ d, HasBlock h d → d ≠ b → HasBlock h' d
  clear : ∀ x, NoHeader h x → h'.mem x = h.mem x

theorem owns_put (h : Heap) (ok : HeapOk h) (b : Block) (hb : HasBlock h b) (v : Nat)
    (hv : v ≠ 0) : Owns h { h with mem := h.mem.put (b.adr + mcbOwner) v } b v := by
  have hin := hb
  rcases hin with ⟨i, bs, hi, hbs, hin⟩
  rcases split_at bs b hin with ⟨pre, post, rfl⟩
  have hnew := put_owner_ramList h.mem _ _ v pre post b hbs hv
  have hclear : ∀ x, NoHeader h x → h.mem.put (b.adr + mcbOwner) v x = h.mem x := by
    intro x hx
    have := hx b hb
    unfold mcbData at this
    exact put_other _ _ _ _ (by unfold mcbOwner; omega)
  have hadr := span_mem _ _ _ hbs.tiled.span b hin
  have hout : ∀ x, x < h.root i ∨ h.memEnd i ≤ x →
      h.mem.put (b.adr + mcbOwner) v x = h.mem x := by
    intro x hx
    refine put_other _ _ _ _ ?_
    unfold Block.fin mcbData at hadr
    unfold mcbOwner
    omega
  have hno := span_once _ _ pre post b hbs.tiled.span
  have hlist : ∀ c, c.owner ≠ 0 → (c ∈ pre ++ [{ b with owner := v }] ++ post ↔
      (c ∈ pre ++ [b] ++ post ∧ ¬ c = b) ∨ c = { b with owner := v }) := by
    intro c _
    simp only [List.mem_append, List.mem_singleton]
    constructor
    · rintro ((hc | hc) | hc)
      · exact Or.inl ⟨Or.inl (Or.inl hc), fun hcb => hno (hcb ▸ List.mem_append_left _ hc)⟩
      · exact Or.inr hc
      · exact Or.inl ⟨Or.inr hc, fun hcb => hno (hcb ▸ List.mem_append_right _ hc)⟩
    · rintro (⟨(hc | hc) | hc, hne⟩ | hc)
      · exact Or.inl (Or.inl hc)
      · exact absurd hc hne
      · exact Or.inr hc
      · exact Or.inl (Or.inr hc)
  refine ⟨heapOk_update h ok i hi _ _ hnew hout, ⟨rfl, rfl, rfl, rfl, fun _ => rfl⟩,
    fun c => ?_, fun d hd hne => ?_, hclear⟩
  · rw [alloc_exchange h ok i hi _ _ _ hbs hnew hout (fun c => c = b)
      (fun c => c = { b with owner := v }) (fun c _ hcb => hcb ▸ hin) hlist c]
    exact or_congr_right ⟨fun hc => hc.1, fun hc => ⟨hc, by rw [hc]; exact hv⟩⟩
  · refine hasBlock_update h ok i hi _ _ _ hbs hnew hout d hd (fun hmem => ?_)
    simp only [List.mem_append, List.mem_singleton] at hmem ⊢
    exact hmem.imp_left (fun hl => Or.inl (hl.resolve_right hne))

theorem takes_dontfree (h h' : Heap) (ok : HeapOk h) (b : Block) (ht : Takes h h' b) (v : Nat)
    (hv : v ≠ 0) :
    Takes h { h' with mem := h'.mem.put (b.adr + mcbOwner) v } { b with owner := v } := by
  have hb := (ht.alloc b).mpr (Or.inr rfl)
  have ho := owns_put h' ht.ok b hb.1 v hv
  refine ⟨ho.ok, ht.same.trans _ _ _ ho.same, hv, fun c => ?_, ?_, fun x hx hfr => ?_⟩
  · rw [ho.alloc c, ht.alloc c]
    constructor
    · rintro (⟨hc | hc, hne⟩ | hc)
      · exact Or.inl hc
      · exact absurd hc hne
      · exact Or.inr hc
    · rintro (hc | hc)
      · -- A block held before lies apart from the new one.
        refine Or.inl ⟨Or.inl hc, fun hcb => ?_⟩
        have happart := ht.apart h h' ok b c hc
        rw [hcb] at happart
        unfold Block.fin mcbData at happart
        omega
      · exact Or.inr hc
  · rcases ht.room with ⟨e, he, hfree, hlo, hhi, hkeep⟩
    refine ⟨e, he, hfree, hlo, hhi, fun d hd hne => ho.keeps d (hkeep d hd hne) (fun hdb => ?_)⟩
    -- Any other block lies apart from the one that made room for the new one.
    rcases hasBlock_apart h ok d e hd he with hde | hlt | hlt
    · exact hne hde
    all_goals
      rw [hdb] at hlt
      simp only [Block.fin, mcbData] at *
      omega
  · rw [← ht.clear x hx hfr]
    refine put_other _ _ _ _ (fun hxb => ?_)
    -- The header of the new block lies in what was a free block.
    rcases ht.room with ⟨e, he, hfree, hlo, hhi, _⟩
    have := hfr e he hfree
    unfold Block.fin mcbData at *
    unfold mcbOwner at hxb
    omega

/-- The owner that a mode word gives a block of the process. -/
def ownerOf (mode pd : Nat) : Nat := if dontfree mode then pd ||| 2 ^ 31 else pd

/-- A request granted to `pd`. -/
def Granted (h h' : Heap) (r amount mode pd : Nat) : Prop :=
  ∃ b, r = b.adr + mcbData ∧ b.owner = ownerOf mode pd ∧ amount ≤ b.len ∧ Takes h h' b

theorem granted_ne_zero (h h' : Heap) (r amount mode pd : Nat)
    (hg : Granted h h' r amount mode pd) : r ≠ 0 := by
  rcases hg with ⟨b, rfl, _⟩
  unfold mcbData
  omega

theorem mallocMode_spec (h : Heap) (ok : HeapOk h) (amount mode list pd : Nat) (hl : list ≠ 1)
    (hn : list < nblocks) (h4 : 4 ∣ amount) (hpd : pd ≠ 0) :
    ∃ h' r, mallocMode h amount mode list pd = some (h', r) ∧
      ((r = 0 ∧ h' = h) ∨ Granted h h' r amount mode pd) := by
  unfold mallocMode
  rcases malloc_spec h ok amount list pd (!nolimit mode) hl hn h4 hpd with
    ⟨h', r, heq, ⟨rfl, rfl⟩ | ⟨b, rfl, hown, hlen, ht⟩⟩
  · rw [heq]
    exact ⟨h', 0, by simp only [if_true], Or.inl ⟨rfl, rfl⟩⟩
  · rw [heq]
    have hb := (ht.alloc b).mpr (Or.inr rfl)
    have howner : h'.mem (b.adr + mcbOwner) = pd := by
      rcases hb.1 with ⟨i, bs, _, hbs, hin⟩
      rw [(linked_fields h'.mem 0 bs hbs.linked b hin).2.2, hown]
    simp only [if_neg (hasBlock_adr_pos h' b hb.1), howner]
    by_cases hd : dontfree mode = true
    · have hv : pd ||| 2 ^ 31 ≠ 0 := by
        intro hc
        have := Nat.right_le_or (n := pd) (m := 2 ^ 31)
        omega
      rw [if_pos hd]
      refine ⟨_, _, rfl, Or.inr ⟨{ b with owner := pd ||| 2 ^ 31 }, rfl, ?_, hlen,
        takes_dontfree h h' ok b ht _ hv⟩⟩
      unfold ownerOf
      rw [if_pos hd]
    · rw [if_neg hd]
      refine ⟨_, _, rfl, Or.inr ⟨b, rfl, ?_, hlen, ht⟩⟩
      unfold ownerOf
      rw [if_neg hd, hown]

theorem mxallocTt_spec (amount mode pd : Nat) (h4 : 4 ∣ amount) (hpd : pd ≠ 0) :
    ∀ (fuel list : Nat) (h : Heap), HeapOk h → 1 < list → list < nblocks →
      nblocks ≤ list + fuel →
      ∃ h' r, mxallocTt h amount mode pd fuel list = some (h', r) ∧
        ((r = 0 ∧ h' = h) ∨ Granted h h' r amount mode pd) := by
  intro fuel
  induction fuel with
  | zero => intro list h _ _ hn hf; omega
  | succ k ih =>
    intro list h ok hl hn hf
    unfold mxallocTt
    by_cases hr : h.root list = 0
    · rw [if_pos hr]
      exact ⟨h, 0, rfl, Or.inl ⟨rfl, rfl⟩⟩
    rw [if_neg hr]
    rcases mallocMode_spec h ok amount mode list pd (by omega) hn h4 hpd with
      ⟨h', r, heq, ⟨rfl, rfl⟩ | hg⟩
    · rw [heq]
      simp only [if_true]
      -- The last head is empty, so there is another head behind this one.
      have hlast : list ≠ nblocks - 1 := fun hc => hr (hc ▸ ok.last)
      exact ih (list + 1) h' ok (by omega) (by omega) (by omega)
    · rw [heq]
      simp only [if_neg (granted_ne_zero _ _ _ _ _ _ hg)]
      exact ⟨h', r, rfl, Or.inr hg⟩

theorem roundUp_dvd (size : Nat) : 4 ∣ roundUp size := Dvd.intro_left _ rfl

theorem memavail_isSome (h : Heap) (ok : HeapOk h) (list : Nat) (hl : list ≠ 1)
    (hn : list < nblocks) : ∃ n, memavail h list = some n := by
  unfold memavail
  by_cases hr : h.root list = 0
  · exact ⟨0, if_pos hr⟩
  rw [if_neg hr]
  rcases ok.lists list (isList_of_root h ok list hl hn hr) with ⟨bs, hbs⟩
  exact ⟨_, mavlLoop_spec h.mem bs _ 0 0 _ _ hbs.linked hbs.tiled.span hbs.tiled.marked
    (span_length_le _ _ _ hbs.tiled.span)⟩

theorem mxavailTt_isSome (h : Heap) (ok : HeapOk h) : ∀ (fuel best list : Nat), 1 < list →
    list < nblocks → nblocks ≤ list + fuel → ∃ n, mxavailTt h fuel best list = some n := by
  intro fuel
  induction fuel with
  | zero => intro best list _ hn hf; omega
  | succ k ih =>
    intro best list hl hn hf
    unfold mxavailTt
    by_cases hr : h.root list = 0
    · exact ⟨best, if_pos hr⟩
    rw [if_neg hr]
    rcases memavail_isSome h ok list (by omega) hn with ⟨n, hn'⟩
    rw [hn']
    have hlast : list ≠ nblocks - 1 := fun hc => hr (hc ▸ ok.last)
    exact ih _ (list + 1) (by omega) (by omega) (by omega)

theorem memxavail_isSome (h : Heap) (ok : HeapOk h) (mode pd : Nat) :
    ∃ n, memxavail h mode pd = some n := by
  rcases memavail_isSome h ok 0 (by omega) (by decide) with ⟨st, hst⟩
  rcases mxavailTt_isSome h ok nblocks 0 2 (by omega) (by decide) (by omega) with ⟨tt, htt⟩
  unfold memxavail
  rw [hst, htt]
  split_ifs <;> exact ⟨_, rfl⟩

theorem granted_pair {h : Heap} (ok : HeapOk h) {d0 mode pd : Nat} (f g : Heap →
    Option (Heap × Nat))
    (hf : ∀ h, HeapOk h → ∃ h' r, f h = some (h', r) ∧
      ((r = 0 ∧ h' = h) ∨ Granted h h' r d0 mode pd))
    (hg : ∀ h, HeapOk h → ∃ h' r, g h = some (h', r) ∧
      ((r = 0 ∧ h' = h) ∨ Granted h h' r d0 mode pd)) :
    ∃ h' r, (match f h with
      | none => none
      | some (h', a) => if a = 0 then g h' else some (h', a)) = some (h', r) ∧
      ((r = 0 ∧ h' = h) ∨ Granted h h' r d0 mode pd) := by
  rcases hf h ok with ⟨h', r, heq, ⟨rfl, rfl⟩ | hgr⟩
  · rw [heq]
    simp only [if_true]
    exact hg h' ok
  · rw [heq]
    simp only [if_neg (granted_ne_zero _ _ _ _ _ _ hgr)]
    exact ⟨h', r, rfl, Or.inr hgr⟩

/-- `Mxalloc` hands out a block of at least the rounded size, or changes
    nothing. -/
theorem mxalloc_spec (h : Heap) (ok : HeapOk h) (size mode pd : Nat) (hpd : pd ≠ 0) :
    ∃ h' r, mxalloc h size mode pd = some (h', r) ∧
      (h' = h ∧ (r = 0 ∨ size = 2 ^ 32 - 1) ∨
        size ≠ 2 ^ 32 - 1 ∧ Granted h h' r (roundUp size) mode pd) := by
  unfold mxalloc
  by_cases hs : size = 2 ^ 32 - 1
  · rw [if_pos hs]
    rcases memxavail_isSome h ok mode pd with ⟨n, hn⟩
    rw [hn]
    exact ⟨h, n, rfl, Or.inl ⟨rfl, Or.inr hs⟩⟩
  rw [if_neg hs]
  have h4 := roundUp_dvd size
  have hst := fun h ok => mallocMode_spec h ok (roundUp size) mode 0 pd (by omega) (by decide) h4
    hpd
  have htt := fun h ok => mxallocTt_spec (roundUp size) mode pd h4 hpd nblocks 2 h ok (by omega)
    (by decide) (by omega)
  -- Each mode is one search or two, the second only after the first failed.
  have hweak : ∀ x : Option (Heap × Nat), (∃ h' r, x = some (h', r) ∧
      ((r = 0 ∧ h' = h) ∨ Granted h h' r (roundUp size) mode pd)) →
      ∃ h' r, x = some (h', r) ∧ (h' = h ∧ (r = 0 ∨ size = 2 ^ 32 - 1) ∨
        size ≠ 2 ^ 32 - 1 ∧ Granted h h' r (roundUp size) mode pd) := by
    rintro x ⟨h', r, heq, ⟨hr, hh⟩ | hgr⟩
    · exact ⟨h', r, heq, Or.inl ⟨hh, Or.inl hr⟩⟩
    · exact ⟨h', r, heq, Or.inr ⟨hs, hgr⟩⟩
  refine hweak _ ?_
  simp only
  split_ifs
  · exact hst h ok
  · exact htt h ok
  · exact granted_pair ok _ _ hst htt
  · exact granted_pair ok _ _ htt hst

/-- A heap with one RAM list, behind whose head the marker follows. -/
def oneList (m : Mem) (a fin : Nat) : Heap where
  mem := m
  root := fun i => if i = 0 then a else if i = 1 then 2 ^ 32 - 1 else 0
  memEnd := fun i => if i = 0 then fin else 0
  pds := fun _ => ⟨2 ^ 32 - 1, none⟩
  actPd := 0x8000
  urPd := 0x9000
  tosMode := false

theorem isList_oneList (m : Mem) (a fin i : Nat) (hi : IsList (oneList m a fin) i) : i = 0 := by
  unfold IsList oneList at hi
  simp only at hi
  by_contra h0
  rw [if_neg h0] at hi
  split_ifs at hi with h1
  · exact hi.2.2 rfl
  · exact hi.2.1 rfl

theorem heapOk_oneList (m : Mem) (a fin : Nat) (bs : List Block) (ha : a ≠ 0)
    (hfin : fin < 2 ^ 32) (h : RamList m a fin bs) : HeapOk (oneList m a fin) := by
  have hafin : a + 16 ≤ fin := by
    have hlen := span_length a fin bs h.tiled.span
    cases bs with
    | nil => exact absurd h.tiled.marked id
    | cons b bs => rw [List.length_cons] at hlen; omega
  refine ⟨fun i hi => ?_, fun i j hi hj hij => ?_, fun i hi => ?_, fun i hi => ?_, rfl,
    fun hr => absurd hr ha, Nat.succ_ne_zero _, Nat.succ_ne_zero _⟩
  · rw [isList_oneList m a fin i hi]
    exact ⟨bs, h⟩
  · rw [isList_oneList m a fin i hi, isList_oneList m a fin j hj] at hij
    exact absurd rfl hij
  · rw [isList_oneList m a fin i hi]
    exact hfin
  · unfold oneList
    simp only [if_neg hi]
    split_ifs
    · omega
    · decide

end Malloc

end MagiC
