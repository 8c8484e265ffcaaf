import MagiC.Lib.Runs
import MagiC.Malloc.Release

/-!
# Runs of the Memory Manager

Any sequence of requests, from any well formed heap.

A `World` is the heap together with what was handed out over the run and not
taken back: the MCB addresses and the lengths of the blocks. That record is not
part of the program. It is kept up as a caller would keep it, from what the
calls return and from the length field of the block in question, and the
invariant says that everything on it is an allocated block of some list, no
block twice.

`Mxfree` may be called with the data address of any block, free and shared ones
included, and with an address whose MCB would lie in no list. An address just
behind the end of a list is not enough to keep the MCB out: `stray_free`.

## Main definitions

* `exec`: What a request does.

## Theorems

* `heap_runs_well_formed`: So does every sequence of them.
-/

namespace MagiC

namespace Malloc

/-- A request to the memory manager. -/
inductive Call where
  | mxalloc (size mode pd : Nat)
  | mallocLast (amount list : Nat)
  | mxfree (memblk pd : Nat)
  | mxshrink (memblk size pd : Nat)

/-- The data address of a block of some list. -/
def IsData (h : Heap) (memblk : Nat) : Prop := ∃ b, HasBlock h b ∧ memblk = b.adr + mcbData

/-- An address in no list's region. -/
def Outside (h : Heap) (a : Nat) : Prop :=
  ∀ i, IsList h i → ¬ (h.root i ≤ a ∧ a < h.memEnd i)

/-- The requests a caller may make. A process has an address, the caller of
    `_malloc_last` rounds the size to a longword and names a list, and a block
    is not made larger. -/
def Admissible (h : Heap) : Call → Prop
  | .mxalloc _ _ pd => pd ≠ 0
  | .mallocLast amount list => 4 ∣ amount ∧ list < nblocks ∧ h.root list ≠ 2 ^ 32 - 1
  | .mxfree memblk _ => IsData h memblk ∨ Outside h (mcbOf memblk)
  | .mxshrink memblk size _ => IsData h memblk ∧ size ≤ h.mem (mcbOf memblk + mcbLen)

/-- A block handed out: its MCB and its length. -/
structure Held where
  adr : Nat
  len : Nat

/-- The heap and the blocks handed out and not taken back. -/
structure World where
  heap : Heap
  held : List Held

/-- The block at `a` as it is handed out, or what is left of it. -/
def hand (h : Heap) (a : Nat) : Held := ⟨a, h.mem (a + mcbLen)⟩

/-- Whether `Mxfree` of the block at `a` gave it up. A shared block that is
    still referenced is not given up, though the call succeeds. -/
def released (h : Heap) (a pd : Nat) (r : Int) : Prop :=
  r = 0 ∧ (pd = 0 ∨ 0x1000 ≤ h.mem (a + mcbOwner) ∨ h.mem (a + mcbOwner) = 1)

instance (h : Heap) (a pd : Nat) (r : Int) : Decidable (released h a pd r) :=
  inferInstanceAs (Decidable (_ ∧ _))

/-- The world after `Mxfree` of the block at `a`. -/
def World.free (s : World) (h' : Heap) (a pd : Nat) (r : Int) : World :=
  ⟨h', if released s.heap a pd r then s.held.filter (fun e => e.adr ≠ a) else s.held⟩

def exec (s : World) : Call → Option World
  | .mxalloc size mode pd => (mxalloc s.heap size mode pd).map fun x =>
    ⟨x.1, if size = 2 ^ 32 - 1 ∨ x.2 = 0 then s.held else hand x.1 (mcbOf x.2) :: s.held⟩
  | .mallocLast amount list => (mallocLast s.heap amount list).map fun x =>
    ⟨x.1, if x.2 = 0 then s.held else hand x.1 x.2 :: s.held⟩
  | .mxfree memblk pd => (mxfree s.heap memblk pd).map fun x => s.free x.1 (mcbOf memblk) pd x.2
  | .mxshrink memblk size pd => (mxshrink s.heap memblk size pd).map fun x =>
    if size = 0 then s.free x.1 (mcbOf memblk) pd x.2
    else ⟨x.1, s.held.map (fun e => if e.adr = mcbOf memblk then hand x.1 e.adr else e)⟩

def step (s : World) (c : Call) (t : World) : Prop := Admissible s.heap c ∧ exec s c = some t

/-- A block handed out is an allocated block. -/
def IsHeld (h : Heap) (e : Held) : Prop :=
  ∃ b, HasBlock h b ∧ b.adr = e.adr ∧ b.len = e.len ∧ b.owner ≠ 0

/-- The heap is well formed, and what is handed out is allocated, no block
    twice. -/
structure WorldOk (s : World) : Prop where
  heap : HeapOk s.heap
  held : ∀ e ∈ s.held, IsHeld s.heap e
  nodup : (s.held.map Held.adr).Nodup

def Held.Apart (e f : Held) : Prop :=
  e.adr + mcbData + e.len ≤ f.adr ∨ f.adr + mcbData + f.len ≤ e.adr

section

variable (s : World) (ok : WorldOk s)

include ok

theorem held_apart : s.held.Pairwise Held.Apart := by
  have hn := List.pairwise_map.mp ok.nodup
  refine hn.imp_of_mem (fun {e f} he hf hne => ?_)
  rcases ok.held e he with ⟨b, hb, hbe, hbl, _⟩
  rcases ok.held f hf with ⟨c, hc, hcf, hcl, _⟩
  unfold Held.Apart
  rw [← hbe, ← hbl, ← hcf, ← hcl]
  rcases hasBlock_apart s.heap ok.heap b c hb hc with rfl | hlt | hlt
  · exact absurd (hbe.symm.trans hcf) hne
  · exact Or.inl hlt
  · exact Or.inr hlt

theorem grant_worldOk (h' : Heap) (a amount : Nat)
    (hg : Grant s.heap h' a amount) : WorldOk ⟨h', hand h' a :: s.held⟩ := by
  rcases hg.fresh with ⟨b, hb, rfl, hown, _, hfresh⟩
  refine ⟨hg.ok, List.forall_mem_cons.mpr ⟨⟨b, hb, rfl, (hasBlock_len h' b hb).1.symm, hown⟩,
    fun e he => ?_⟩, ?_⟩
  · rcases ok.held e he with ⟨c, hc, hce, hcl, hco⟩
    exact ⟨c, hg.keeps c hc hco, hce, hcl, hco⟩
  · rw [List.map_cons, List.nodup_cons]
    refine ⟨fun hin => ?_, ok.nodup⟩
    -- The new block lies apart from every old one, so its address is new.
    rcases List.mem_map.mp hin with ⟨e, he, heq⟩
    rcases ok.held e he with ⟨c, hc, hce, _, hco⟩
    have hadr : c.adr = b.adr := hce.trans heq
    rcases hfresh c hc hco with hlt | hlt <;> unfold Block.fin mcbData at hlt <;> omega

theorem free_worldOk (h' : Heap) (b : Block) (pd : Nat) (r : Int)
    (hb : HasBlock s.heap b) (hf : Freed s.heap h' b pd r) : WorldOk (s.free h' b.adr pd r) := by
  have hother : ∀ e ∈ s.held, e.adr ≠ b.adr → IsHeld h' e := by
    intro e he hne
    rcases ok.held e he with ⟨c, hc, hce, hcl, hco⟩
    exact ⟨c, hf.keeps c hc hco (by rw [hce]; exact hne), hce, hcl, hco⟩
  unfold World.free
  by_cases hrel : released s.heap b.adr pd r
  · rw [if_pos hrel]
    refine ⟨hf.ok, fun e he => ?_, ?_⟩
    · rw [List.mem_filter, decide_eq_true_eq] at he
      exact hother e he.1 he.2
    · exact ok.nodup.sublist (List.filter_sublist.map _)
  · rw [if_neg hrel]
    refine ⟨hf.ok, fun e he => ?_, ok.nodup⟩
    by_cases hadr : e.adr = b.adr
    · rcases ok.held e he with ⟨c, hc, hce, hcl, hco⟩
      have hcb := hasBlock_same s.heap ok.heap c b hc hb (hce.trans hadr)
      unfold released at hrel
      rw [(hasBlock_len s.heap b hb).2] at hrel
      rw [hcb] at hcl hco
      rcases hf.held hrel hco with ⟨v, hv, hnew⟩
      exact ⟨_, hnew, hadr.symm, hcl, hv⟩
    · exact hother e he hadr

theorem shrink_worldOk (h' : Heap) (b : Block) (hok : HeapOk h') (hkeep : Keeps s.heap h' b.adr)
    (hheld : b.owner ≠ 0 → ∃ c, HasBlock h' c ∧ c.adr = b.adr ∧ c.owner ≠ 0)
    (hb : HasBlock s.heap b) :
    WorldOk ⟨h', s.held.map (fun e => if e.adr = b.adr then hand h' e.adr else e)⟩ := by
  refine ⟨hok, fun e he => ?_, ?_⟩
  · rcases List.mem_map.mp he with ⟨d, hd, rfl⟩
    rcases ok.held d hd with ⟨c, hc, hce, hcl, hco⟩
    by_cases hadr : d.adr = b.adr
    · rw [if_pos hadr]
      have hcb := hasBlock_same s.heap ok.heap c b hc hb (hce.trans hadr)
      rw [hcb] at hco
      rcases hheld hco with ⟨x, hx, hxa, hxo⟩
      refine ⟨x, hx, hxa.trans hadr.symm, ?_, hxo⟩
      unfold hand
      rw [hadr, ← hxa]
      exact (hasBlock_len h' x hx).1.symm
    · rw [if_neg hadr]
      exact ⟨c, hkeep c hc hco (by rw [hce]; exact hadr), hce, hcl, hco⟩
  · rw [List.map_map]
    have hmap : s.held.map (Held.adr ∘ fun e => if e.adr = b.adr then hand h' e.adr else e)
        = s.held.map Held.adr := by
      refine List.map_congr_left (fun e _ => ?_)
      simp only [Function.comp_apply]
      split_ifs <;> rfl
    rw [hmap]
    exact ok.nodup

theorem worldOk_free_same (a pd : Nat) (r : Int) : WorldOk (s.free s.heap a pd r) := by
  unfold World.free
  split_ifs
  · exact ⟨ok.heap, fun e he => ok.held e (List.mem_of_mem_filter he),
      ok.nodup.sublist (List.filter_sublist.map _)⟩
  · exact ok

/-- The step lemma: an admissible request returns, and the world is in order
    afterwards. -/
theorem exec_ok (c : Call) (hadm : Admissible s.heap c) : ∃ t, exec s c = some t ∧ WorldOk t := by
  cases c with
  | mxalloc size mode pd =>
    rcases mxalloc_spec s.heap ok.heap size mode pd hadm with
      ⟨h', r, heq, ⟨rfl, hr⟩ | ⟨hs, b, rfl, _, hlen, ht⟩⟩
    · refine ⟨⟨s.heap, s.held⟩, ?_, ok⟩
      simp only [exec, heq, Option.map_some, if_pos (Or.symm hr)]
    · refine ⟨_, ?_, grant_worldOk s ok h' b.adr _ (ht.grant _ _ ok.heap _ _ hlen)⟩
      have hmcb := mcbOf_data h' ht.ok b ((ht.alloc b).mpr (Or.inr rfl)).1
      have hne : ¬ (size = 2 ^ 32 - 1 ∨ b.adr + mcbData = 0) := by
        rintro (h0 | h0)
        · exact hs h0
        · exact absurd (Nat.add_eq_zero_iff.mp h0).2 (by decide)
      simp only [exec, heq, Option.map_some, if_neg hne, hmcb]
  | mallocLast amount list =>
    rcases mallocLast_spec s.heap ok.heap amount list hadm.2.2 hadm.2.1 hadm.1 with
      ⟨h', r, heq, ⟨rfl, rfl⟩ | ⟨hr, hg⟩⟩
    · refine ⟨⟨s.heap, s.held⟩, ?_, ok⟩
      simp only [exec, heq, Option.map_some, if_true]
    · refine ⟨_, ?_, grant_worldOk s ok h' r _ hg⟩
      simp only [exec, heq, Option.map_some, if_neg hr]
  | mxfree memblk pd =>
    rcases hadm with ⟨b, hb, rfl⟩ | hout
    · rcases mxfree_block s.heap ok.heap b hb pd with ⟨h', r, heq, hf⟩
      refine ⟨_, ?_, free_worldOk s ok h' b pd r hb hf⟩
      simp only [exec, heq, Option.map_some, mcbOf_data s.heap ok.heap b hb]
    · rcases mxfree_outside s.heap ok.heap memblk pd hout with ⟨r, heq⟩
      refine ⟨_, ?_, worldOk_free_same s ok (mcbOf memblk) pd r⟩
      simp only [exec, heq, Option.map_some]
  | mxshrink memblk size pd =>
    rcases hadm with ⟨⟨b, hb, rfl⟩, hsize⟩
    have hmcb := mcbOf_data s.heap ok.heap b hb
    rw [hmcb, (hasBlock_len s.heap b hb).1] at hsize
    by_cases h0 : size = 0
    · rcases mxfree_block s.heap ok.heap b hb pd with ⟨h', r, heq, hf⟩
      refine ⟨_, ?_, free_worldOk s ok h' b pd r hb hf⟩
      simp only [exec, mxshrink, if_pos h0, heq, Option.map_some, hmcb]
    · rcases mxshrink_block s.heap ok.heap b hb size pd h0 hsize with ⟨h', r, heq, hcase⟩
      refine ⟨⟨h', s.held.map (fun e => if e.adr = b.adr then hand h' e.adr else e)⟩, ?_, ?_⟩
      · simp only [exec, heq, Option.map_some, if_neg h0, hmcb]
      · rcases hcase with ⟨rfl, _⟩ | hsh
        · exact shrink_worldOk s ok s.heap b ok.heap (fun c hc _ _ => hc)
            (fun hown => ⟨b, hb, rfl, hown⟩) hb
        · rcases hsh.held with ⟨c, hc, hca, hco, _, _⟩
          exact shrink_worldOk s ok h' b hsh.ok hsh.keeps
            (fun hown => ⟨c, hc, hca, by rw [hco]; exact hown⟩) hb

end

theorem run_ok (s t : World) (calls : List Call) (hrun : Runs.Run step s calls t)
    (ok : WorldOk s) : WorldOk t := by
  refine Runs.run_preserves step WorldOk (fun s c t ok hst => ?_) s t calls hrun ok
  rcases exec_ok s ok c hst.1 with ⟨u, hu, huok⟩
  have htu : t = u := Option.some_injective _ (hst.2.symm.trans hu)
  rw [htu]
  exact huok

/-- From a well formed heap every sequence of requests leads to a well formed
    heap, what is handed out and not taken back is allocated and does not
    overlap, and the next request returns. -/
theorem heap_runs_well_formed (h : Heap) (ok : HeapOk h) (calls : List Call) (t : World)
    (hrun : Runs.Run step ⟨h, []⟩ calls t) :
    HeapOk t.heap ∧ t.held.Pairwise Held.Apart ∧ (∀ e ∈ t.held, IsHeld t.heap e) ∧
      ∀ c, Admissible t.heap c → ∃ u, exec t c = some u := by
  have hok : WorldOk ⟨h, []⟩ :=
    ⟨ok, fun e he => absurd he List.not_mem_nil, List.nodup_nil⟩
  have hok' := run_ok _ t calls hrun hok
  refine ⟨hok'.heap, held_apart t hok', hok'.held, fun c hc => ?_⟩
  rcases exec_ok t hok' c hc with ⟨u, hu, _⟩
  exact ⟨u, hu⟩

/-- A memory with one free block from 4096 to 8192. -/
def freshMem : Mem := fun x =>
  if x = 4096 then KROM else if x = 4100 then 4080 else 0

theorem freshMem_ramList : RamList freshMem 4096 8192 [⟨4096, KROM, 4080, 0⟩] := by
  refine ⟨⟨⟨rfl, rfl, rfl, rfl⟩, trivial⟩, ⟨⟨rfl, rfl⟩, rfl, ?_⟩, List.isChain_singleton _⟩
  intro b hb
  rw [List.mem_singleton.mp hb]
  decide

/-- A block is handed out of it, taken back, and another one handed out. -/
theorem heap_runs_well_formed_fresh :
    ∃ t, Runs.Run step ⟨oneList freshMem 4096 8192, []⟩
        [.mxalloc 100 0 0x8000, .mxfree 4112 0x8000, .mxalloc 7 3 0x8000] t ∧
      HeapOk t.heap := by
  have ok := heapOk_oneList freshMem 4096 8192 _ (by decide) (by decide) freshMem_ramList
  have hok : WorldOk ⟨oneList freshMem 4096 8192, []⟩ :=
    ⟨ok, fun e he => absurd he List.not_mem_nil, List.nodup_nil⟩
  have ha1 : Admissible (oneList freshMem 4096 8192) (.mxalloc 100 0 0x8000) :=
    Nat.succ_ne_zero _
  rcases exec_ok _ hok _ ha1 with ⟨s1, h1, ok1⟩
  have hheld : ⟨4096, s1.heap.mem 4100⟩ ∈ s1.held := by
    obtain ⟨h', heq⟩ : ∃ h', mxalloc (oneList freshMem 4096 8192) 100 0 0x8000 = some (h', 4112) :=
      ⟨_, rfl⟩
    simp only [exec, heq, Option.map_some, Option.some.injEq] at h1
    rw [← h1]
    exact List.mem_cons_self
  -- What is handed out is a block, so its data address may be freed.
  have ha2 : Admissible s1.heap (.mxfree 4112 0x8000) := by
    rcases ok1.held _ hheld with ⟨b, hb, hadr, _⟩
    exact Or.inl ⟨b, hb, by rw [hadr]; rfl⟩
  rcases exec_ok s1 ok1 _ ha2 with ⟨s2, h2, ok2⟩
  have ha3 : Admissible s2.heap (.mxalloc 7 3 0x8000) := Nat.succ_ne_zero _
  rcases exec_ok s2 ok2 _ ha3 with ⟨s3, h3, _⟩
  have hrun : Runs.Run step ⟨oneList freshMem 4096 8192, []⟩
      [.mxalloc 100 0 0x8000, .mxfree 4112 0x8000, .mxalloc 7 3 0x8000] s3 :=
    .cons _ s1 _ _ _ ⟨ha1, h1⟩ (.cons _ s2 _ _ _ ⟨ha2, h2⟩ (.cons _ s3 _ _ _ ⟨ha3, h3⟩ (.nil s3)))
  exact ⟨s3, hrun, (heap_runs_well_formed _ ok _ s3 hrun).1⟩

/-- A free block and behind it an allocated one, whose last sixteen bytes of
    data look like an MCB with the free block before it. -/
def strayMem : Mem := fun x =>
  if x = 4096 then ANDR else if x = 4100 then 16 else
  if x = 4128 then KROM else if x = 4132 then 32 else if x = 4136 then 0x8000 else
  if x = 4140 then 4096 else
  if x = 4160 then KROM else if x = 4168 then 0x8000 else if x = 4172 then 4096 else 0

theorem strayMem_ramList :
    RamList strayMem 4096 4176 [⟨4096, ANDR, 16, 0⟩, ⟨4128, KROM, 32, 0x8000⟩] := by
  refine ⟨⟨⟨rfl, rfl, rfl, rfl⟩, ⟨rfl, rfl, rfl, rfl⟩, trivial⟩,
    ⟨⟨rfl, rfl, rfl⟩, ⟨rfl, rfl⟩, ?_⟩, List.isChain_pair.mpr (Or.inr (Nat.succ_ne_zero _))⟩
  intro b hb
  simp only [List.mem_cons, List.not_mem_nil, or_false] at hb
  rcases hb with rfl | rfl <;> decide

/-- The address just behind a list lies in no list, and yet `Mxfree` of it can
    break the list: the MCB it looks for is the forged one, and the free block
    that this one names as its predecessor becomes the last of the list. -/
theorem stray_free :
    HeapOk (oneList strayMem 4096 4176) ∧ Outside (oneList strayMem 4096 4176) 4176 ∧
      ∃ h' r, mxfree (oneList strayMem 4096 4176) 4176 0 = some (h', r) ∧ ¬ HeapOk h' := by
  refine ⟨heapOk_oneList strayMem 4096 4176 _ (by decide) (by decide) strayMem_ramList, ?_, ?_⟩
  · intro i hi
    rw [isList_oneList _ _ _ i hi]
    decide
  · obtain ⟨h', r, heq, hroot, hend, hmagic, hlen⟩ : ∃ h' r,
        mxfree (oneList strayMem 4096 4176) 4176 0 = some (h', r) ∧
          h'.root 0 = 4096 ∧ h'.memEnd 0 = 4176 ∧ h'.mem 4096 = KROM ∧ h'.mem 4100 = 32 :=
      ⟨_, _, rfl, rfl, rfl, by decide, by decide⟩
    refine ⟨h', r, heq, fun ok => ?_⟩
    have hi : IsList h' 0 := ⟨by decide, by rw [hroot]; decide, by rw [hroot]; decide⟩
    rcases ok.lists 0 hi with ⟨bs, hbs⟩
    rw [hroot, hend] at hbs
    -- The list ends with its first block, far from the end of the region.
    cases bs with
    | nil => exact hbs.tiled.marked
    | cons b bs =>
      have hadr : b.adr = 4096 := hbs.tiled.span.1
      have hf := linked_fields _ _ _ hbs.linked b List.mem_cons_self
      rw [hadr] at hf
      rcases (marked_cons_iff b bs).mp hbs.tiled.marked with ⟨rfl, _⟩ | ⟨_, ha, _⟩
      · have hfin : b.fin = 4176 := hbs.tiled.span.2
        have hblen : b.len = 32 := hf.2.1.symm.trans hlen
        unfold Block.fin mcbData at hfin
        omega
      · exact andr_ne_krom (ha.symm.trans (hf.1.symm.trans hmagic))

end Malloc

end MagiC
