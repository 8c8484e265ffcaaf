import MagiC.Lib.Slist
import MagiC.Malloc.Release
import Mathlib.Data.Finset.Card
import Mathlib.Data.Finset.Range

/-!
# Saving a Process's Memory

`Pmemsave`, which copies the blocks of a process that is about to fork, and
`Pmemrestore`, which copies them back.

The save walks the RAM lists for the blocks the process owns and allocates a
block for every copy, in the same lists, while it walks. The shared blocks come
afterwards, from the process's list. Both walks call `_memsave`, which takes the
block to be left out from the register `a0` and the block to be copied from
`a5`. The walk over the RAM lists sets only `a5`, the walk over the shared
blocks only `a0`.

## Main definitions

* `Table`: The list heads as they are set up.

## Theorems

* `memsave_spec`: One more copy, or none.
-/

namespace MagiC

namespace Malloc

def ENSMEM : Int := -39

def svmbAdr : Nat := 4

def svmbLen : Nat := 8

def svmbData : Nat := 12

/-- `memmove` of `n` bytes that are whole longwords. -/
def moveLongs (m : Mem) (dst src n : Nat) : Mem := fun x =>
  if dst ≤ x ∧ x < dst + n ∧ (x - dst) % 4 = 0 then m (src + (x - dst)) else m x

/-- The registers the walks and `_memsave` share: the block to be left out, the
    copies so far, and the block to be copied. -/
structure Regs where
  a0 : Nat
  a3 : Nat
  a5 : Nat

/-- `_mems_freeloop`: free all copies. There is room for fewer than `fuel` of
    them in the address space. -/
def memsFreeloop : Nat → Heap → Nat → Option Heap
  | 0, _, _ => none
  | fuel + 1, h, a3 =>
    if a3 = 0 then some h
    else
      match mxfree h a3 h.urPd with
      | none => none
      | some (h', _) => memsFreeloop fuel h' (h.mem a3)

/-- Addresses are longwords. -/
def addresses : Nat := 2 ^ 32

/-- `_memsave`: copy the block at `a5` unless `a0` is named in the exclusion
    list. Without memory the copies made so far are freed, and no registers
    come back. -/
def memsave (h : Heap) (excl : List Nat) (s : Regs) : Option (Heap × Option Regs) :=
  if s.a0 ∈ excl then some (h, some s)
  else
    match mxalloc h (svmbData + h.mem (mcbOf s.a5 + mcbLen)) 2 h.urPd with
    | none => none
    | some (h, d0) =>
      if d0 = 0 then (memsFreeloop addresses h s.a3).map fun h => (h, none)
      else
        let m := (h.mem.put d0 s.a3).put (d0 + svmbAdr) s.a5
        let len := m (mcbOf s.a5 + mcbLen)
        let m := moveLongs (m.put (d0 + svmbLen) len) (d0 + svmbData) s.a5 len
        some ({ h with mem := m }, some ⟨d0 + svmbData, d0, s.a5⟩)

/-- `pms_memloop`: walk one list from the MCB at `a5` on and copy the blocks of
    `proc`. A broken magic leads to `mem_repair`. -/
def pmsMemloop (excl : List Nat) (proc : Nat) : Nat → Heap → Regs → Option (Heap × Option Regs)
  | 0, _, _ => none
  | fuel + 1, h, s =>
    let d1 := h.mem s.a5
    let d7 := h.mem (s.a5 + mcbLen)
    let d0 := h.mem (s.a5 + mcbOwner)
    let s := { s with a5 := s.a5 + mcbData }
    if d1 = ANDR then
      if d0 = proc then
        if h.mem (s.a5 + d7) = ANDR ∨ h.mem (s.a5 + d7) = KROM then
          match memsave h excl s with
          | none => none
          | some (h, none) => some (h, none)
          | some (h, some s) => pmsMemloop excl proc fuel h { s with a5 := s.a5 + d7 }
        else none
      else pmsMemloop excl proc fuel h { s with a5 := s.a5 + d7 }
    else if d1 = KROM then
      if d0 = proc then memsave h excl s else some (h, some s)
    else none

/-- `pms_memloop2`: walk the lists from `list` on, up to the first empty
    head. -/
def pmsMemloop2 (excl : List Nat) (proc : Nat) :
    Nat → Nat → Heap → Regs → Option (Heap × Option Regs)
  | 0, _, _, _ => none
  | fuel + 1, list, h, s =>
    if negative (h.root list) then pmsMemloop2 excl proc fuel (list + 1) h s
    else if h.root list = 0 then some (h, some s)
    else
      match pmsMemloop excl proc (h.extent list) h { s with a5 := h.root list } with
      | none => none
      | some (h, none) => some (h, none)
      | some (h, some s) => pmsMemloop2 excl proc fuel (list + 1) h s

/-- `pms_shmloop`: the entries of the process's list of shared blocks. -/
def pmsShmloop (excl : List Nat) : List Nat → Heap → Regs → Option (Heap × Option Regs)
  | [], h, s => some (h, some s)
  | e :: es, h, s =>
    if e = 0 then pmsShmloop excl es h s
    else
      match memsave h excl { s with a0 := e } with
      | none => none
      | some (h, none) => some (h, none)
      | some (h, some s) => pmsShmloop excl es h s

/-- `pms_ownloop`: give the copies to the process. -/
def pmsOwnloop (proc : Nat) : Nat → Mem → Nat → Option Mem
  | 0, _, _ => none
  | fuel + 1, m, a0 =>
    if a0 = 0 then some m
    else
      let m := m.put (mcbOf a0 + mcbOwner) proc
      pmsOwnloop proc fuel m (m a0)

/-- `Pmemsave`: the list of the copies, or nothing, which is `ENSMEM`. The
    register `a5` holds what the caller left there. -/
def pmemsave (h : Heap) (proc : Nat) (excl : List Nat) (a5 : Nat) : Option (Heap × Option Nat) :=
  match pmsMemloop2 excl proc nblocks 0 h ⟨proc, 0, a5⟩ with
  | none => none
  | some (h, none) => some (h, none)
  | some (h, some s) =>
    match pmsShmloop excl ((h.pds proc).memlist.getD []) h s with
    | none => none
    | some (h, none) => some (h, none)
    | some (h, some s) =>
      (pmsOwnloop proc addresses h.mem s.a3).map fun m => ({ h with mem := m }, some s.a3)

/-- `pmr_loop`: copy the data back, no more of them than the block has now,
    and free the copy. -/
def pmrLoop (proc : Nat) (copy : Bool) : Nat → Heap → Nat → Option Heap
  | 0, _, _ => none
  | fuel + 1, h, a6 =>
    if a6 = 0 then some h
    else
      let adr := h.mem (a6 + svmbAdr)
      let len := h.mem (a6 + svmbLen)
      let cur := h.mem (mcbOf adr + mcbLen)
      let m := if copy then
          moveLongs h.mem adr (a6 + svmbData) (if len ≤ cur then len else cur)
        else h.mem
      match mxfree { h with mem := m } a6 proc with
      | none => none
      | some (h', _) => pmrLoop proc copy fuel h' (h.mem a6)

/-- `Pmemrestore`: copy the blocks back if `copy` is set, and free the
    copies. -/
def pmemrestore (h : Heap) (list proc : Nat) (copy : Bool) : Option Heap :=
  pmrLoop proc copy addresses h list

/-- The list heads as `mc_init` and `Maddalt` set them up: there is a first
    list, no empty head before a list, no list in the upper half of the address
    space, and every list is on a longword boundary. -/
structure Table (h : Heap) : Prop where
  first : h.root 0 ≠ 0
  dense : ∀ j, IsList h j → ∀ i, i < j → h.root i ≠ 0
  low : ∀ i, IsList h i → h.memEnd i ≤ 2 ^ 31
  aligned : ∀ i, IsList h i → 4 ∣ h.root i

theorem table_same (h h' : Heap) (hs : Same h h') (ht : Table h) : Table h' := by
  have hlist : ∀ i, IsList h' i ↔ IsList h i := by
    intro i
    unfold IsList
    rw [hs.root]
  refine ⟨?_, fun j hj i hij => ?_, fun i hi => ?_, fun i hi => ?_⟩
  · rw [hs.root]
    exact ht.first
  · rw [hs.root]
    exact ht.dense j ((hlist j).mp hj) i hij
  · rw [hs.memEnd]
    exact ht.low i ((hlist i).mp hi)
  · rw [hs.root]
    exact ht.aligned i ((hlist i).mp hi)

/-- Memory outside the headers does not matter to the lists. -/
theorem heap_congr (h : Heap) (ok : HeapOk h) (m : Mem)
    (hm : ∀ x, ¬ NoHeader h x → m x = h.mem x) :
    HeapOk { h with mem := m } ∧ ∀ b, HasBlock { h with mem := m } b ↔ HasBlock h b := by
  have hlist : ∀ i bs, IsList h i → RamList h.mem (h.root i) (h.memEnd i) bs →
      RamList m (h.root i) (h.memEnd i) bs := by
    intro i bs hi hbs
    refine ⟨linked_congr h.mem m 0 bs (fun b hb k hk => hm _ (fun hno => ?_)) hbs.linked,
      hbs.tiled, hbs.coalesced⟩
    have := hno b ⟨i, bs, hi, hbs, hb⟩
    omega
  refine ⟨⟨fun i hi => ?_, ok.apart, ok.bound, ok.marker, ok.last, ok.empty, ok.actPd, ok.urPd⟩,
    fun b => ⟨?_, ?_⟩⟩
  · rcases ok.lists i hi with ⟨bs, hbs⟩
    exact ⟨bs, hlist i bs hi hbs⟩
  · rintro ⟨i, cs, hi, hcs, hin⟩
    rcases ok.lists i hi with ⟨bs, hbs⟩
    rw [ramList_unique _ _ _ _ _ _ hcs (hlist i bs hi hbs)] at hin
    exact ⟨i, bs, hi, hbs, hin⟩
  · rintro ⟨i, bs, hi, hbs, hin⟩
    exact ⟨i, bs, hi, hlist i bs hi hbs, hin⟩

/-- An address in the data of an allocated block. -/
def Data (h : Heap) (x : Nat) : Prop := ∃ b, Alloc h b ∧ b.adr + mcbData ≤ x ∧ x < b.fin

theorem inside_noHeader (h : Heap) (ok : HeapOk h) (b : Block) (hb : HasBlock h b) (x : Nat)
    (hlo : b.adr + mcbData ≤ x) (hhi : x < b.fin) : NoHeader h x := by
  intro e he
  rcases hasBlock_apart h ok b e hb he with rfl | hlt | hlt
  · exact Or.inr hlo
  · exact Or.inl (by omega)
  · right
    unfold Block.fin at hlt
    unfold mcbData at *
    omega

theorem data_noHeader (h : Heap) (ok : HeapOk h) (x : Nat) (hx : Data h x) : NoHeader h x := by
  rcases hx with ⟨b, hb, hlo, hhi⟩
  exact inside_noHeader h ok b hb.1 x hlo hhi

theorem data_notFree (h : Heap) (ok : HeapOk h) (x : Nat) (hx : Data h x) (e : Block)
    (he : HasBlock h e) (hfree : e.owner = 0) : x < e.adr ∨ e.fin ≤ x := by
  rcases hx with ⟨b, hb, hlo, hhi⟩
  rcases hasBlock_apart h ok b e hb.1 he with rfl | hlt | hlt
  · exact absurd hfree hb.2
  · exact Or.inl (by omega)
  · exact Or.inr (by omega)

theorem span_dvd (a fin : Nat) (bs : List Block) (h : Span a bs fin) (hs : LongSized bs)
    (ha : 4 ∣ a) : ∀ b ∈ bs, 4 ∣ b.adr := by
  induction bs generalizing a with
  | nil => intro b hb; exact absurd hb List.not_mem_nil
  | cons c cs ih =>
    intro b hb
    have hc4 := hs c List.mem_cons_self
    rcases List.mem_cons.mp hb with rfl | hin
    · rw [h.1]
      exact ha
    · refine ih c.fin h.2 (fun d hd => hs d (List.mem_cons_of_mem _ hd)) ?_ b hin
      have := h.1
      unfold Block.fin mcbData
      omega

theorem inLists_block (h : Heap) (table : Table h) (b : Block) (hb : HasBlock h b) :
    inLists h b.adr = true := by
  rcases hb with ⟨i, bs, hi, hbs, hin⟩
  have hadr := span_mem _ _ _ hbs.tiled.span b hin
  have hreg : h.root i ≤ b.adr ∧ b.adr < h.memEnd i := by
    unfold Block.fin mcbData at hadr
    omega
  have hnext : ∀ fuel list, list ≤ i → i < list + fuel → inNextList h b.adr fuel list = true := by
    intro fuel
    induction fuel with
    | zero => intro list _ _; omega
    | succ k ih =>
      intro list hle hlt
      unfold inNextList
      by_cases heq : list = i
      · have hneg : ¬ negative (h.root i) = true := by
          have := table.low i hi
          unfold negative
          rw [decide_eq_true_eq]
          omega
        rw [heq, if_neg hi.2.1, if_neg hneg, if_pos hreg]
      · rw [if_neg (table.dense i hi list (by omega))]
        split_ifs
        · exact ih (list + 1) (by omega) (by omega)
        · rfl
        · exact ih (list + 1) (by omega) (by omega)
  unfold inLists
  by_cases h0 : i = 0
  · rw [h0] at hreg
    rw [if_pos hreg]
  · split_ifs
    · rfl
    · have := hi.1
      unfold nblocks at *
      exact hnext 15 1 (by omega) (by omega)

/-- `Mxfree` of an allocated block that is not a shared one. -/
theorem mxfree_owned (h : Heap) (ok : HeapOk h) (table : Table h) (b : Block) (hb : Alloc h b)
    (pd : Nat) (hown : pd = 0 ∨ 0x1000 ≤ b.owner) :
    ∃ h', mxfree h (b.adr + mcbData) pd = some (h', 0) ∧ Frees h h' b := by
  have hal : ¬ (b.adr + mcbData) % 4 ≠ 0 := by
    rcases hb.1 with ⟨i, bs, hi, hbs, hin⟩
    have := span_dvd _ _ bs hbs.tiled.span hbs.tiled.sized (table.aligned i hi) b hin
    unfold mcbData
    omega
  have howner : h.mem (b.adr + mcbOwner) = b.owner := by
    rcases hb.1 with ⟨i, bs, _, hbs, hin⟩
    exact (linked_fields h.mem 0 bs hbs.linked b hin).2.2
  unfold mxfree
  rw [if_neg hal, mcbOf_data h ok b hb.1]
  simp only [inLists_block h table b hb.1, if_true]
  unfold mfreeFree
  rw [howner, if_neg (by omega)]
  rcases mfreeBlock_spec h ok b hb.1 pd with ⟨h', r, heq, ⟨_, _, h0⟩ | ⟨rfl, _, hf⟩⟩
  · exact absurd h0 hb.2
  · exact ⟨h', heq, hf⟩

/-- One copy: the block it lies in, and the address and the length of what was
    copied. -/
structure Rec where
  block : Block
  adr : Nat
  len : Nat

def Rec.copy (r : Rec) : Nat := r.block.adr + mcbData

/-- The copies made so far, the last one first. Each lies in a block of its own
    that is new since `h0`, and holds the data of a block of the heap. -/
structure Saved (h0 h : Heap) (a3 : Nat) (recs : List Rec) : Prop where
  ok : HeapOk h
  same : Same h0 h
  chain : Chains.Linked h.mem 0 a3 (recs.map Rec.copy)
  fields : ∀ r ∈ recs, h.mem (r.copy + svmbAdr) = r.adr ∧ h.mem (r.copy + svmbLen) = r.len
  size : ∀ r ∈ recs, svmbData + r.len ≤ r.block.len ∧ r.block.owner = h0.urPd
  alloc : ∀ c, Alloc h c ↔ Alloc h0 c ∨ ∃ r ∈ recs, c = r.block
  fresh : ∀ r ∈ recs, ¬ Alloc h0 r.block
  data : ∀ x, Data h0 x → h.mem x = h0.mem x
  target : ∀ r ∈ recs, ∃ d, HasBlock h d ∧ d.adr + mcbData = r.adr ∧ d.len = r.len
  content : ∀ r ∈ recs, ∀ d, Alloc h d → d.adr + mcbData = r.adr → ∀ k, k < r.len → k % 4 = 0 →
    h.mem (r.copy + svmbData + k) = h.mem (r.adr + k)

theorem Saved.nil (h : Heap) (ok : HeapOk h) : Saved h h 0 [] where
  ok := ok
  same := Same.refl h
  chain := Chains.linked_nil _ _
  fields _ hr := absurd hr List.not_mem_nil
  size _ hr := absurd hr List.not_mem_nil
  alloc _ := ⟨Or.inl, fun hc => hc.elim id fun ⟨_, hr, _⟩ => absurd hr List.not_mem_nil⟩
  fresh _ hr := absurd hr List.not_mem_nil
  data _ _ := rfl
  target _ hr := absurd hr List.not_mem_nil
  content _ hr := absurd hr List.not_mem_nil

theorem nodup_addresses (l : List Nat) (hn : l.Nodup) (hl : ∀ x ∈ l, 0 < x ∧ x < addresses) :
    l.length < addresses := by
  have hsub : (0 :: l).toFinset ⊆ Finset.range addresses := by
    intro x hx
    rcases List.mem_cons.mp (List.mem_toFinset.mp hx) with rfl | hx
    · exact Finset.mem_range.mpr (by decide)
    · exact Finset.mem_range.mpr (hl x hx).2
  have hnd : (0 :: l).Nodup :=
    List.nodup_cons.mpr ⟨fun h0 => absurd (hl 0 h0).1 (Nat.lt_irrefl 0), hn⟩
  have hcard := Finset.card_le_card hsub
  rwa [List.toFinset_card_of_nodup hnd, Finset.card_range] at hcard

theorem Saved.length (h0 h : Heap) (a3 : Nat) (recs : List Rec) (hs : Saved h0 h a3 recs) :
    recs.length < addresses := by
  rw [← List.length_map (f := Rec.copy)]
  refine nodup_addresses _ (Chains.linked_nodup hs.chain) (fun x hx => ?_)
  rcases List.mem_map.mp hx with ⟨r, hr, rfl⟩
  have hb := (hs.alloc r.block).mpr (Or.inr ⟨r, hr, rfl⟩)
  have hlt := hasBlock_lt h hs.ok r.block hb.1
  have hsize := (hs.size r hr).1
  unfold Rec.copy
  unfold Block.fin mcbData at *
  unfold svmbData at hsize
  unfold addresses
  omega

section

variable {h : Heap} {a fuel : Nat} {recs : List Rec} {loop : Nat → Heap → Nat → Option Heap}
  {pd : Heap → Nat}

/-- A loop that frees one copy after the other leaves the other blocks. -/
theorem freeLoop_frees (hnil : ∀ fuel h, loop (fuel + 1) h 0 = some h)
    (hcons : ∀ fuel h a, a ≠ 0 → loop (fuel + 1) h a =
      (mxfree h a (pd h)).bind fun p => loop fuel p.1 (h.mem a))
    (ok : HeapOk h) (table : Table h) (hchain : Chains.Linked h.mem 0 a (recs.map Rec.copy))
    (hf : recs.length < fuel)
    (hrecs : ∀ r ∈ recs, Alloc h r.block ∧ 0x1000 ≤ r.block.owner ∧ 0 < r.block.len) :
    ∃ h', loop fuel h a = some h' ∧ HeapOk h' ∧ Same h h' ∧
      (∀ c, Alloc h' c ↔ Alloc h c ∧ ∀ r ∈ recs, c ≠ r.block) ∧
      ∀ x, NoHeader h x → h'.mem x = h.mem x := by
  -- The induction is on the copies: freeing the first leaves a heap in which
  -- the others are still allocated and still linked.
  induction recs generalizing h a fuel with
  | nil =>
    obtain ⟨k, rfl⟩ : ∃ k, fuel = k + 1 := ⟨fuel - 1, by omega⟩
    have ha : a = 0 := hchain.1
    rw [ha, hnil]
    exact ⟨h, rfl, ok, Same.refl h, fun c => ⟨fun hc => ⟨hc, fun r hr => absurd hr
      List.not_mem_nil⟩, fun hc => hc.1⟩, fun _ _ => rfl⟩
  | cons r recs ih =>
    obtain ⟨k, rfl⟩ : ∃ k, fuel = k + 1 := ⟨fuel - 1, by omega⟩
    rcases (Chains.linked_cons _).mp hchain with ⟨ha, hne, hrest⟩
    have hnd := Chains.linked_nodup hchain
    rw [List.map_cons, List.nodup_cons] at hnd
    rcases hrecs r List.mem_cons_self with ⟨hb, hown, -⟩
    rcases mxfree_owned h ok table r.block hb (pd h) (Or.inr hown) with ⟨h1, hfree, hfrees⟩
    have hother : ∀ q ∈ recs, q.block ≠ r.block := by
      intro q hq hqr
      apply hnd.1
      have hcopy : q.copy = r.copy := by
        unfold Rec.copy
        rw [hqr]
      rw [← hcopy]
      exact List.mem_map_of_mem hq
    -- The links of the other copies lie in the data of allocated blocks.
    have hlinks : ∀ x ∈ recs.map Rec.copy, h1.mem x = h.mem x := by
      intro x hx
      rcases List.mem_map.mp hx with ⟨q, hq, rfl⟩
      rcases hrecs q (List.mem_cons_of_mem _ hq) with ⟨hqb, -, hlen⟩
      refine (hfrees.clear _ (data_noHeader h ok _ ⟨q.block, hqb, le_refl _, ?_⟩)).1
      unfold Block.fin
      omega
    have hrun : loop (k + 1) h a = loop k h1 (h.mem r.copy) := by
      have hfree' : mxfree h r.copy (pd h) = some (h1, 0) := hfree
      rw [ha, hcons k h r.copy hne, hfree', Option.bind_some]
    have hk : recs.length < k := by
      rw [List.length_cons] at hf
      omega
    have hrecs' : ∀ q ∈ recs, Alloc h1 q.block ∧ 0x1000 ≤ q.block.owner ∧ 0 < q.block.len := by
      intro q hq
      rcases hrecs q (List.mem_cons_of_mem _ hq) with ⟨hqb, hqo, hlen⟩
      exact ⟨(hfrees.alloc _).mpr ⟨hqb, hother q hq⟩, hqo, hlen⟩
    rcases ih hfrees.ok (table_same h h1 hfrees.same table) (Chains.linked_congr hrest hlinks)
      hk hrecs' with ⟨h', hloop, hok, hsame, hal, hclear⟩
    rw [hrun]
    refine ⟨h', hloop, hok, hfrees.same.trans _ _ _ hsame, fun c => ?_, fun x hx => ?_⟩
    · rw [hal c, hfrees.alloc c, and_assoc, List.forall_mem_cons]
    · have hx1 := hfrees.clear x hx
      rw [hclear x hx1.2, hx1.1]

theorem memsFreeloop_zero (fuel : Nat) (h : Heap) : memsFreeloop (fuel + 1) h 0 = some h := by
  unfold memsFreeloop
  rw [if_pos rfl]

theorem memsFreeloop_step (fuel : Nat) (h : Heap) (a : Nat) (ha : a ≠ 0) :
    memsFreeloop (fuel + 1) h a =
      (mxfree h a h.urPd).bind fun p => memsFreeloop fuel p.1 (h.mem a) := by
  conv_lhs => unfold memsFreeloop
  rw [if_neg ha]
  cases mxfree h a h.urPd with
  | none => rfl
  | some p => rfl

end

theorem moveLongs_other (m : Mem) (dst src n x : Nat) (hx : x < dst ∨ dst + n ≤ x) :
    moveLongs m dst src n x = m x := by
  unfold moveLongs
  rw [if_neg (by omega)]

theorem moveLongs_at (m : Mem) (dst src n k : Nat) (hk : k < n) (h4 : k % 4 = 0) :
    moveLongs m dst src n (dst + k) = m (src + k) := by
  unfold moveLongs
  rw [if_pos (by rw [Nat.add_sub_cancel_left]; omega), Nat.add_sub_cancel_left]

/-- What `_memsave` stores into the new block. -/
def copyStores (m : Mem) (d0 a3 a5 len : Nat) : Mem :=
  moveLongs (((m.put d0 a3).put (d0 + svmbAdr) a5).put (d0 + svmbLen) len) (d0 + svmbData) a5 len

theorem copyStores_other (m : Mem) (d0 a3 a5 len x : Nat)
    (hx : x < d0 ∨ d0 + svmbData + len ≤ x) : copyStores m d0 a3 a5 len x = m x := by
  unfold copyStores
  simp only [svmbAdr, svmbLen, svmbData] at *
  rw [moveLongs_other _ _ _ _ _ (by omega)]
  simp (disch := omega) only [put_other]

theorem copyStores_header (m : Mem) (d0 a3 a5 len : Nat) :
    copyStores m d0 a3 a5 len d0 = a3 ∧ copyStores m d0 a3 a5 len (d0 + svmbAdr) = a5 ∧
      copyStores m d0 a3 a5 len (d0 + svmbLen) = len := by
  unfold copyStores
  simp only [svmbAdr, svmbLen, svmbData]
  refine ⟨?_, ?_, ?_⟩
  · rw [moveLongs_other _ _ _ _ _ (by omega)]
    simp (disch := omega) only [put_self, put_other]
  · rw [moveLongs_other _ _ _ _ _ (by omega)]
    simp (disch := omega) only [put_self, put_other]
  · rw [moveLongs_other _ _ _ _ _ (by omega), put_self]

theorem copyStores_data (m : Mem) (d0 a3 a5 len k : Nat) (hk : k < len) (h4 : k % 4 = 0)
    (hx : a5 + k < d0 ∨ d0 + svmbData + len ≤ a5 + k) :
    copyStores m d0 a3 a5 len (d0 + svmbData + k) = m (a5 + k) := by
  unfold copyStores
  rw [moveLongs_at _ _ _ _ _ hk h4]
  simp only [svmbAdr, svmbLen, svmbData] at *
  simp (disch := omega) only [put_other]

/-- The block that made room is too large to be one that was copied. -/
theorem Takes.keeps {h h1 : Heap} {c : Block} (hc : Takes h h1 c) {n : Nat}
    (hlen : svmbData + n ≤ c.len) {b : Block} (hb : HasBlock h b) (hbl : b.len ≤ n) :
    HasBlock h1 b := by
  rcases hc.room with ⟨e, _, _, helo, hehi, hekeep⟩
  refine hekeep b hb fun hbe => ?_
  rw [hbe] at hbl
  unfold Block.fin mcbData at *
  unfold svmbData at hlen
  omega

/-- A block copied before cannot begin where the new one does. -/
theorem Takes.elsewhere {h h1 : Heap} (ok : HeapOk h) {c : Block} (hc : Takes h h1 c) {n : Nat}
    (hlen : svmbData + n ≤ c.len) {g : Block} (hg : HasBlock h g)
    (hfree : g.owner = 0 → g.len ≤ n) : g.adr ≠ c.adr := by
  intro hgc
  rcases hc.room with ⟨e, he, hefree, helo, hehi, _⟩
  have hge : g = e := by
    rcases hasBlock_apart h ok g e hg he with hge | hlt | hlt
    · exact hge
    all_goals
      unfold Block.fin mcbData at *
      omega
  subst hge
  have := hfree hefree
  unfold Block.fin mcbData at *
  unfold svmbData at hlen
  omega

theorem copy_saved (h0 h h1 : Heap) (a3 : Nat) (recs : List Rec) (hs : Saved h0 h a3 recs)
    (c d : Block) (hd : HasBlock h d) (hc : Takes h h1 c) (howner : c.owner = h0.urPd)
    (hlen : svmbData + d.len ≤ c.len)
    (hfree : ∀ r ∈ recs, ∀ e, HasBlock h e → e.owner = 0 → e.adr + mcbData = r.adr →
      e.len ≤ d.len) (m : Mem)
    (hm : m = copyStores h1.mem (c.adr + mcbData) a3 (d.adr + mcbData) d.len) :
    Saved h0 { h1 with mem := m } (c.adr + mcbData) (⟨c, d.adr + mcbData, d.len⟩ :: recs) ∧
      HasBlock { h1 with mem := m } d := by
  have hcin : Alloc h1 c := (hc.alloc c).mpr (Or.inr rfl)
  have hd1 := hc.keeps hlen hd (le_refl _)
  have hdc : d.fin ≤ c.adr ∨ c.fin ≤ d.adr := by
    rcases hasBlock_apart h1 hc.ok d c hd1 hcin.1 with hdc | happart
    · rw [hdc] at hlen
      unfold svmbData at hlen
      omega
    · exact happart
  have hin : c.adr + mcbData + svmbData + d.len ≤ c.fin := by
    unfold Block.fin
    omega
  have hout : ∀ x, x < c.adr + mcbData ∨ c.fin ≤ x → m x = h1.mem x := by
    intro x hx
    rw [hm]
    exact copyStores_other _ _ _ _ _ _ (by omega)
  have hcongr := heap_congr h1 hc.ok m (fun x hx => hout x (by
    by_contra hno
    exact hx (inside_noHeader h1 hc.ok c hcin.1 x (by omega) (by omega))))
  have hmalloc : ∀ b, Alloc { h1 with mem := m } b ↔ Alloc h b ∨ b = c := fun b =>
    (and_congr_left' (hcongr.2 b)).trans (hc.alloc b)
  -- The data of the blocks held before stay.
  have hkeep : ∀ x, Data h x → m x = h.mem x := by
    intro x hx
    rw [hout x, hc.clear x (data_noHeader h hs.ok x hx) (data_notFree h hs.ok x hx)]
    rcases hx with ⟨b, hb, hlo, hhi⟩
    have := hc.apart h h1 hs.ok c b hb
    omega
  have hcopy : ∀ r ∈ recs, ∀ k, k < svmbData + r.len → m (r.copy + k) = h.mem (r.copy + k) := by
    intro r hr k hk
    refine hkeep _ ⟨r.block, (hs.alloc _).mpr (Or.inr ⟨r, hr, rfl⟩), Nat.le_add_right _ _, ?_⟩
    have := (hs.size r hr).1
    unfold Rec.copy Block.fin
    omega
  refine ⟨⟨hcongr.1, (hs.same.trans _ _ _ hc.same).store _ _ m, ?_, ?_, ?_, ?_, ?_, ?_, ?_, ?_⟩,
    (hcongr.2 d).mpr hd1⟩
  · refine Chains.linked_push _ hs.chain (by unfold mcbData; omega) ?_ (fun y hy => ?_)
    · simp only [hm]
      exact (copyStores_header _ _ _ _ _).1
    · rcases List.mem_map.mp hy with ⟨r, hr, rfl⟩
      exact hcopy r hr 0 (by unfold svmbData; omega)
  · refine List.forall_mem_cons.mpr ⟨?_, fun r hr => ?_⟩
    · simp only [hm]
      exact (copyStores_header _ _ _ _ _).2
    · rw [← (hs.fields r hr).1, ← (hs.fields r hr).2]
      exact ⟨hcopy r hr svmbAdr (by unfold svmbAdr svmbData; omega),
        hcopy r hr svmbLen (by unfold svmbLen svmbData; omega)⟩
  · exact List.forall_mem_cons.mpr ⟨⟨hlen, howner⟩, hs.size⟩
  · intro b
    rw [hmalloc b, hs.alloc b]
    simp only [List.mem_cons, exists_eq_or_imp, or_assoc]
    exact or_congr_right or_comm
  · refine List.forall_mem_cons.mpr ⟨fun hold => ?_, hs.fresh⟩
    -- The new block would lie apart from itself.
    have := hc.apart h h1 hs.ok c c ((hs.alloc c).mpr (Or.inl hold))
    unfold Block.fin mcbData at this
    omega
  · intro x hx
    rcases hx with ⟨b, hb, hlo, hhi⟩
    rw [← hs.data x ⟨b, hb, hlo, hhi⟩]
    exact hkeep x ⟨b, (hs.alloc b).mpr (Or.inl hb), hlo, hhi⟩
  · refine List.forall_mem_cons.mpr ⟨⟨d, (hcongr.2 d).mpr hd1, rfl, rfl⟩, fun r hr => ?_⟩
    rcases hs.target r hr with ⟨b, hb, hadr, hblen⟩
    refine ⟨b, (hcongr.2 b).mpr ?_, hadr, hblen⟩
    by_cases hb0 : b.owner = 0
    · exact hc.keeps hlen hb (hfree r hr b hb hb0 hadr)
    · exact ((hc.alloc b).mpr (Or.inl ⟨hb, hb0⟩)).1
  · refine List.forall_mem_cons.mpr ⟨fun b _ _ k hk h4 => ?_, fun r hr b hb hadr k hk h4 => ?_⟩
    · have hx : d.adr + mcbData + k < c.adr + mcbData ∨
          c.adr + mcbData + svmbData + d.len ≤ d.adr + mcbData + k := by
        simp only at hk
        unfold Block.fin at *
        omega
      simp only [hm]
      rw [copyStores_other _ _ _ _ _ _ hx]
      exact copyStores_data _ _ _ _ _ k hk h4 hx
    · rcases hs.target r hr with ⟨g, hg, hgadr, hglen⟩
      have hbg : b.adr = g.adr := Nat.add_right_cancel (hadr.trans hgadr.symm)
      rcases (hmalloc b).mp hb with hbo | hbc
      · have hsame := hasBlock_same h hs.ok b g hbo.1 hg hbg
        have hx : m (r.adr + k) = h.mem (r.adr + k) := by
          refine hkeep _ ⟨b, hbo, by omega, ?_⟩
          rw [← hadr, hsame]
          unfold Block.fin
          omega
        have hcp := hcopy r hr (svmbData + k) (by omega)
        rw [← Nat.add_assoc] at hcp
        exact hcp.trans ((hs.content r hr b hbo hadr k hk h4).trans hx.symm)
      · exact absurd (hbg.symm.trans (congrArg Block.adr hbc)) (hc.elsewhere hs.ok hlen hg
          fun hg0 => hfree r hr g hg hg0 hgadr)

/-- All copies have been given up again. -/
def GivenUp (h0 h : Heap) : Prop :=
  HeapOk h ∧ Same h0 h ∧ (∀ c, Alloc h c ↔ Alloc h0 c) ∧ ∀ x, Data h0 x → h.mem x = h0.mem x

/-- Giving up all copies leaves the blocks there were before. -/
theorem Saved.givenUp (h0 h : Heap) (a3 : Nat) (recs : List Rec) (hs : Saved h0 h a3 recs)
    (table : Table h0) (hur : 0x1000 ≤ h0.urPd) :
    ∃ h', memsFreeloop addresses h a3 = some h' ∧ GivenUp h0 h' := by
  have hrecs : ∀ r ∈ recs, Alloc h r.block ∧ 0x1000 ≤ r.block.owner ∧ 0 < r.block.len := by
    intro r hr
    rcases hs.size r hr with ⟨hsize, hown⟩
    unfold svmbData at hsize
    exact ⟨(hs.alloc _).mpr (Or.inr ⟨r, hr, rfl⟩), by rw [hown]; exact hur, by omega⟩
  rcases freeLoop_frees memsFreeloop_zero memsFreeloop_step hs.ok
    (table_same h0 h hs.same table) hs.chain hs.length hrecs with
    ⟨h', hloop, hok, hsame, hal, hclear⟩
  refine ⟨h', hloop, hok, hs.same.trans _ _ _ hsame, fun c => ?_, fun x hx => ?_⟩
  · rw [hal c, hs.alloc c]
    constructor
    · rintro ⟨hc | ⟨r, hr, hcr⟩, hnot⟩
      · exact hc
      · exact absurd hcr (hnot r hr)
    · -- No block there was before is the block of a copy.
      exact fun hc => ⟨Or.inl hc, fun r hr hcr => hs.fresh r hr (hcr ▸ hc)⟩
  · rcases hx with ⟨d, hd, hlo, hhi⟩
    have hxh : Data h x := ⟨d, (hs.alloc d).mpr (Or.inl hd), hlo, hhi⟩
    rw [hclear x (data_noHeader h hs.ok x hxh)]
    exact hs.data x ⟨d, hd, hlo, hhi⟩

theorem memsave_spec (h0 h : Heap) (table : Table h0) (hur : 0x1000 ≤ h0.urPd) (excl : List Nat)
    (s : Regs) (recs : List Rec) (hs : Saved h0 h s.a3 recs) (d : Block) (hd : HasBlock h d)
    (ha5 : s.a5 = d.adr + mcbData) (ha0 : s.a0 ∉ excl)
    (hfree : ∀ r ∈ recs, ∀ e, HasBlock h e → e.owner = 0 → e.adr + mcbData = r.adr →
      e.len ≤ d.len) :
    (∃ h', memsave h excl s = some (h', none) ∧ GivenUp h0 h') ∨
      ∃ h' r, memsave h excl s = some (h', some ⟨r.copy + svmbData, r.copy, s.a5⟩) ∧
        r.adr = s.a5 ∧ Saved h0 h' r.copy (r :: recs) ∧ HasBlock h' d := by
  have hlt := hasBlock_lt h hs.ok d hd
  have hmcb : h.mem (mcbOf s.a5 + mcbLen) = d.len := by
    rw [ha5, mcbOf_data h hs.ok d hd, (hasBlock_len h d hd).1]
  have hround : svmbData + d.len ≤ roundUp (svmbData + d.len) := by
    unfold Block.fin mcbData at hlt
    unfold svmbData roundUp
    have h4 : 4 ∣ d.len := by
      rcases hd with ⟨i, bs, _, hbs, hin⟩
      exact hbs.tiled.sized d hin
    omega
  unfold memsave
  rw [if_neg ha0, hmcb]
  rcases mxalloc_spec h hs.ok (svmbData + d.len) 2 h.urPd hs.ok.urPd with
    ⟨h1, r, heq, ⟨hh, hr⟩ | ⟨_, c, hr, howner, hlen, hc⟩⟩
  · have hr0 : r = 0 := by
      refine hr.resolve_right (fun hc => ?_)
      unfold Block.fin mcbData at hlt
      unfold svmbData at hc
      omega
    rcases hs.givenUp h0 h s.a3 recs table hur with ⟨h', hloop, hup⟩
    rw [heq, hr0, hh]
    simp only [if_true, hloop, Option.map_some]
    exact Or.inl ⟨h', rfl, hup⟩
  · have hr0 : r ≠ 0 := by
      rw [hr]
      unfold mcbData
      omega
    have hcopy := copy_saved h0 h h1 s.a3 recs hs c d hd hc (howner.trans hs.same.urPd)
      (le_trans hround hlen) hfree _ rfl
    rw [← ha5, ← hr] at hcopy
    -- The length is read again, from a heap in which the block is still there.
    have hlen1 : ((h1.mem.put r s.a3).put (r + svmbAdr) s.a5) (mcbOf s.a5 + mcbLen) = d.len := by
      have hread := (hasBlock_len _ d hcopy.2).1
      have happart : d.fin ≤ c.adr ∨ c.fin ≤ d.adr := by
        have hcin := (hcopy.1.alloc c).mpr (Or.inr ⟨_, List.mem_cons_self, rfl⟩)
        rcases hasBlock_apart _ hcopy.1.ok d c hcopy.2 hcin.1 with hdc | happart
        · have hdclen := congrArg Block.len hdc
          unfold svmbData at hround hlen
          omega
        · exact happart
      have hlo : d.adr + mcbLen < r ∨ r + svmbData + d.len ≤ d.adr + mcbLen := by
        unfold Block.fin mcbData at *
        unfold mcbLen
        omega
      have hread : copyStores h1.mem r s.a3 s.a5 d.len (d.adr + mcbLen) = d.len := hread
      rw [copyStores_other _ _ _ _ _ _ hlo] at hread
      rw [ha5, mcbOf_data h hs.ok d hd]
      unfold svmbAdr svmbData at *
      simp (disch := omega) only [put_other]
      exact hread
    rw [heq]
    simp only [if_neg hr0, hlen1]
    refine Or.inr ⟨{ h1 with mem := copyStores h1.mem r s.a3 s.a5 d.len },
      ⟨c, s.a5, d.len⟩, ?_, rfl, ?_, hcopy.2⟩
    · unfold Rec.copy copyStores
      simp only [hr]
    · unfold Rec.copy
      simp only [← hr]
      exact hcopy.1

end Malloc

end MagiC
