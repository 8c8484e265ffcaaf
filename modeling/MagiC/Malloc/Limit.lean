import MagiC.Malloc.Run
import Mathlib.Algebra.BigOperators.Group.List.Basic

/-!
# The Memory Limit

What a process with a limit pays for its blocks and gets back for them.

`_malloc` compares the limit with the number of bytes asked for, but what it
takes off is the gross size of the block it hands out. When that is more than is
left, the limit stops at zero. `Mxfree` and the shrinking branch of `Mxshrink`
give the gross size back whatever was paid for it, so such a block leaves the
process with a higher limit than it had.

As long as every block is paid for in full the limit and the gross sizes of the
blocks held add up to no more than the limit at the start. `Affordable` is that
condition, on the heap before the call.

## Main definitions

* `Own`: The requests of one process for its own blocks.

## Theorems

* `limit_not_inflated`: With affordable requests the total never grows.
-/

namespace MagiC

namespace Malloc

/-- The length with which `_mal_found` hands out the block `b`. -/
def handed (amount : Nat) (b : Block) : Nat :=
  if b.len - amount ≤ mcbData then b.len else amount

def FirstFit (h : Heap) (amount list : Nat) (b : Block) : Prop :=
  ∃ pre post, RamList h.mem (h.root list) (h.memEnd list) (pre ++ [b] ++ post) ∧
    Fits amount b ∧ ∀ c ∈ pre, ¬ Fits amount c

def NoFit (h : Heap) (amount list : Nat) : Prop :=
  ∃ bs, RamList h.mem (h.root list) (h.memEnd list) bs ∧ ∀ b ∈ bs, ¬ Fits amount b

/-- The first fit over several lists, of which empty heads hold nothing. -/
def FirstIn (h : Heap) (amount : Nat) : List Nat → Block → Prop
  | [], _ => False
  | i :: is, b => (h.root i ≠ 0 ∧ FirstFit h amount i b) ∨
      ((h.root i = 0 ∨ NoFit h amount i) ∧ FirstIn h amount is b)

/-- The list heads from `list` on, up to the first empty one. -/
def ttLists (h : Heap) : Nat → Nat → List Nat
  | 0, _ => []
  | fuel + 1, list => if h.root list = 0 then [] else list :: ttLists h fuel (list + 1)

/-- The lists that `Mxalloc` searches, in order. -/
def searched (h : Heap) (mode : Nat) : List Nat :=
  if mode % 4 = 0 then [0]
  else if mode % 4 = 1 then ttLists h nblocks 2
  else if mode % 4 = 2 then 0 :: ttLists h nblocks 2
  else ttLists h nblocks 2 ++ [0]

/-- The limit covers the gross size of the block that would be handed out,
    unless the request is refused anyway. -/
def Affordable (h : Heap) (size mode pd : Nat) : Prop :=
  ∀ b, size ≠ 2 ^ 32 - 1 → roundUp size ≤ (h.pds pd).pMem →
    FirstIn h (roundUp size) (searched h mode) b →
    mcbData + handed (roundUp size) b ≤ (h.pds pd).pMem

/-- A request granted at `a`: it passed the check, and the first fit was handed
    out and taken off the limit, as far as there was any. -/
structure Paid (h h' : Heap) (pd a amount : Nat) (lists : List Nat) : Prop where
  limit : amount ≤ (h.pds pd).pMem
  first : ∃ b, FirstIn h amount lists b ∧ h'.mem (a + mcbLen) = handed amount b ∧
    (h'.pds pd).pMem = (h.pds pd).pMem - (mcbData + handed amount b)

theorem malFound_len (m : Mem) (amount pd : Nat) (b : Block) (h1 : m (b.adr + mcbLen) = b.len) :
    malFound m amount pd b.adr (b.adr + mcbLen) = handed amount b := by
  unfold malFound handed
  simp only [h1]
  by_cases hsmall : b.len - amount ≤ mcbData
  · rw [if_pos hsmall, if_pos hsmall, put_other _ _ _ _ (by unfold mcbLen mcbOwner; omega), h1]
  · rw [if_neg hsmall, if_neg hsmall]
    simp only [mcbLen, mcbOwner, mcbPrev, mcbData]
    split_ifs <;> simp (disch := omega) only [put_self, put_other]

theorem malloc_paid (h : Heap) (ok : HeapOk h) (amount list pd : Nat) (hl : list ≠ 1)
    (hn : list < nblocks) (hneg : (h.pds pd).pMem < 2 ^ 31) (h' : Heap) (r : Nat)
    (heq : malloc h amount true list pd = some (h', r)) :
    (r = 0 ∧ h' = h ∧
      (amount ≤ (h.pds pd).pMem → h.root list = 0 ∨ NoFit h amount list)) ∨
      (r ≠ 0 ∧ Paid h h' pd r amount [list]) := by
  unfold malloc at heq
  by_cases hr : h.root list = 0
  · rw [if_pos hr, Option.some.injEq, Prod.mk.injEq] at heq
    exact Or.inl ⟨heq.2.symm, heq.1.symm, fun _ => Or.inl hr⟩
  rw [if_neg hr] at heq
  by_cases hlim : (h.pds pd).pMem < amount
  · rw [if_pos ⟨rfl, hlim⟩, Option.some.injEq, Prod.mk.injEq] at heq
    exact Or.inl ⟨heq.2.symm, heq.1.symm, fun hle => absurd hlim (Nat.not_lt.mpr hle)⟩
  rw [if_neg (fun hc => hlim hc.2)] at heq
  have hi := isList_of_root h ok list hl hn hr
  rcases ok.lists list hi with ⟨bs, hbs⟩
  rcases malLoop_spec h.mem amount bs (h.extent list) 0 (h.root list) (h.memEnd list) hbs.linked
    hbs.tiled.span hbs.tiled.marked (span_length_le _ _ _ hbs.tiled.span) with
    ⟨hloop, hno⟩ | ⟨pre, b, post, rfl, hloop, hfit, hno⟩
  · rw [hloop] at heq
    simp only [Option.some.injEq, Prod.mk.injEq] at heq
    exact Or.inl ⟨heq.2.symm, heq.1.symm, fun _ => Or.inr ⟨bs, hbs, hno⟩⟩
  · rw [hloop] at heq
    have hin : HasBlock h b := ⟨list, _, hi, hbs, by simp⟩
    have hlen := malFound_len h.mem amount pd b (hasBlock_len h b hin).1
    have hpos : ¬ negative (h.pds pd).pMem = true := by
      unfold negative
      rw [decide_eq_true_eq]
      omega
    simp only [Option.some.injEq, Prod.mk.injEq, if_true, hlen, Heap.charge, if_neg hpos] at heq
    rcases heq with ⟨rfl, rfl⟩
    refine Or.inr ⟨hasBlock_adr_pos h b hin, Nat.not_lt.mp hlim, b,
      Or.inl ⟨hr, pre, post, hbs, hfit, hno⟩, hlen, ?_⟩
    simp only [Heap.setPd, if_true]

theorem mallocMode_paid (h : Heap) (ok : HeapOk h) (amount mode list pd : Nat) (hl : list ≠ 1)
    (hn : list < nblocks) (hneg : (h.pds pd).pMem < 2 ^ 31) (hmode : nolimit mode = false)
    (h' : Heap) (r : Nat) (heq : mallocMode h amount mode list pd = some (h', r)) :
    (r = 0 ∧ h' = h ∧
      (amount ≤ (h.pds pd).pMem → h.root list = 0 ∨ NoFit h amount list)) ∨
      ∃ a, r = a + mcbData ∧ Paid h h' pd a amount [list] := by
  unfold mallocMode at heq
  rw [hmode, Bool.not_false] at heq
  cases hm : malloc h amount true list pd with
  | none =>
    rw [hm] at heq
    cases heq
  | some x =>
    rcases x with ⟨h1, a⟩
    rw [hm] at heq
    simp only at heq
    rcases malloc_paid h ok amount list pd hl hn hneg h1 a hm with ⟨ha, hh, hno⟩ | ⟨ha, hpaid⟩
    · rw [if_pos ha, Option.some.injEq, Prod.mk.injEq] at heq
      exact Or.inl ⟨heq.2.symm, heq.1.symm.trans hh, hno⟩
    · rw [if_neg ha] at heq
      -- Marking the block as not to be freed stores into its owner field only.
      have hmark : ∀ v, Paid h { h1 with mem := h1.mem.put (a + mcbOwner) v } pd a amount
          [list] := by
        intro v
        rcases hpaid.first with ⟨b, hb, hlen, hmem⟩
        refine ⟨hpaid.limit, b, hb, ?_, hmem⟩
        rw [← hlen]
        exact put_other _ _ _ _ (by unfold mcbLen mcbOwner; omega)
      split_ifs at heq
      · rw [Option.some.injEq, Prod.mk.injEq] at heq
        rw [← heq.1]
        exact Or.inr ⟨a, heq.2.symm, hmark _⟩
      · rw [Option.some.injEq, Prod.mk.injEq] at heq
        rw [← heq.1]
        exact Or.inr ⟨a, heq.2.symm, hpaid⟩

theorem paid_cons (h h' : Heap) (pd a amount list : Nat) (lists : List Nat)
    (hno : amount ≤ (h.pds pd).pMem → h.root list = 0 ∨ NoFit h amount list)
    (hp : Paid h h' pd a amount lists) : Paid h h' pd a amount (list :: lists) := by
  rcases hp.first with ⟨b, hb, hlen, hmem⟩
  exact ⟨hp.limit, b, Or.inr ⟨hno hp.limit, hb⟩, hlen, hmem⟩

theorem firstIn_append (h : Heap) (amount : Nat) (is js : List Nat) (b : Block)
    (hb : FirstIn h amount is b) : FirstIn h amount (is ++ js) b := by
  induction is with
  | nil => exact absurd hb id
  | cons i is ih =>
    rcases hb with hb | ⟨hno, hb⟩
    · exact Or.inl hb
    · exact Or.inr ⟨hno, ih hb⟩

theorem paid_append (h h' : Heap) (pd a amount : Nat) (is js : List Nat)
    (hp : Paid h h' pd a amount is) : Paid h h' pd a amount (is ++ js) := by
  rcases hp.first with ⟨b, hb, hlen, hmem⟩
  exact ⟨hp.limit, b, firstIn_append h amount is js b hb, hlen, hmem⟩

theorem mxallocTt_paid (amount mode pd : Nat) (hmode : nolimit mode = false) :
    ∀ (fuel list : Nat) (h : Heap), HeapOk h → 1 < list → list < nblocks →
      (h.pds pd).pMem < 2 ^ 31 → ∀ (h' : Heap) (r : Nat),
      mxallocTt h amount mode pd fuel list = some (h', r) →
      (r = 0 ∧ h' = h ∧ ∀ js b, amount ≤ (h.pds pd).pMem → FirstIn h amount js b →
        FirstIn h amount (ttLists h fuel list ++ js) b) ∨
        ∃ a, r = a + mcbData ∧ Paid h h' pd a amount (ttLists h fuel list) := by
  intro fuel
  induction fuel with
  | zero => intro list h _ _ _ _ h' r heq; cases heq
  | succ k ih =>
    intro list h ok hl hn hneg h' r heq
    unfold mxallocTt at heq
    unfold ttLists
    by_cases hr : h.root list = 0
    · rw [if_pos hr, Option.some.injEq, Prod.mk.injEq] at heq
      rw [if_pos hr]
      exact Or.inl ⟨heq.2.symm, heq.1.symm, fun js b _ hb => hb⟩
    rw [if_neg hr] at heq ⊢
    cases hm : mallocMode h amount mode list pd with
    | none =>
      rw [hm] at heq
      cases heq
    | some x =>
      rcases x with ⟨h1, a⟩
      rw [hm] at heq
      simp only at heq
      rcases mallocMode_paid h ok amount mode list pd (by omega) hn hneg hmode h1 a hm with
        ⟨ha, hh, hno⟩ | ⟨e, ha, hpaid⟩
      · rw [if_pos ha, hh] at heq
        have hlast : list ≠ nblocks - 1 := fun hc => hr (hc ▸ ok.last)
        rcases ih (list + 1) h ok (by omega) (by omega) hneg h' r heq with
          ⟨hr0, hh', hall⟩ | ⟨e, hre, hpaid⟩
        · exact Or.inl ⟨hr0, hh', fun js b hle hb => Or.inr ⟨hno hle, hall js b hle hb⟩⟩
        · exact Or.inr ⟨e, hre, paid_cons h h' pd e amount list _ hno hpaid⟩
      · rw [if_neg (by rw [ha]; unfold mcbData; omega), Option.some.injEq, Prod.mk.injEq]
          at heq
        rw [← heq.1]
        exact Or.inr ⟨e, heq.2.symm.trans ha, paid_append h h1 pd e amount [list] _ hpaid⟩

/-- What `Mxalloc` does to the limit: nothing, unless it grants the request,
    and then the first fit over the lists of its mode was taken off. -/
theorem mxalloc_paid (h : Heap) (ok : HeapOk h) (size mode pd : Nat) (hsize : size ≠ 2 ^ 32 - 1)
    (hneg : (h.pds pd).pMem < 2 ^ 31) (hmode : nolimit mode = false) (h' : Heap) (r : Nat)
    (heq : mxalloc h size mode pd = some (h', r)) :
    (r = 0 ∧ h' = h) ∨
      ∃ a, r = a + mcbData ∧ Paid h h' pd a (roundUp size) (searched h mode) := by
  unfold mxalloc at heq
  unfold searched
  rw [if_neg hsize] at heq
  simp only at heq
  have hst := mallocMode_paid h ok (roundUp size) mode 0 pd (by omega) (by decide) hneg hmode
  have htt := mxallocTt_paid (roundUp size) mode pd hmode nblocks 2 h ok (by omega) (by decide)
    hneg
  by_cases h0 : mode % 4 = 0
  · rw [if_pos h0] at heq ⊢
    rcases hst h' r heq with ⟨hr, hh, _⟩ | hpaid
    · exact Or.inl ⟨hr, hh⟩
    · exact Or.inr hpaid
  rw [if_neg h0] at heq ⊢
  by_cases h1 : mode % 4 = 1
  · rw [if_pos h1] at heq ⊢
    rcases htt h' r heq with ⟨hr, hh, _⟩ | hpaid
    · exact Or.inl ⟨hr, hh⟩
    · exact Or.inr hpaid
  rw [if_neg h1] at heq ⊢
  by_cases h2 : mode % 4 = 2
  · rw [if_pos h2] at heq ⊢
    cases hm : mallocMode h (roundUp size) mode 0 pd with
    | none =>
      rw [hm] at heq
      cases heq
    | some x =>
      rcases x with ⟨g, a⟩
      rw [hm] at heq
      simp only at heq
      rcases hst g a hm with ⟨ha, hg, hno⟩ | ⟨e, ha, hpaid⟩
      · rw [if_pos ha, hg] at heq
        rcases htt h' r heq with ⟨hr, hh, _⟩ | ⟨e, hre, hpaid⟩
        · exact Or.inl ⟨hr, hh⟩
        · exact Or.inr ⟨e, hre, paid_cons h h' pd e _ 0 _ hno hpaid⟩
      · rw [if_neg (by rw [ha]; unfold mcbData; omega), Option.some.injEq, Prod.mk.injEq] at heq
        rw [← heq.1]
        exact Or.inr ⟨e, heq.2.symm.trans ha, paid_append h g pd e _ [0] _ hpaid⟩
  · rw [if_neg h2] at heq ⊢
    cases hm : mxallocTt h (roundUp size) mode pd nblocks 2 with
    | none =>
      rw [hm] at heq
      cases heq
    | some x =>
      rcases x with ⟨g, a⟩
      rw [hm] at heq
      simp only at heq
      rcases htt g a hm with ⟨ha, hg, hall⟩ | ⟨e, ha, hpaid⟩
      · rw [if_pos ha, hg] at heq
        rcases hst h' r heq with ⟨hr, hh, _⟩ | ⟨e, hre, hpaid⟩
        · exact Or.inl ⟨hr, hh⟩
        · rcases hpaid.first with ⟨b, hb, hlen, hmem⟩
          exact Or.inr ⟨e, hre, hpaid.limit, b, hall [0] b hpaid.limit hb, hlen, hmem⟩
      · rw [if_neg (by rw [ha]; unfold mcbData; omega), Option.some.injEq, Prod.mk.injEq] at heq
        rw [← heq.1]
        exact Or.inr ⟨e, heq.2.symm.trans ha, paid_append h g pd e _ _ [0] hpaid⟩

/-- What the code gives back on a call of `Mxfree` with result `r`. -/
def back (h : Heap) (a pd : Nat) (r : Int) : Nat :=
  if released h a pd r then mcbData + h.mem (a + mcbLen) else 0

theorem refund_le (h : Heap) (pd n : Nat) :
    ((h.refund pd n).pds pd).pMem ≤ (h.pds pd).pMem + n := by
  simp only [Heap.refund, Heap.setPd, if_true]
  exact min_le_left _ _

theorem mfreeBlock_refund (h : Heap) (a0 pd : Nat) (hpd : pd ≠ 0) (h' : Heap) (r : Int)
    (heq : mfreeBlock h a0 pd = some (h', r)) :
    (r = EIMBA ∧ h' = h) ∨ (r = 0 ∧
      (h'.pds pd).pMem ≤ (h.pds pd).pMem + (mcbData + h.mem (a0 + mcbLen))) := by
  unfold mfreeBlock at heq
  simp only [if_neg hpd] at heq
  by_cases hmagic : h.mem a0 ≠ KROM ∧ h.mem a0 ≠ ANDR
  · rw [if_pos hmagic, Option.some.injEq, Prod.mk.injEq] at heq
    exact Or.inl ⟨heq.2.symm, heq.1.symm⟩
  rw [if_neg hmagic] at heq
  by_cases hown : h.mem (a0 + mcbOwner) = 0
  · rw [if_pos hown, Option.some.injEq, Prod.mk.injEq] at heq
    exact Or.inl ⟨heq.2.symm, heq.1.symm⟩
  rw [if_neg hown] at heq
  split at heq
  · cases heq
  · rcases Option.map_eq_some_iff.mp heq with ⟨m, _, hm⟩
    rw [Prod.mk.injEq] at hm
    rw [← hm.1]
    exact Or.inr ⟨hm.2.symm, refund_le { h with mem := h.mem.put (a0 + mcbOwner) 0 } pd _⟩

theorem mfreeFree_refund (h : Heap) (a0 pd : Nat) (hpd : pd ≠ 0) (h' : Heap) (r : Int)
    (heq : mfreeFree h a0 pd = some (h', r)) :
    (h'.pds pd).pMem ≤ (h.pds pd).pMem + back h a0 pd r := by
  unfold mfreeFree at heq
  by_cases hshm : pd ≠ 0 ∧ h.mem (a0 + mcbOwner) < 0x1000
  · rw [if_pos hshm] at heq
    cases hlist : (h.pds pd).memlist with
    | none =>
      rw [hlist] at heq
      simp only [Option.some.injEq, Prod.mk.injEq] at heq
      rw [← heq.1]
      exact Nat.le_add_right _ _
    | some list =>
      rw [hlist] at heq
      simp only at heq
      cases hrem : shmRemove (a0 + mcbData) list with
      | none =>
        rw [hrem] at heq
        simp only [Option.some.injEq, Prod.mk.injEq] at heq
        rw [← heq.1]
        exact Nat.le_add_right _ _
      | some list' =>
        rw [hrem] at heq
        simp only at heq
        by_cases hrefs : (h.mem (a0 + mcbOwner) + (2 ^ 32 - 1)) % 2 ^ 32 = 0
        · -- The last reference: the length is the one the block had before.
          rw [if_neg (not_not.mpr hrefs)] at heq
          have hone : h.mem (a0 + mcbOwner) = 1 := by omega
          have hlen : ((h.mem.put (a0 + mcbOwner) ((h.mem (a0 + mcbOwner) + (2 ^ 32 - 1)) %
              2 ^ 32)).put (a0 + mcbOwner) pd) (a0 + mcbLen) = h.mem (a0 + mcbLen) := by
            rw [put_put, put_other _ _ _ _ (by unfold mcbLen mcbOwner; omega)]
          rcases mfreeBlock_refund _ a0 pd hpd h' r heq with ⟨_, hh⟩ | ⟨hr, hle⟩
          · rw [hh]
            simp only [Heap.setPd, if_true]
            exact Nat.le_add_right _ _
          · unfold back
            rw [if_pos ⟨hr, Or.inr (Or.inr hone)⟩]
            simp only [Heap.setPd, if_true, hlen] at hle
            exact hle
        · rw [if_pos hrefs, Option.some.injEq, Prod.mk.injEq] at heq
          rw [← heq.1]
          simp only [Heap.setPd, if_true]
          exact Nat.le_add_right _ _
  · rw [if_neg hshm] at heq
    rcases mfreeBlock_refund h a0 pd hpd h' r heq with ⟨_, hh⟩ | ⟨hr, hle⟩
    · rw [hh]
      exact Nat.le_add_right _ _
    · unfold back
      rw [if_pos ⟨hr, Or.inr (Or.inl (by omega))⟩]
      exact hle

/-- `Mxfree` gives back no more than the gross size of the block, and nothing
    when the block is not given up. -/
theorem mxfree_refund (h : Heap) (memblk pd : Nat) (hpd : pd ≠ 0) (h' : Heap) (r : Int)
    (heq : mxfree h memblk pd = some (h', r)) :
    (h'.pds pd).pMem ≤ (h.pds pd).pMem + back h (mcbOf memblk) pd r := by
  unfold mxfree at heq
  simp only at heq
  split_ifs at heq
  · rw [Option.some.injEq, Prod.mk.injEq] at heq
    rw [← heq.1]
    exact Nat.le_add_right _ _
  · exact mfreeFree_refund h _ pd hpd h' r heq
  · rw [Option.some.injEq, Prod.mk.injEq] at heq
    rw [← heq.1]
    exact Nat.le_add_right _ _
  · rw [Option.some.injEq, Prod.mk.injEq] at heq
    rw [← heq.1]
    exact Nat.le_add_right _ _

theorem mshShrink_refund (h : Heap) (ok : HeapOk h) (b : Block) (hb : HasBlock h b)
    (hown : b.owner ≠ 0) (d7 pd : Nat) (hpd : pd ≠ 0) (h4 : 4 ∣ d7) (hle : d7 ≤ b.len)
    (h' : Heap) (r : Int)
    (heq : mshShrink h b.adr (if b.magic = KROM then 0 else b.fin) d7 pd = some (h', r)) :
    (h'.pds pd).pMem + h'.mem (b.adr + mcbLen) ≤ (h.pds pd).pMem + b.len := by
  have hlen := (hasBlock_len h b hb).1
  by_cases hbig : b.len - d7 ≤ mcbData
  · unfold mshShrink at heq
    simp only [hlen, if_pos hbig, Option.some.injEq, Prod.mk.injEq] at heq
    rw [← heq.1, hlen]
  · rw [mshShrink_eq h b.adr _ d7 pd (by rw [hlen]; exact hbig)] at heq
    rcases cut_heap h ok b hb hown d7 h4 hbig _ rfl with ⟨hok, hhead, hrest, _⟩
    have hpaid := mxfree_refund _ _ pd hpd h' r heq
    rcases mxfree_block _ hok _ hrest pd with ⟨h'', r', heq', hfreed⟩
    rw [heq'] at heq
    rw [Option.some.injEq, Prod.mk.injEq] at heq
    rw [heq.1] at hfreed
    have hadr : b.adr ≠ b.adr + mcbData + d7 := by unfold mcbData; omega
    -- The front has the new length, and the rest is what `Mxfree` pays for.
    have hfront := (hasBlock_len h' _ (hfreed.keeps _ hhead hown hadr)).1
    have hback := (hasBlock_len _ _ hrest).1
    have hmcb := mcbOf_data _ hok _ hrest
    simp only at hfront hback hmcb hpaid
    rw [hmcb] at hpaid
    simp only [back, hback] at hpaid
    rw [hfront]
    split_ifs at hpaid <;> omega

theorem mxshrink_refund (h : Heap) (ok : HeapOk h) (b : Block) (hb : HasBlock h b)
    (hown : b.owner ≠ 0) (size pd : Nat) (h0 : size ≠ 0) (hpd : pd ≠ 0)
    (hneg : (h.pds pd).pMem < 2 ^ 31) :
    ∃ h' r, mxshrink h (b.adr + mcbData) size pd = some (h', r) ∧
      (h' = h ∨ Shrunk h h' b (roundUp size) ∧
        (h'.pds pd).pMem + h'.mem (b.adr + mcbLen) ≤ (h.pds pd).pMem + b.len) := by
  have hf := hb
  rcases hf with ⟨i, bs, hi, hbs, hin⟩
  have hf := linked_fields h.mem 0 bs hbs.linked b hin
  have hmagic := marked_magic bs hbs.tiled.marked b hin
  have hlimit : pd ≠ 0 ∧ (!negative (h.pds pd).pMem) = true := by
    unfold negative
    rw [Bool.not_eq_true', decide_eq_false_iff_not]
    exact ⟨hpd, by omega⟩
  unfold mxshrink
  rw [if_neg h0, mcbOf_data h ok b hb]
  simp only [hf.1, hf.2.1, hf.2.2, if_neg hown, if_pos hlimit]
  by_cases htop : 0xff000000 < b.adr
  · rw [if_pos htop]
    exact ⟨h, EIMBA, rfl, Or.inl rfl⟩
  rw [if_neg htop]
  rw [if_neg (fun hc => hmagic.elim hc.1 hc.2)]
  by_cases hask : size = 2 ^ 32 - 1
  · rw [if_pos hask]
    exact ⟨h, b.len, rfl, Or.inl rfl⟩
  rw [if_neg hask]
  by_cases heq : roundUp size = b.len
  · rw [if_pos heq]
    exact ⟨h, 0, rfl, Or.inl rfl⟩
  rw [if_neg heq]
  by_cases hlt : roundUp size < b.len
  · rw [if_pos hlt]
    rcases mshShrink_spec h ok b hb hown _ pd (roundUp_dvd size) (le_of_lt hlt) with
      ⟨h', r, hmsh, hsh⟩
    exact ⟨h', r, hmsh, Or.inr ⟨hsh, mshShrink_refund h ok b hb hown _ pd hpd (roundUp_dvd size)
      (le_of_lt hlt) h' r hmsh⟩⟩
  · -- A larger block is refused, whichever way.
    rw [if_neg hlt]
    split_ifs <;> exact ⟨h, EGSBF, rfl, Or.inl rfl⟩

/-- The requests of the process `pd`: blocks under its limit, and what it
    likes to do with the blocks it got. -/
def Own (pd : Nat) (s : World) : Call → Prop
  | .mxalloc size mode p => p = pd ∧ nolimit mode = false ∧ size < 2 ^ 32
  | .mallocLast _ _ => False
  | .mxfree memblk p => p = pd ∧ ∃ e ∈ s.held, memblk = e.adr + mcbData
  | .mxshrink memblk size p => p = pd ∧ (∃ e ∈ s.held, memblk = e.adr + mcbData) ∧ size < 2 ^ 32

/-- The process can pay for what it asks for. -/
def Pays (s : World) : Call → Prop
  | .mxalloc size mode pd => Affordable s.heap size mode pd
  | _ => True

/-- One request of the process `pd`. -/
def ownStep (pd : Nat) (s : World) (c : Call) (t : World) : Prop := Own pd s c ∧ exec s c = some t

/-- One request that the process can pay for. -/
def paidStep (pd : Nat) (s : World) (c : Call) (t : World) : Prop :=
  Pays s c ∧ ownStep pd s c t

/-- The gross sizes of the blocks held. -/
def grossSum (held : List Held) : Nat := (held.map (fun e => mcbData + e.len)).sum

/-- The limit and all that the process holds. -/
def total (pd : Nat) (s : World) : Nat := (s.heap.pds pd).pMem + grossSum s.held

/-- The world is in order, and the limit has not been inflated. -/
structure Within (pd limit : Nat) (s : World) : Prop where
  world : WorldOk s
  bound : total pd s ≤ limit

theorem grossSum_cons (e : Held) (held : List Held) :
    grossSum (e :: held) = mcbData + e.len + grossSum held := by
  unfold grossSum
  rw [List.map_cons, List.sum_cons]

theorem grossSum_filter (held : List Held) (e : Held) (he : e ∈ held)
    (hn : (held.map Held.adr).Nodup) :
    grossSum (held.filter (fun f => f.adr ≠ e.adr)) + (mcbData + e.len) = grossSum held := by
  induction held with
  | nil => exact absurd he List.not_mem_nil
  | cons f held ih =>
    rw [List.map_cons, List.nodup_cons] at hn
    rcases List.mem_cons.mp he with rfl | hin
    · -- No later block has this address, so only the first one goes.
      have hrest : held.filter (fun f => f.adr ≠ e.adr) = held := by
        refine List.filter_eq_self.mpr (fun f hf => ?_)
        rw [decide_eq_true_eq]
        exact fun hc => hn.1 (hc ▸ List.mem_map_of_mem hf)
      rw [List.filter_cons_of_neg (by simp), hrest, grossSum_cons]
      omega
    · have hne : f.adr ≠ e.adr := fun hc => hn.1 (hc ▸ List.mem_map_of_mem hin)
      rw [List.filter_cons_of_pos (by simp [hne]), grossSum_cons, grossSum_cons]
      have := ih hin hn.2
      omega

theorem grossSum_resize (held : List Held) (e g : Held) (he : e ∈ held)
    (hn : (held.map Held.adr).Nodup) (f : Held → Held) (hf : f e = g)
    (hother : ∀ d ∈ held, d.adr ≠ e.adr → f d = d) :
    grossSum (held.map f) + e.len = grossSum held + g.len := by
  induction held with
  | nil => exact absurd he List.not_mem_nil
  | cons d held ih =>
    rw [List.map_cons, List.nodup_cons] at hn
    have hrest : ∀ x ∈ held, x.adr ≠ e.adr → f x = x :=
      fun x hx => hother x (List.mem_cons_of_mem _ hx)
    rcases List.mem_cons.mp he with rfl | hin
    · have hsame : held.map f = held := by
        refine List.map_congr_left (fun x hx => ?_) |>.trans (List.map_id held)
        exact hrest x hx (fun hc => hn.1 (hc ▸ List.mem_map_of_mem hx))
      rw [List.map_cons, hsame, hf, grossSum_cons, grossSum_cons]
      omega
    · have hne : d.adr ≠ e.adr := fun hc => hn.1 (hc ▸ List.mem_map_of_mem hin)
      rw [List.map_cons, hother d List.mem_cons_self hne, grossSum_cons, grossSum_cons]
      have := ih hin hn.2 hrest
      omega

theorem mxalloc_within (pd limit : Nat) (s : World) (ok : Within pd limit s)
    (hlimit : limit < 2 ^ 31) (size mode : Nat) (hpd : pd ≠ 0) (hmode : nolimit mode = false)
    (hpays : Affordable s.heap size mode pd) (t : World)
    (heq : exec s (.mxalloc size mode pd) = some t) : Within pd limit t := by
  rcases exec_ok s ok.world (.mxalloc size mode pd) hpd with ⟨u, hu, huok⟩
  have hut : u = t := Option.some_injective _ (hu.symm.trans heq)
  rw [hut] at huok
  refine ⟨huok, ?_⟩
  rcases Option.map_eq_some_iff.mp heq with ⟨⟨h', r⟩, hm, rfl⟩
  have hbound := ok.bound
  unfold total at hbound ⊢
  simp only at hm ⊢
  rcases mxalloc_spec s.heap ok.world.heap size mode pd hpd with ⟨h'', r', heq', hcase⟩
  rw [hm, Option.some.injEq, Prod.mk.injEq] at heq'
  rw [← heq'.1, ← heq'.2] at hcase
  rcases hcase with ⟨hh, hr⟩ | ⟨hsize, n, hr, _, _, htakes⟩
  · -- Nothing was handed out.
    rw [if_pos (Or.symm hr), hh]
    exact hbound
  · have hmcb := mcbOf_data h' htakes.ok n ((htakes.alloc n).mpr (Or.inr rfl)).1
    have hr0 : r ≠ 0 := by
      rw [hr]
      unfold mcbData
      omega
    rcases mxalloc_paid s.heap ok.world.heap size mode pd hsize (by omega) hmode h' r hm with
      ⟨hr', _⟩ | ⟨e, hre, hpaid⟩
    · exact absurd hr' hr0
    · have hea : e = n.adr := Nat.add_right_cancel (hre.symm.trans hr)
      rw [hea] at hpaid
      rcases hpaid.first with ⟨b, hb, hlen, hmem⟩
      have hfull := hpays b hsize hpaid.limit hb
      have hnew : (hand h' n.adr).len = handed (roundUp size) b := hlen
      rw [if_neg (fun hc => hc.elim hsize hr0), grossSum_cons, hmem, hr, hmcb, hnew]
      omega

theorem free_within (pd limit : Nat) (s : World) (ok : Within pd limit s) (hpd : pd ≠ 0)
    (e : Held) (he : e ∈ s.held) (t : World) (h' : Heap) (r : Int)
    (hm : mxfree s.heap (e.adr + mcbData) pd = some (h', r))
    (ht : t = s.free h' e.adr pd r) : Within pd limit t := by
  rcases ok.world.held e he with ⟨b, hb, hadr, hlen, _⟩
  rw [← hadr] at hm ht
  rcases mxfree_block s.heap ok.world.heap b hb pd with ⟨h'', r', heq', hfreed⟩
  rw [hm, Option.some.injEq, Prod.mk.injEq] at heq'
  rw [← heq'.1, ← heq'.2] at hfreed
  have hback := mxfree_refund s.heap (b.adr + mcbData) pd hpd h' r hm
  rw [mcbOf_data s.heap ok.world.heap b hb] at hback
  unfold back at hback
  rw [(hasBlock_len s.heap b hb).1] at hback
  refine ⟨by rw [ht]; exact free_worldOk s ok.world h' b pd r hb hfreed, ?_⟩
  have hbound := ok.bound
  rw [ht]
  unfold total World.free at *
  by_cases hrel : released s.heap b.adr pd r
  · have hsum := grossSum_filter s.held e he ok.world.nodup
    rw [← hadr, ← hlen] at hsum
    rw [if_pos hrel] at hback ⊢
    simp only
    omega
  · rw [if_neg hrel] at hback ⊢
    simp only
    omega

theorem shrink_within (pd limit : Nat) (s : World) (ok : Within pd limit s)
    (hlimit : limit < 2 ^ 31) (hpd : pd ≠ 0) (e : Held) (he : e ∈ s.held) (size : Nat)
    (h0 : size ≠ 0) (t : World)
    (heq : exec s (.mxshrink (e.adr + mcbData) size pd) = some t) : Within pd limit t := by
  rcases ok.world.held e he with ⟨b, hb, hadr, hlen, hown⟩
  have hbound := ok.bound
  unfold total at hbound
  rw [← hadr] at heq
  rcases mxshrink_refund s.heap ok.world.heap b hb hown size pd h0 hpd (by omega) with
    ⟨h', r, hm, hcase⟩
  simp only [exec, hm, Option.map_some, if_neg h0, mcbOf_data s.heap ok.world.heap b hb,
    Option.some.injEq] at heq
  rw [← heq]
  rcases hcase with rfl | ⟨hsh, hback⟩
  · refine ⟨shrink_worldOk s ok.world s.heap b ok.world.heap (fun c hc _ _ => hc)
      (fun ho => ⟨b, hb, rfl, ho⟩) hb, ?_⟩
    -- Every length is read again, and is what it was.
    have hsame : s.held.map (fun f => if f.adr = b.adr then hand s.heap f.adr else f) = s.held := by
      refine List.map_congr_left (fun f hf => ?_) |>.trans (List.map_id s.held)
      split_ifs
      · rcases ok.world.held f hf with ⟨c, hc, hcf, hcl, _⟩
        unfold hand
        rw [← hcf, (hasBlock_len s.heap c hc).1, hcl, hcf]
        rfl
      · rfl
    unfold total
    rw [hsame]
    exact hbound
  · rcases hsh.held with ⟨c, hc, hca, hco, _, _⟩
    refine ⟨shrink_worldOk s ok.world h' b hsh.ok hsh.keeps
      (fun ho => ⟨c, hc, hca, by rw [hco]; exact ho⟩) hb, ?_⟩
    have hsum := grossSum_resize s.held e (hand h' b.adr) he ok.world.nodup
      (fun f => if f.adr = b.adr then hand h' f.adr else f)
      (by simp only [hadr, if_true]) (fun d _ hd => if_neg (by rw [hadr]; exact hd))
    have hnew : (hand h' b.adr).len = h'.mem (b.adr + mcbLen) := rfl
    rw [hnew, ← hlen] at hsum
    unfold total
    simp only
    omega

theorem paidStep_within (pd limit : Nat) (hpd : pd ≠ 0) (hlimit : limit < 2 ^ 31) (s : World)
    (c : Call) (t : World) (ok : Within pd limit s) (hstep : paidStep pd s c t) :
    Within pd limit t := by
  rcases hstep with ⟨hpays, hown, heq⟩
  cases c with
  | mxalloc size mode p =>
    rcases hown with ⟨rfl, hmode, _⟩
    exact mxalloc_within p limit s ok hlimit size mode hpd hmode hpays t heq
  | mallocLast amount list => exact absurd hown id
  | mxfree memblk p =>
    rcases hown with ⟨rfl, e, he, rfl⟩
    rcases ok.world.held e he with ⟨b, hb, hadr, _⟩
    have hmcb := mcbOf_data s.heap ok.world.heap b hb
    rw [hadr] at hmcb
    rcases Option.map_eq_some_iff.mp heq with ⟨⟨h', r⟩, hm, ht⟩
    rw [hmcb] at ht
    exact free_within p limit s ok hpd e he t h' r hm ht.symm
  | mxshrink memblk size p =>
    rcases hown with ⟨rfl, ⟨e, he, rfl⟩, _⟩
    by_cases h0 : size = 0
    · rcases ok.world.held e he with ⟨b, hb, hadr, _⟩
      have hmcb := mcbOf_data s.heap ok.world.heap b hb
      rw [hadr] at hmcb
      rcases Option.map_eq_some_iff.mp heq with ⟨⟨h', r⟩, hm, ht⟩
      simp only [if_pos h0, hmcb] at ht
      unfold mxshrink at hm
      rw [if_pos h0] at hm
      exact free_within p limit s ok hpd e he t h' r hm ht.symm
    · exact shrink_within p limit s ok hlimit hpd e he size h0 t heq

/-- From a well formed heap in which the process holds nothing yet, requests
    that it can pay for keep the total at or below the limit, and once it holds
    nothing again the limit is no higher than it was. -/
theorem limit_not_inflated (h : Heap) (ok : HeapOk h) (pd : Nat) (hpd : pd ≠ 0)
    (hlimit : (h.pds pd).pMem < 2 ^ 31) (calls : List Call) (t : World)
    (hrun : Runs.Run (paidStep pd) ⟨h, []⟩ calls t) :
    total pd t ≤ (h.pds pd).pMem ∧ (t.held = [] → (t.heap.pds pd).pMem ≤ (h.pds pd).pMem) := by
  have hstart : Within pd (h.pds pd).pMem ⟨h, []⟩ :=
    ⟨⟨ok, fun e he => absurd he List.not_mem_nil, List.nodup_nil⟩, le_refl _⟩
  have hend := Runs.run_preserves (paidStep pd) (Within pd (h.pds pd).pMem)
    (fun s c t => paidStep_within pd _ hpd hlimit s c t) _ t calls hrun hstart
  refine ⟨hend.bound, fun hnil => ?_⟩
  have hbound := hend.bound
  unfold total at hbound
  rw [hnil] at hbound
  exact hbound

/-- One free block from 4096 to 8192, and a process with the limit `n`. -/
def limited (n : Nat) : Heap := (oneList freshMem 4096 8192).setPd 0x8000 ⟨n, none⟩

theorem heapOk_limited (n : Nat) : HeapOk (limited n) :=
  heapOk_setPd _ _ _ (heapOk_oneList freshMem 4096 8192 _ (by decide) (by decide) freshMem_ramList)

theorem affordable_limited (n : Nat) (hn : 116 ≤ n) : Affordable (limited n) 100 0 0x8000 := by
  rintro b _ _ (⟨_, pre, post, hlist, _, _⟩ | ⟨_, hb⟩)
  · have heq := ramList_unique freshMem 4096 8192 8192 _ _ hlist freshMem_ramList
    have hin : b ∈ pre ++ [b] ++ post := by simp
    rw [heq, List.mem_singleton] at hin
    rw [hin]
    exact hn
  · exact absurd hb id

theorem limited_runs (n : Nat) (h' h'' : Heap)
    (halloc : mxalloc (limited n) 100 0 0x8000 = some (h', 4112)) (hlen : h'.mem 4100 = 100)
    (hown : 0x1000 ≤ h'.mem 4104) (hfree : mxfree h' 4112 0x8000 = some (h'', 0)) :
    ownStep 0x8000 ⟨limited n, []⟩ (.mxalloc 100 0 0x8000) ⟨h', [⟨4096, 100⟩]⟩ ∧
      ownStep 0x8000 ⟨h', [⟨4096, 100⟩]⟩ (.mxfree 4112 0x8000) ⟨h'', []⟩ := by
  have hhand : hand h' (mcbOf 4112) = ⟨4096, 100⟩ := by
    unfold hand
    rw [show mcbOf 4112 = 4096 from rfl, show 4096 + mcbLen = 4100 from rfl, hlen]
  have hrel : released h' (mcbOf 4112) 0x8000 0 := ⟨rfl, Or.inr (Or.inl hown)⟩
  refine ⟨⟨⟨rfl, rfl, by decide⟩, ?_⟩, ⟨⟨rfl, _, List.mem_singleton_self _, rfl⟩, ?_⟩⟩
  · simp only [exec, halloc, Option.map_some, hhand]
    rw [if_neg (by decide)]
  · simp only [exec, hfree, Option.map_some, World.free, if_pos hrel]
    rfl

/-- A block is handed out, paid for in full, and taken back. -/
theorem limit_not_inflated_enough :
    ∃ t, Runs.Run (paidStep 0x8000) ⟨limited 1000, []⟩
        [.mxalloc 100 0 0x8000, .mxfree 4112 0x8000] t ∧
      (t.held = [] → (t.heap.pds 0x8000).pMem ≤ 1000) := by
  obtain ⟨h', h'', halloc, hlen, hown, hfree⟩ : ∃ h' h'',
      mxalloc (limited 1000) 100 0 0x8000 = some (h', 4112) ∧ h'.mem 4100 = 100 ∧
        0x1000 ≤ h'.mem 4104 ∧ mxfree h' 4112 0x8000 = some (h'', 0) :=
    ⟨_, _, rfl, rfl, by decide, rfl⟩
  rcases limited_runs 1000 h' h'' halloc hlen hown hfree with ⟨h1, h2⟩
  have hrun : Runs.Run (paidStep 0x8000) ⟨limited 1000, []⟩
      [.mxalloc 100 0 0x8000, .mxfree 4112 0x8000] ⟨h'', []⟩ :=
    .cons _ _ _ _ _ ⟨affordable_limited 1000 (by decide), h1⟩
      (.cons _ _ _ _ _ ⟨trivial, h2⟩ (.nil _))
  exact ⟨_, hrun, (limit_not_inflated _ (heapOk_limited 1000) 0x8000 (by decide) (by decide) _ _
    hrun).2⟩

/-- A hundred bytes pass the check of a limit of a hundred, take all of it, and
    give back sixteen more when they are freed. -/
theorem limit_inflated :
    HeapOk (limited 100) ∧ ((limited 100).pds 0x8000).pMem = 100 ∧
      ∃ s t, Runs.Run (ownStep 0x8000) ⟨limited 100, []⟩ [.mxalloc 100 0 0x8000] s ∧
        total 0x8000 s = 116 ∧
        Runs.Run (ownStep 0x8000) s [.mxfree 4112 0x8000] t ∧
        t.held = [] ∧ (t.heap.pds 0x8000).pMem = 116 := by
  obtain ⟨h', h'', halloc, hlen, hown, hnone, hfree, hback⟩ : ∃ h' h'',
      mxalloc (limited 100) 100 0 0x8000 = some (h', 4112) ∧ h'.mem 4100 = 100 ∧
        0x1000 ≤ h'.mem 4104 ∧ (h'.pds 0x8000).pMem = 0 ∧
        mxfree h' 4112 0x8000 = some (h'', 0) ∧ (h''.pds 0x8000).pMem = 116 :=
    ⟨_, _, rfl, rfl, by decide, rfl, rfl, rfl⟩
  rcases limited_runs 100 h' h'' halloc hlen hown hfree with ⟨h1, h2⟩
  refine ⟨heapOk_limited 100, rfl, _, _, .cons _ _ _ _ _ h1 (.nil _), ?_,
    .cons _ _ _ _ _ h2 (.nil _), rfl, hback⟩
  unfold total
  rw [hnone]
  rfl

end Malloc

end MagiC
