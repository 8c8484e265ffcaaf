import MagiC.Malloc.Limit

/-!
# Asking for the Largest Block

Whether what `Memxavail` returns is what `Mxalloc` can hand out.

Both look at the same lists, in whatever order. Every block has a length that is a multiple of four,
so a request for the largest one is not rounded up.

The limit may be any number. If it is the answer and not a multiple of four, the request is
rounded up before it is compared with the limit, and refused: the answer should have been rounded
down, as a comment in `Memxavail` has it. More than the answer is never handed out.

## Main definitions

* `ListFits`: A list with a block that is large enough.

## Theorems

* `offered_iff`: When a request for the answer is granted.
-/

namespace MagiC

namespace Malloc

/-- A RAM list with a free block of at least `amount` bytes. -/
def ListFits (h : Heap) (amount list : Nat) : Prop :=
  h.root list ≠ 0 ∧
    ∃ bs, RamList h.mem (h.root list) (h.memEnd list) bs ∧ ∃ b ∈ bs, Fits amount b

/-- A length that a block can have. -/
def IsLength (n : Nat) : Prop := 4 ∣ n ∧ n + 3 < 2 ^ 32

/-- The process may ask for `amount` bytes. -/
def Allowed (h : Heap) (amount mode pd : Nat) : Prop :=
  nolimit mode = true ∨ amount ≤ (h.pds pd).pMem

/-- Whatever the query answers, a request for it is granted, with a block of at least that size,
    and every larger one is refused and changes nothing. -/
def Offered (h : Heap) (mode pd : Nat) : Prop :=
  ∀ n, memxavail h mode pd = some n →
    (0 < n → ∃ h' a, mxalloc h n mode pd = some (h', a) ∧ Granted h h' a n mode pd) ∧
      ∀ m, n < m → m < 2 ^ 31 → mxalloc h m mode pd = some (h, 0)

section

variable (h : Heap) (ok : HeapOk h)
include ok

theorem malloc_refuses_iff (amount list pd : Nat) (limit : Bool) (hl : list ≠ 1)
    (hn : list < nblocks) :
    malloc h amount limit list pd = some (h, 0) ↔
      ¬ (ListFits h amount list ∧ (limit = true → amount ≤ (h.pds pd).pMem)) := by
  unfold malloc ListFits
  by_cases hr : h.root list = 0
  · rw [if_pos hr]
    exact ⟨fun _ hfit => hfit.1.1 hr, fun _ => rfl⟩
  rw [if_neg hr]
  by_cases hlim : limit ∧ (h.pds pd).pMem < amount
  · rw [if_pos hlim]
    exact ⟨fun _ hfit => absurd (hfit.2 hlim.1) (by omega), fun _ => rfl⟩
  rw [if_neg hlim]
  have hallowed : limit = true → amount ≤ (h.pds pd).pMem := fun hlimit =>
    Nat.le_of_not_lt fun hlt => hlim ⟨hlimit, hlt⟩
  have hi := isList_of_root h ok list hl hn hr
  rcases ok.lists list hi with ⟨bs, hbs⟩
  rcases malLoop_spec h.mem amount bs (h.extent list) 0 (h.root list) (h.memEnd list) hbs.linked
    hbs.tiled.span hbs.tiled.marked (span_length_le _ _ _ hbs.tiled.span) with
    ⟨heq, hno⟩ | ⟨pre, b, post, rfl, heq, hfit, -⟩
  · rw [heq]
    refine ⟨fun _ hfit => ?_, fun _ => rfl⟩
    rcases hfit.1.2 with ⟨cs, hcs, b, hb, hbfit⟩
    rw [ramList_unique _ _ _ _ _ _ hcs hbs] at hb
    exact hno b hb hbfit
  · rw [heq]
    have hmem : b ∈ pre ++ [b] ++ post := by simp
    refine ⟨fun hrun => ?_, fun hno => absurd ⟨⟨hr, _, hbs, b, hmem, hfit⟩, hallowed⟩ hno⟩
    -- The block that is handed out does not lie at address 0.
    have hadr : b.adr = 0 := (Prod.mk.inj (Option.some.inj hrun)).2
    exact absurd hadr (hasBlock_adr_pos h b ⟨list, _, hi, hbs, hmem⟩)

theorem mallocMode_refuses_iff (amount mode list pd : Nat) (hl : list ≠ 1) (hn : list < nblocks)
    (h4 : 4 ∣ amount) (hpd : pd ≠ 0) :
    mallocMode h amount mode list pd = some (h, 0) ↔
      ¬ (ListFits h amount list ∧ Allowed h amount mode pd) := by
  have hallowed : Allowed h amount mode pd ↔
      ((!nolimit mode) = true → amount ≤ (h.pds pd).pMem) := by
    unfold Allowed
    cases nolimit mode
    · simp only [Bool.false_eq_true, false_or, Bool.not_false, forall_const]
    · simp only [true_or, Bool.not_true, Bool.false_eq_true, false_implies]
  rw [hallowed, ← malloc_refuses_iff h ok amount list pd (!nolimit mode) hl hn]
  unfold mallocMode
  rcases malloc_spec h ok amount list pd (!nolimit mode) hl hn h4 hpd with
    ⟨h', r, heq, ⟨rfl, rfl⟩ | ⟨b, rfl, -, -, ht⟩⟩
  · rw [heq]
    exact ⟨fun _ => rfl, fun _ => by simp only [if_true]⟩
  · have hadr := hasBlock_adr_pos h' b ((ht.alloc b).mpr (Or.inr rfl)).1
    rw [heq]
    simp only [if_neg hadr]
    refine ⟨fun hrun => ?_, fun hrun => ?_⟩
    · split at hrun
      · exact absurd (Prod.mk.inj (Option.some.inj hrun)).2 (by unfold mcbData; omega)
      · exact absurd (Prod.mk.inj (Option.some.inj hrun)).2 (by unfold mcbData; omega)
    · exact absurd (Prod.mk.inj (Option.some.inj hrun)).2 hadr

omit ok in
theorem refuses_both (f g : Heap → Option (Heap × Nat)) (P Q : Prop)
    (hf : f h = some (h, 0) ↔ ¬ P) (hg : g h = some (h, 0) ↔ ¬ Q)
    (hcase : f h = some (h, 0) ∨ ∃ h' a, f h = some (h', a) ∧ a ≠ 0) :
    (match f h with
      | none => none
      | some (h', a) => if a = 0 then g h' else some (h', a)) = some (h, 0) ↔ ¬ (P ∨ Q) := by
  rcases hcase with hno | ⟨h', a, hrun, ha⟩
  · rw [hno]
    simp only [if_true]
    rw [hg, not_or]
    exact ⟨fun hq => ⟨hf.mp hno, hq⟩, fun hpq => hpq.2⟩
  · rw [hrun]
    simp only [if_neg ha]
    have hp : ¬ ¬ P := fun hp => by
      have h0 := (hrun.symm.trans (hf.mpr hp))
      exact ha (Prod.mk.inj (Option.some.inj h0)).2
    refine ⟨fun h0 => absurd (Prod.mk.inj (Option.some.inj h0)).2 ha, fun hpq => ?_⟩
    exact absurd (fun hp' => hpq (.inl hp')) hp

theorem mallocMode_cases (amount mode list pd : Nat) (hl : list ≠ 1) (hn : list < nblocks)
    (h4 : 4 ∣ amount) (hpd : pd ≠ 0) :
    mallocMode h amount mode list pd = some (h, 0) ∨
      ∃ h' a, mallocMode h amount mode list pd = some (h', a) ∧ a ≠ 0 := by
  rcases mallocMode_spec h ok amount mode list pd hl hn h4 hpd with
    ⟨h', r, heq, ⟨rfl, rfl⟩ | hg⟩
  · exact .inl heq
  · exact .inr ⟨h', r, heq, granted_ne_zero _ _ _ _ _ _ hg⟩

theorem mxallocTt_refuses_iff (amount mode pd : Nat) (h4 : 4 ∣ amount) (hpd : pd ≠ 0)
    (fuel list : Nat) (hl : 1 < list) (hn : list < nblocks) (hf : nblocks ≤ list + fuel) :
    mxallocTt h amount mode pd fuel list = some (h, 0) ↔
      ¬ ((∃ i ∈ ttLists h fuel list, ListFits h amount i) ∧ Allowed h amount mode pd) := by
  induction fuel generalizing list with
  | zero => exact absurd hf (by omega)
  | succ fuel ih =>
    unfold mxallocTt ttLists
    by_cases hr : h.root list = 0
    · rw [if_pos hr, if_pos hr]
      exact ⟨fun _ hfit => by simp only [List.not_mem_nil, false_and, exists_false] at hfit,
        fun _ => rfl⟩
    rw [if_neg hr, if_neg hr]
    have hlast : list ≠ nblocks - 1 := fun hc => hr (hc ▸ ok.last)
    have hrest := ih (list + 1) (by omega) (by omega) (by omega)
    have hfirst := mallocMode_refuses_iff h ok amount mode list pd (by omega) hn h4 hpd
    have hcase := mallocMode_cases h ok amount mode list pd (by omega) hn h4 hpd
    refine (refuses_both h (fun h => mallocMode h amount mode list pd)
      (fun h => mxallocTt h amount mode pd fuel (list + 1)) _ _ hfirst hrest hcase).trans ?_
    rw [← or_and_right, List.exists_mem_cons_iff]

/-- `Mxalloc` refuses a request if and only if it is over the limit or no list that the mode
    selects has a block that is large enough. -/
theorem mxalloc_refuses_iff (size mode pd : Nat) (hsize : size ≠ 2 ^ 32 - 1) (hpd : pd ≠ 0) :
    mxalloc h size mode pd = some (h, 0) ↔
      ¬ ((∃ i ∈ searched h mode, ListFits h (roundUp size) i) ∧
        Allowed h (roundUp size) mode pd) := by
  have h4 := roundUp_dvd size
  have hst := mallocMode_refuses_iff h ok (roundUp size) mode 0 pd (by omega) (by decide) h4 hpd
  have htt := mxallocTt_refuses_iff h ok (roundUp size) mode pd h4 hpd nblocks 2 (by omega)
    (by decide) (by omega)
  have hcase := mallocMode_cases h ok (roundUp size) mode 0 pd (by omega) (by decide) h4 hpd
  have hcase' : mxallocTt h (roundUp size) mode pd nblocks 2 = some (h, 0) ∨
      ∃ h' a, mxallocTt h (roundUp size) mode pd nblocks 2 = some (h', a) ∧ a ≠ 0 := by
    rcases mxallocTt_spec (roundUp size) mode pd h4 hpd nblocks 2 h ok (by omega) (by decide)
      (by omega) with ⟨h', r, heq, ⟨rfl, rfl⟩ | hg⟩
    · exact .inl heq
    · exact .inr ⟨h', r, heq, granted_ne_zero _ _ _ _ _ _ hg⟩
  unfold mxalloc searched
  rw [if_neg hsize]
  simp only
  split_ifs
  · rw [hst]
    simp only [List.mem_singleton, exists_eq_left]
  · exact htt
  · refine (refuses_both h (fun h => mallocMode h (roundUp size) mode 0 pd)
      (fun h => mxallocTt h (roundUp size) mode pd nblocks 2) _ _ hst htt hcase).trans ?_
    rw [← or_and_right, List.exists_mem_cons_iff]
  · refine (refuses_both h (fun h => mxallocTt h (roundUp size) mode pd nblocks 2)
      (fun h => mallocMode h (roundUp size) mode 0 pd) _ _ htt hst hcase').trans ?_
    rw [← or_and_right]
    simp only [List.mem_append, List.mem_singleton, or_and_right, exists_or, exists_eq_left]

omit ok in
theorem le_largest_iff (amount best : Nat) (bs : List Block) :
    amount ≤ largest best bs ↔ amount ≤ best ∨ ∃ b ∈ bs, Fits amount b := by
  induction bs generalizing best with
  | nil => simp only [largest, List.not_mem_nil, false_and, exists_false, or_false]
  | cons b bs ih =>
    have hbest : amount ≤ (if b.owner = 0 ∧ best < b.len then b.len else best) ↔
        amount ≤ best ∨ Fits amount b := by
      unfold Fits
      split
      · rename_i hlarger
        exact ⟨fun hle => .inr ⟨hlarger.1, hle⟩, fun hor => hor.elim (by omega) fun hfit => hfit.2⟩
      · rename_i hno
        refine ⟨.inl, fun hor => hor.elim id fun hfit => ?_⟩
        have hle : ¬ best < b.len := fun hlt => hno ⟨hfit.1, hlt⟩
        omega
    unfold largest
    rw [ih, hbest, or_assoc, List.exists_mem_cons_iff]

omit ok in
theorem largest_of (P : Nat → Prop) (best : Nat) (bs : List Block) (hbest : P best)
    (hbs : ∀ b ∈ bs, P b.len) : P (largest best bs) := by
  induction bs generalizing best with
  | nil => exact hbest
  | cons b bs ih =>
    refine ih _ ?_ fun c hc => hbs c (List.mem_cons_of_mem _ hc)
    split
    · exact hbs b List.mem_cons_self
    · exact hbest

theorem memavail_eq (list : Nat) (hl : list ≠ 1) (hn : list < nblocks) :
    ∃ n, memavail h list = some n ∧ IsLength n ∧
      ∀ amount, 0 < amount → (ListFits h amount list ↔ amount ≤ n) := by
  unfold memavail ListFits
  by_cases hr : h.root list = 0
  · rw [if_pos hr]
    exact ⟨0, rfl, ⟨Nat.dvd_zero 4, by decide⟩, fun amount hpos =>
      ⟨fun hfit => absurd hr hfit.1, fun hle => absurd hle (by omega)⟩⟩
  rw [if_neg hr]
  have hi := isList_of_root h ok list hl hn hr
  rcases ok.lists list hi with ⟨bs, hbs⟩
  have hbound := ok.bound list hi
  refine ⟨_, mavlLoop_spec h.mem bs _ 0 0 _ _ hbs.linked hbs.tiled.span hbs.tiled.marked
    (span_length_le _ _ _ hbs.tiled.span), ?_, fun amount hpos => ?_⟩
  · refine largest_of IsLength 0 bs ⟨Nat.dvd_zero 4, by decide⟩ fun b hb =>
      ⟨hbs.tiled.sized b hb, ?_⟩
    have hin := span_mem _ _ _ hbs.tiled.span b hb
    unfold Block.fin mcbData at hin
    omega
  · rw [le_largest_iff]
    refine ⟨fun hfit => ?_, fun hor => ⟨hr, bs, hbs, hor.resolve_left (by omega)⟩⟩
    rcases hfit.2 with ⟨cs, hcs, b, hb, hbfit⟩
    rw [ramList_unique _ _ _ _ _ _ hcs hbs] at hb
    exact .inr ⟨b, hb, hbfit⟩

theorem mxavailTt_eq (fuel best list : Nat) (hl : 1 < list) (hn : list < nblocks)
    (hf : nblocks ≤ list + fuel) (hbest : IsLength best) :
    ∃ n, mxavailTt h fuel best list = some n ∧ IsLength n ∧
      ∀ amount, 0 < amount →
        (amount ≤ n ↔ amount ≤ best ∨ ∃ i ∈ ttLists h fuel list, ListFits h amount i) := by
  induction fuel generalizing best list with
  | zero => exact absurd hf (by omega)
  | succ fuel ih =>
    unfold mxavailTt ttLists
    by_cases hr : h.root list = 0
    · rw [if_pos hr, if_pos hr]
      refine ⟨best, rfl, hbest, fun amount _ => ?_⟩
      simp only [List.not_mem_nil, false_and, exists_false, or_false]
    rw [if_neg hr, if_neg hr]
    rcases memavail_eq h ok list (by omega) hn with ⟨n, hrun, hlen, hfits⟩
    rw [hrun]
    have hlast : list ≠ nblocks - 1 := fun hc => hr (hc ▸ ok.last)
    have hmax : IsLength (if n < best then best else n) := by
      split
      · exact hbest
      · exact hlen
    rcases ih (if n < best then best else n) (list + 1) (by omega) (by omega) (by omega) hmax with
      ⟨m, hrest, hmlen, hall⟩
    refine ⟨m, hrest, hmlen, fun amount hpos => ?_⟩
    have hle : amount ≤ (if n < best then best else n) ↔
        amount ≤ best ∨ ListFits h amount list := by
      rw [hfits amount hpos]
      split
      · omega
      · omega
    rw [hall amount hpos, hle, or_assoc, List.exists_mem_cons_iff]

/-- The query answers the largest free block of the lists that the mode selects, or the limit. -/
theorem memxavail_eq (mode pd : Nat) :
    ∃ n, memxavail h mode pd =
        some (if nolimit mode ∨ n ≤ (h.pds pd).pMem then n else (h.pds pd).pMem) ∧ IsLength n ∧
      ∀ amount, 0 < amount → ((∃ i ∈ searched h mode, ListFits h amount i) ↔ amount ≤ n) := by
  rcases memavail_eq h ok 0 (by omega) (by decide) with ⟨st, hst, hstlen, hstfits⟩
  rcases mxavailTt_eq h ok nblocks 0 2 (by omega) (by decide) (by omega)
    ⟨Nat.dvd_zero 4, by decide⟩ with ⟨tt, htt, httlen, httfits⟩
  have httfits' : ∀ amount, 0 < amount →
      ((∃ i ∈ ttLists h nblocks 2, ListFits h amount i) ↔ amount ≤ tt) := fun amount hpos => by
    rw [httfits amount hpos]
    exact ⟨.inr, fun hor => hor.resolve_left (by omega)⟩
  have hboth : IsLength (if st < tt then tt else st) ∧ ∀ amount, 0 < amount →
      (ListFits h amount 0 ∨ (∃ i ∈ ttLists h nblocks 2, ListFits h amount i) ↔
        amount ≤ if st < tt then tt else st) := by
    refine ⟨?_, fun amount hpos => ?_⟩
    · split
      · exact httlen
      · exact hstlen
    · rw [hstfits amount hpos, httfits' amount hpos]
      split
      · omega
      · omega
  unfold memxavail searched
  rw [hst, htt]
  split_ifs
  · refine ⟨st, rfl, hstlen, fun amount hpos => ?_⟩
    rw [← hstfits amount hpos]
    simp only [List.mem_singleton, exists_eq_left]
  · exact ⟨tt, rfl, httlen, httfits'⟩
  · refine ⟨_, rfl, hboth.1, fun amount hpos => ?_⟩
    rw [← hboth.2 amount hpos, List.exists_mem_cons_iff]
  · refine ⟨_, rfl, hboth.1, fun amount hpos => ?_⟩
    rw [← hboth.2 amount hpos]
    simp only [List.mem_append, List.mem_singleton, or_and_right, exists_or, exists_eq_left]
    exact or_comm

theorem mxalloc_grants (n mode pd : Nat) (hn : n + 3 < 2 ^ 32) (hpd : pd ≠ 0)
    (hfit : ∃ i ∈ searched h mode, ListFits h (roundUp n) i)
    (hallowed : Allowed h (roundUp n) mode pd) :
    ∃ h' a, mxalloc h n mode pd = some (h', a) ∧ Granted h h' a n mode pd := by
  have hsize : n ≠ 2 ^ 32 - 1 := by omega
  rcases mxalloc_spec h ok n mode pd hpd with ⟨h', r, hrun, ⟨rfl, hr⟩ | ⟨-, hg⟩⟩
  · rw [hr.resolve_right hsize] at hrun
    exact absurd ⟨hfit, hallowed⟩ ((mxalloc_refuses_iff h' ok n mode pd hsize hpd).mp hrun)
  · rcases hg with ⟨b, hadr, hown, hlen, ht⟩
    have hle : n ≤ roundUp n := by
      unfold roundUp
      omega
    exact ⟨h', r, hrun, b, hadr, hown, Nat.le_trans hle hlen, ht⟩

/-- What the query answers can be had, and no more, if and only if the answer is not the limit or
    the limit is a multiple of four. -/
theorem offered_iff (mode pd : Nat) (hpd : pd ≠ 0) :
    Offered h mode pd ↔ nolimit mode = true ∨ 4 ∣ (h.pds pd).pMem ∨
      ∀ i ∈ searched h mode, ¬ ListFits h ((h.pds pd).pMem + 1) i := by
  rcases memxavail_eq h ok mode pd with ⟨most, hquery, ⟨h4, hlt⟩, hfits⟩
  have hover : (∀ i ∈ searched h mode, ¬ ListFits h ((h.pds pd).pMem + 1) i) ↔
      most ≤ (h.pds pd).pMem := by
    have hone := hfits ((h.pds pd).pMem + 1) (Nat.succ_pos _)
    refine ⟨fun hno => Nat.le_of_not_lt fun hmore => ?_, fun hle i hi hfit => ?_⟩
    · rcases hone.mpr hmore with ⟨i, hi, hfit⟩
      exact hno i hi hfit
    · exact absurd (hone.mp ⟨i, hi, hfit⟩) (by omega)
  -- More than the answer is refused in any case.
  have hmore : ∀ n, memxavail h mode pd = some n → ∀ m, n < m → m < 2 ^ 31 →
      mxalloc h m mode pd = some (h, 0) := by
    intro n hn m hnm hm
    rw [hquery] at hn
    have hup : m ≤ roundUp m := by
      unfold roundUp
      omega
    refine (mxalloc_refuses_iff h ok m mode pd (by omega) hpd).mpr ?_
    rintro ⟨hfit, hallowed⟩
    have hle := (hfits (roundUp m) (by omega)).mp hfit
    split at hn
    · have heq := Option.some.inj hn
      omega
    · rename_i hlimit
      have heq := Option.some.inj hn
      rw [not_or] at hlimit
      rcases hallowed with hno | hmem
      · exact hlimit.1 hno
      · omega
  rw [hover]
  refine ⟨fun hoffered => ?_, fun hcond n hn => ⟨fun hpos => ?_, hmore n hn⟩⟩
  · by_contra hno
    rw [not_or, not_or] at hno
    rcases hno with ⟨hlimit, hodd, hbig⟩
    -- The answer is the limit, and rounded up it is over the limit.
    rw [if_neg (by rw [not_or]; exact ⟨hlimit, hbig⟩)] at hquery
    have hpos : 0 < (h.pds pd).pMem := by
      by_contra h0
      exact hodd (by rw [Nat.eq_zero_of_not_pos h0]; exact Nat.dvd_zero 4)
    rcases (hoffered _ hquery).1 hpos with ⟨h', a, hrun, hg⟩
    have hrefused := (mxalloc_refuses_iff h ok (h.pds pd).pMem mode pd (by omega) hpd).mpr (by
      rintro ⟨-, hno | hle⟩
      · exact hlimit hno
      · unfold roundUp at hle
        omega)
    have ha := (Prod.mk.inj (Option.some.inj (hrun.symm.trans hrefused))).2
    exact granted_ne_zero _ _ _ _ _ _ hg ha
  · rw [hquery] at hn
    have hround : ∀ k, 4 ∣ k → k + 3 < 2 ^ 32 → roundUp k = k := by
      intro k hk hlt
      unfold roundUp
      omega
    split at hn
    · rename_i hwhole
      rcases Option.some.inj hn with rfl
      refine mxalloc_grants h ok most mode pd hlt hpd ?_ ?_
      · rw [hround most h4 hlt]
        exact (hfits most hpos).mpr (Nat.le_refl _)
      · rw [hround most h4 hlt]
        exact hwhole
    · rename_i hlimit
      rw [not_or] at hlimit
      have heq := Option.some.inj hn
      rcases hcond with hno | hdvd | hle
      · exact absurd hno hlimit.1
      · rw [heq] at hdvd hlimit
        refine mxalloc_grants h ok n mode pd (by omega) hpd ?_ ?_
        · rw [hround n hdvd (by omega)]
          exact (hfits n hpos).mpr (by omega)
        · rw [hround n hdvd (by omega)]
          unfold Allowed
          rw [heq]
          exact .inr (Nat.le_refl _)
      · exact absurd hle hlimit.2

end

/-- A limit of 100 bytes is answered, and can be had. -/
theorem offered_hundred : Offered (limited 100) 0 0x8000 :=
  (offered_iff _ (heapOk_limited 100) 0 0x8000 (by decide)).mpr (.inr (.inl (by decide)))

/-- A limit of 101 bytes is answered, but a request for 101 bytes is rounded up and refused. -/
theorem query_unrounded :
    HeapOk (limited 101) ∧ memxavail (limited 101) 0 0x8000 = some 101 ∧
      mxalloc (limited 101) 101 0 0x8000 = some (limited 101, 0) ∧
      ¬ Offered (limited 101) 0 0x8000 := by
  have hquery : memxavail (limited 101) 0 0x8000 = some 101 := rfl
  have hrefused : mxalloc (limited 101) 101 0 0x8000 = some (limited 101, 0) := rfl
  refine ⟨heapOk_limited 101, hquery, hrefused, fun hoffered => ?_⟩
  rcases (hoffered 101 hquery).1 (by decide) with ⟨h', a, hrun, hg⟩
  have ha := (Prod.mk.inj (Option.some.inj (hrun.symm.trans hrefused))).2
  exact granted_ne_zero _ _ _ _ _ _ hg ha

end Malloc

end MagiC
