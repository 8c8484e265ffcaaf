import MagiC.Dos.Drives
import MagiC.Lib.Shared
import MagiC.Malloc.Save

/-!
# Internal Memory

The blocks that descriptors and drives are made of, from `magidos.s`: `resv_intmem`,
`int_malloc`, `int_pmalloc`, `int_mfree` and `collect_IMB`.

The blocks are on a list, and each says whether it is used. When none is free, the file
systems are asked to give some back, and the system stops if they do not. Only drive A is
ever asked (`driveLoop_zero`). Everything else is as it should be: a block is given to one
at a time, and a block that has been taken out of the list does not come back.

A file system frees blocks with `int_mfree`. Which ones is an argument, for each drive and
each round of asking. Addresses of blocks are those of their links.

## Main definitions

* `Good`: What each call is to do.

## Theorems

* `intmem_iff`: The same for runs.
-/

namespace MagiC

namespace Dos

open Chains Malloc

def FDSIZE : Nat := 94

def imbData : Nat := 6

def imbSizeof : Nat := imbData + FDSIZE

/-- The list of blocks: `imbx` and the links, the flags and what is in the blocks. -/
structure Imbs where
  link : Chains.Cell Unit Nat → Nat
  used : Nat → Bool
  data : Nat → Nat → UInt8

/-- `resv_loop`: the memory is cut up into free blocks, which are put in front of the
list. -/
def resvIntmem (s : Imbs) (mem bytes : Nat) : Imbs :=
  if imbSizeof ≤ bytes then
    resvIntmem { s with link := push s.link () mem, used := Function.update s.used mem false }
      (mem + imbSizeof) (bytes - imbSizeof)
  else s
termination_by bytes
decreasing_by
  have h100 : imbSizeof = 100 := rfl
  omega

/-- The search for a free block, with the cell that leads to it. -/
def imbLoop (s : Imbs) : Nat → Chains.Cell Unit Nat → Option (Option (Chains.Cell Unit Nat × Nat))
  | 0, _ => none
  | fuel + 1, a1 =>
    if s.link a1 = 0 then some none
    else if s.used (s.link a1) = false then some (some (a1, s.link a1))
    else imbLoop s fuel (.elem (s.link a1))

/-- `int_mfree`. It stops the system when the block is free already. -/
def intMfree (s : Imbs) (a0 : Nat) : Option Imbs :=
  if s.used (a0 - imbData) then
    some { s with used := Function.update s.used (a0 - imbData) false }
  else none

/-- What the file systems do when they are asked: whether one has a `xfs_garbcoll`, and
the data it frees and what it returns, for each round and drive. -/
structure Garbcoll where
  has : Nat → Bool
  answer : Nat → Fin NUM_DRIVES → List Nat × BitVec 32

/-- What has been asked for in a round: the blocks, the drives with what each has freed,
and the results put together. -/
structure Round where
  imbs : Imbs
  log : List (Fin NUM_DRIVES × List Nat)
  d7 : BitVec 32

/-- A turn of `coli_loop`. -/
def coliDrive (k : Kernel) (gc : Garbcoll) (round : Nat) (d : Fin NUM_DRIVES) (r : Round) :
    Option Round :=
  match k.dmdx d with
  | none => some r
  | some m =>
    if gc.has (k.dmd m).xfs then do
      let s ← (gc.answer round d).1.foldlM intMfree r.imbs
      pure ⟨s, r.log ++ [(d, (gc.answer round d).1)], r.d7 ||| (gc.answer round d).2⟩
    else some r

/-- `collect_IMB`. The loop compares addresses in `dmdx`. -/
def collectImb (k : Kernel) (gc : Garbcoll) (round : Nat) (s : Imbs) : Option Round :=
  driveLoop (addresses / 4) (coliDrive k gc round) 0 ⟨s, [], 0#32⟩

/-- How the search for a free block ends: the cell that leads to it, or `intmem_err` with
what has been asked for last, and all that has been freed meanwhile. -/
structure Search where
  imbs : Imbs
  block : Option (Chains.Cell Unit Nat × Nat)
  log : List (Fin NUM_DRIVES × List Nat)
  freed : List Nat

/-- The search that `int_malloc` and `int_pmalloc` share, which starts again as long as the
file systems give something back. -/
def searchImb (k : Kernel) (gc : Garbcoll) : Nat → Nat → Imbs → List Nat → Option Search
  | 0, _, _, _ => none
  | fuel + 1, round, s, freed => do
    match ← imbLoop s addresses (.head ()) with
    | some p => pure ⟨s, some p, [], freed⟩
    | none =>
      let r ← collectImb k gc round s
      let freed := freed ++ r.log.flatMap Prod.snd
      if r.d7 = 0#32 then pure ⟨r.imbs, none, r.log, freed⟩
      else searchImb k gc fuel (round + 1) r.imbs freed

/-- `intm_ende`: the block is used, and its data cleared. -/
def claim (s : Imbs) (a : Nat) : Imbs :=
  { s with
    used := Function.update s.used a true
    data := Function.update s.data a fun i => if i < FDSIZE then 0 else s.data a i }

/-- `intpm_ende`: what is behind the block hangs on the cell that has led to it. -/
def unhook (s : Imbs) (a1 : Chains.Cell Unit Nat) (a0 : Nat) : Imbs :=
  { s with link := Function.update s.link a1 (s.link (.elem a0)) }

/-- `int_malloc`: the data of the block found is given out. -/
def intMalloc (k : Kernel) (gc : Garbcoll) (s : Imbs) : Option (Search × Option Nat) := do
  let r ← searchImb k gc addresses 0 s []
  match r.block with
  | none => pure (r, none)
  | some (_, a0) => pure ({ r with imbs := claim r.imbs a0 }, some (a0 + imbData))

/-- `int_pmalloc`: the block found is taken out of the list. -/
def intPmalloc (k : Kernel) (gc : Garbcoll) (s : Imbs) : Option (Search × Option Nat) := do
  let r ← searchImb k gc addresses 0 s []
  match r.block with
  | none => pure (r, none)
  | some (a1, a0) => pure ({ r with imbs := unhook r.imbs a1 a0 }, some a0)

/-- The blocks, which of them have been given out with `int_malloc` and not freed yet, and
which have been taken out of the list with `int_pmalloc`. -/
structure Imem where
  imbs : Imbs
  handed : List Nat
  taken : List Nat
  stopped : Bool

/-- A block is given out, taken out of the list, or freed, at its data. Those who have a
block store what they like in it: anywhere in one that has been taken out of the list, and
in the data of one that has been given out. -/
inductive ImbCall where
  | malloc (k : Kernel) (gc : Garbcoll)
  | pmalloc (k : Kernel) (gc : Garbcoll)
  | mfree (a0 : Nat)
  | store (a : Nat) (data : Nat → UInt8)
  | own (a link : Nat) (used : Bool)

/-- What a call has done: the search it has made, if any, and what it has returned. -/
structure ImbAnswer where
  search : Option Search
  result : Option Nat

/-- The blocks that have been given out, when some have been freed. -/
def stillOut (handed freed : List Nat) : List Nat :=
  handed.filter fun a => a + imbData ∉ freed

def ImbCall.exec (w : Imem) : ImbCall → Option (Imem × ImbAnswer)
  | .malloc k gc => do
    let (r, result) ← intMalloc k gc w.imbs
    let handed := stillOut w.handed r.freed
    pure (⟨r.imbs, (result.map (· - imbData)).toList ++ handed, w.taken, result.isNone⟩,
      ⟨some r, result⟩)
  | .pmalloc k gc => do
    let (r, result) ← intPmalloc k gc w.imbs
    let handed := stillOut w.handed r.freed
    pure (⟨r.imbs, handed, result.toList ++ w.taken, result.isNone⟩, ⟨some r, result⟩)
  | .mfree a0 => do
    let s ← intMfree w.imbs a0
    pure ({ w with imbs := s, handed := w.handed.erase (a0 - imbData) }, ⟨none, none⟩)
  | .store a data => some ({ w with imbs := { w.imbs with
      data := Function.update w.imbs.data a data } }, ⟨none, none⟩)
  | .own a link used => some ({ w with imbs := { w.imbs with
      link := Function.update w.imbs.link (.elem a) link
      used := Function.update w.imbs.used a used } }, ⟨none, none⟩)

/-- The file systems free blocks that are in use, and return zero if they free none. -/
def Honest (w : Imem) (gc : Garbcoll) : Prop :=
  ∀ d, (gc.answer 0 d).1.Nodup ∧ (∀ p ∈ (gc.answer 0 d).1, ∃ a ∈ w.handed, p = a + imbData) ∧
    ((gc.answer 0 d).2 = 0#32 ↔ (gc.answer 0 d).1 = [])

/-- The calls that are allowed: blocks are freed and stored in by those who have them. -/
def ImbCall.Legal (w : Imem) : ImbCall → Prop
  | .malloc _ gc => w.stopped = false ∧ Honest w gc
  | .pmalloc _ gc => w.stopped = false ∧ Honest w gc
  | .mfree a0 => w.stopped = false ∧ ∃ a ∈ w.handed, a0 = a + imbData
  | .store a _ => w.stopped = false ∧ (a ∈ w.handed ∨ a ∈ w.taken)
  | .own a _ _ => w.stopped = false ∧ a ∈ w.taken

def Listed (s : Imbs) (a : Nat) : Prop := ∃ l, On s.link 0 (.head ()) l ∧ a ∈ l

/-- The block that is found is on the list, and nobody has it. -/
def Spare (w : Imem) (r : Search) (a : Nat) : Prop :=
  Listed w.imbs a ∧ a ∉ stillOut w.handed r.freed ∧ a ∉ w.taken

/-- The system may stop: no block of the list is free, and each mounted drive whose file
system can be asked has just been asked, and has freed nothing. -/
def MayStop (k : Kernel) (gc : Garbcoll) (w : Imem) (r : Search) : Prop :=
  (∀ a, Listed w.imbs a → r.imbs.used a = true) ∧
    ∀ d m, k.dmdx d = some m → gc.has (k.dmd m).xfs = true → (d, []) ∈ r.log

/-- What each call is to do. A block that has been taken out of the list is not on it in any
case. -/
def ImbCall.Good (w w' : Imem) (r : ImbAnswer) : ImbCall → Prop
  | .malloc k gc =>
    (∀ b, Listed w'.imbs b ↔ Listed w.imbs b) ∧ (∀ b ∈ w'.taken, ¬ Listed w'.imbs b) ∧
    ∃ s, r.search = some s ∧
      match r.result with
      | some p => ∃ a, p = a + imbData ∧ Spare w s a ∧ ∀ i < FDSIZE, w'.imbs.data a i = 0
      | none => MayStop k gc w s
  | .pmalloc k gc =>
    (∀ b ∈ w'.taken, ¬ Listed w'.imbs b) ∧
    ∃ s, r.search = some s ∧
      match r.result with
      | some a => Spare w s a ∧ ∀ b, Listed w'.imbs b ↔ Listed w.imbs b ∧ b ≠ a
      | none => (∀ b, Listed w'.imbs b ↔ Listed w.imbs b) ∧ MayStop k gc w s
  | _ => (∀ b, Listed w'.imbs b ↔ Listed w.imbs b) ∧ ∀ b ∈ w'.taken, ¬ Listed w'.imbs b

/-- A block is free, or drive A gives one back, or there is no other drive that could be
asked. -/
def EnoughA (w : Imem) (k : Kernel) (gc : Garbcoll) : Prop :=
  (∃ a, Listed w.imbs a ∧ w.imbs.used a = false) ∨
  (∃ m, k.dmdx 0 = some m ∧ gc.has (k.dmd m).xfs = true ∧ (gc.answer 0 0).1 ≠ []) ∨
  ∀ d m, d ≠ 0 → k.dmdx d = some m → gc.has (k.dmd m).xfs = false

/-- The search finds a block, or has asked everybody. -/
def ImbCall.Asked (w : Imem) : ImbCall → Prop
  | .malloc k gc => EnoughA w k gc
  | .pmalloc k gc => EnoughA w k gc
  | _ => True

def LegalCalls : Imem → List ImbCall → Prop
  | _, [] => True
  | w, c :: cs => c.Legal w ∧ ∀ w' r, c.exec w = some (w', r) → LegalCalls w' cs

def GoodCalls : Imem → List ImbCall → Prop
  | _, [] => True
  | w, c :: cs => ∃ w' r, c.exec w = some (w', r) ∧ c.Good w w' r ∧ GoodCalls w' cs

def AskedCalls : Imem → List ImbCall → Prop
  | _, [] => True
  | w, c :: cs => c.Asked w ∧ ∀ w' r, c.exec w = some (w', r) → AskedCalls w' cs

/-- The list that `resv_intmem` builds of several pieces of memory. -/
def reserved (s : Imbs) (pieces : List (Nat × Nat)) : Imbs :=
  pieces.foldl (fun s p => resvIntmem s p.1 p.2)
    { s with link := Function.update s.link (.head ()) 0 }

/-- The pieces are in memory and do not overlap. -/
def Apart (pieces : List (Nat × Nat)) : Prop :=
  (∀ p ∈ pieces, 0 < p.1 ∧ p.1 + p.2 ≤ addresses) ∧
    pieces.Pairwise fun p q => p.1 + p.2 ≤ q.1 ∨ q.1 + q.2 ≤ p.1

/-- The blocks as they are to be: those on the list are used when they have been given out,
and those that have been taken are not on it. -/
structure Sound (w : Imem) (l : List Nat) : Prop where
  on : On w.imbs.link 0 (.head ()) l
  lt : ∀ a ∈ l, a < addresses
  used : ∀ a ∈ l, w.imbs.used a = true ↔ a ∈ w.handed
  handed : ∀ a ∈ w.handed, a ∈ l
  nodup : w.handed.Nodup
  taken : ∀ a ∈ w.taken, a ∉ l

section

variable {k : Kernel} {gc : Garbcoll} {s : Imbs} {w : Imem} {l : List Nat} {a : Nat}

theorem listed_iff (h : On s.link 0 (.head ()) l) : Listed s a ↔ a ∈ l := by
  constructor
  · rintro ⟨m, hm, ha⟩
    rwa [linked_unique h hm]
  · exact fun ha => ⟨l, h, ha⟩

/-- The walk stops at the first free block. -/
theorem imbLoop_spec {fuel : Nat} {p : Chains.Cell Unit Nat} (h : On s.link 0 p l)
    (hfuel : l.length < fuel) :
    (∃ u a v, l = u ++ a :: v ∧ s.used a = false ∧
      imbLoop s fuel p = some (some (endCell p u, a))) ∨
    ((∀ a ∈ l, s.used a = true) ∧ imbLoop s fuel p = some none) := by
  induction l generalizing p fuel with
  | nil =>
    cases fuel with
    | zero => exact absurd hfuel (Nat.lt_irrefl 0)
    | succ fuel =>
      refine Or.inr ⟨fun a ha => absurd ha List.not_mem_nil, ?_⟩
      rw [imbLoop, if_pos (on_nil.mp h)]
  | cons x l ih =>
    rcases (on_cons x).mp h with ⟨hx, hx0, hl⟩
    cases fuel with
    | zero => exact absurd hfuel (Nat.not_lt_zero _)
    | succ fuel =>
      rw [imbLoop, hx, if_neg hx0]
      by_cases hu : s.used x = false
      · exact Or.inl ⟨[], x, l, rfl, hu, if_pos hu⟩
      · rw [if_neg hu]
        rcases ih hl (by simpa using hfuel) with ⟨u, a, v, rfl, ha, hrun⟩ | ⟨hall, hrun⟩
        · exact Or.inl ⟨x :: u, a, v, rfl, ha, hrun⟩
        · refine Or.inr ⟨fun a ha => ?_, hrun⟩
          rcases List.mem_cons.mp ha with rfl | ha
          · simpa using hu
          · exact hall a ha

theorem Sound.length (h : Sound w l) : l.length < addresses := by
  refine nodup_addresses l (linked_nodup h.on) fun x hx => ⟨?_, h.lt x hx⟩
  exact Nat.pos_of_ne_zero fun h0 => h.on.2 (h0 ▸ hx)

theorem mfree_all {ps : List Nat} (hnd : ps.Nodup)
    (hps : ∀ p ∈ ps, ∃ a, p = a + imbData ∧ s.used a = true) :
    ps.foldlM intMfree s =
      some { s with used := fun a => s.used a && decide (a + imbData ∉ ps) } := by
  induction ps generalizing s with
  | nil =>
    have hsame : (fun a => s.used a && decide (a + imbData ∉ ([] : List Nat))) = s.used := by
      funext a
      simp
    rw [hsame]
    rfl
  | cons p ps ih =>
    rcases List.nodup_cons.mp hnd with ⟨hp, hrnd⟩
    rcases hps p List.mem_cons_self with ⟨a, rfl, ha⟩
    have hfree : intMfree s (a + imbData) =
        some { s with used := Function.update s.used a false } := by
      unfold intMfree
      rw [Nat.add_sub_cancel, if_pos ha]
    rw [List.foldlM_cons, hfree]
    -- the others are still used
    have hrest : ∀ q ∈ ps, ∃ b, q = b + imbData ∧ Function.update s.used a false b = true := by
      intro q hq
      rcases hps q (List.mem_cons_of_mem _ hq) with ⟨b, rfl, hb⟩
      have hba : b ≠ a := fun h => hp (h ▸ hq)
      exact ⟨b, rfl, by rw [Function.update_of_ne hba, hb]⟩
    refine (ih hrnd hrest).trans (congrArg some ?_)
    have hused : (fun b => Function.update s.used a false b && decide (b + imbData ∉ ps)) =
        fun b => s.used b && decide (b + imbData ∉ (a + imbData) :: ps) := by
      funext b
      by_cases hba : b = a
      · subst hba
        simp
      · simp [hba]
    simp only [hused]

theorem collectImb_spec (round : Nat) (hnd : (gc.answer round 0).1.Nodup)
    (hps : ∀ p ∈ (gc.answer round 0).1, ∃ a, p = a + imbData ∧ s.used a = true) :
    (∃ m, k.dmdx 0 = some m ∧ gc.has (k.dmd m).xfs = true ∧
      collectImb k gc round s = some
        ⟨{ s with used := fun a => s.used a && decide (a + imbData ∉ (gc.answer round 0).1) },
          [(0, (gc.answer round 0).1)], (gc.answer round 0).2⟩) ∨
    (∀ m, k.dmdx 0 = some m → gc.has (k.dmd m).xfs = false) ∧
      collectImb k gc round s = some ⟨s, [], 0#32⟩ := by
  unfold collectImb
  rw [driveLoop_zero]
  unfold coliDrive
  cases hm : k.dmdx 0 with
  | none => exact Or.inr ⟨fun m h => (by cases h), rfl⟩
  | some m =>
    by_cases hgc : gc.has (k.dmd m).xfs = true
    · refine Or.inl ⟨m, rfl, hgc, ?_⟩
      simp only [if_pos hgc]
      rw [mfree_all hnd hps]
      simp
    · refine Or.inr ⟨fun n hn => ?_, ?_⟩
      · rw [← Option.some.inj hn]
        simpa using hgc
      · simp only [if_neg hgc]

theorem Sound.freed (h : Sound w l) (ps : List Nat) :
    Sound { w with
      imbs := { w.imbs with used := fun a => w.imbs.used a && decide (a + imbData ∉ ps) }
      handed := stillOut w.handed ps } l where
  on := h.on
  lt := h.lt
  used a ha := by
    have hu := h.used a ha
    unfold stillOut
    simp only [Bool.and_eq_true, decide_eq_true_eq, List.mem_filter, hu]
  handed a ha := h.handed a (List.mem_filter.mp ha).1
  nodup := h.nodup.filter _
  taken := h.taken

/-- How a search ends: a free block of the list has been found, or nothing has changed and
no block is free. -/
structure Searched (w : Imem) (k : Kernel) (gc : Garbcoll) (l : List Nat) (r : Search) : Prop where
  kept : Sound { w with imbs := r.imbs, handed := stillOut w.handed r.freed } l
  link : r.imbs.link = w.imbs.link
  data : r.imbs.data = w.imbs.data
  found : (∃ u a v, l = u ++ a :: v ∧ r.imbs.used a = false ∧
      r.block = some (endCell (.head ()) u, a) ∧ EnoughA w k gc) ∨
    (r.block = none ∧ (∀ a ∈ l, r.imbs.used a = true) ∧ (MayStop k gc w r ↔ EnoughA w k gc))

theorem stillOut_nil (handed : List Nat) : stillOut handed [] = handed := by
  unfold stillOut
  exact List.filter_eq_self.mpr fun a _ => by simp

theorem searchImb_free {fuel round : Nat} {freed : List Nat} {p : Chains.Cell Unit Nat}
    (hrun : imbLoop s addresses (.head ()) = some (some (p, a))) :
    searchImb k gc (fuel + 1) round s freed = some ⟨s, some (p, a), [], freed⟩ := by
  rw [searchImb, hrun]
  rfl

theorem searchImb_none {fuel round : Nat} {freed : List Nat} {r : Round}
    (hrun : imbLoop s addresses (.head ()) = some none)
    (hr : collectImb k gc round s = some r) :
    searchImb k gc (fuel + 1) round s freed =
      if r.d7 = 0#32 then some ⟨r.imbs, none, r.log, freed ++ r.log.flatMap Prod.snd⟩
      else searchImb k gc fuel (round + 1) r.imbs (freed ++ r.log.flatMap Prod.snd) := by
  rw [searchImb, hrun]
  simp only [Option.bind_eq_bind, Option.bind_some, hr]
  rfl

theorem mayStop_iff {r : Search} (hk : Sound w l) (hall : ∀ a ∈ l, w.imbs.used a = true)
    (hr : r.imbs = w.imbs) (hno : ∀ m, k.dmdx 0 = some m → gc.has (k.dmd m).xfs = true →
      (gc.answer 0 0).1 = [] ∧ (0, []) ∈ r.log) (hlog : ∀ e ∈ r.log, e.1 = 0) :
    MayStop k gc w r ↔ EnoughA w k gc := by
  have hused : ∀ a, Listed w.imbs a → r.imbs.used a = true := fun a ha =>
    hr ▸ hall a ((listed_iff hk.on).mp ha)
  constructor
  · rintro ⟨_, hasked⟩
    refine Or.inr (Or.inr fun d m hd hm => ?_)
    by_contra hgc
    exact hd (hlog _ (hasked d m hm (by simpa using hgc)))
  · rintro (⟨a, ha, hfree⟩ | ⟨m, hm, hgc, hne⟩ | hothers)
    · rw [← hr, hused a ha] at hfree
      cases hfree
    · exact absurd (hno m hm hgc).1 hne
    · refine ⟨hused, fun d m hm hgc => ?_⟩
      by_cases hd : d = 0
      · subst hd
        exact (hno m hm hgc).2
      · rw [hothers d m hd hm] at hgc
        cases hgc

theorem searchImb_spec (k : Kernel) (hk : Sound w l) (hh : Honest w gc) :
    ∃ r, searchImb k gc addresses 0 w.imbs [] = some r ∧ Searched w k gc l r := by
  have h32 : addresses = 2 ^ 32 := rfl
  obtain ⟨n, hn⟩ : ∃ n, addresses = n + 2 := ⟨2 ^ 32 - 2, by omega⟩
  rw [show searchImb k gc addresses 0 w.imbs [] = searchImb k gc (n + 1 + 1) 0 w.imbs [] by rw [hn]]
  rcases imbLoop_spec hk.on hk.length with ⟨u, a, v, hl, ha, hrun⟩ | ⟨hall, hrun⟩
  · have hlist : Listed w.imbs a := (listed_iff hk.on).mpr (by simp [hl])
    refine ⟨_, searchImb_free hrun, ?_, rfl, rfl,
      Or.inl ⟨u, a, v, hl, ha, rfl, Or.inl ⟨a, hlist, ha⟩⟩⟩
    rw [stillOut_nil]
    exact hk
  · rcases hh 0 with ⟨hnd, hps, hres⟩
    have hps' : ∀ p ∈ (gc.answer 0 0).1, ∃ a, p = a + imbData ∧ w.imbs.used a = true := by
      intro p hp
      rcases hps p hp with ⟨a, ha, rfl⟩
      exact ⟨a, rfl, hall a (hk.handed a ha)⟩
    rcases collectImb_spec (k := k) 0 hnd hps' with ⟨m, hm, hgc, hcol⟩ | ⟨hno, hcol⟩
    · by_cases hnil : (gc.answer 0 0).1 = []
      · -- drive A has been asked, and frees nothing
        rw [searchImb_none hrun hcol, if_pos (hres.mpr hnil)]
        have hsame : (fun a => w.imbs.used a && decide (a + imbData ∉ (gc.answer 0 0).1)) =
            w.imbs.used := by
          funext a
          simp [hnil]
        simp only [hsame]
        refine ⟨_, rfl, ?_, rfl, rfl, Or.inr ⟨rfl, hall, ?_⟩⟩
        · simp only [List.flatMap_cons, List.flatMap_nil, List.append_nil, hnil, stillOut_nil]
          exact hk
        · refine mayStop_iff hk hall rfl (fun _ _ _ => ⟨hnil, ?_⟩) fun e he => ?_
          · rw [hnil]
            exact List.mem_cons_self
          · rw [List.mem_singleton.mp he]
      · -- what drive A frees is found
        rw [searchImb_none hrun hcol, if_neg (fun h => hnil (hres.mp h))]
        have hkf := hk.freed (gc.answer 0 0).1
        obtain ⟨p, hp⟩ := List.exists_mem_of_ne_nil _ hnil
        obtain ⟨b, hb, rfl⟩ := hps p hp
        rcases imbLoop_spec hkf.on hkf.length with ⟨u, a, v, hl, ha, hrun'⟩ | ⟨hall', _⟩
        · refine ⟨_, searchImb_free hrun', ?_, rfl, rfl, Or.inl ⟨u, a, v, hl, ha, rfl,
            Or.inr (Or.inl ⟨m, hm, hgc, hnil⟩)⟩⟩
          simp only [List.flatMap_cons, List.flatMap_nil, List.append_nil, List.nil_append]
          exact hkf
        · have hfalse := hall' b (hk.handed b hb)
          simp [hp] at hfalse
    · -- drive A cannot be asked
      rw [searchImb_none hrun hcol, if_pos rfl]
      refine ⟨_, rfl, ?_, rfl, rfl, Or.inr ⟨rfl, hall, ?_⟩⟩
      · simp only [List.flatMap_nil, List.append_nil, stillOut_nil]
        exact hk
      · refine mayStop_iff hk hall rfl (fun m hm hgc => ?_) fun e he => absurd he List.not_mem_nil
        rw [hno m hm] at hgc
        cases hgc

theorem Searched.block {r : Search} {u v : List Nat} (h : Searched w k gc l r)
    (hl : l = u ++ a :: v) (ha : r.imbs.used a = false) (hk : Sound w l) : Spare w r a := by
  have hal : a ∈ l := by simp [hl]
  refine ⟨(listed_iff hk.on).mpr hal, fun hin => ?_, fun hin => hk.taken a hin hal⟩
  rw [(h.kept.used a hal).mpr hin] at ha
  cases ha

theorem Sound.claim (h : Sound w l) (ha : a ∈ l) (hfree : w.imbs.used a = false) :
    Sound ⟨claim w.imbs a, a :: w.handed, w.taken, false⟩ l := by
  have hnot : a ∉ w.handed := fun hin => by
    rw [(h.used a ha).mpr hin] at hfree
    cases hfree
  refine ⟨h.on, h.lt, fun b hb => ?_, fun b hb => ?_, List.nodup_cons.mpr ⟨hnot, h.nodup⟩, h.taken⟩
  · unfold Dos.claim
    by_cases hba : b = a
    · simp [hba]
    · simp only [Function.update_of_ne hba, List.mem_cons, hba, false_or]
      exact h.used b hb
  · rcases List.mem_cons.mp hb with rfl | hb
    · exact ha
    · exact h.handed b hb

theorem Sound.unhook {u v : List Nat} (h : Sound w (u ++ a :: v)) (hfree : w.imbs.used a = false) :
    Sound ⟨unhook w.imbs (endCell (.head ()) u) a, w.handed, a :: w.taken, false⟩ (u ++ v) := by
  have hnd := List.nodup_append.mp (linked_nodup h.on)
  have hsub : ∀ b, b ∈ u ++ v ↔ b ∈ u ++ a :: v ∧ b ≠ a := by
    intro b
    have hau : a ∉ u := fun hin => hnd.2.2 a hin a List.mem_cons_self rfl
    have hav := (List.nodup_cons.mp hnd.2.1).1
    by_cases hba : b = a
    · subst hba
      simp [hau, hav]
    · simp [hba]
  have hon : On (Dos.unhook w.imbs (endCell (.head ()) u) a).link 0 (.head ()) (u ++ v) := by
    refine on_cut a u v h.on (fun x _ hx => by cases hx) fun y hy he => ?_
    -- a block behind is not in front
    rcases endCell_cases (Chains.Cell.head ()) u with ⟨hu, _⟩ | ⟨x, hx, hu⟩
    · rw [hu] at he
      cases he
    · rw [hu] at he
      cases he
      exact hnd.2.2 y hx y (List.mem_cons_of_mem _ hy) rfl
  refine ⟨hon, fun b hb => h.lt b ((hsub b).mp hb).1, fun b hb => h.used b ((hsub b).mp hb).1,
    fun b hb => (hsub b).mpr ⟨h.handed b hb, ?_⟩, h.nodup, fun b hb hin => ?_⟩
  · rintro rfl
    rw [(h.used b (by simp)).mpr hb] at hfree
    cases hfree
  · rcases List.mem_cons.mp hb with rfl | hb
    · exact ((hsub b).mp hin).2 rfl
    · exact h.taken b hb ((hsub b).mp hin).1

theorem Sound.listed {w' : Imem} (h : Sound w l) (h' : Sound w' l) (b : Nat) :
    Listed w'.imbs b ↔ Listed w.imbs b := (listed_iff h'.on).trans (listed_iff h.on).symm

theorem Sound.off (h : Sound w l) : ∀ b ∈ w.taken, ¬ Listed w.imbs b :=
  fun b hb hin => h.taken b hb ((listed_iff h.on).mp hin)

theorem malloc_good (hk : Sound w l) (hc : ImbCall.Legal w (.malloc k gc)) :
    ∃ w' r, ImbCall.exec w (.malloc k gc) = some (w', r) ∧ Sound w' l ∧
      (ImbCall.Good w w' r (.malloc k gc) ↔ ImbCall.Asked w (.malloc k gc)) := by
  obtain ⟨r, hrun, hs⟩ := searchImb_spec k hk hc.2
  rcases hs.found with ⟨u, a, v, hl, ha, hblock, henough⟩ | ⟨hblock, hall, hstop⟩
  · have hkept := hs.kept.claim (a := a) (by simp [hl]) ha
    have hexec : ImbCall.exec w (.malloc k gc) =
        some (⟨claim r.imbs a, a :: stillOut w.handed r.freed, w.taken, false⟩,
          ⟨some { r with imbs := claim r.imbs a }, some (a + imbData)⟩) := by
      simp only [ImbCall.exec, intMalloc, hrun, Option.bind_eq_bind, Option.bind_some, hblock]
      simp
    refine ⟨_, _, hexec, hkept, iff_of_true ⟨hk.listed hkept, hkept.off, _, rfl, a, rfl,
      hs.block hl ha hk, fun i hi => ?_⟩ henough⟩
    unfold Dos.claim
    simp only [Function.update_self, if_pos hi]
  · have hexec : ImbCall.exec w (.malloc k gc) =
        some (⟨r.imbs, stillOut w.handed r.freed, w.taken, true⟩, ⟨some r, none⟩) := by
      simp only [ImbCall.exec, intMalloc, hrun, Option.bind_eq_bind, Option.bind_some, hblock]
      simp
    have hkept : Sound ⟨r.imbs, stillOut w.handed r.freed, w.taken, true⟩ l :=
      ⟨hs.kept.on, hs.kept.lt, hs.kept.used, hs.kept.handed, hs.kept.nodup, hs.kept.taken⟩
    refine ⟨_, _, hexec, hkept, Iff.trans ⟨?_, fun h => ?_⟩ hstop⟩
    · rintro ⟨_, _, s, hs', hmay⟩
      rwa [Option.some.inj hs']
    · exact ⟨hk.listed hkept, hkept.off, r, rfl, h⟩

theorem pmalloc_good (hk : Sound w l) (hc : ImbCall.Legal w (.pmalloc k gc)) :
    ∃ w' r l', ImbCall.exec w (.pmalloc k gc) = some (w', r) ∧ Sound w' l' ∧
      (ImbCall.Good w w' r (.pmalloc k gc) ↔ ImbCall.Asked w (.pmalloc k gc)) := by
  obtain ⟨r, hrun, hs⟩ := searchImb_spec k hk hc.2
  rcases hs.found with ⟨u, a, v, hl, ha, hblock, henough⟩ | ⟨hblock, hall, hstop⟩
  · have hnd := List.nodup_append.mp (hl ▸ linked_nodup hk.on)
    have hkept := (hl ▸ hs.kept).unhook ha
    have hexec : ImbCall.exec w (.pmalloc k gc) =
        some (⟨unhook r.imbs (endCell (.head ()) u) a, stillOut w.handed r.freed, a :: w.taken,
            false⟩,
          ⟨some { r with imbs := unhook r.imbs (endCell (.head ()) u) a }, some a⟩) := by
      simp only [ImbCall.exec, intPmalloc, hrun, Option.bind_eq_bind, Option.bind_some, hblock]
      simp
    refine ⟨_, _, u ++ v, hexec, hkept, iff_of_true ⟨hkept.off, _, rfl, hs.block hl ha hk,
      fun b => ?_⟩ henough⟩
    rw [listed_iff hkept.on, listed_iff hk.on, hl]
    have hau : a ∉ u := fun hin => hnd.2.2 a hin a List.mem_cons_self rfl
    have hav := (List.nodup_cons.mp hnd.2.1).1
    by_cases hba : b = a
    · subst hba
      simp [hau, hav]
    · simp [hba]
  · have hexec : ImbCall.exec w (.pmalloc k gc) =
        some (⟨r.imbs, stillOut w.handed r.freed, w.taken, true⟩, ⟨some r, none⟩) := by
      simp only [ImbCall.exec, intPmalloc, hrun, Option.bind_eq_bind, Option.bind_some, hblock]
      simp
    have hkept : Sound ⟨r.imbs, stillOut w.handed r.freed, w.taken, true⟩ l :=
      ⟨hs.kept.on, hs.kept.lt, hs.kept.used, hs.kept.handed, hs.kept.nodup, hs.kept.taken⟩
    refine ⟨_, _, l, hexec, hkept, Iff.trans ⟨?_, fun h => ?_⟩ hstop⟩
    · rintro ⟨_, s, hs', _, hmay⟩
      rwa [Option.some.inj hs']
    · exact ⟨hkept.off, r, rfl, hk.listed hkept, h⟩

/-- A call does what it is to do if and only if the search finds a block or everybody who
could be asked has been asked. -/
theorem exec_good {c : ImbCall} (hk : Sound w l) (hc : c.Legal w) :
    ∃ w' r l', c.exec w = some (w', r) ∧ Sound w' l' ∧ (c.Good w w' r ↔ c.Asked w) := by
  cases c with
  | malloc k gc =>
    obtain ⟨w', r, hexec, hkept, hgood⟩ := malloc_good hk hc
    exact ⟨w', r, l, hexec, hkept, hgood⟩
  | pmalloc k gc => exact pmalloc_good hk hc
  | mfree a0 =>
    obtain ⟨_, a, ha, rfl⟩ := hc
    have hfree : intMfree w.imbs (a + imbData) =
        some { w.imbs with used := Function.update w.imbs.used a false } := by
      unfold intMfree
      rw [Nat.add_sub_cancel, if_pos ((hk.used a (hk.handed a ha)).mpr ha)]
    have hkept : Sound { w with
        imbs := { w.imbs with used := Function.update w.imbs.used a false }
        handed := w.handed.erase a } l := by
      refine ⟨hk.on, hk.lt, fun b hb => ?_, fun b hb => hk.handed b (List.mem_of_mem_erase hb),
        hk.nodup.erase a, hk.taken⟩
      simp only [hk.nodup.mem_erase_iff]
      by_cases hba : b = a
      · simp [hba]
      · simp only [Function.update_of_ne hba, hba, ne_eq, not_false_eq_true, true_and]
        exact hk.used b hb
    refine ⟨_, ⟨none, none⟩, l, ?_, hkept, iff_of_true ⟨hk.listed hkept, hkept.off⟩ trivial⟩
    simp only [ImbCall.exec, hfree, Option.bind_eq_bind, Option.bind_some, Nat.add_sub_cancel]
    rfl
  | store a data =>
    have hkept : Sound { w with
        imbs := { w.imbs with data := Function.update w.imbs.data a data } } l :=
      ⟨hk.on, hk.lt, hk.used, hk.handed, hk.nodup, hk.taken⟩
    exact ⟨_, _, l, rfl, hkept, iff_of_true ⟨hk.listed hkept, hkept.off⟩ trivial⟩
  | own a link used =>
    have hkept : Sound { w with imbs := { w.imbs with
        link := Function.update w.imbs.link (.elem a) link
        used := Function.update w.imbs.used a used } } l := by
      have hne : ∀ b ∈ l, b ≠ a := fun b hb hba => hk.taken a hc.2 (hba ▸ hb)
      refine ⟨on_congr hk.on (by simp) fun b hb => by simp [hne b hb], hk.lt, fun b hb => ?_,
        hk.handed, hk.nodup, hk.taken⟩
      simp only [Function.update_of_ne (hne b hb)]
      exact hk.used b hb
    exact ⟨_, _, l, rfl, hkept, iff_of_true ⟨hk.listed hkept, hkept.off⟩ trivial⟩

theorem calls_iff {cs : List ImbCall} (hk : Sound w l) (hc : LegalCalls w cs) :
    GoodCalls w cs ↔ AskedCalls w cs := by
  induction cs generalizing w l with
  | nil => exact Iff.rfl
  | cons c cs ih =>
    obtain ⟨w', r, l', hexec, hkept, hgood⟩ := exec_good hk hc.1
    have hrest := ih hkept (hc.2 w' r hexec)
    constructor
    · rintro ⟨v, q, hv, hg, hr⟩
      cases hexec.symm.trans hv
      refine ⟨hgood.mp hg, fun v q hv => ?_⟩
      cases hexec.symm.trans hv
      exact hrest.mp hr
    · rintro ⟨ha, hr⟩
      exact ⟨w', r, hexec, hgood.mpr ha, hrest.mpr (hr w' r hexec)⟩

theorem resvIntmem_spec (mem bytes : Nat) (hon : On s.link 0 (.head ()) l)
    (hfree : ∀ a ∈ l, s.used a = false) (hmem : 0 < mem) (hlt : mem + bytes ≤ addresses)
    (hout : ∀ a ∈ l, a < mem ∨ mem + bytes ≤ a) :
    ∃ m, On (resvIntmem s mem bytes).link 0 (.head ()) (m ++ l) ∧
      (∀ a ∈ m ++ l, (resvIntmem s mem bytes).used a = false) ∧
      ∀ a ∈ m, mem ≤ a ∧ a < mem + bytes := by
  have h100 : imbSizeof = 100 := rfl
  induction s, mem, bytes using resvIntmem.induct generalizing l with
  | case1 s mem bytes hb ih =>
    have hnot : mem ∉ l := fun hin => by
      have := hout mem hin
      omega
    have hpush : On (push s.link () mem) 0 (.head ()) (mem :: l) := by
      rw [push, Function.update_comm (by simp)]
      exact on_insert mem [] l hon hnot (by omega) (by simp) (by simp)
    obtain ⟨m, hm, hu, hin⟩ := ih hpush (fun a ha => by
      by_cases ham : a = mem
      · simp [ham]
      · simp only [Function.update_of_ne ham]
        exact hfree a ((List.mem_cons.mp ha).resolve_left ham))
      (by omega) (by omega) (fun a ha => by
      rcases List.mem_cons.mp ha with rfl | ha
      · omega
      · have := hout a ha
        omega)
    rw [resvIntmem, if_pos hb]
    refine ⟨m ++ [mem], by simpa using hm, by simpa using hu, fun a ha => ?_⟩
    rcases List.mem_append.mp ha with ha | ha
    · have := hin a ha
      omega
    · rw [List.mem_singleton.mp ha]
      omega
  | case2 s mem bytes hb =>
    rw [resvIntmem, if_neg hb]
    exact ⟨[], hon, hfree, fun a ha => absurd ha List.not_mem_nil⟩

theorem reserved_spec {pieces : List (Nat × Nat)} (h : Apart pieces) :
    ∃ l, Sound ⟨reserved s pieces, [], [], false⟩ l := by
  have hrun : ∀ (ps : List (Nat × Nat)) (s : Imbs) (l : List Nat), Apart ps →
      On s.link 0 (.head ()) l → (∀ a ∈ l, s.used a = false ∧ a < addresses) →
      (∀ p ∈ ps, ∀ a ∈ l, a < p.1 ∨ p.1 + p.2 ≤ a) →
      ∃ m, On (ps.foldl (fun s p => resvIntmem s p.1 p.2) s).link 0 (.head ()) m ∧
        ∀ a ∈ m, (ps.foldl (fun s p => resvIntmem s p.1 p.2) s).used a = false ∧ a < addresses := by
    intro ps
    induction ps with
    | nil => exact fun s l _ hon hfree _ => ⟨l, hon, hfree⟩
    | cons p ps ih =>
      intro s l hap hon hfree hout
      have hp := hap.1 p List.mem_cons_self
      have hpw := List.pairwise_cons.mp hap.2
      obtain ⟨m, hm, hu, hin⟩ := resvIntmem_spec p.1 p.2 hon (fun a ha => (hfree a ha).1) hp.1 hp.2
        (hout p List.mem_cons_self)
      refine ih _ (m ++ l) ⟨fun q hq => hap.1 q (List.mem_cons_of_mem _ hq), hpw.2⟩ hm
        (fun a ha => ⟨hu a ha, ?_⟩) fun q hq a ha => ?_
      · rcases List.mem_append.mp ha with ha | ha
        · have := hin a ha
          omega
        · exact (hfree a ha).2
      · rcases List.mem_append.mp ha with ha | ha
        · have hpos := hin a ha
          have := hpw.1 q hq
          omega
        · exact hout q (List.mem_cons_of_mem _ hq) a ha
  obtain ⟨l, hl, hfree⟩ := hrun pieces
    { s with link := Function.update s.link (.head ()) 0 } [] h
    (on_nil.mpr (by simp)) (fun a ha => absurd ha List.not_mem_nil)
    (fun p _ a ha => absurd ha List.not_mem_nil)
  refine ⟨l, hl, fun a ha => (hfree a ha).2, fun a ha => ?_, fun a ha => absurd ha List.not_mem_nil,
    List.nodup_nil, fun a ha => absurd ha List.not_mem_nil⟩
  refine iff_of_false (fun hu => ?_) List.not_mem_nil
  have hu' := (hfree a ha).1
  unfold reserved at hu
  rw [hu'] at hu
  cases hu

end

/-- Internal memory is given out as it should be, and the system stops for want of it only
when there is none, if and only if in no search without a free block of which drive A gives
none back there is another drive that could be asked. -/
theorem intmem_iff (s : Imbs) (pieces : List (Nat × Nat)) (cs : List ImbCall)
    (hp : Apart pieces) (hc : LegalCalls ⟨reserved s pieces, [], [], false⟩ cs) :
    GoodCalls ⟨reserved s pieces, [], [], false⟩ cs ↔
      AskedCalls ⟨reserved s pieces, [], [], false⟩ cs := by
  obtain ⟨l, hk⟩ := reserved_spec hp
  exact calls_iff hk hc

/-- A file system that has nothing to give back. -/
def gcNone : Garbcoll := ⟨fun _ => true, fun _ _ => ([], 0#32)⟩

/-- The file system of drive C gives the block at 1000 back. -/
def gcC : Garbcoll := ⟨fun _ => true, fun _ d => if d = 2 then ([1006], 1#32) else ([], 0#32)⟩

def oneImb : Imem :=
  ⟨reserved ⟨fun _ => 0, fun _ => true, fun _ _ => 7⟩ [(1000, 100)], [], [], false⟩

theorem oneImb_apart : Apart [(1000, 100)] := by
  refine ⟨fun p hp => ?_, List.pairwise_singleton _ _⟩
  rw [List.mem_singleton.mp hp]
  decide

theorem oneImb_eq : oneImb.imbs.link (.head ()) = 1000 ∧ oneImb.imbs.link (.elem 1000) = 0 ∧
    oneImb.imbs.used 1000 = false := by
  have h100 : imbSizeof = 100 := rfl
  unfold oneImb reserved
  simp only [List.foldl_cons, List.foldl_nil]
  rw [resvIntmem, if_pos (by omega), resvIntmem, if_neg (by omega)]
  simp [push]

theorem oneImb_kept : Sound oneImb [1000] := by
  obtain ⟨l, hl⟩ := reserved_spec (s := ⟨fun _ => 0, fun _ => true, fun _ _ => 7⟩) oneImb_apart
  have hon : On oneImb.imbs.link 0 (.head ()) [1000] :=
    (on_cons 1000).mpr ⟨oneImb_eq.1, by decide, on_nil.mpr oneImb_eq.2.1⟩
  rwa [linked_unique hl.on hon] at hl

theorem honest_gcNone (w : Imem) : Honest w gcNone :=
  fun _ => ⟨List.nodup_nil, fun _ hp => absurd hp List.not_mem_nil, iff_of_true rfl rfl⟩

theorem oneImb_malloc : ImbCall.exec oneImb (.malloc (oneFile 0) gcNone) =
    some (⟨claim oneImb.imbs 1000, [1000], [], false⟩,
      ⟨some ⟨claim oneImb.imbs 1000, some (.head (), 1000), [], []⟩, some 1006⟩) := by
  have hn : addresses = 2 ^ 32 - 1 + 1 := rfl
  have hloop : imbLoop oneImb.imbs addresses (.head ()) = some (some (.head (), 1000)) := by
    rw [hn, imbLoop, oneImb_eq.1, if_neg (by decide), if_pos oneImb_eq.2.2]
  have hsearch : searchImb (oneFile 0) gcNone addresses 0 oneImb.imbs [] =
      some ⟨oneImb.imbs, some (.head (), 1000), [], []⟩ := by
    rw [hn]
    exact searchImb_free hloop
  simp only [ImbCall.exec, intMalloc, hsearch, Option.bind_eq_bind, Option.bind_some]
  simp [stillOut, oneImb, imbData]

/-- One block is given out, and freed. -/
theorem intmem_iff_one : GoodCalls oneImb [.malloc (oneFile 0) gcNone, .mfree 1006] := by
  have hlegal : LegalCalls oneImb [.malloc (oneFile 0) gcNone, .mfree 1006] := by
    refine ⟨⟨rfl, honest_gcNone _⟩, fun w' r h => ?_⟩
    cases oneImb_malloc.symm.trans h
    exact ⟨⟨rfl, 1000, List.mem_cons_self, rfl⟩, fun _ _ _ => trivial⟩
  refine (intmem_iff _ [(1000, 100)] _ oneImb_apart hlegal).mpr ⟨Or.inl ⟨1000, ?_, ?_⟩,
    fun w' r _ => ⟨trivial, fun _ _ _ => trivial⟩⟩
  · exact (listed_iff oneImb_kept.on).mpr List.mem_cons_self
  · exact oneImb_eq.2.2

/-- The only block is in use, and drive C could give it back, but is not asked. -/
theorem intmem_stops : Apart [(1000, 100)] ∧
    LegalCalls oneImb [.malloc (oneFile 0) gcNone, .malloc (oneFile 0) gcC] ∧
    (oneFile 0).dmdx 2 = some 1 ∧ gcC.has ((oneFile 0).dmd 1).xfs = true ∧
    ¬ GoodCalls oneImb [.malloc (oneFile 0) gcNone, .malloc (oneFile 0) gcC] := by
  have hlegal : LegalCalls oneImb [.malloc (oneFile 0) gcNone, .malloc (oneFile 0) gcC] := by
    refine ⟨⟨rfl, honest_gcNone _⟩, fun w' r h => ?_⟩
    cases oneImb_malloc.symm.trans h
    refine ⟨⟨rfl, fun d => ?_⟩, fun _ _ _ => trivial⟩
    unfold gcC
    by_cases hd : d = 2
    · simp [hd, imbData]
    · simp [hd]
  refine ⟨oneImb_apart, hlegal, rfl, rfl, fun hgood => ?_⟩
  have hasked := ((calls_iff oneImb_kept hlegal).mp hgood).2 _ _ oneImb_malloc
  rcases hasked.1 with ⟨a, ha, hfree⟩ | ⟨m, hm, _⟩ | hothers
  · -- the block is in use
    have hon : On (claim oneImb.imbs 1000).link 0 (.head ()) [1000] := oneImb_kept.on
    rw [List.mem_singleton.mp ((listed_iff hon).mp ha)] at hfree
    unfold claim at hfree
    simp at hfree
  · cases hm
  · cases hothers 2 1 (by decide) rfl

end Dos

end MagiC
