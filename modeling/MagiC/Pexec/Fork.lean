import MagiC.Malloc.Spares

/-!
# Forking a Process

`D_Pfork` and `D_Pvfork`. The memory of the process is saved, unless it is a `Pvfork`, then a
basepage is created with the largest free block there is, cut down to what the copy of the
supervisor stack needs, given to itself, and a task is started with it.

The creation of a basepage allocates a block for the PROCDATA first, and frees it again when there
is no memory for the basepage. From then on nobody does. What goes wrong later ends at
`fork_endfr`, where the basepage is freed and the copies are given up, and the PROCDATA stay
allocated, although nothing points to them any more.

What other tasks do is not part of the model, and neither are the context and the memory limit that
the process descriptor keeps for the kernel.

## Main definitions

* `Clean`: What a fork that fails should leave behind.

## Theorems

* `pfork_clean_iff`: When it fails cleanly.
-/

namespace MagiC

namespace Pexec

namespace Fork

open Malloc

def EINVFN : Int := -32

/-- `pr_sizeof`, the size of the PROCDATA. -/
def prSizeof : Nat := 854

def prFlags : Nat := 612

def basepageLen : Nat := 0x100

def pProcdata : Nat := 0x60

/-- What a fork reads of the running task, how long its supervisor stack is, what `exec_10x`
    answers, what becomes of the heap until the child lets the parent go on, the process id of the
    child, and what is written into the new blocks. -/
structure Task where
  actAppl : Nat
  stack : Nat
  started : Int
  child : Heap → Nat → Heap
  pid : Nat
  fill : Nat → Nat

/-- Write `n` bytes from `a` on. -/
def fillIn (m : Mem) (a n : Nat) (f : Nat → Nat) : Mem := fun x =>
  if a ≤ x ∧ x < a + n then f x else m x

/-- `Mchgown`: another owner for a block, or the question for the one it has. -/
def mchgown (h : Heap) (memadr process : Nat) : Heap × Int :=
  let a0 := mcbOf memadr
  if h.mem a0 ≠ ANDR ∧ h.mem a0 ≠ KROM then (h, EIMBA)
  else if h.mem (a0 + mcbOwner) = 0 then (h, EIMBA)
  else if process = 2 ^ 32 - 2 then
    ({ h with mem := h.mem.put (a0 + mcbOwner) (h.mem (a0 + mcbOwner) ||| 2 ^ 31) },
      h.mem (a0 + mcbLen))
  else if process = 2 ^ 32 - 1 then (h, h.mem (a0 + mcbOwner))
  else ({ h with mem := h.mem.put (a0 + mcbOwner) process }, 0)

/-- The PROCDATA that `create_basepage` allocates first. -/
def newProcdata (f : Nat → Nat) (h : Heap) : Option (Heap × Nat) :=
  match mxalloc h prSizeof 0x2002 h.actPd with
  | none => none
  | some (h, d4) =>
    if d4 = 0 then some (h, 0)
    else some ({ h with mem := fillIn h.mem d4 prSizeof f }, d4)

/-- `crb_freeenv`: there is no memory for the basepage. -/
def crbFreeenv (h : Heap) (d4 : Nat) : Option (Heap × Nat) :=
  (mxfree h d4 0).map fun p => (p.1, 0)

/-- `create_basepage` without a program header and without an environment, for the running
    process, as `Pexec` in mode 5 calls it: the basepage, or zero. -/
def createBasepage (f : Nat → Nat) (h : Heap) : Option (Heap × Nat) :=
  match newProcdata f h with
  | none => none
  | some (h, d4) =>
    if d4 = 0 then some (h, 0)
    else
      match mxalloc h (2 ^ 32 - 1) 0x2000 h.actPd with
      | none => none
      | some (h, d0) =>
        if d0 < basepageLen then crbFreeenv h d4
        else
          match mxalloc h d0 0x2000 h.actPd with
          | none => none
          | some (h, a5) =>
            if a5 = 0 then crbFreeenv h d4
            else
              let h := (mchgown h d4 h.actPd).1
              let h := (mchgown h a5 h.actPd).1
              let m := fillIn h.mem a5 basepageLen f
              some ({ h with mem := m.put (a5 + pProcdata) d4 }, a5)

/-- The copies of the memory, if there are to be any: the list of them, or nothing, which is
    `ENSMEM`. The application of the task is not copied. -/
def forkSave (save : Bool) (t : Task) (h : Heap) : Option (Heap × Option Nat) :=
  if save then pmemsave h h.actPd (if t.actAppl = 0 then [] else [t.actAppl]) h.actPd
  else some (h, some 0)

/-- `fork_endfr`: free the basepage `a6` after the error `d0`. -/
def forkEndfr (h : Heap) (a6 : Nat) (d0 : Int) : Option (Heap × Int) :=
  (mxfree h a6 h.actPd).map fun p => (p.1, d0)

/-- What is done with the basepage `a6`, or with its absence. The files are to be inherited, so
    bit 1 of `pr_flags` is set. -/
def forkBase (t : Task) (h : Heap) (a6 : Nat) : Option (Heap × Int) :=
  if a6 = 0 then some (h, Malloc.ENSMEM)
  else
    let a0 := h.mem (a6 + pProcdata)
    let h := { h with mem := h.mem.put (a0 + prFlags) (h.mem (a0 + prFlags) ||| 2 ^ 17) }
    if t.actAppl = 0 then forkEndfr h a6 EINVFN
    else
      match mxshrink h a6 (basepageLen + 8 + t.stack) h.actPd with
      | none => none
      | some (h, d0) =>
        if d0 < 0 then forkEndfr h a6 d0
        else
          let h := (mchgown h a6 a6).1
          if t.started < 0 then forkEndfr h a6 t.started
          else some (t.child h a6, t.pid)

/-- `fork_end`: copy the copies back, or only free them after an error. In the child there is
    nothing to be done. -/
def forkEnd (h : Heap) (a4 : Nat) (d0 : Int) : Option (Heap × Int) :=
  if a4 = 0 ∨ d0 = 0 then some (h, d0)
  else (pmemrestore h a4 h.actPd (decide (0 < d0))).map fun h => (h, d0)

/-- `D_Pfork` and `D_Pvfork`. -/
def pfork (save : Bool) (t : Task) (h : Heap) : Option (Heap × Int) :=
  match forkSave save t h with
  | none => none
  | some (h, none) => some (h, Malloc.ENSMEM)
  | some (h, some a4) =>
    match createBasepage t.fill h with
    | none => none
    | some (h, a6) =>
      match forkBase t h a6 with
      | none => none
      | some (h, d0) => forkEnd h a4 d0

/-- No block in which there was a copy is left allocated. -/
def NoCopies (save : Bool) (t : Task) (h h' : Heap) : Prop :=
  ∀ h1 a4, forkSave save t h = some (h1, some a4) →
    ∀ c, Alloc h1 c → ¬ Alloc h c → ∀ d, Alloc h' d → d.adr ≠ c.adr

/-- What a fork that fails should leave behind: the blocks that were free are free again, the
    blocks of the process are its blocks still and hold what they held, and there is no copy any
    more. -/
structure Clean (save : Bool) (t : Task) (h h' : Heap) : Prop where
  free : ∀ b, HasBlock h b → b.owner = 0 → HasBlock h' b
  own : ∀ b, OwnBlock h h.actPd b →
    HasBlock h' b ∧ ∀ x, b.adr + mcbData ≤ x → x < b.fin → h'.mem x = h.mem x
  saved : NoCopies save t h h'

/-- The largest free block of the first list behind the PROCDATA. -/
def room (f : Nat → Nat) (h : Heap) : Option Nat :=
  match newProcdata f h with
  | none => none
  | some (h, d4) => if d4 = 0 then none else memavail h 0

/-- The largest free block of the first list that copies and PROCDATA leave over, if there is
    memory for both. -/
def left (save : Bool) (t : Task) (h : Heap) : Option Nat :=
  match forkSave save t h with
  | some (h, some _) => room t.fill h
  | _ => none

/-- A block of `n` bytes is large enough for the basepage and the supervisor stack, and the task
    can be started. -/
def Goes (t : Task) (n : Nat) : Prop :=
  t.actAppl ≠ 0 ∧ roundUp (basepageLen + 8 + t.stack) ≤ n ∧ 0 ≤ t.started

/-- Nothing goes wrong any more when there is memory for the basepage. -/
def Safe (save : Bool) (t : Task) (h : Heap) : Prop :=
  ∀ n, left save t h = some n → basepageLen ≤ n → Goes t n

/-- The fork comes to the point where the child runs. -/
def Starts (save : Bool) (t : Task) (h : Heap) : Prop :=
  ∃ n, left save t h = some n ∧ basepageLen ≤ n ∧ Goes t n

/-- A well-formed heap, in which nothing lies where the shared blocks have their counts, and a
    task of the running process. -/
structure Ready (t : Task) (h : Heap) : Prop where
  ok : HeapOk h
  table : Table h
  lists : ∀ i, IsList h i → 0x1000 ≤ h.root i
  urPd : 0x1000 ≤ h.urPd
  actPd : 0x1000 ≤ h.actPd
  positive : h.actPd < 2 ^ 31
  appl : t.actAppl ≠ 0 → ∃ b, Alloc h b ∧ t.actAppl = b.adr + mcbData
  stack : t.stack < 2 ^ 31

section

variable {h : Heap} {b : Block} {v : Nat}

/-- The owner stays when it is stored again. -/
theorem mchgown_same (ok : HeapOk h) (hb : HasBlock h b) (hv : b.owner = v) (h0 : v ≠ 0)
    (hlt : v < 2 ^ 31) : mchgown h (b.adr + mcbData) v = (h, 0) := by
  obtain ⟨hmagic, -, howner, hkind⟩ := hb.header
  have hput : h.mem.put (b.adr + mcbOwner) v = h.mem := by
    funext x
    unfold Mem.put
    split_ifs with hx
    · rw [hx, howner, hv]
    · rfl
  unfold mchgown
  simp only [mcbOf_data h ok b hb, hmagic, howner]
  rw [if_neg (by rintro ⟨ha, hk⟩; exact hkind.elim hk ha), if_neg (by omega), if_neg (by omega),
    if_neg (by omega), hput]

theorem mchgown_owns (ok : HeapOk h) (hb : Alloc h b) (h0 : v ≠ 0) (hlt : v < 2 ^ 31) :
    ∃ h', mchgown h (b.adr + mcbData) v = (h', 0) ∧ Owns h h' b v := by
  obtain ⟨hmagic, -, howner, hkind⟩ := hb.1.header
  refine ⟨_, ?_, owns_put h ok b hb.1 v h0⟩
  unfold mchgown
  simp only [mcbOf_data h ok b hb.1, hmagic, howner]
  rw [if_neg (by rintro ⟨ha, hk⟩; exact hkind.elim hk ha), if_neg hb.2, if_neg (by omega),
    if_neg (by omega)]

end

section

variable {h : Heap} {f : Nat → Nat}

theorem fillIn_other {m : Mem} {a n x : Nat} (hx : fillIn m a n f x ≠ m x) :
    a ≤ x ∧ x < a + n := by
  by_contra hno
  exact hx (if_neg hno)

theorem newProcdata_spec (ok : HeapOk h) :
    newProcdata f h = some (h, 0) ∨
      ∃ g b, newProcdata f h = some (g, b.adr + mcbData) ∧ Gains h g b ∧ b.owner = h.actPd ∧
        roundUp prSizeof ≤ b.len := by
  unfold newProcdata
  obtain ⟨h1, r, hrun, ⟨rfl, hr⟩ | ⟨-, b, rfl, hown, hlen, ht⟩⟩ :=
    mxalloc_spec h ok prSizeof 0x2002 h.actPd ok.actPd
  · rw [hrun]
    simp only [hr.resolve_right (by decide), if_true]
    exact Or.inl trivial
  · have hne : b.adr + mcbData ≠ 0 := by
      unfold mcbData
      omega
    rw [hrun]
    simp only [if_neg hne]
    refine Or.inr ⟨_, b, rfl, ((ht.gains ok).store fun x hx => ?_).1, hown, hlen⟩
    have hin := fillIn_other hx
    have hround : roundUp prSizeof = 856 := rfl
    unfold prSizeof at hin
    unfold Block.fin
    omega

/-- A basepage is created, or nothing has changed and there was no memory for it. -/
theorem createBasepage_spec (ok : HeapOk h) (table : Table h) (hpos : h.actPd < 2 ^ 31) :
    (∃ h', createBasepage f h = some (h', 0) ∧ GivenUp h h' ∧
        ∀ n, room f h = some n → n < basepageLen) ∨
      ∃ g k p b n, room f h = some n ∧ basepageLen ≤ n ∧
        createBasepage f h = some (k, b.adr + mcbData) ∧ Gains h g p ∧ Gains g k b ∧
        p.owner = h.actPd ∧ roundUp prSizeof ≤ p.len ∧ b.owner = h.actPd ∧ b.len = n ∧
        NextOwned k b ∧ k.mem (b.adr + mcbData + pProcdata) = p.adr + mcbData := by
  unfold createBasepage room
  rcases newProcdata_spec (f := f) ok with hrun | ⟨g, p, hrun, hg, hpown, hplen⟩
  · rw [hrun]
    exact Or.inl ⟨h, rfl, ⟨ok, Same.refl h, fun _ => Iff.rfl, fun _ _ => rfl⟩, fun n hn =>
      absurd hn (by simp)⟩
  have hne : p.adr + mcbData ≠ 0 := by
    unfold mcbData
    omega
  have hact : g.actPd = h.actPd := hg.same.actPd
  have hact0 : h.actPd ≠ 0 := ok.actPd
  obtain ⟨n, hn, hlen, hfits⟩ := memavail_eq g hg.ok 0 (by decide) (by decide)
  -- The question for the largest block is the one for the first list.
  have hask : mxalloc g (2 ^ 32 - 1) 0x2000 g.actPd = some (g, n) := by
    unfold mxalloc memxavail
    have hmode : 0x2000 % 4 = 0 := rfl
    have hno : nolimit 0x2000 = true := by decide
    simp only [if_true, hmode, hn, hno, true_or, Option.bind_eq_bind, Option.bind_some,
      Option.pure_def, Option.map_some]
  rw [hrun]
  simp only [if_neg hne, hask, hn]
  obtain ⟨k, hfree, hfrees⟩ :=
    mxfree_owned g hg.ok (table_same h g hg.same table) p hg.here 0 (Or.inl rfl)
  by_cases hlow : n < basepageLen
  · rw [if_pos hlow]
    unfold crbFreeenv
    rw [hfree]
    exact Or.inl ⟨k, rfl, hg.givenUp hfrees, fun m hm => by
      rw [← Option.some.inj hm]
      exact hlow⟩
  · rw [if_neg hlow]
    have hpos0 : 0 < n := by
      unfold basepageLen at hlow
      omega
    obtain ⟨g', b, hal, ht, hbown, hblen, hnext⟩ := mxalloc_largest hg.ok (hact ▸ hact0) hpos0
      hlen.1 hlen.2 ((hfits n hpos0).mpr (Nat.le_refl n)) fun hmore => by
        have := (hfits (n + 1) (Nat.succ_pos n)).mp hmore
        omega
    have hbne : b.adr + mcbData ≠ 0 := by
      unfold mcbData
      omega
    have hact' : g'.actPd = h.actPd := ht.same.actPd.trans hact
    have hgb := ht.gains hg.ok
    have hp : HasBlock g' p := (hgb.stays hg.here).1
    have hb : HasBlock g' b := hgb.here.1
    -- Both blocks belong to the process already.
    have hchp : mchgown g' (p.adr + mcbData) g'.actPd = (g', 0) :=
      mchgown_same ht.ok hp (hpown.trans hact'.symm) (hact' ▸ hact0) (hact' ▸ hpos)
    have hchb : mchgown g' (b.adr + mcbData) g'.actPd = (g', 0) :=
      mchgown_same ht.ok hb (hbown.trans (hact.trans hact'.symm)) (hact' ▸ hact0) (hact' ▸ hpos)
    rw [hal]
    simp only [if_neg hbne, hchp, hchb]
    obtain ⟨hstore, hblocks⟩ := hgb.store (m := (fillIn g'.mem (b.adr + mcbData) basepageLen f).put
      (b.adr + mcbData + pProcdata) (p.adr + mcbData)) fun x hx => by
        unfold basepageLen at hlow
        unfold Block.fin
        by_cases hxp : x = b.adr + mcbData + pProcdata
        · unfold pProcdata at hxp
          omega
        · rw [put_other _ _ _ _ hxp] at hx
          have hin := fillIn_other hx
          unfold basepageLen at hin
          omega
    refine Or.inr ⟨g, _, p, b, n, rfl, Nat.le_of_not_lt hlow, rfl, hg, hstore, hpown, hplen,
      hbown.trans hact, hblen, fun ha c hc => ?_, put_self _ _ _⟩
    exact hnext ha c ((hblocks c).mp hc)

end

section

variable {h g k : Heap} {t : Task} {p b : Block} {d0 : Int}

theorem forkEndfr_loses (table : Table h) {k' : Heap} (hp : Gains h g p) (hb : Gains g k b)
    (hs : Spares [b.adr] [p.adr] k k') {c : Block} (hc : Alloc k' c) (hadr : c.adr = b.adr)
    (hown : 0x1000 ≤ c.owner) (herr : d0 < 0) :
    ∃ h' r, forkEndfr k' (b.adr + mcbData) d0 = some (h', r) ∧ r < 0 ∧ Loses h h' p := by
  have hsame : Same h k' := (hp.same.trans _ _ _ hb.same).trans _ _ _ hs.same
  obtain ⟨h', hfree, hfrees⟩ :=
    mxfree_owned k' hs.ok (table_same h k' hsame table) c hc k'.actPd (Or.inr hown)
  refine ⟨h', d0, ?_, herr, hp.loses hb (hs.trans (hfrees.spares hs.ok ?_))⟩
  · unfold forkEndfr
    rw [← hadr, hfree]
    rfl
  · rw [hadr]
    exact List.mem_singleton_self b.adr

/-- What is known of the heap in which there is a basepage `b` of `n` bytes with PROCDATA `p`. -/
structure Based (h g k : Heap) (p b : Block) (n : Nat) : Prop where
  table : Table h
  lists : ∀ i, IsList h i → 0x1000 ≤ h.root i
  actPd : 0x1000 ≤ h.actPd
  first : Gains h g p
  second : Gains g k b
  pLen : roundUp prSizeof ≤ p.len
  bOwner : b.owner = h.actPd
  bLen : b.len = n
  enough : basepageLen ≤ n
  next : NextOwned k b
  procdata : k.mem (b.adr + mcbData + pProcdata) = p.adr + mcbData

variable {n : Nat}

theorem Based.same (hb : Based h g k p b n) : Same h k :=
  hb.first.same.trans _ _ _ hb.second.same

theorem Based.flag (hb : Based h g k p b n) {m : Mem}
    (hm : m = k.mem.put (p.adr + mcbData + prFlags)
      (k.mem (p.adr + mcbData + prFlags) ||| 2 ^ 17)) :
    Spares [b.adr] [p.adr] k { k with mem := m } ∧
      ∀ c, HasBlock { k with mem := m } c ↔ HasBlock k c := by
  refine store_spares hb.second.ok (hb.second.stays hb.first.here).1
    (List.mem_singleton_self p.adr) fun x hx => ?_
  have hlen := hb.pLen
  have hround : roundUp prSizeof = 856 := rfl
  have hxp : x = p.adr + mcbData + prFlags := by
    by_contra hne
    rw [hm, put_other _ _ _ _ hne] at hx
    exact hx rfl
  unfold prFlags at hxp
  unfold Block.fin
  omega

theorem Based.range (hb : Based h g k p b n) :
    0x1000 ≤ b.adr + mcbData ∧ b.adr + mcbData < 2 ^ 31 := by
  obtain ⟨i, bs, hi, hbs, hin⟩ := hb.second.here.1
  have hr := span_mem _ _ _ hbs.tiled.span b hin
  unfold IsList at hi
  rw [hb.same.root] at hi hr
  rw [hb.same.memEnd] at hr
  have hlo := hb.lists i hi
  have hhi := hb.table.low i hi
  have hlen := hb.bLen
  have hmin := hb.enough
  unfold basepageLen at hmin
  unfold Block.fin at hr
  unfold mcbData at hr ⊢
  omega

/-- When something goes wrong behind `create_basepage`, the PROCDATA stay allocated. -/
theorem forkBase_loses (hb : Based h g k p b n) (hstack : t.stack < 2 ^ 31) (hno : ¬ Goes t n) :
    ∃ h' r, forkBase t k (b.adr + mcbData) = some (h', r) ∧ r < 0 ∧ Loses h h' p := by
  have hne : b.adr + mcbData ≠ 0 := by
    unfold mcbData
    omega
  obtain ⟨m, hm⟩ : ∃ m, m = k.mem.put (p.adr + mcbData + prFlags)
      (k.mem (p.adr + mcbData + prFlags) ||| 2 ^ 17) := ⟨_, rfl⟩
  obtain ⟨hs, hblocks⟩ := hb.flag hm
  have hact : 0x1000 ≤ k.actPd := by
    rw [hb.same.actPd]
    exact hb.actPd
  have hbk : Alloc { k with mem := m } b :=
    ⟨(hblocks b).mpr hb.second.here.1, hb.second.here.2⟩
  have hbown : 0x1000 ≤ b.owner := by
    rw [hb.bOwner]
    exact hb.actPd
  unfold forkBase
  simp only [if_neg hne, hb.procdata, ← hm]
  by_cases happl : t.actAppl = 0
  · -- There is no multitasking.
    rw [if_pos happl]
    exact forkEndfr_loses hb.table hb.first hb.second hs hbk rfl hbown (by decide)
  rw [if_neg happl]
  have htable : Table { k with mem := m } :=
    table_same h _ (hb.same.store _ _ m) hb.table
  have hsize : basepageLen + 8 + t.stack ≠ 0 := by
    unfold basepageLen
    omega
  have hmax : basepageLen + 8 + t.stack ≠ 2 ^ 32 - 1 := by
    unfold basepageLen
    omega
  by_cases hroom : roundUp (basepageLen + 8 + t.stack) ≤ n
  · -- The task is not started, so the basepage has got its own owner.
    have hfail : t.started < 0 := by
      by_contra hge
      exact hno ⟨happl, hroom, by omega⟩
    obtain ⟨k1, c, hshrink, hs1, hc, hcadr, hcown⟩ := mxshrink_spares k.actPd (E := [b.adr])
      (D := [p.adr]) hs.ok htable hact hbk hsize hmax
      (by rw [hb.bLen]; exact hroom) (List.mem_singleton_self b.adr)
    have hs2 := hs.trans hs1
    obtain ⟨hlo, hhi⟩ := hb.range
    rw [← hcadr] at hlo hhi
    obtain ⟨k2, hch, howns⟩ := mchgown_owns hs2.ok hc (v := c.adr + mcbData) (by omega) hhi
    have hs3 := hs2.trans (howns.spares (D := [p.adr]) hs2.ok (by
      rw [hcadr]
      exact List.mem_singleton_self b.adr))
    have hend := forkEndfr_loses hb.table hb.first hb.second hs3
      ((howns.alloc _).mpr (Or.inr rfl)) hcadr hlo hfail
    rw [hshrink]
    simp only [if_neg (Int.lt_irrefl 0), if_pos hfail, ← hcadr, hch]
    rw [← hcadr] at hend
    exact hend
  · -- There is not enough memory for the supervisor stack.
    have hrefused : mxshrink { k with mem := m } (b.adr + mcbData) (basepageLen + 8 + t.stack)
        k.actPd = some ({ k with mem := m }, EGSBF) := by
      refine mxshrink_refused _ hs.ok htable hbk hsize hmax (fun ha c hc => ?_) (by
        rw [hb.bLen]
        omega)
      exact hb.next ha c ((hblocks c).mp hc)
    have hneg : EGSBF < 0 := by decide
    rw [hrefused]
    simp only [if_pos hneg]
    exact forkEndfr_loses hb.table hb.first hb.second hs hbk rfl hbown hneg

theorem forkBase_starts (hb : Based h g k p b n) (hstack : t.stack < 2 ^ 31) (hgo : Goes t n) :
    ∃ h', forkBase t k (b.adr + mcbData) = some (h', (t.pid : Int)) := by
  have hne : b.adr + mcbData ≠ 0 := by
    unfold mcbData
    omega
  obtain ⟨m, hm⟩ : ∃ m, m = k.mem.put (p.adr + mcbData + prFlags)
      (k.mem (p.adr + mcbData + prFlags) ||| 2 ^ 17) := ⟨_, rfl⟩
  obtain ⟨hs, hblocks⟩ := hb.flag hm
  have hact : 0x1000 ≤ k.actPd := by
    rw [hb.same.actPd]
    exact hb.actPd
  obtain ⟨happl, hroom, hge⟩ := hgo
  obtain ⟨k1, c, hshrink, -⟩ := mxshrink_spares k.actPd (E := [b.adr]) (D := []) hs.ok
    (table_same h _ (hb.same.store _ _ m) hb.table) hact
    ⟨(hblocks b).mpr hb.second.here.1, hb.second.here.2⟩
    (by unfold basepageLen; omega : basepageLen + 8 + t.stack ≠ 0)
    (by unfold basepageLen; omega) (by rw [hb.bLen]; exact hroom)
    (List.mem_singleton_self b.adr)
  unfold forkBase
  simp only [if_neg hne, hb.procdata, ← hm, if_neg happl, hshrink, if_neg (Int.lt_irrefl 0),
    if_neg (Int.not_lt.mpr hge)]
  exact ⟨_, rfl⟩

end

section

variable (save : Bool) {h h1 k : Heap} {t : Task} {a4 : Nat} {recs : List Rec} {d0 : Int}

theorem parked_nil (ok : HeapOk h) : Parked h h h.actPd 0 [] where
  ok := ok
  same := Same.refl h
  chain := Chains.linked_nil _ _
  fields _ hr := absurd hr List.not_mem_nil
  size _ hr := absurd hr List.not_mem_nil
  alloc c := ⟨Or.inl, fun hc => by
    rcases hc with hc | ⟨r, hr, -⟩
    · exact hc
    · exact absurd hr List.not_mem_nil⟩
  fresh _ hr := absurd hr List.not_mem_nil
  data _ _ := rfl
  target _ hr := absurd hr List.not_mem_nil
  content _ hr := absurd hr List.not_mem_nil

theorem forkSave_spec (ready : Ready t h) :
    (∃ h', forkSave save t h = some (h', none) ∧ GivenUp h h') ∨
      ∃ h1 a4 recs, forkSave save t h = some (h1, some a4) ∧ Parked h h1 h.actPd a4 recs := by
  unfold forkSave
  by_cases hs : save = true
  · rw [if_pos hs]
    have hn : Names h (if t.actAppl = 0 then [] else [t.actAppl]) := by
      intro e he
      by_cases happl : t.actAppl = 0
      · rw [if_pos happl] at he
        exact absurd he List.not_mem_nil
      · rw [if_neg happl] at he
        rw [List.mem_singleton.mp he]
        exact ready.appl happl
    rcases pmemsave_spec h ready.ok ready.table ready.urPd h.actPd ready.ok.actPd _ hn h.actPd with
      hup | ⟨h1, a4, recs, hrun, hp, -⟩
    · exact Or.inl hup
    · exact Or.inr ⟨h1, a4, recs, hrun, hp⟩
  · rw [if_neg hs]
    exact Or.inr ⟨h, 0, [], rfl, parked_nil ready.ok⟩

theorem forkEnd_frees (ready : Ready t h) (hp : Parked h h1 h.actPd a4 recs) (ok : HeapOk k)
    (hsame : Same h1 k) (hstays : ∀ c, Alloc h1 c → Alloc k c)
    (hdata : ∀ x, Data h1 x → k.mem x = h1.mem x) (herr : d0 < 0) :
    ∃ h', forkEnd k a4 d0 = some (h', d0) ∧ HeapOk h' ∧ Same h h' ∧
      (∀ c, Alloc h' c ↔ Alloc k c ∧ ∀ r ∈ recs, c ≠ r.block) ∧
      ∀ x, Data h x → h'.mem x = h.mem x := by
  have hsame' : Same h k := hp.same.trans _ _ _ hsame
  have hold : ∀ x, Data h x → Data h1 x := by
    intro x hx
    obtain ⟨c, hc, hlo, hhi⟩ := hx
    exact ⟨c, (hp.alloc c).mpr (Or.inl hc), hlo, hhi⟩
  have hkeep : ∀ x, Data h x → k.mem x = h.mem x := fun x hx =>
    (hdata x (hold x hx)).trans (hp.data x hx)
  cases recs with
  | nil =>
    have ha4 : a4 = 0 := hp.chain.1
    unfold forkEnd
    rw [if_pos (Or.inl ha4)]
    exact ⟨k, rfl, ok, hsame', fun c => ⟨fun hc => ⟨hc, fun r hr => absurd hr List.not_mem_nil⟩,
      fun hc => hc.1⟩, hkeep⟩
  | cons r recs =>
    have hne : a4 ≠ 0 := by
      obtain ⟨ha4, hne, -⟩ := (Chains.linked_cons _).mp hp.chain
      rw [ha4]
      exact hne
    have hcopies : ∀ q ∈ r :: recs, Alloc h1 q.block ∧ 0x1000 ≤ q.block.owner ∧
        0 < q.block.len := by
      intro q hq
      obtain ⟨hsize, hown⟩ := hp.size q hq
      unfold svmbData at hsize
      exact ⟨(hp.alloc _).mpr (Or.inr ⟨q, hq, rfl⟩), by rw [hown]; exact ready.actPd, by omega⟩
    -- The links lie in the copies, which are allocated still.
    have hchain : Chains.Linked k.mem 0 a4 ((r :: recs).map Rec.copy) := by
      refine Chains.linked_congr hp.chain fun x hx => ?_
      obtain ⟨q, hq, rfl⟩ := List.mem_map.mp hx
      obtain ⟨hq1, -, hlen⟩ := hcopies q hq
      refine hdata _ ⟨q.block, hq1, Nat.le_refl _, ?_⟩
      unfold Rec.copy Block.fin
      omega
    obtain ⟨h', hloop, hok, hs, hal, hclear⟩ := pmrLoop_frees k.actPd ok
      (table_same h k hsame' ready.table) hchain (hp.length h h1 _ _ _) fun q hq =>
        ⟨hstays _ (hcopies q hq).1, (hcopies q hq).2⟩
    have hfalse : decide (0 < d0) = false := decide_eq_false (by omega)
    refine ⟨h', ?_, hok, hsame'.trans _ _ _ hs, hal, fun x hx => ?_⟩
    · unfold forkEnd pmemrestore
      rw [if_neg (by omega), hfalse, hloop]
      rfl
    · obtain ⟨c, hc, hlo, hhi⟩ := hx
      have hck : Alloc k c := hstays c ((hp.alloc c).mpr (Or.inl hc))
      rw [hclear x (data_noHeader k ok x ⟨c, hck, hlo, hhi⟩)]
      exact hkeep x ⟨c, hc, hlo, hhi⟩

theorem clean_of_givenUp {h' : Heap} (ready : Ready t h) (hup : GivenUp h h') :
    Clean save t h h' := by
  obtain ⟨ok', hsame, hal, hdata⟩ := hup
  refine ⟨fun b hb _ => hasBlock_of_alloc ready.ok ok' hsame hal hb, fun b hb => ?_,
    fun g a4 hsave c hc hnew d hd hadr => ?_⟩
  · exact ⟨((hal b).mpr hb.1).1, fun x hlo hhi => hdata x ⟨b, hb.1, hlo, hhi⟩⟩
  · rcases forkSave_spec save ready with ⟨g', hnone, -⟩ | ⟨h1, a, recs, hsome, hp⟩
    · rw [hsave] at hnone
      exact absurd hnone (by simp)
    · have hg : g = h1 := by
        rw [hsave] at hsome
        exact (Prod.mk.inj (Option.some.inj hsome)).1
      rw [hg] at hc
      -- Nothing was allocated where there is a copy.
      have hdh := (hal d).mp hd
      have hdc : d = c := hasBlock_same h1 hp.ok d c ((hp.alloc d).mpr (Or.inl hdh)).1 hc.1 hadr
      exact hnew (hdc ▸ hdh)

end

section

variable (save : Bool) {h : Heap} {t : Task}

theorem pfork_cases (ready : Ready t h) :
    ((∀ n, left save t h = some n → n < basepageLen) ∧
        ∃ h' r, pfork save t h = some (h', r) ∧ r < 0 ∧ GivenUp h h') ∨
      ∃ n, left save t h = some n ∧ basepageLen ≤ n ∧
        ((¬ Goes t n ∧ ∃ h' r p, pfork save t h = some (h', r) ∧ r < 0 ∧ Loses h h' p ∧
            NoCopies save t h h') ∨
          (Goes t n ∧ ∀ h' r, pfork save t h = some (h', r) → 0 ≤ r)) := by
  have herr : Malloc.ENSMEM < 0 := by decide
  unfold pfork left
  rcases forkSave_spec save ready with ⟨h', hrun, hup⟩ | ⟨h1, a4, recs, hrun, hp⟩
  · -- There is no memory for the copies.
    rw [hrun]
    exact Or.inl ⟨fun n hn => absurd hn (by simp), h', _, rfl, herr, hup⟩
  rw [hrun]
  have htable := table_same h h1 hp.same ready.table
  have hact : h1.actPd = h.actPd := hp.same.actPd
  rcases createBasepage_spec (f := t.fill) hp.ok htable (by rw [hact]; exact ready.positive) with
    ⟨k, hbase, ⟨hok, hsame, hal, hdata⟩, hlow⟩ |
    ⟨g, k, p, b, n, hroom, hmin, hbase, hg, hk, -, hplen, hbown, hblen, hnext, hproc⟩
  · -- There is no memory for the basepage.
    obtain ⟨h', hend, hok', hsame', hal', hdata'⟩ := forkEnd_frees ready hp hok hsame
      (fun c => (hal c).mpr) hdata herr
    refine Or.inl ⟨hlow, h', _, ?_, herr, hok', hsame', fun c => ?_, hdata'⟩
    · simp only [hbase]
      unfold forkBase
      rw [if_pos rfl]
      exact hend
    · rw [hal' c, hal c, hp.alloc c]
      constructor
      · rintro ⟨hc | ⟨r, hr, hcr⟩, hne⟩
        · exact hc
        · exact absurd hcr (hne r hr)
      · exact fun hc => ⟨Or.inl hc, fun r hr hcr => hp.fresh r hr c hc (congrArg Block.adr hcr)⟩
  · have hb : Based h1 g k p b n := ⟨htable, fun i hi => by
      unfold IsList at hi
      rw [hp.same.root] at hi ⊢
      exact ready.lists i hi, by rw [hact]; exact ready.actPd, hg, hk, hplen, hbown, hblen, hmin,
      hnext, hproc⟩
    refine Or.inr ⟨n, hroom, hmin, ?_⟩
    simp only [hbase]
    by_cases hgo : Goes t n
    · -- The child runs, and the parent gets its process id.
      obtain ⟨h', hstart⟩ := forkBase_starts hb ready.stack hgo
      refine Or.inr ⟨hgo, fun h'' r hend => ?_⟩
      simp only [hstart] at hend
      unfold forkEnd at hend
      split_ifs at hend
      · have hr := (Prod.mk.inj (Option.some.inj hend)).2
        omega
      · obtain ⟨g', -, hg'⟩ := Option.map_eq_some_iff.mp hend
        have hr := (Prod.mk.inj hg').2
        omega
    · obtain ⟨k', r, hfail, hneg, hloses⟩ := forkBase_loses hb ready.stack hgo
      obtain ⟨h', hend, hok', hsame', hal', hdata'⟩ := forkEnd_frees ready hp hloses.ok hloses.same
        hloses.stays hloses.data hneg
      refine Or.inl ⟨hgo, h', r, p, ?_, hneg, ⟨hok', hsame', fun c hc => ?_, hdata', ?_,
        fun hph => ?_⟩, fun g4 a hsave c hc hnew d hd hadr => ?_⟩
      · simp only [hfail]
        exact hend
      · exact (hal' c).mpr ⟨hloses.stays c ((hp.alloc c).mpr (Or.inl hc)), fun r hr hcr =>
          hp.fresh r hr c hc (congrArg Block.adr hcr)⟩
      · -- The PROCDATA are not one of the copies.
        refine (hal' p).mpr ⟨hloses.left, fun r hr hpr => hloses.new ?_⟩
        exact (hp.alloc p).mpr (Or.inr ⟨r, hr, hpr⟩)
      · exact hloses.new ((hp.alloc p).mpr (Or.inl hph))
      · -- All copies have been freed.
        rw [hrun] at hsave
        rw [← (Prod.mk.inj (Option.some.inj hsave)).1] at hc
        obtain ⟨hdk, hne⟩ := (hal' d).mp hd
        rcases (hp.alloc c).mp hc with hch | ⟨q, hq, hcq⟩
        · exact hnew hch
        · refine hne q hq ?_
          rw [← hcq]
          exact hasBlock_same k' hloses.ok d c hdk.1 (hloses.stays c hc).1 hadr

/-- Whatever goes wrong, the blocks of the process stay, and there are no copies left. -/
theorem pfork_keeps_own (ready : Ready t h) {h' : Heap} {r : Int}
    (hrun : pfork save t h = some (h', r)) (hneg : r < 0) :
    (∀ b, OwnBlock h h.actPd b →
        HasBlock h' b ∧ ∀ x, b.adr + mcbData ≤ x → x < b.fin → h'.mem x = h.mem x) ∧
      NoCopies save t h h' := by
  rcases pfork_cases save ready with ⟨-, g, q, hg, -, hup⟩ |
    ⟨n, -, -, ⟨-, g, q, p, hg, -, hloses, hno⟩ | ⟨-, hpos⟩⟩
  · rw [hrun] at hg
    rw [(Prod.mk.inj (Option.some.inj hg)).1]
    have hclean := clean_of_givenUp save ready hup
    exact ⟨hclean.own, hclean.saved⟩
  · rw [hrun] at hg
    rw [(Prod.mk.inj (Option.some.inj hg)).1]
    exact ⟨fun b hb => ⟨(hloses.stays b hb.1).1, fun x hlo hhi =>
      hloses.data x ⟨b, hb.1, hlo, hhi⟩⟩, hno⟩
  · have := hpos h' r hrun
    omega

/-- A fork that fails does so cleanly if and only if nothing goes wrong once there is memory for
    the basepage. It fails unless the child comes to run. -/
theorem pfork_clean_iff (ready : Ready t h) :
    ((∀ h' r, pfork save t h = some (h', r) → r < 0 → Clean save t h h') ↔ Safe save t h) ∧
      ((∃ h' r, pfork save t h = some (h', r) ∧ r < 0) ↔ ¬ Starts save t h) := by
  rcases pfork_cases save ready with ⟨hlow, h', r, hrun, hneg, hup⟩ |
    ⟨n, hn, hmin, ⟨hno, h', r, p, hrun, hneg, hloses, -⟩ | ⟨hgo, hpos⟩⟩
  · refine ⟨⟨fun _ n hn hmin => absurd (hlow n hn) (by omega), fun _ g q hg _ => ?_⟩,
      ⟨fun _ => ?_, fun _ => ⟨h', r, hrun, hneg⟩⟩⟩
    · rw [hrun] at hg
      rw [← (Prod.mk.inj (Option.some.inj hg)).1]
      exact clean_of_givenUp save ready hup
    · rintro ⟨n, hn, hmin, -⟩
      exact absurd (hlow n hn) (by omega)
  · refine ⟨⟨fun hclean => ?_, fun hsafe => absurd (hsafe n hn hmin) hno⟩,
      ⟨fun _ => ?_, fun _ => ⟨h', r, hrun, hneg⟩⟩⟩
    · exact absurd (hclean h' r hrun hneg).free (hloses.not_free ready.ok)
    · rintro ⟨m, hm, -, hgo⟩
      rw [hn] at hm
      exact hno (Option.some.inj hm ▸ hgo)
  · refine ⟨⟨fun _ m hm _ => ?_, fun _ g q hg hneg => ?_⟩,
      ⟨?_, fun hno => absurd ⟨n, hn, hmin, hgo⟩ hno⟩⟩
    · rw [hn] at hm
      exact Option.some.inj hm ▸ hgo
    · have := hpos g q hg
      omega
    · rintro ⟨g, q, hg, hneg⟩
      have := hpos g q hg
      omega

end

/-- A block of the process, and a free one of `n` bytes behind it. -/
def spaceMem (n : Nat) : Mem := fun x =>
  if x = 4096 then ANDR else if x = 4100 then 16 else if x = 4104 then 0x8000 else
  if x = 4128 then KROM else if x = 4132 then n else if x = 4140 then 4096 else 0

theorem spaceMem_ramList (n : Nat) (h4 : 4 ∣ n) :
    RamList (spaceMem n) 4096 (4144 + n) [⟨4096, ANDR, 16, 0x8000⟩, ⟨4128, KROM, n, 0⟩] := by
  refine ⟨⟨⟨rfl, rfl, rfl, rfl⟩, ⟨rfl, rfl, rfl, rfl⟩, trivial⟩, ⟨⟨rfl, rfl, rfl⟩, ⟨rfl, rfl⟩, ?_⟩,
    List.isChain_pair.mpr (Or.inl (Nat.succ_ne_zero _))⟩
  intro b hb
  rcases List.mem_cons.mp hb with rfl | hb
  · exact Dvd.intro_left 4 rfl
  · rw [List.mem_singleton.mp hb]
    exact h4

/-- A heap with that memory. -/
def space (n : Nat) : Heap := oneList (spaceMem n) 4096 (4144 + n)

/-- A task with a block of its own and a hundred bytes on its supervisor stack. -/
def waiting (started : Int) : Task := ⟨4112, 100, started, fun h _ => h, 2, fun _ => 0⟩

theorem ready_space (n : Nat) (started : Int) (h4 : 4 ∣ n) (hn : n ≤ 2000) :
    Ready (waiting started) (space n) := by
  have hlist := spaceMem_ramList n h4
  have hzero : ∀ i, IsList (space n) i → i = 0 :=
    fun i hi => isList_oneList (spaceMem n) 4096 (4144 + n) i hi
  refine ⟨heapOk_oneList _ _ _ _ (by decide) (by omega) hlist,
    ⟨Nat.succ_ne_zero _, fun j hj i hij => ?_, fun i hi => ?_, fun i hi => ?_⟩, fun i hi => ?_,
    (by decide : 0x1000 ≤ 0x9000), (by decide : 0x1000 ≤ 0x8000), (by decide : 0x8000 < 2 ^ 31),
    fun _ => ?_, (by decide : 100 < 2 ^ 31)⟩
  · rw [hzero j hj] at hij
    exact absurd hij (Nat.not_lt_zero i)
  · rw [hzero i hi]
    show 4144 + n ≤ 2 ^ 31
    omega
  · rw [hzero i hi]
    show (4 : Nat) ∣ 4096
    decide
  · rw [hzero i hi]
    show (0x1000 : Nat) ≤ 4096
    decide
  · refine ⟨⟨4096, ANDR, 16, 0x8000⟩, ⟨⟨0, _, ⟨by decide, Nat.succ_ne_zero _, ?_⟩, hlist,
      List.mem_cons_self⟩, Nat.succ_ne_zero _⟩, rfl⟩
    show (4096 : Nat) ≠ 2 ^ 32 - 1
    decide

/-- With a copy and the PROCDATA the memory is used up, and the fork fails cleanly. -/
theorem pfork_clean_iff_cramped :
    (∃ h' r, pfork true (waiting 0) (space 1000) = some (h', r) ∧ r < 0) ∧
      ∀ h' r, pfork true (waiting 0) (space 1000) = some (h', r) → r < 0 →
        Clean true (waiting 0) (space 1000) h' := by
  have hleft : left true (waiting 0) (space 1000) = some 84 := by decide +kernel
  have hlow : ∀ n, left true (waiting 0) (space 1000) = some n → ¬ basepageLen ≤ n := by
    intro n hn
    rw [hleft] at hn
    rw [← Option.some.inj hn]
    decide
  obtain ⟨hclean, hfails⟩ := pfork_clean_iff true (ready_space 1000 0 (by decide)
    (by decide))
  refine ⟨hfails.mpr ?_, hclean.mpr fun n hn hmin => absurd hmin (hlow n hn)⟩
  rintro ⟨n, hn, hmin, -⟩
  exact hlow n hn hmin

/-- There is no memory for the basepage, and the blocks of the process stay. -/
theorem pfork_keeps_own_cramped : ∃ h' r, pfork true (waiting 0) (space 1000) = some (h', r) ∧
    (∀ b, OwnBlock (space 1000) (space 1000).actPd b → HasBlock h' b) ∧
      NoCopies true (waiting 0) (space 1000) h' := by
  have ready := ready_space 1000 0 (by decide) (by decide)
  have hleft : left true (waiting 0) (space 1000) = some 84 := by decide +kernel
  rcases pfork_cases true ready with ⟨-, h', r, hrun, hneg, -⟩ | ⟨n, hn, hmin, -⟩
  · obtain ⟨hown, hno⟩ := pfork_keeps_own true ready hrun hneg
    exact ⟨h', r, hrun, fun b hb => (hown b hb).1, hno⟩
  · rw [hleft] at hn
    rw [← Option.some.inj hn] at hmin
    exact absurd hmin (by decide)

/-- When the task cannot be started, a `Pvfork` fails and leaves the PROCDATA allocated. -/
theorem pfork_leaves_procdata :
    Ready (waiting Malloc.ENSMEM) (space 2000) ∧
      ∃ h' r, pfork false (waiting Malloc.ENSMEM) (space 2000) = some (h', r) ∧ r < 0 ∧
        ¬ Clean false (waiting Malloc.ENSMEM) (space 2000) h' := by
  have ready := ready_space 2000 Malloc.ENSMEM (by decide) (Nat.le_refl _)
  have hleft : left false (waiting Malloc.ENSMEM) (space 2000) = some 1128 := by decide +kernel
  refine ⟨ready, ?_⟩
  rcases pfork_cases false ready with ⟨hlow, -⟩ |
    ⟨n, -, -, ⟨-, h', r, p, hrun, hneg, hloses, -⟩ | ⟨hgo, -⟩⟩
  · exact absurd (hlow 1128 hleft) (by decide)
  · exact ⟨h', r, hrun, hneg, fun hclean => hloses.not_free ready.ok hclean.free⟩
  · exact absurd hgo.2.2 (by decide)

end Fork

end Pexec

end MagiC
