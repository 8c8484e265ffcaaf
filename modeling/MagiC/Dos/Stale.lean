import MagiC.Dos.Stdpath

/-!
# Path Handles that are Given Up

When a directory is deleted that is a default path, or a disk has been changed,
`free_pathx` frees the path handles in the table and then goes through the
processes to find those that still have one of the freed numbers. A number that
is not found belongs to the next directory that is stored under it.

The source finds the numbers of drive A of those processes only that are a parent
of the one that runs in an application, because the loop over the drives ends
after the first one. `Reached` are these places. As long as everything that is
given up is in such a place the path handles stay consistent over all runs.

## Main definitions

* `AllFound`, `Clears`: What is given up is found.

## Theorems

* `run_consistent`: The path handles over a whole run.
-/

namespace MagiC

namespace Dos

open Census

/-- The processes that are gone through for stale path handles. -/
def walkedPds (k : Kernel) (act : Slot) : List Slot :=
  fspChain k k.actAppl N_PROCS (some act) ++ k.appls.flatMap fun a =>
    match a with
    | none => []
    | some a => if k.actAppl = some a then [] else fspChain k (some a) N_PROCS (k.apPd a)

/-- The place of a path handle that is found. -/
def Reached (k : Kernel) (act : Slot) (c : Place) : Prop := c.2 = 0 ∧ c.1 ∈ walkedPds k act

/-- A path handle that is used for a directory of a drive. -/
def Hit (k : Kernel) (m h : Nat) : Prop :=
  k.pathcntx h ≠ 0 ∧ ∃ d, k.pathx h = some d ∧ (k.dd d).dmd = m

/-- What the search through the processes asks a process for. -/
def kin (k : Kernel) (p : Slot) : Option (Option Slot × Option Nat × Bool) :=
  (k.procx p).map fun pd => (pd.parent, pd.app, pd.prg)

/-- What the search through the processes leaves alone. -/
structure Walking (k k' : Kernel) : Prop where
  kin : kin k' = kin k
  actAppl : k'.actAppl = k.actAppl
  appls : k'.appls = k.appls
  apPd : k'.apPd = k.apPd
  pathx : k'.pathx = k.pathx
  pathcntx : k'.pathcntx = k.pathcntx
  dd : k'.dd = k.dd

section

variable {k k' j : Kernel} {E : Nat → Nat} {T T' : Place → Int} {c : Place} {d h m : Nat}
  {act p : Slot} {drv main : Option Nat}

theorem Walking.refl (k : Kernel) : Walking k k := ⟨rfl, rfl, rfl, rfl, rfl, rfl, rfl⟩

theorem Walking.trans (h : Walking k k') (h' : Walking k' j) : Walking k j where
  kin := h'.kin.trans h.kin
  actAppl := h'.actAppl.trans h.actAppl
  appls := h'.appls.trans h.appls
  apPd := h'.apPd.trans h.apPd
  pathx := h'.pathx.trans h.pathx
  pathcntx := h'.pathcntx.trans h.pathcntx
  dd := h'.dd.trans h.dd

theorem fspChain_congr (hkin : kin k' = kin k) : ∀ {fuel : Nat} {q : Option Slot},
    fspChain k' main fuel q = fspChain k main fuel q := by
  intro fuel
  induction fuel with
  | zero =>
    intro q
    rfl
  | succ fuel ih =>
    intro q
    cases q with
    | none => rfl
    | some q =>
      have hq := congrFun hkin q
      unfold kin at hq
      unfold fspChain
      cases hk : k.procx q with
      | none =>
        rw [hk] at hq
        rw [Option.map_eq_none_iff.mp hq]
      | some pd =>
        rw [hk] at hq
        rcases Option.map_eq_some_iff.mp hq with ⟨pd', hpd', heq⟩
        have hparent : pd'.parent = pd.parent := congrArg Prod.fst heq
        have happ : pd'.app = pd.app := congrArg (fun t => t.2.1) heq
        have hprg : pd'.prg = pd.prg := congrArg (fun t => t.2.2) heq
        rw [hpd']
        simp only
        rw [hparent, happ, hprg, ih]

theorem walkedPds_congr (hkin : kin k' = kin k) (hact : k'.actAppl = k.actAppl)
    (happls : k'.appls = k.appls) (hap : k'.apPd = k.apPd) :
    walkedPds k' act = walkedPds k act := by
  unfold walkedPds
  rw [hact, happls, hap, fspChain_congr hkin]
  congr 1
  refine congrArg (fun f => k.appls.flatMap f) ?_
  funext a
  cases a with
  | none => rfl
  | some a =>
    simp only
    rw [fspChain_congr hkin]

theorem fspLoop2_paths (drv : Option Nat) (p : Slot) (k : Kernel) :
    paths (fspLoop2 drv p k 0)
      = Function.update (paths k) (p, 0) (fspHandle k drv 0 (paths k (p, 0))) := by
  rw [fspLoop2_zero]
  unfold onDrvx
  have hn : 0 < NUM_DRIVES := by decide
  rw [dif_pos hn]
  have hzero : (⟨0, hn⟩ : Fin NUM_DRIVES) = 0 := rfl
  rw [hzero]
  cases hp : k.procx p with
  | some pd => exact paths_setDrvx hp 0 _
  | none =>
    -- Nothing is stored in a process that is not there, and it has no path handle.
    have hnone : paths k (p, 0) = 0 := by
      unfold paths drvxOf
      rw [hp]
    have hsame : paths (setDrvx k p 0 (fspHandle k drv 0 (drvxOf k p 0))) = paths k := by
      refine paths_procx ?_
      unfold setDrvx onPd
      simp only
      rw [hp, Option.map_none]
      exact (congrArg (Function.update k.procx p) hp.symm).trans (Function.update_eq_self p _)
    have hhandle : fspHandle k drv 0 0 = 0 := rfl
    rw [hsame, hnone, hhandle, ← hnone, Function.update_eq_self]

theorem fspLoop2_walking (drv : Option Nat) (p : Slot) (k : Kernel) :
    Walking k (fspLoop2 drv p k 0) := by
  rw [fspLoop2_zero]
  unfold onDrvx
  split
  · refine ⟨?_, rfl, rfl, rfl, rfl, rfl, rfl⟩
    funext q
    unfold kin setDrvx onPd
    by_cases hq : q = p
    · rw [hq]
      simp only [Function.update_self, Option.map_map]
      rfl
    · simp only [Function.update_of_ne hq]
  · exact Walking.refl k

theorem fspHandle_congr (hcnt : k'.pathcntx = k.pathcntx) (drive : Nat) :
    fspHandle k' drv drive = fspHandle k drv drive := by
  funext v
  unfold fspHandle
  rw [hcnt]

theorem fspHandle_idem (v : Int) :
    fspHandle k drv 0 (fspHandle k drv 0 v) = fspHandle k drv 0 v := by
  unfold fspHandle
  split_ifs <;> simp_all

theorem fspList_spec (drv : Option Nat) (l : List Slot) : ∀ {k : Kernel},
    Walking k (l.foldl (fun j p => fspLoop2 drv p j 0) k) ∧
      ∀ c : Place, paths (l.foldl (fun j p => fspLoop2 drv p j 0) k) c
        = if c.2 = 0 ∧ c.1 ∈ l then fspHandle k drv 0 (paths k c) else paths k c := by
  induction l with
  | nil =>
    intro k
    refine ⟨Walking.refl k, fun c => ?_⟩
    rw [if_neg fun h => List.not_mem_nil h.2]
    rfl
  | cons p l ih =>
    intro k
    have hw := fspLoop2_walking drv p k
    rcases ih (k := fspLoop2 drv p k 0) with ⟨hwalk, hpaths⟩
    rw [List.foldl_cons]
    refine ⟨hw.trans hwalk, fun c => ?_⟩
    rw [hpaths c, fspHandle_congr hw.pathcntx, fspLoop2_paths]
    by_cases hc : c = (p, 0)
    · have hin : c.2 = 0 ∧ c.1 ∈ p :: l := by
        rw [hc]
        exact ⟨rfl, List.mem_cons_self⟩
      rw [if_pos hin, hc, Function.update_self]
      split
      · exact fspHandle_idem _
      · rfl
    · rw [Function.update_of_ne hc]
      by_cases hin : c.2 = 0 ∧ c.1 ∈ l
      · rw [if_pos hin, if_pos ⟨hin.1, List.mem_cons_of_mem _ hin.2⟩]
      · rw [if_neg hin, if_neg]
        intro hno
        rcases List.mem_cons.mp hno.2 with hp | hp
        · exact hc (Prod.ext hp hno.1)
        · exact hin ⟨hno.1, hp⟩

/-- The second phase of `free_pathx`. -/
def walk (drv : Option Nat) (act : Slot) (k : Kernel) : Kernel :=
  let k := freeStdpaths k drv k.actAppl (some act)
  k.appls.foldl (fun k a =>
    match a with
    | none => k
    | some a => if k.actAppl = some a then k else freeStdpaths k drv (some a) (k.apPd a)) k

theorem freePathx_eq (act : Slot) (dmd : Option Nat) :
    freePathx k act dmd = walk (changedDrive k dmd) act
      (pathHandles.foldl (fun k h => freePath k dmd h) k) := rfl

theorem walk_eq : walk drv act k
    = (walkedPds k act).foldl (fun j p => fspLoop2 drv p j 0) k := by
  have happls : ∀ (l : List (Option Nat)) (j : Kernel), Walking k j →
      l.foldl (fun k a =>
        match a with
        | none => k
        | some a => if k.actAppl = some a then k else freeStdpaths k drv (some a) (k.apPd a)) j
      = (l.flatMap fun a => match a with
          | none => []
          | some a => if k.actAppl = some a then [] else fspChain k (some a) N_PROCS
            (k.apPd a)).foldl
        (fun j p => fspLoop2 drv p j 0) j := by
    intro l
    induction l with
    | nil =>
      intro j _
      rfl
    | cons a l ih =>
      intro j hj
      rw [List.foldl_cons, List.flatMap_cons, List.foldl_append]
      cases a with
      | none => exact ih j hj
      | some a =>
        simp only
        rw [hj.actAppl]
        by_cases ha : k.actAppl = some a
        · rw [if_pos ha, if_pos ha]
          exact ih j hj
        · rw [if_neg ha, if_neg ha]
          unfold freeStdpaths
          rw [fspChain_congr hj.kin, hj.apPd]
          exact ih _ (hj.trans (fspList_spec drv _).1)
  unfold walk walkedPds
  simp only
  rw [List.foldl_append]
  have hfirst : freeStdpaths k drv k.actAppl (some act)
      = (fspChain k k.actAppl N_PROCS (some act)).foldl (fun j p => fspLoop2 drv p j 0) k := rfl
  have hw : Walking k (freeStdpaths k drv k.actAppl (some act)) := by
    rw [hfirst]
    exact (fspList_spec drv _).1
  rw [hw.appls, happls k.appls _ hw, hfirst]

/-- The walk finds what is given up in the places that are reached, and leaves
everything else alone. `Gone` is what the first phase has given up. -/
theorem walk_kept (drv : Option Nat) (act : Slot) (Gone : Nat → Prop) (hk : Kept E T' k)
    (hT : ∀ c (n : Nat), 0 < n → (T' c = n ↔ paths k c = n ∧ ¬ Gone n)) (hfew : Few T')
    (hsmall : ∀ c, paths k c < N_STDPATHS)
    (hgone : ∀ c (n : Nat), 0 < n → paths k c = n → Gone n → Reached k act c) :
    Kept E (paths (walk drv act k)) (walk drv act k) ∧ Few (paths (walk drv act k)) ∧
      ∀ c (n : Nat), 0 < n → paths k c = n → Gone n →
        paths (walk drv act k) c = if drv.isSome then 0 else -1 := by
  rcases fspList_spec drv (walkedPds k act) (k := k) with ⟨hw, hpaths⟩
  rw [← walk_eq] at hw hpaths
  -- A counter is zero when the path handle has been given up.
  have hzero : ∀ c (n : Nat), 0 < n → paths k c = n → (Gone n ↔ k.pathcntx n = 0) := by
    intro c n hn hc
    constructor
    · intro hg
      have hnone : uses T' n = 0 := uses_eq_zero fun e he => ((hT e n hn).mp he).2 hg
      have hsm := hsmall c
      rw [hk.count n hn (by omega), hnone]
      rfl
    · intro hz
      by_contra hno
      exact (hk.used hfew ((hT c n hn).mpr ⟨hc, hno⟩) hn).2.2 hz
  have hkept : ∀ c (n : Nat), 0 < n → (paths (walk drv act k) c = n ↔ T' c = n) := by
    intro c n hn
    rw [hpaths c, hT c n hn]
    by_cases hr : c.2 = 0 ∧ c.1 ∈ walkedPds k act
    · rw [if_pos hr]
      unfold fspHandle
      by_cases hpos : 0 < paths k c
      · have hnat : ∃ v : Nat, paths k c = v := ⟨(paths k c).toNat, by omega⟩
        rcases hnat with ⟨v, hv⟩
        have hvpos : 0 < v := by omega
        have hval := hzero c v hvpos hv
        have hcast : (v : Int).toNat = v := rfl
        rw [if_neg (by omega), if_neg (by omega), hv, hcast]
        by_cases hcnt : k.pathcntx v = 0
        · rw [if_neg fun h => h hcnt]
          have hgone := hval.mpr hcnt
          constructor
          · intro hc
            split at hc
            · omega
            · omega
          · intro hc
            have hvn : v = n := by omega
            exact absurd (hvn ▸ hgone) hc.2
        · rw [if_pos hcnt]
          constructor
          · intro hc
            have hvn : v = n := by omega
            exact ⟨hc, fun hg => hcnt (hval.mp (hvn ▸ hg))⟩
          · intro hc
            exact hc.1
      · constructor
        · intro hc
          split_ifs at hc <;> omega
        · intro hc
          omega
    · rw [if_neg hr]
      constructor
      · intro hc
        exact ⟨hc, fun hg => hr (hgone c n hn hc hg)⟩
      · intro hc
        exact hc.1
  have hfew' : Few (paths (walk drv act k)) := by
    intro n hn
    rw [uses_congr fun c => hkept c n hn]
    exact hfew n hn
  refine ⟨(hk.retable hkept).congr hw.pathx hw.pathcntx hw.dd, hfew', fun c n hn hc hg => ?_⟩
  have hr : c.2 = 0 ∧ c.1 ∈ walkedPds k act := hgone c n hn hc hg
  have hcast : (n : Int).toNat = n := rfl
  rw [hpaths c, if_pos hr, hc]
  unfold fspHandle
  rw [if_neg (by omega), if_neg (by omega), hcast,
    if_neg fun h => h ((hzero c n hn hc).mp hg)]

/-- The numbers, without one that is given up. -/
def clear (T : Place → Int) (h : Nat) (c : Place) : Int := if T c = h then 0 else T c

theorem clear_eq {n : Nat} (hn : 0 < n) : clear T h c = n ↔ T c = n ∧ n ≠ h := by
  unfold clear
  by_cases hc : T c = h
  · rw [if_pos hc]
    constructor
    · intro hz
      omega
    · intro hz
      omega
  · rw [if_neg hc]
    constructor
    · intro hz
      exact ⟨hz, fun hnh => hc (by rw [hz, hnh])⟩
    · intro hz
      exact hz.1

theorem uses_clear_self (hpos : 0 < h) : uses (clear T h) h = 0 :=
  uses_eq_zero fun _ hc => ((clear_eq hpos).mp hc).2 rfl

theorem uses_clear_other {n : Nat} (hn : 0 < n) (hne : n ≠ h) : uses (clear T h) n = uses T n :=
  uses_congr fun _ => (clear_eq hn).trans (and_iff_left hne)

theorem few_clear (hfew : Few T) (hpos : 0 < h) : Few (clear T h) := by
  intro n hn
  by_cases hnh : n = h
  · rw [hnh, uses_clear_self hpos]
    omega
  · rw [uses_clear_other hn hnh]
    exact hfew n hn

theorem Kept.clear (hk : Kept E T k) (hpos : 0 < h) (hcnt : k'.pathcntx h = 0)
    (hcnt' : ∀ n, n ≠ h → k'.pathcntx n = k.pathcntx n)
    (hpathx : ∀ n, n ≠ h → k'.pathx n = k.pathx n)
    (hdd : ∀ e, (∀ n : Nat, 0 < n → n ≠ h → 0 < uses T n → k.pathx n = some e →
      k'.dd e = k.dd e) ∧ (E e : Int) ≤ (k'.dd e).refcnt) :
    Kept E (clear T h) k' := by
  refine ⟨fun c => ?_, fun n hn hlt => ?_, fun n hn hu => ?_, fun n n' e hn hn' hu hu' he he' => ?_,
    fun e => (hdd e).2⟩
  · have hmax : N_STDPATHS = 40 := rfl
    have hsmall := hk.small c
    unfold Dos.clear
    split <;> omega
  · by_cases hnh : n = h
    · rw [hnh, hcnt, uses_clear_self hpos]
      rfl
    · rw [hcnt' n hnh, uses_clear_other hn hnh]
      exact hk.count n hn hlt
  · by_cases hnh : n = h
    · rw [hnh, uses_clear_self hpos] at hu
      omega
    · rw [uses_clear_other hn hnh] at hu ⊢
      rcases hk.dir n hn hu with ⟨e, he, hopen, href⟩
      have hsame := (hdd e).1 n hn hnh hu he
      exact ⟨e, by rw [hpathx n hnh, he], by rw [hsame, hopen], by rw [hsame]; exact href⟩
  · by_cases hnh : n = h
    · rw [hnh, uses_clear_self hpos] at hu
      omega
    · by_cases hnh' : n' = h
      · rw [hnh', uses_clear_self hpos] at hu'
        omega
      · rw [uses_clear_other hn hnh] at hu
        rw [uses_clear_other hn' hnh'] at hu'
        rw [hpathx n hnh] at he
        rw [hpathx n' hnh'] at he'
        exact hk.apart n n' e hn hn' hu hu' he he'

/-- What giving up a path handle of a directory `d` does. -/
structure GivenUp (k : Kernel) (h d : Nat) (k' : Kernel) : Prop where
  procx : k'.procx = k.procx
  actAppl : k'.actAppl = k.actAppl
  appls : k'.appls = k.appls
  apPd : k'.apPd = k.apPd
  pathcntx : k'.pathcntx = Function.update k.pathcntx h 0
  pathx : k'.pathx = Function.update k.pathx h none
  dd : ∀ e, e ≠ d → k'.dd e = k.dd e
  refcnt : (k'.dd d).refcnt = (k.dd d).refcnt - (k.pathcntx h).toNat
  dmd : (k'.dd d).dmd = (k.dd d).dmd

theorem freePath_givenUp (hcnt : k.pathcntx h ≠ 0) (hd : k.pathx h = some d)
    (hm : (k.dd d).dmd = m) : GivenUp k h d (freePath k (some m) h) := by
  unfold freePath
  rw [if_neg hcnt, hd]
  simp only
  rw [if_neg fun hne => hne hm]
  split
  · refine ⟨rfl, rfl, rfl, rfl, rfl, rfl, fun e he => ?_, ?_, ?_⟩
    · unfold freeDd
      simp only
      rw [onDd_other he, onDd_other he]
    · unfold freeDd
      simp only
      rw [onDd_self, onDd_self]
    · unfold freeDd
      simp only
      rw [onDd_self, onDd_self]
  · refine ⟨rfl, rfl, rfl, rfl, rfl, rfl, fun e he => ?_, ?_, ?_⟩
    · simp only
      rw [onDd_other he]
    · simp only
      rw [onDd_self]
    · simp only
      rw [onDd_self]

theorem freePath_stays (hno : ¬ Hit k m h) : freePath k (some m) h = k := by
  unfold freePath
  split
  · rfl
  · next hcnt =>
    split
    · next hm _ => cases hm
    · next hm _ => cases hm
    · rfl
    · next m' d hm hd =>
      cases hm
      rw [if_pos fun hdm => hno ⟨hcnt, d, hd, hdm⟩]

theorem freePath_kept (hk : Kept E T k) (hfew : Few T) (hpos : 0 < h) (hlt : h < N_STDPATHS)
    (hhit : Hit k m h) : Kept E (clear T h) (freePath k (some m) h) := by
  rcases hhit with ⟨hcnt, d, hd, hm⟩
  have hu := hk.counted hpos hlt hcnt
  have hnat : (k.pathcntx h).toNat = uses T h := by
    rw [hk.count h hpos hlt, BitVec.toNat_ofNat, Nat.mod_eq_of_lt (hfew h hpos)]
  have hup := freePath_givenUp hcnt hd hm
  rcases hk.dir h hpos hu with ⟨e, he, _, href⟩
  rw [hd] at he
  cases he
  refine hk.clear hpos ?_ (fun n hn => ?_) (fun n hn => ?_) fun e => ⟨fun n hn hnh hun hne => ?_,
    ?_⟩
  · rw [hup.pathcntx, Function.update_self]
  · rw [hup.pathcntx, Function.update_of_ne hn]
  · rw [hup.pathx, Function.update_of_ne hn]
  · refine hup.dd e fun hed => ?_
    rw [hed] at hne
    exact hnh (hk.apart n h d hn hpos hun hu hne hd)
  · by_cases hed : e = d
    · rw [hed, hup.refcnt, hnat]
      omega
    · rw [hup.dd e hed]
      exact hk.locks e

theorem freePaths_kept {l : List Nat} (hl : l.Nodup) (hin : ∀ n ∈ l, 0 < n ∧ n < N_STDPATHS) :
    ∀ {k : Kernel} {T : Place → Int}, Kept E T k → Few T →
      (l.foldl (fun k h => freePath k (some m) h) k).procx = k.procx ∧
      (l.foldl (fun k h => freePath k (some m) h) k).actAppl = k.actAppl ∧
      (l.foldl (fun k h => freePath k (some m) h) k).appls = k.appls ∧
      (l.foldl (fun k h => freePath k (some m) h) k).apPd = k.apPd ∧
      ∃ T', Kept E T' (l.foldl (fun k h => freePath k (some m) h) k) ∧ Few T' ∧
        ∀ c (n : Nat), 0 < n → (T' c = n ↔ T c = n ∧ ¬ (n ∈ l ∧ Hit k m n)) := by
  induction l with
  | nil =>
    intro k T hk hfew
    refine ⟨rfl, rfl, rfl, rfl, T, hk, hfew, fun c n _ => ?_⟩
    exact (and_iff_left fun h => List.not_mem_nil h.1).symm
  | cons h l ih =>
    intro k T hk hfew
    have hnodup := (List.nodup_cons.mp hl).2
    have hinl : ∀ n ∈ l, 0 < n ∧ n < N_STDPATHS := fun n hn => hin n (List.mem_cons_of_mem _ hn)
    have hh := hin h List.mem_cons_self
    rw [List.foldl_cons]
    by_cases hhit : Hit k m h
    · have hstep := freePath_kept hk hfew hh.1 hh.2 hhit
      rcases hhit with ⟨hcnt, d, hd, hm⟩
      have hup := freePath_givenUp hcnt hd hm
      -- What the rest of the loop finds is what it would have found before.
      have hsame : ∀ n, n ≠ h → (Hit (freePath k (some m) h) m n ↔ Hit k m n) := by
        intro n hn
        have hdmd : ∀ e, ((freePath k (some m) h).dd e).dmd = (k.dd e).dmd := by
          intro e
          by_cases he : e = d
          · rw [he, hup.dmd]
          · rw [hup.dd e he]
        unfold Hit
        rw [hup.pathcntx, hup.pathx, Function.update_of_ne hn, Function.update_of_ne hn]
        simp only [hdmd]
      rcases ih hnodup hinl hstep (few_clear hfew hh.1) with ⟨hp, ha, hal, hap, T', hkept, hfew',
        hT⟩
      refine ⟨hp.trans hup.procx, ha.trans hup.actAppl, hal.trans hup.appls, hap.trans hup.apPd,
        T', hkept, hfew', fun c n hn => ?_⟩
      rw [hT c n hn, clear_eq hn]
      constructor
      · intro hc
        refine ⟨hc.1.1, fun hg => hc.2 ⟨?_, (hsame n hc.1.2).mpr hg.2⟩⟩
        exact (List.mem_cons.mp hg.1).resolve_left hc.1.2
      · intro hc
        have hnh : n ≠ h := by
          intro hnh
          refine hc.2 ⟨by rw [hnh]; exact List.mem_cons_self, ?_⟩
          rw [hnh]
          exact ⟨hcnt, d, hd, hm⟩
        exact ⟨⟨hc.1, hnh⟩, fun hg => hc.2 ⟨List.mem_cons_of_mem _ hg.1, (hsame n hnh).mp hg.2⟩⟩
    · rw [freePath_stays hhit]
      rcases ih hnodup hinl hk hfew with ⟨hp, ha, hal, hap, T', hkept, hfew', hT⟩
      refine ⟨hp, ha, hal, hap, T', hkept, hfew', fun c n hn => ?_⟩
      rw [hT c n hn]
      constructor
      · intro hc
        refine ⟨hc.1, fun hg => ?_⟩
        rcases List.mem_cons.mp hg.1 with hnh | hnl
        · exact hhit (hnh ▸ hg.2)
        · exact hc.2 ⟨hnl, hg.2⟩
      · intro hc
        exact ⟨hc.1, fun hg => hc.2 ⟨List.mem_cons_of_mem _ hg.1, hg.2⟩⟩

theorem pathHandles_nodup : pathHandles.Nodup := List.nodup_range'

theorem freePaths_spec (m : Nat) (act : Slot) (hk : Kept E (paths k) k) (hfew : Few (paths k)) :
    ∃ j T', freePathx k act (some m) = walk (changedDrive k (some m)) act j ∧ Kept E T' j ∧
      Few T' ∧ paths j = paths k ∧ (∀ c, Reached j act c ↔ Reached k act c) ∧
      ∀ c (n : Nat), 0 < n → (T' c = n ↔ paths k c = n ∧ ¬ Hit k m n) := by
  rcases freePaths_kept (m := m) pathHandles_nodup (fun n hn => mem_pathHandles.mp hn) hk hfew with
    ⟨hprocx, hact, happls, hapPd, T', hkept, hfew', hT⟩
  rw [freePathx_eq]
  generalize pathHandles.foldl (fun k h => freePath k (some m) h) k = j at *
  have hkin : kin j = kin k := by
    unfold kin
    rw [hprocx]
  refine ⟨j, T', rfl, hkept, hfew', paths_procx hprocx, fun c => ?_, fun c n hn => ?_⟩
  · unfold Reached
    rw [walkedPds_congr hkin hact happls hapPd]
  · rw [hT c n hn]
    constructor
    · intro hc
      have hsm := hk.small c
      exact ⟨hc.1, fun hg => hc.2 ⟨mem_pathHandles.mpr ⟨hn, by omega⟩, hg⟩⟩
    · intro hc
      exact ⟨hc.1, fun hg => hc.2 hg.2⟩

/-- The path handles after a change of the disk, when everything that is given up
is found. -/
theorem freePathx_kept (hk : Kept E (paths k) k) (hfew : Few (paths k))
    (hfound : ∀ c (n : Nat), 0 < n → paths k c = n → Hit k m n → Reached k act c) :
    Kept E (paths (freePathx k act (some m))) (freePathx k act (some m)) ∧
      Few (paths (freePathx k act (some m))) ∧ ∀ c (n : Nat), 0 < n → paths k c = n → Hit k m n →
        paths (freePathx k act (some m)) c = 0 := by
  rcases freePaths_spec m act hk hfew with
    ⟨j, T', heq, hkept, hfew', hpaths, hreach, hT⟩
  rw [← hpaths] at hT
  have hsmall : ∀ c, paths j c < N_STDPATHS := by
    rw [hpaths]
    exact hk.small
  have hgone : ∀ c (n : Nat), 0 < n → paths j c = n → Hit k m n → Reached j act c := by
    intro c n hn hc hg
    rw [hpaths] at hc
    exact (hreach c).mpr (hfound c n hn hc hg)
  rcases walk_kept (changedDrive k (some m)) act (Hit k m) hkept hT hfew' hsmall hgone with
    ⟨hend, hfewend, hzero⟩
  rw [heq]
  refine ⟨hend, hfewend, fun c n hn hc hg => ?_⟩
  exact hzero c n hn (by rw [hpaths]; exact hc) hg

theorem freePathx_misses {n : Nat} (hk : Kept E (paths k) k) (hfew : Few (paths k)) (hn : 0 < n)
    (hc : paths k c = n) (hhit : Hit k m n) (hno : ¬ Reached k act c) :
    paths (freePathx k act (some m)) c = n ∧ (freePathx k act (some m)).pathcntx n = 0 := by
  rcases freePaths_spec m act hk hfew with
    ⟨j, T', heq, hkept, hfew', hpaths, hreach, hT⟩
  rcases fspList_spec (changedDrive k (some m)) (walkedPds j act) (k := j) with ⟨hw, hwalk⟩
  rw [← walk_eq, ← heq] at hw hwalk
  have hnone : uses T' n = 0 := uses_eq_zero fun e he => ((hT e n hn).mp he).2 hhit
  have hsm := hk.small c
  have hnot : ¬ (c.2 = 0 ∧ c.1 ∈ walkedPds j act) := fun h => hno ((hreach c).mp h)
  constructor
  · rw [hwalk c, if_neg hnot, hpaths, hc]
  · rw [hw.pathcntx, hkept.count n hn (by omega), hnone]
    rfl

theorem freePaths_none {l : List Nat} (hcnt : k.pathcntx h ≠ 0) (hnone : k.pathx h = none)
    (hother : ∀ n ∈ l, n ≠ h → k.pathcntx n ≠ 0 → k.pathx n ≠ none) (hin : h ∈ l) :
    l.foldl (fun k h => freePath k none h) k
      = { k with pathcntx := Function.update k.pathcntx h 0 } := by
  obtain ⟨j, hj⟩ : ∃ j : Kernel, j = { k with pathcntx := Function.update k.pathcntx h 0 } :=
    ⟨_, rfl⟩
  rw [← hj]
  have hgone : freePath k none h = j := by
    unfold freePath
    rw [if_neg hcnt, hnone, hj]
  have hstays : ∀ n ∈ l, n ≠ h → freePath k none n = k := by
    intro n hn hnh
    unfold freePath
    by_cases hz : k.pathcntx n = 0
    · rw [if_pos hz]
    · rw [if_neg hz]
      cases hx : k.pathx n with
      | none => exact absurd hx (hother n hn hnh hz)
      | some e => rfl
  have hstays' : ∀ n ∈ l, freePath j none n = j := by
    intro n hn
    unfold freePath
    by_cases hnh : n = h
    · rw [hnh, hj]
      simp only [Function.update_self, if_true]
    · have hc : j.pathcntx n = k.pathcntx n := by
        rw [hj]
        exact Function.update_of_ne hnh _ _
      have hx : j.pathx n = k.pathx n := by rw [hj]
      by_cases hz : k.pathcntx n = 0
      · rw [if_pos (hc.trans hz)]
      · rw [if_neg fun h => hz (hc.symm.trans h), hx]
        cases hxn : k.pathx n with
        | none => exact absurd hxn (hother n hn hnh hz)
        | some e => rfl
  clear hother
  -- Nothing happens before the path handle is met, and nothing behind it.
  have hrest : ∀ l' : List Nat, (∀ n ∈ l', n ∈ l) →
      l'.foldl (fun k h => freePath k none h) j = j := by
    intro l'
    induction l' with
    | nil =>
      intro _
      rfl
    | cons n l' ih =>
      intro hl'
      rw [List.foldl_cons, hstays' n (hl' n List.mem_cons_self)]
      exact ih fun e he => hl' e (List.mem_cons_of_mem _ he)
  have hmain : ∀ l' : List Nat, (∀ n ∈ l', n ∈ l) → h ∈ l' →
      l'.foldl (fun k h => freePath k none h) k = j := by
    intro l'
    induction l' with
    | nil =>
      intro _ hin
      exact absurd hin List.not_mem_nil
    | cons n l' ih =>
      intro hl' hin
      have hl : ∀ e ∈ l', e ∈ l := fun e he => hl' e (List.mem_cons_of_mem _ he)
      rw [List.foldl_cons]
      by_cases hnh : n = h
      · rw [hnh, hgone]
        exact hrest l' hl
      · rw [hstays n (hl' n List.mem_cons_self) hnh]
        exact ih hl ((List.mem_cons.mp hin).resolve_left (Ne.symm hnh))
  exact hmain l (fun n hn => hn) hin

/-- A place that refers to a directory. -/
def Refers (k : Kernel) (c : Place) (d : Nat) : Prop :=
  ∃ h : Nat, 0 < h ∧ paths k c = h ∧ k.pathx h = some d

/-- The path handle of a directory is given up, with the references that it has. -/
def forgotten (k : Kernel) (d h : Nat) : Kernel :=
  { onDd k d fun x =>
      { x with refcnt :=
        if 0 < x.refcnt - (k.pathcntx h).toNat then x.refcnt - (k.pathcntx h).toNat else 1 } with
    pathx := Function.update k.pathx h none
    pathcntx := Function.update k.pathcntx h 0 }

theorem paths_forgotten : paths (forgotten k d h) = paths k := rfl

theorem walkedPds_forgotten : walkedPds (forgotten k d h) act = walkedPds k act :=
  walkedPds_congr rfl rfl rfl rfl

theorem ddeleteDir_some {result : Int} (hdef : isdefault k (some d) = some h)
    (hdir : ∀ n ∈ pathHandles, k.pathcntx n ≠ 0 → k.pathx n ≠ none)
    (hbusy : ¬ ((k.pathcntx h + 1).toNat : Int) < (k.dd d).refcnt) (hres : ¬ result < 0) :
    ddeleteDir k act d result = (walk none act (forgotten k d h), 0) := by
  rcases isdefault_some hdef with ⟨hpos, hlt, hcnt, _⟩
  unfold ddeleteDir
  rw [hdef]
  simp only
  rw [if_neg hbusy, if_neg hres, freePathx_eq]
  obtain ⟨j, hj⟩ : ∃ j, j = onDd { k with pathx := Function.update k.pathx h none } d fun x =>
    { x with refcnt :=
      if 0 < x.refcnt - (k.pathcntx h).toNat then x.refcnt - (k.pathcntx h).toNat else 1 } :=
    ⟨_, rfl⟩
  have hpathx : j.pathx = Function.update k.pathx h none := by
    rw [hj]
    rfl
  have hpathcntx : j.pathcntx = k.pathcntx := by
    rw [hj]
    rfl
  rw [← hj]
  -- The other path handles have their directories.
  have hothers : ∀ n ∈ pathHandles, n ≠ h → j.pathcntx n ≠ 0 → j.pathx n ≠ none := by
    intro n hn hnh hc
    rw [hpathx, Function.update_of_ne hnh]
    rw [hpathcntx] at hc
    exact hdir n hn hc
  have hfold := freePaths_none (k := j) (h := h) (by rw [hpathcntx]; exact hcnt)
    (by rw [hpathx, Function.update_self]) hothers (mem_pathHandles.mpr ⟨hpos, hlt⟩)
  have hchanged : changedDrive j none = none := rfl
  rw [hchanged, hfold, hj]
  rfl

theorem forgotten_kept (hk : Kept (more E d) (paths k) k) (hfew : Few (paths k))
    (hdef : isdefault k (some d) = some h) :
    Kept (more E d) (clear (paths k) h) (forgotten k d h) := by
  rcases isdefault_some hdef with ⟨hpos, hlt, hcnt, hx⟩
  have hu := hk.counted hpos hlt hcnt
  have hnat : (k.pathcntx h).toNat = uses (paths k) h := by
    rw [hk.count h hpos hlt, BitVec.toNat_ofNat, Nat.mod_eq_of_lt (hfew h hpos)]
  rcases hk.dir h hpos hu with ⟨e, he, _, href⟩
  rw [hx] at he
  cases he
  have hdd : ∀ e, e ≠ d → (forgotten k d h).dd e = k.dd e := fun e he =>
    Function.update_of_ne he _ _
  have hself : ((forgotten k d h).dd d).refcnt = (k.dd d).refcnt - uses (paths k) h := by
    have hdir : (forgotten k d h).dd d = _ := Function.update_self _ _ _
    rw [more_self] at href
    rw [hdir, ← hnat]
    simp only
    rw [if_pos]
    omega
  refine hk.clear hpos (Function.update_self _ _ _) (fun n hn => Function.update_of_ne hn _ _)
    (fun n hn => Function.update_of_ne hn _ _) fun e => ⟨fun n hn hnh hun hne => ?_, ?_⟩
  · refine hdd e fun hed => ?_
    rw [hed] at hne
    exact hnh (hk.apart n h d hn hpos hun hu hne hx)
  · by_cases hed : e = d
    · rw [hed, hself]
      omega
    · rw [hdd e hed]
      exact hk.locks e

/-- Every place that referred to the directory is told. -/
theorem forgotten_walk (hk : Kept (more E d) (paths k) k) (hfew : Few (paths k))
    (hdef : isdefault k (some d) = some h) (hfound : ∀ c, Refers k c d → Reached k act c) :
    Kept (more E d) (paths (walk none act (forgotten k d h))) (walk none act (forgotten k d h)) ∧
      ∀ c, Refers k c d → paths (walk none act (forgotten k d h)) c = -1 := by
  rcases isdefault_some hdef with ⟨hpos, hlt, hcnt, hx⟩
  have hu := hk.counted hpos hlt hcnt
  have hT : ∀ c (n : Nat), 0 < n →
      (clear (paths k) h c = n ↔ paths (forgotten k d h) c = n ∧ ¬ n = h) := by
    intro c n hn
    rw [paths_forgotten]
    exact clear_eq hn
  have hreach : ∀ c (n : Nat), 0 < n → paths (forgotten k d h) c = n → n = h →
      Reached (forgotten k d h) act c := by
    intro c n hn hc hnh
    rw [hnh] at hn hc
    unfold Reached
    rw [walkedPds_forgotten]
    exact hfound c ⟨h, hn, hc, hx⟩
  rcases walk_kept none act (fun n => n = h) (forgotten_kept hk hfew hdef) hT (few_clear hfew hpos)
    hk.small hreach with ⟨hend, _, hvalue⟩
  refine ⟨hend, fun c hc => ?_⟩
  rcases hc with ⟨n, hn, hcn, hnd⟩
  have huse := hk.used hfew hcn hn
  exact hvalue c n hn hcn (hk.apart n h d hn hpos huse.1 hu hnd hx)

theorem ddeleteDir_kept {result : Int} (hk : Kept (more E d) (paths k) k) (hfew : Few (paths k))
    (hfound : 0 ≤ result → ∀ c, Refers k c d → Reached k act c) :
    Kept (more E d) (paths (ddeleteDir k act d result).1) (ddeleteDir k act d result).1 ∧
      (0 ≤ (ddeleteDir k act d result).2 →
        ∀ c, Refers k c d → paths (ddeleteDir k act d result).1 c = -1) := by
  have hneg : ¬ (0 : Int) ≤ EACCDN := by decide
  cases hdef : isdefault k (some d) with
  | none =>
    have hnone : ∀ c, ¬ Refers k c d := by
      intro c hc
      rcases hc with ⟨n, hn, hcn, hnd⟩
      have huse := hk.used hfew hcn hn
      exact isdefault_none hdef hn huse.2.1 huse.2.2 hnd
    unfold ddeleteDir
    rw [hdef]
    simp only
    split
    · exact ⟨hk, fun _ c hc => absurd hc (hnone c)⟩
    · split
      · exact ⟨hk, fun _ c hc => absurd hc (hnone c)⟩
      · exact ⟨hk, fun _ c hc => absurd hc (hnone c)⟩
  | some h =>
    by_cases hbusy : ((k.pathcntx h + 1).toNat : Int) < (k.dd d).refcnt
    · unfold ddeleteDir
      rw [hdef]
      simp only
      rw [if_pos hbusy]
      exact ⟨hk, fun h => absurd h hneg⟩
    · by_cases hres : result < 0
      · unfold ddeleteDir
        rw [hdef]
        simp only
        rw [if_neg hbusy, if_pos hres]
        exact ⟨hk, fun h => absurd hres (by omega)⟩
      · have hdir : ∀ n ∈ pathHandles, k.pathcntx n ≠ 0 → k.pathx n ≠ none := by
          intro n hn hc hnone
          have hin := mem_pathHandles.mp hn
          rcases hk.dir n hin.1 (hk.counted hin.1 hin.2 hc) with ⟨e, he, _⟩
          rw [hnone] at he
          cases he
        rw [ddeleteDir_some hdef hdir hbusy hres]
        rcases forgotten_walk hk hfew hdef (hfound (by omega)) with ⟨hend, hvalue⟩
        exact ⟨hend, fun _ => hvalue⟩

theorem ddeleteDir_fails {result : Int} (hr : (ddeleteDir k act d result).2 < 0) :
    (ddeleteDir k act d result).1 = k := by
  unfold ddeleteDir at hr ⊢
  cases hdef : isdefault k (some d) with
  | none =>
    rw [hdef] at hr
    simp only at hr ⊢
    split
    · rfl
    · split <;> rfl
  | some h =>
    rw [hdef] at hr
    simp only at hr ⊢
    split
    · rfl
    · next hin =>
      split
      · rfl
      · next hres =>
        rw [if_neg hin, if_neg hres] at hr
        exact absurd hr (Int.lt_irrefl 0)

theorem Still.reached (hs : Still k k') (c : Place) : Reached k' act c ↔ Reached k act c := by
  have hkin : kin k' = kin k := by
    unfold kin
    rw [hs.procx]
  unfold Reached
  rw [walkedPds_congr hkin hs.actAppl hs.appls hs.apPd]

theorem Still.refers (hs : Still k k') (c : Place) (d : Nat) : Refers k' c d ↔ Refers k c d := by
  unfold Refers
  rw [paths_procx hs.procx, hs.pathx]

theorem Still.kept (hs : Still k k') (hl : Locks k E k') (hk : Kept (fun _ => 0) (paths k) k) :
    Kept E (paths k') k' := by
  rw [paths_procx hs.procx]
  exact hk.locked hs hl

theorem condUnlock_kept (e : Int) (hk : Kept (more E d) T k) : Kept E T (condUnlockDd k e d) := by
  unfold condUnlockDd
  split
  · refine hk.weaken fun e => ?_
    by_cases he : e = d
    · rw [he, more_self]
      omega
    · rw [more_other he]
  · exact hk.unlock

/-- What is left when the lock on the directory has been given back. -/
theorem ddeleteDir_end {k₀ : Kernel} {result : Int} (hs : Still k₀ k)
    (hk : Kept (more E d) (paths k) k) (hfew : Few (paths k))
    (hfound : 0 ≤ result → ∀ c, Refers k c d → Reached k act c) {e : Int}
    (he : (ddeleteDir k act d result).2 = e)
    (hj : condUnlockDd (ddeleteDir k act d result).1 e d = j) :
    Kept E (paths j) j ∧ (0 ≤ e → ∀ c, Refers k₀ c d → paths j c = -1) ∧ (e < 0 → Still k₀ j) := by
  rcases ddeleteDir_kept hk hfew hfound with ⟨hkept, herased⟩
  have hpaths : paths j = paths (ddeleteDir k act d result).1 :=
    hj ▸ paths_procx (still_condUnlockDd _).procx
  rw [he] at herased
  refine ⟨?_, fun h0 c hc => ?_, fun hneg => ?_⟩
  · rw [hpaths, ← hj]
    exact condUnlock_kept e hkept
  · rw [hpaths]
    exact herased h0 c ((hs.refers c d).mpr hc)
  · rw [← hj, ddeleteDir_fails (he ▸ hneg)]
    exact hs.trans (still_condUnlockDd _)

/-- The drivers and the drives answer with errors below zero. -/
structure Signed (x : Xfs) : Prop where
  path2DD : ∀ n e, x.path2DD n = .err e → e < 0
  drvOpen : ∀ n e, x.drvOpen n = .error e → e < 0

/-- Every directory that the file system agrees to delete is found in all the
places that refer to it. -/
def AllFound (x : Xfs) (ans : Nat → DdeleteAnswer) (k : Kernel) (act : Slot) : Prop :=
  ∀ n d m rest, x.path2DD n = .dd (some d) m rest → (ans n).type = .dir → 0 ≤ (ans n).result →
    ∀ c, Refers k c d → Reached k act c

/-- The directory that the last answer of the driver named has been deleted, and is
no default path any more. -/
def Erased (x : Xfs) (ans : Nat → DdeleteAnswer) (k : Kernel) (r : Kernel × Nat × Int) : Prop :=
  0 ≤ r.2.2 → ∀ d m rest, x.path2DD (r.2.1 - 1) = .dd (some d) m rest →
    (ans (r.2.1 - 1)).type = .dir → ∀ c, Refers k c d → paths r.1 c = -1

/-- Deleting a directory. -/
theorem ddelete_kept {x : Xfs} {fuel : Nat} {ans : Nat → DdeleteAnswer} (hx : Signed x) :
    ∀ {tries : Nat} {k : Kernel} {n : Nat} {path : List Char} {r},
      Kept (fun _ => 0) (paths k) k → Few (paths k) → AllFound x ans k act →
      ddelete x fuel act ans tries k n path = some r →
      Kept (fun _ => 0) (paths r.1) r.1 ∧ Erased x ans k r := by
  intro tries
  induction tries with
  | zero =>
    intro k n path r _ _ _ h
    rw [ddelete] at h
    cases h
  | succ tries ih =>
    intro k n path r hk hfew hfound h
    -- Where nothing has been deleted the call goes on, or comes back.
    have hagain : ∀ {j : Kernel} {i : Nat} {e : Int}, Still k j → Kept (fun _ => 0) (paths j) j →
        (0 ≤ e → ∀ d m rest, x.path2DD (i - 1) = .dd (some d) m rest → (ans (i - 1)).type ≠ .dir) →
        (if e = E_CHNG then ddelete x fuel act ans tries j i path else some (j, i, e)) = some r →
        Kept (fun _ => 0) (paths r.1) r.1 ∧ Erased x ans k r := by
      intro j i e hs hj hlast hr
      have hpaths : paths j = paths k := paths_procx hs.procx
      split at hr
      · have hfound' : AllFound x ans j act := by
          intro n d m rest hd ht hres c hc
          exact (hs.reached c).mpr (hfound n d m rest hd ht hres c ((hs.refers c d).mp hc))
        rcases ih hj (by rw [hpaths]; exact hfew) hfound' hr with ⟨hkept, herased⟩
        refine ⟨hkept, fun h0 d m rest hd ht c hc => ?_⟩
        exact herased h0 d m rest hd ht c ((hs.refers c d).mpr hc)
      · cases hr
        exact ⟨hj, fun h0 d m rest hd ht => absurd ht (hlast h0 d m rest hd)⟩
    rw [ddelete] at h
    simp only at h
    split at h
    · cases h
    · next k₁ n₁ e hsearch =>
      have hneg : e < 0 := by
        have hkernel : EPTHNF < 0 ∧ ELOOP < 0 ∧ ELOCKED < 0 ∧ EDRIVE < 0 := by decide
        exact pathToDD_error hkernel hx.path2DD hx.drvOpen hsearch e rfl
      have hs : Still k k₁ := pathToDD_still hsearch
      have hl : Locks k (fun _ => 0) k₁ := pathToDD_locks (Locks.refl k) hsearch
      exact hagain hs (hs.kept hl hk) (fun h0 => absurd hneg (by omega)) h
    · next k₁ n₁ a hsearch =>
      have hs : Still k k₁ := pathToDD_still hsearch
      have hl : Locks k (more (fun _ => 0) a.dir) k₁ := pathToDD_locks (Locks.refl k) hsearch
      -- The parent directory is unlocked, and nothing has been deleted.
      have hstop : ∀ {j : Kernel} {E' : Nat → Nat} {e : Int}, Still k j →
          Locks k (more E' a.dir) j → (∀ d m rest, x.path2DD n₁ = .dd (some d) m rest →
            (ans n₁).type ≠ .dir) →
          (if e = E_CHNG then ddelete x fuel act ans tries (condUnlockDd j e a.dir) (n₁ + 1) path
            else some (condUnlockDd j e a.dir, n₁ + 1, e)) = some r →
          Kept (fun _ => 0) (paths r.1) r.1 ∧ Erased x ans k r := by
        intro j E' e hj hlj hlast hr
        have hunlocked : Kept E' (paths (condUnlockDd j e a.dir)) (condUnlockDd j e a.dir) := by
          rw [paths_procx (still_condUnlockDd e).procx]
          exact condUnlock_kept e (hj.kept hlj hk)
        exact hagain (i := n₁ + 1) (hj.trans (still_condUnlockDd e))
          (hunlocked.weaken fun _ => Nat.zero_le _)
          (fun _ => hlast) hr
      split at h
      · next e ht => exact hstop hs hl (fun _ _ _ _ => by rw [ht]; intro hd; cases hd) h
      · next ht => exact hstop hs hl (fun _ _ _ _ => by rw [ht]; intro hd; cases hd) h
      · next ht => exact hstop hs hl (fun _ _ _ _ => by rw [ht]; intro hd; cases hd) h
      · next ht =>
        split at h
        · next d m rest hd =>
          have hs₂ : Still k (unlockDd (grantDd k₁ d m) a.dir) :=
            (hs.trans (still_onDd _)).trans still_unlockDd
          have hl₂ : Locks k (more (fun _ => 0) d) (unlockDd (grantDd k₁ d m) a.dir) := by
            have hgrant : Locks k (more (more (fun _ => 0) d) a.dir) (grantDd k₁ d m) := by
              rw [more_comm]
              exact hl.grant d m
            exact hgrant.unlock
          have hk₂ := hs₂.kept hl₂ hk
          have hfew₂ : Few (paths (unlockDd (grantDd k₁ d m) a.dir)) := by
            rw [paths_procx hs₂.procx]
            exact hfew
          generalize unlockDd (grantDd k₁ d m) a.dir = k₂ at *
          have hfound₂ : 0 ≤ (ans n₁).result → ∀ c, Refers k₂ c d → Reached k₂ act c := by
            intro hres c hc
            exact (hs₂.reached c).mpr (hfound n₁ d m rest hd ht hres c ((hs₂.refers c d).mp hc))
          rcases ddeleteDir_end hs₂ hk₂ hfew₂ hfound₂ rfl rfl with ⟨hend, herased, hback⟩
          by_cases hres : 0 ≤ (ddeleteDir k₂ act d (ans n₁).result).2
          · -- The directory is deleted, so that this was the last time.
            have hne : (ddeleteDir k₂ act d (ans n₁).result).2 ≠ E_CHNG := by
              have hchng : E_CHNG < 0 := by decide
              omega
            rw [if_neg hne] at h
            cases h
            refine ⟨hend, fun _ d' m' rest' hd' _ c hc => ?_⟩
            have hsame : x.path2DD n₁ = .dd (some d') m' rest' := hd'
            rw [hd] at hsame
            cases hsame
            exact herased hres c hc
          · exact hagain (hback (by omega)) hend (fun h0 => absurd h0 hres) h
        · next m rest hd =>
          refine hstop hs hl (fun d' m' rest' hd' => ?_) h
          rw [hd] at hd'
          cases hd'
        · next d m text rest hd =>
          have hgrant : Locks k (more (more (fun _ => 0) d) a.dir) (grantDd k₁ d m) := by
            rw [more_comm]
            exact hl.grant d m
          refine hstop (hs.trans (still_onDd _)) hgrant (fun d' m' rest' hd' => ?_) h
          rw [hd] at hd'
          cases hd'
        · next rest hd =>
          refine hstop hs hl (fun d' m' rest' hd' => ?_) h
          rw [hd] at hd'
          cases hd'
        · next e hd =>
          refine hstop hs hl (fun d' m' rest' hd' => ?_) h
          rw [hd] at hd'
          cases hd'

end

/-- What holds of the path handles after every call: the counters are the numbers of
users, a path handle that is used has a directory that has not been given back, and
every path handle of a process is counted. -/
structure Consistent (k : Kernel) : Prop where
  count : ∀ h : Nat, 0 < h → h < N_STDPATHS → (k.pathcntx h).toNat = uses (paths k) h
  dir : ∀ h : Nat, 0 < h → 0 < uses (paths k) h →
    ∃ d, k.pathx h = some d ∧ (k.dd d).freed = false
  user : ∀ c (h : Nat), 0 < h → paths k c = h → h < N_STDPATHS ∧ k.pathcntx h ≠ 0

/-- The calls that change path handles. -/
inductive PathCall
  | dsetpath (x : Xfs) (fuel tries n : Nat) (path : List Char)
  | ddelete (x : Xfs) (hx : Signed x) (fuel : Nat) (ans : Nat → DdeleteAnswer) (tries n : Nat)
      (path : List Char)
  | initPd (child : Slot) (pd : Pd)
  | pdKill (p : Slot)
  | diskchange (m : Nat)

/-- A call of a process that is there. A process is created in a free slot. -/
def performPath (k : Kernel) (act : Slot) (c : PathCall) : Option Kernel :=
  if (k.procx act).isSome then
    match c with
    | .dsetpath x fuel tries n path => (dsetpath x fuel act tries k n path).map Prod.fst
    | .ddelete x _ fuel ans tries n path => (ddelete x fuel act ans tries k n path).map Prod.fst
    | .initPd child pd => if (k.procx child).isSome then none else some (initPd k act child pd)
    | .pdKill p => some (pdKill k p)
    | .diskchange m => some (freePathx k act (some m))
  else none

/-- What a call gives up is found in all the places that refer to it. -/
def Clears (k : Kernel) (act : Slot) (c : PathCall) : Prop :=
  match c with
  | .ddelete x _ _ ans _ _ _ => AllFound x ans k act
  | .diskchange m => ∀ c d, Refers k c d → (k.dd d).dmd = m → Reached k act c
  | _ => True

/-- After a change of a disk what referred to its directories is the root, and after
a deletion what referred to the directory is invalid. -/
def Cleared (k k' : Kernel) (act : Slot) (c : PathCall) : Prop :=
  match c with
  | .ddelete x _ fuel ans tries n path =>
    ∀ r, ddelete x fuel act ans tries k n path = some r → Erased x ans k r
  | .diskchange m => ∀ c d, Refers k c d → (k.dd d).dmd = m → paths k' c = 0
  | _ => True

section

variable {k k' : Kernel} {act : Slot}

theorem Kept.consistent (hk : Kept (fun _ => 0) (paths k) k) (hfew : Few (paths k)) :
    Consistent k where
  count := by
    intro h hpos hlt
    rw [hk.count h hpos hlt, BitVec.toNat_ofNat, Nat.mod_eq_of_lt (hfew h hpos)]
  dir := by
    intro h hpos hu
    rcases hk.dir h hpos hu with ⟨d, hd, hopen, _⟩
    exact ⟨d, hd, hopen⟩
  user := by
    intro c h hpos hc
    exact (hk.used hfew hc hpos).2

theorem performPath_kept {c : PathCall} (hk : Kept (fun _ => 0) (paths k) k)
    (hfew : Few (paths k)) (hc : Clears k act c) (h : performPath k act c = some k') :
    Kept (fun _ => 0) (paths k') k' ∧ Cleared k k' act c := by
  unfold performPath at h
  by_cases hact : (k.procx act).isSome = true
  · rw [if_pos hact] at h
    cases c with
    | dsetpath x fuel tries n path =>
      rcases Option.map_eq_some_iff.mp h with ⟨r, hr, hk'⟩
      rw [← hk']
      exact ⟨dsetpath_kept hk hfew hact hr, trivial⟩
    | ddelete x hx fuel ans tries n path =>
      rcases Option.map_eq_some_iff.mp h with ⟨r, hr, hk'⟩
      rcases ddelete_kept hx hk hfew hc hr with ⟨hkept, herased⟩
      rw [← hk']
      refine ⟨hkept, fun r' hr' => ?_⟩
      rw [hr] at hr'
      cases hr'
      exact herased
    | initPd child pd =>
      simp only at h
      split at h
      · cases h
      · next hfree =>
        rw [← Option.some.inj h]
        exact ⟨initPd_kept hk (Option.not_isSome_iff_eq_none.mp hfree) pd, trivial⟩
    | pdKill p =>
      rw [← Option.some.inj h]
      exact ⟨pdKill_kept hk hfew, trivial⟩
    | diskchange m =>
      rw [← Option.some.inj h]
      have hfound : ∀ c (n : Nat), 0 < n → paths k c = n → Hit k m n → Reached k act c := by
        intro c n hn hcn hhit
        rcases hhit with ⟨_, d, hd, hm⟩
        exact hc c d ⟨n, hn, hcn, hd⟩ hm
      rcases freePathx_kept hk hfew hfound with ⟨hkept, _, hzero⟩
      refine ⟨hkept, fun c d hr hm => ?_⟩
      rcases hr with ⟨n, hn, hcn, hd⟩
      exact hzero c n hn hcn ⟨(hk.used hfew hcn hn).2.2, d, hd, hm⟩
  · rw [if_neg hact] at h
    cases h

/-- The calls of a run, up to one that does not come back, with the states before and
after them. -/
def pathSteps (k : Kernel) : List (Slot × PathCall) → List (Kernel × (Slot × PathCall) × Kernel)
  | [] => []
  | a :: as =>
    match performPath k a.1 a.2 with
    | none => []
    | some k' => (k, a, k') :: pathSteps k' as

/-- A run in which everything that is given up is found, and no path handle has more
users than a byte counts. -/
def FindsAll (k : Kernel) : List (Slot × PathCall) → Prop
  | [] => True
  | a :: as =>
    match performPath k a.1 a.2 with
    | none => True
    | some k' => Clears k a.1 a.2 ∧ Few (paths k') ∧ FindsAll k' as

/-- The path handles are consistent after every call of a run in which everything
that is given up is found. -/
theorem run_consistent (k : Kernel) (hk : Kept (fun _ => 0) (paths k) k) (hfew : Few (paths k))
    (as : List (Slot × PathCall)) (has : FindsAll k as) :
    ∀ s ∈ pathSteps k as, Consistent s.2.2 ∧ Cleared s.1 s.2.2 s.2.1.1 s.2.1.2 := by
  induction as generalizing k with
  | nil =>
    intro s hs
    exact absurd hs List.not_mem_nil
  | cons a as ih =>
    intro s hs
    unfold FindsAll at has
    unfold pathSteps at hs
    cases hp : performPath k a.1 a.2 with
    | none =>
      rw [hp] at hs
      exact absurd hs List.not_mem_nil
    | some k' =>
      rw [hp] at has hs
      rcases has with ⟨hclears, hfew', hrest⟩
      rcases performPath_kept hk hfew hclears hp with ⟨hk', hcleared⟩
      rcases List.mem_cons.mp hs with hs | hs
      · rw [hs]
        exact ⟨hk'.consistent hfew', hcleared⟩
      · exact ih k' hk' hfew' hrest s hs

end

/-- One process with one default path, on the given drive. -/
def onePath (drv : Fin NUM_DRIVES) : Kernel :=
  { oneFile 10 with
    procx := fun p => if p = 0 then some
      { mint := false, defdrv := drv, drvx := fun d => if d = drv then 1 else 0, parent := none,
        app := none, prg := false, fork := false, handle := fun _ => Fh.empty } else none
    dd := fun d => ⟨1, if d = 5 then 1 else 0, false⟩
    dmd := fun _ => ⟨1, drv, 1⟩
    pathx := fun h => if h = 1 then some 5 else none
    pathcntx := fun h => if h = 1 then 1 else 0
    dmdx := fun d => if d = drv then some 1 else none }

section

variable {drv : Fin NUM_DRIVES}

theorem paths_onePath (c : Place) : paths (onePath drv) c = if c = (0, drv) then 1 else 0 := by
  unfold paths drvxOf onePath
  by_cases hp : c.1 = 0
  · by_cases hd : c.2 = drv
    · have hc : c = (0, drv) := Prod.ext hp hd
      simp [hc]
    · have hc : c ≠ (0, drv) := fun hc => hd (congrArg Prod.snd hc)
      simp [hp, hd, hc]
  · have hc : c ≠ (0, drv) := fun hc => hp (congrArg Prod.fst hc)
    simp [hp, hc]

theorem paths_onePath_pos {c : Place} {n : Nat} (hn : 0 < n) (hc : paths (onePath drv) c = n) :
    c = (0, drv) ∧ n = 1 := by
  rw [paths_onePath] at hc
  by_cases he : c = (0, drv)
  · rw [if_pos he] at hc
    exact ⟨he, by omega⟩
  · rw [if_neg he] at hc
    omega

theorem uses_onePath {n : Nat} (hn : 0 < n) :
    uses (paths (onePath drv)) n = if n = 1 then 1 else 0 := by
  by_cases hone : n = 1
  · have hcell : paths (onePath drv) (0, drv) = 1 := by rw [paths_onePath, if_pos rfl]
    have huses := uses_eq_countP (a := (1 : Int)) (t := paths (onePath drv))
      (List.nodup_singleton ((0 : Slot), drv)) fun c hc => by
        rw [(paths_onePath_pos Nat.one_pos hc).1]
        exact List.mem_singleton_self _
    rw [if_pos hone, hone]
    exact huses.trans (by simp [hcell])
  · rw [if_neg hone]
    exact uses_eq_zero fun c hc => hone (paths_onePath_pos hn hc).2

theorem onePath_few : Few (paths (onePath drv)) := by
  intro n hn
  rw [uses_onePath hn]
  split <;> omega

theorem onePath_kept : Kept (fun _ => 0) (paths (onePath drv)) (onePath drv) where
  small := by
    intro c
    have hmax : N_STDPATHS = 40 := rfl
    rw [paths_onePath]
    split <;> omega
  count := by
    intro h hpos _
    rw [uses_onePath hpos]
    unfold onePath
    simp only
    split <;> rfl
  dir := by
    intro h hpos hu
    rw [uses_onePath hpos] at hu ⊢
    by_cases hone : h = 1
    · have href : ((onePath drv).dd 5).refcnt = 1 := rfl
      refine ⟨5, if_pos hone, rfl, ?_⟩
      rw [if_pos hone, href]
      decide
    · rw [if_neg hone] at hu
      omega
  apart := by
    intro h h' d hpos hpos' hu hu' _ _
    rw [uses_onePath hpos] at hu
    rw [uses_onePath hpos'] at hu'
    split at hu
    · split at hu'
      · omega
      · omega
    · omega
  locks := by
    intro d
    unfold onePath
    simp only
    split <;> decide

theorem onePath_refers {c : Place} {d : Nat} (h : Refers (onePath drv) c d) :
    c = (0, drv) ∧ d = 5 := by
  rcases h with ⟨n, hn, hc, hd⟩
  rcases paths_onePath_pos hn hc with ⟨hcell, hone⟩
  rw [hone] at hd
  exact ⟨hcell, (Option.some.inj hd).symm⟩

end

/-- The disk in drive A is changed, which has the only default path. -/
theorem run_consistent_onePath : Few (paths (onePath 0)) ∧
    ∀ s ∈ pathSteps (onePath 0) [(0, .diskchange 1)],
      Consistent s.2.2 ∧ Cleared s.1 s.2.2 s.2.1.1 s.2.1.2 := by
  have hreach : Reached (onePath 0) 0 (0, 0) := by
    refine ⟨rfl, List.mem_append_left _ ?_⟩
    exact List.mem_cons_self
  have hclears : Clears (onePath 0) 0 (.diskchange 1) := by
    intro c d hr _
    rw [(onePath_refers hr).1]
    exact hreach
  have hfound : ∀ c (n : Nat), 0 < n → paths (onePath 0) c = n → Hit (onePath 0) 1 n →
      Reached (onePath 0) 0 c := by
    intro c n hn hc _
    rw [(paths_onePath_pos hn hc).1]
    exact hreach
  have hfew := (freePathx_kept onePath_kept onePath_few hfound).2.1
  refine ⟨onePath_few, run_consistent (onePath 0) onePath_kept onePath_few _ ?_⟩
  unfold FindsAll
  split
  · trivial
  · next k' hk' =>
    rw [← Option.some.inj hk']
    exact ⟨hclears, hfew, trivial⟩

/-- The disk in drive C is changed: the process keeps the path handle, which is
free. -/
theorem onePath_stale :
    Kept (fun _ => 0) (paths (onePath 2)) (onePath 2) ∧ Few (paths (onePath 2)) ∧
      ∃ s ∈ pathSteps (onePath 2) [(0, .diskchange 1)],
        ¬ Consistent s.2.2 ∧ ¬ Cleared s.1 s.2.2 s.2.1.1 s.2.1.2 := by
  have hcell : paths (onePath 2) (0, 2) = (1 : Nat) := by rw [paths_onePath, if_pos rfl]; rfl
  have hhit : Hit (onePath 2) 1 1 := ⟨by decide, 5, rfl, rfl⟩
  have hno : ¬ Reached (onePath 2) 0 (0, 2) := fun h => absurd h.1 (by decide)
  rcases freePathx_misses onePath_kept onePath_few Nat.one_pos hcell hhit hno with ⟨hkeeps, hfree⟩
  refine ⟨onePath_kept, onePath_few,
    (onePath 2, (0, .diskchange 1), freePathx (onePath 2) 0 (some 1)), List.mem_cons_self,
    fun hc => ?_, fun hc => ?_⟩
  · exact (hc.user (0, 2) 1 Nat.one_pos hkeeps).2 hfree
  · have hz := hc (0, 2) 5 ⟨1, Nat.one_pos, hcell, rfl⟩ rfl
    rw [hkeeps] at hz
    cases hz

end Dos

end MagiC
