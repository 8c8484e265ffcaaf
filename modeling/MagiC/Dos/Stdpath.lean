import MagiC.Dos.Change
import MagiC.Dos.Balance

/-!
# Path Handles

A default path is a path handle: a number that a process keeps for a drive, and
under which the kernel keeps the directory and how many processes and drives use
it.

`Kept E T k` says that the table of the path handles of `k` agrees with the
numbers in `T`, while the running call holds the locks `E`. The numbers are a
table of their own, so that the invariant also describes the states in which a
routine has changed the one and not yet the other.

The counters are bytes. `Few` says that they are compared like numbers.

## Main definitions

* `Kept`: The table of the path handles agrees with them.

## Theorems

* `dsetpath_kept`: A new default path.
-/

namespace MagiC

namespace Dos

open Census

/-- A path handle of a process, by the process and the drive. -/
abbrev Place := Slot × Fin NUM_DRIVES

/-- The path handles of all the processes. -/
def paths (k : Kernel) (c : Place) : Int := drvxOf k c.1 c.2

/-- The table of the path handles agrees with the numbers in `T`, while the locks
`E` are held. -/
structure Kept (E : Nat → Nat) (T : Place → Int) (k : Kernel) : Prop where
  small : ∀ c, T c < N_STDPATHS
  count : ∀ h : Nat, 0 < h → h < N_STDPATHS → k.pathcntx h = BitVec.ofNat 8 (uses T h)
  dir : ∀ h : Nat, 0 < h → 0 < uses T h →
    ∃ d, k.pathx h = some d ∧ (k.dd d).freed = false ∧ (uses T h : Int) + E d ≤ (k.dd d).refcnt
  apart : ∀ (h h' : Nat) d, 0 < h → 0 < h' → 0 < uses T h → 0 < uses T h' →
    k.pathx h = some d → k.pathx h' = some d → h = h'
  locks : ∀ d, (E d : Int) ≤ (k.dd d).refcnt

/-- No path handle has more users than a byte counts. -/
def Few (T : Place → Int) : Prop := ∀ h : Nat, 0 < h → uses T h < 256

section

variable {k k' : Kernel} {E : Nat → Nat} {T T' : Place → Int} {c : Place} {d h : Nat}

theorem byte_add_one (n : Nat) : BitVec.ofNat 8 n + 1 = BitVec.ofNat 8 (n + 1) :=
  (BitVec.ofNat_add n 1).symm

theorem byte_sub_one (n : Nat) : BitVec.ofNat 8 (n + 1) - 1 = BitVec.ofNat 8 n := by
  rw [← byte_add_one, BitVec.add_sub_cancel]

theorem Kept.congr (hk : Kept E T k) (hpathx : k'.pathx = k.pathx)
    (hcnt : k'.pathcntx = k.pathcntx) (hdd : k'.dd = k.dd) : Kept E T k' where
  small := hk.small
  count := by rw [hcnt]; exact hk.count
  dir := by rw [hpathx, hdd]; exact hk.dir
  apart := by rw [hpathx]; exact hk.apart
  locks := by rw [hdd]; exact hk.locks

theorem Kept.retable (hk : Kept E T k) (hT : ∀ c (n : Nat), 0 < n → (T' c = n ↔ T c = n)) :
    Kept E T' k := by
  have huses : ∀ n : Nat, 0 < n → uses T' n = uses T n :=
    fun n hn => uses_congr fun c => hT c n hn
  refine ⟨fun c => ?_, fun n hn hlt => ?_, fun n hn hu => ?_, fun n n' d hn hn' hu hu' => ?_,
    hk.locks⟩
  · by_cases hpos : T' c ≤ 0
    · have hmax : N_STDPATHS = 40 := rfl
      omega
    · have hcast : T' c = ((T' c).toNat : Int) := by omega
      have hc := (hT c (T' c).toNat (by omega)).mp hcast
      have hsmall := hk.small c
      omega
  · rw [huses n hn]
    exact hk.count n hn hlt
  · rw [huses n hn] at hu ⊢
    exact hk.dir n hn hu
  · rw [huses n hn] at hu
    rw [huses n' hn'] at hu'
    exact hk.apart n n' d hn hn' hu hu'

theorem Kept.locked (hk : Kept (fun _ => 0) T k) (hs : Still k k') (hl : Locks k E k') :
    Kept E T k' where
  small := hk.small
  count := by rw [hs.pathcntx]; exact hk.count
  dir := by
    intro h hpos hu
    rcases hk.dir h hpos hu with ⟨d, hd, hfree, href⟩
    refine ⟨d, by rw [hs.pathx, hd], ?_, ?_⟩
    · cases hf : (k'.dd d).freed with
      | false => rfl
      | true =>
        rw [hl.freed d (by omega) hf] at hfree
        cases hfree
    · rw [hl.refcnt d]
      omega
  apart := by rw [hs.pathx]; exact hk.apart
  locks := by
    intro d
    have hd := hk.locks d
    rw [hl.refcnt d]
    omega

theorem Kept.weaken {E' : Nat → Nat} (hk : Kept E T k) (hE : ∀ d, E' d ≤ E d) : Kept E' T k where
  small := hk.small
  count := hk.count
  dir := by
    intro h hpos hu
    rcases hk.dir h hpos hu with ⟨d, hd, hfree, href⟩
    have hle := hE d
    exact ⟨d, hd, hfree, by omega⟩
  apart := hk.apart
  locks := by
    intro d
    have hd := hk.locks d
    have hle := hE d
    omega

theorem Kept.used (hk : Kept E T k) (hfew : Few T) (hc : T c = h) (hpos : 0 < h) :
    0 < uses T h ∧ h < N_STDPATHS ∧ k.pathcntx h ≠ 0 := by
  have hu : 0 < uses T h := uses_pos_iff.mpr ⟨c, hc⟩
  have hsmall := hk.small c
  have hlt := hfew h hpos
  refine ⟨hu, by omega, fun hz => ?_⟩
  rw [hk.count h hpos (by omega)] at hz
  have hn := congrArg BitVec.toNat hz
  rw [BitVec.toNat_ofNat, Nat.mod_eq_of_lt hlt] at hn
  have hzero : (0 : BitVec 8).toNat = 0 := rfl
  omega

theorem Kept.counted (hk : Kept E T k) (hpos : 0 < h) (hlt : h < N_STDPATHS)
    (hc : k.pathcntx h ≠ 0) : 0 < uses T h := by
  by_contra hz
  refine hc ?_
  rw [hk.count h hpos hlt, Nat.eq_zero_of_not_pos hz]
  rfl

theorem Kept.lock (hk : Kept E T k) :
    Kept (more E d) T (lockDd k d) := by
  have hcount : ∀ e, ((lockDd k d).dd e).refcnt = (k.dd e).refcnt + refs (some d) e ∧
      ((lockDd k d).dd e).freed = (k.dd e).freed := by
    intro e
    unfold lockDd refs
    simp only [Option.some.injEq]
    by_cases he : e = d
    · rw [he, onDd_self, if_pos rfl]
      exact ⟨rfl, rfl⟩
    · rw [onDd_other he, if_neg (Ne.symm he), Int.add_zero]
      exact ⟨rfl, rfl⟩
  refine ⟨hk.small, hk.count, fun n hpos hu => ?_, hk.apart, fun e => ?_⟩
  · rcases hk.dir n hpos hu with ⟨e, he, hopen, href⟩
    refine ⟨e, he, by rw [(hcount e).2, hopen], ?_⟩
    rw [(hcount e).1, more_eq]
    omega
  · have hle := hk.locks e
    rw [(hcount e).1, more_eq]
    omega

theorem Kept.unlock (hk : Kept (more E d) T k) : Kept E T (unlockDd k d) := by
  have hpathx : (unlockDd k d).pathx = k.pathx := still_unlockDd.pathx
  have hle : ∀ e, (E e : Int) ≤ ((unlockDd k d).dd e).refcnt := by
    intro e
    have he := hk.locks e
    rw [more_eq] at he
    rw [unlockDd_refcnt]
    omega
  refine ⟨hk.small, ?_, fun n hpos hu => ?_, ?_, hle⟩
  · rw [still_unlockDd.pathcntx]
    exact hk.count
  · rcases hk.dir n hpos hu with ⟨e, he, hopen, href⟩
    have hcount : (uses T n : Int) + E e ≤ ((unlockDd k d).dd e).refcnt := by
      rw [more_eq] at href
      rw [unlockDd_refcnt]
      omega
    refine ⟨e, by rw [hpathx, he], ?_, hcount⟩
    -- A directory that is in use is not given back.
    cases hf : ((unlockDd k d).dd e).freed with
    | false => rfl
    | true =>
      rcases unlockDd_freed hf with hf' | hz
      · rw [hopen] at hf'
        cases hf'
      · omega
  · rw [hpathx]
    exact hk.apart

theorem uses_drop_le {v : Int} (hpos : 0 < h) (hv : v ≤ 0) :
    uses (Function.update T c v) h ≤ uses T h := by
  by_cases hc : T c = h
  · have hleave : uses (Function.update T c v) h + 1 = uses T h := uses_leave hc (by omega)
    omega
  · rw [uses_update_ne T c hc (by omega)]

/-- A user of a path handle less. -/
theorem Kept.drop {v : Int} (hk : Kept E T k) (hc : T c = h) (hpos : 0 < h) (hv : v ≤ 0) :
    Kept E (Function.update T c v) (dropPath k h) := by
  have hu : 0 < uses T h := uses_pos_iff.mpr ⟨c, hc⟩
  rcases hk.dir h hpos hu with ⟨d, hd, hopen, href⟩
  have hself : uses (Function.update T c v) h + 1 = uses T h := uses_leave hc (by omega)
  have hother : ∀ n : Nat, 0 < n → n ≠ h → uses (Function.update T c v) n = uses T n := by
    intro n hn hne
    exact uses_update_ne T c (by omega) (by omega)
  have hsub : ∀ n : Nat, 0 < n → uses (Function.update T c v) n ≤ uses T n :=
    fun n hn => uses_drop_le hn hv
  -- The lock of the path is given back, with one more counted for it.
  have hmore : Kept (more E d) (Function.update T c v)
      { k with pathcntx := Function.update k.pathcntx h (k.pathcntx h - 1) } := by
    refine ⟨fun e => ?_, fun n hn hlt => ?_, fun n hn hu' => ?_, fun n n' e hn hn' hu' hu'' => ?_,
      fun e => ?_⟩
    · by_cases he : e = c
      · have hmax : N_STDPATHS = 40 := rfl
        rw [he, Function.update_self]
        omega
      · rw [Function.update_of_ne he]
        exact hk.small e
    · by_cases hne : n = h
      · rw [hne]
        simp only [Function.update_self]
        rw [hk.count h hpos (by omega), ← hself, byte_sub_one]
      · simp only [Function.update_of_ne hne]
        rw [hother n hn hne]
        exact hk.count n hn hlt
    · have hle := hsub n hn
      rcases hk.dir n hn (by omega) with ⟨e, he, hopen', href'⟩
      refine ⟨e, he, hopen', ?_⟩
      rw [more_eq]
      by_cases hde : d = e
      · rw [← hde] at he href' ⊢
        have hnh := hk.apart n h d hn hpos (by omega) hu he hd
        rw [hnh] at href' ⊢
        have hone : refs (some d) d = 1 := if_pos rfl
        rw [hone]
        simp only
        omega
      · have hzero : refs (some d) e = 0 := if_neg fun h => hde (Option.some.inj h)
        rw [hzero]
        simp only
        omega
    · have hle := hsub n hn
      have hle' := hsub n' hn'
      exact hk.apart n n' e hn hn' (by omega) (by omega)
    · have hle := hk.locks e
      rw [more_eq]
      by_cases hde : d = e
      · rw [← hde] at hle ⊢
        have hone : refs (some d) d = 1 := if_pos rfl
        rw [hone]
        simp only
        omega
      · have hzero : refs (some d) e = 0 := if_neg fun h => hde (Option.some.inj h)
        rw [hzero]
        simp only
        omega
  unfold dropPath
  rw [hd]
  exact hmore.unlock

/-- A directory that is locked is stored under a path handle, which is its own or
unused: the lock is the reference of the new user. -/
theorem Kept.store (hk : Kept (more E d) T k) (hopen : (k.dd d).freed = false) (hc : T c ≤ 0)
    (hpos : 0 < h) (hlt : h < N_STDPATHS)
    (hown : ∀ n : Nat, 0 < n → 0 < uses T n → k.pathx n = some d → n = h)
    (hdir : 0 < uses T h → k.pathx h = some d) :
    Kept E (Function.update T c h) (storePath k h d) := by
  have hself : uses (Function.update T c h) h = uses T h + 1 := uses_enter (by omega)
  have hother : ∀ n : Nat, 0 < n → n ≠ h → uses (Function.update T c h) n = uses T n := by
    intro n hn hne
    exact uses_update_ne T c (by omega) (by omega)
  have hdd : (storePath k h d).dd = k.dd := rfl
  have hpathx : (storePath k h d).pathx h = some d := Function.update_self h _ _
  have hpathx' : ∀ n, n ≠ h → (storePath k h d).pathx n = k.pathx n :=
    fun n hn => Function.update_of_ne hn _ _
  -- The directory of another path handle is another one.
  have hne : ∀ (n : Nat) e, 0 < n → n ≠ h → 0 < uses T n → k.pathx n = some e → e ≠ d := by
    intro n e hn hnh hu he hed
    rw [hed] at he
    exact hnh (hown n hn hu he)
  refine ⟨fun e => ?_, fun n hn hlt' => ?_, fun n hn hu => ?_,
    fun n n' e hn hn' hu hu' he he' => ?_, fun e => ?_⟩
  · by_cases he : e = c
    · rw [he, Function.update_self]
      omega
    · rw [Function.update_of_ne he]
      exact hk.small e
  · unfold storePath
    by_cases hnh : n = h
    · rw [hnh, hself]
      simp only [Function.update_self]
      rw [hk.count h hpos hlt, byte_add_one]
    · simp only [Function.update_of_ne hnh]
      rw [hother n hn hnh]
      exact hk.count n hn hlt'
  · rw [hdd]
    by_cases hnh : n = h
    · have hlock := hk.locks d
      rw [more_eq] at hlock
      have hone : refs (some d) d = 1 := if_pos rfl
      rw [hnh]
      refine ⟨d, hpathx, hopen, ?_⟩
      rw [hself]
      -- Either the path handle has users already, or this is the first one.
      by_cases hu' : 0 < uses T h
      · rcases hk.dir h hpos hu' with ⟨e, he, _, href⟩
        rw [hdir hu'] at he
        cases he
        rw [more_eq, hone] at href
        omega
      · omega
    · rw [hother n hn hnh] at hu ⊢
      rcases hk.dir n hn hu with ⟨e, he, hopen', href⟩
      rw [more_eq] at href
      have hzero : refs (some d) e = 0 :=
        if_neg fun hc => hne n e hn hnh hu he (Option.some.inj hc).symm
      refine ⟨e, by rw [hpathx' n hnh, he], hopen', by omega⟩
  · by_cases hnh : n = h
    · by_cases hnh' : n' = h
      · rw [hnh, hnh']
      · rw [hnh, hpathx] at he
        cases he
        rw [hpathx' n' hnh'] at he'
        rw [hother n' hn' hnh'] at hu'
        rw [hnh, hown n' hn' hu' he']
    · rw [hother n hn hnh] at hu
      rw [hpathx' n hnh] at he
      by_cases hnh' : n' = h
      · rw [hnh', hpathx] at he'
        cases he'
        rw [hnh', hown n hn hu he]
      · rw [hother n' hn' hnh'] at hu'
        rw [hpathx' n' hnh'] at he'
        exact hk.apart n n' e hn hn' hu hu' he he'
  · have hlock := hk.locks e
    have hle : (0 : Int) ≤ refs (some d) e := by
      unfold refs
      split <;> omega
    rw [more_eq] at hlock
    rw [hdd]
    omega

theorem Kept.take (hk : Kept E T k) (hc : T c ≤ 0) (hpos : 0 < h) (hu : 0 < uses T h) :
    ∃ d, k.pathx h = some d ∧ Kept E (Function.update T c h)
      (lockDd { k with pathcntx := Function.update k.pathcntx h (k.pathcntx h + 1) } d) := by
  rcases hk.dir h hpos hu with ⟨d, hd, hopen, _⟩
  rcases uses_pos_iff.mp hu with ⟨e, he⟩
  have hsmall := hk.small e
  have hopen' : ((lockDd k d).dd d).freed = false := by
    unfold lockDd
    rw [onDd_self]
    exact hopen
  have hstore : Kept E (Function.update T c h) (storePath (lockDd k d) h d) := by
    refine hk.lock.store hopen' hc hpos (by omega) (fun n hn hun hnd => ?_) fun _ => hd
    exact hk.apart n h d hn hpos hun hu hnd hd
  refine ⟨d, hd, hstore.congr ?_ rfl rfl⟩
  have hsame : (storePath (lockDd k d) h d).pathx = Function.update k.pathx h (some d) := rfl
  rw [hsame, ← hd, Function.update_eq_self]
  rfl

theorem mem_pathHandles : h ∈ pathHandles ↔ 0 < h ∧ h < N_STDPATHS := by
  have hmax : N_STDPATHS = 40 := rfl
  unfold pathHandles
  rw [List.mem_range'_1]
  omega

theorem isdefault_some (hd : isdefault k (some d) = some h) :
    0 < h ∧ h < N_STDPATHS ∧ k.pathcntx h ≠ 0 ∧ k.pathx h = some d := by
  have hin := mem_pathHandles.mp (List.mem_of_find?_eq_some hd)
  have hh := List.find?_some hd
  by_cases hz : k.pathcntx h = 0
  · rw [if_pos hz] at hh
    cases hh
  · rw [if_neg hz] at hh
    exact ⟨hin.1, hin.2, hz, of_decide_eq_true hh⟩

theorem isdefault_none (hd : isdefault k (some d) = none) (hpos : 0 < h) (hlt : h < N_STDPATHS)
    (hc : k.pathcntx h ≠ 0) : k.pathx h ≠ some d := by
  intro hp
  have hh := List.find?_eq_none.mp hd h (mem_pathHandles.mpr ⟨hpos, hlt⟩)
  rw [if_neg hc] at hh
  exact hh (decide_eq_true hp)

theorem isdefault_free (hd : isdefault k none = some h) :
    0 < h ∧ h < N_STDPATHS ∧ (k.pathcntx h = 0 ∨ k.pathx h = none) := by
  have hin := mem_pathHandles.mp (List.mem_of_find?_eq_some hd)
  have hh := List.find?_some hd
  refine ⟨hin.1, hin.2, ?_⟩
  by_cases hz : k.pathcntx h = 0
  · exact Or.inl hz
  · rw [if_neg hz] at hh
    exact Or.inr (of_decide_eq_true hh)

theorem paths_setDrvx {pd : Pd} {p : Slot} (hp : k.procx p = some pd) (drv : Fin NUM_DRIVES)
    (v : Int) : paths (setDrvx k p drv v) = Function.update (paths k) (p, drv) v := by
  funext e
  unfold paths
  rw [drvxOf_setDrvx hp]
  by_cases he : e = (p, drv)
  · rw [he, if_pos ⟨rfl, rfl⟩, Function.update_self]
  · rw [if_neg fun h => he (Prod.ext h.1 h.2), Function.update_of_ne he]

theorem paths_procx (h : k'.procx = k.procx) : paths k' = paths k := by
  unfold paths drvxOf
  rw [h]

theorem dropOld_pathx (act : Slot) (drv : Fin NUM_DRIVES) :
    (dropOld act k drv).pathx = k.pathx := by
  unfold dropOld
  simp only
  split
  · rfl
  · exact (still_unlockReldir _).pathx

theorem dropOld_freed {act : Slot} {drv : Fin NUM_DRIVES}
    (hf : ((dropOld act k drv).dd d).freed = true) :
    (k.dd d).freed = true ∨ ((dropOld act k drv).dd d).refcnt = 0 := by
  unfold dropOld at hf ⊢
  simp only at hf ⊢
  split at hf
  · exact Or.inl hf
  · next hgt =>
    rw [if_neg hgt]
    unfold dropPath at hf ⊢
    cases hx : k.pathx (drvxOf k act drv).toNat with
    | none =>
      rw [hx] at hf
      exact Or.inl hf
    | some e =>
      rw [hx] at hf
      exact unlockDd_freed hf

theorem changeDefdrv_pathcntx {act : Slot} (given : Nat) (drv : Fin NUM_DRIVES) :
    (changeDefdrv act k given drv).pathcntx = k.pathcntx := by
  unfold changeDefdrv
  split <;> rfl

theorem dropOld_kept {act : Slot} {drv : Fin NUM_DRIVES} {v : Int} (hk : Kept E (paths k) k)
    (hv : v ≤ 0) : Kept E (Function.update (paths k) (act, drv) v) (dropOld act k drv) := by
  unfold dropOld
  simp only
  split
  · next hle =>
    refine hk.retable fun c n hn => ?_
    by_cases hc : c = (act, drv)
    · have hold : paths k (act, drv) ≤ 0 := hle
      rw [hc, Function.update_self]
      constructor
      · intro h
        omega
      · intro h
        omega
    · rw [Function.update_of_ne hc]
  · next hgt =>
    refine hk.drop ?_ (by omega) hv
    have hold : paths k (act, drv) = drvxOf k act drv := rfl
    omega

theorem setPath_kept {act : Slot} {pd : Pd} {given : Nat} (hk : Kept (more E d) (paths k) k)
    (hfew : Few (paths k)) (hopen : (k.dd d).freed = false) (hp : k.procx act = some pd) :
    Kept E (paths (setPath act k given d).1) (setPath act k given d).1 := by
  unfold setPath
  simp only
  generalize setDrive k given d = drv
  split
  · have hpaths : paths (unlockDd k d) = paths k := paths_procx still_unlockDd.procx
    have hun : Kept E (paths (unlockDd k d)) (unlockDd k d) := by
      rw [hpaths]
      exact hk.unlock
    have hpd : (dropOld act (unlockDd k d) drv).procx act = some pd := by
      rw [dropOld_procx, still_unlockDd.procx, hp]
    have hdrop : Kept E (Function.update (paths (unlockDd k d)) (act, drv) 0)
        (dropOld act (unlockDd k d) drv) := dropOld_kept hun (Int.le_refl 0)
    rw [paths_setDrvx hpd, paths_procx (dropOld_procx drv)]
    exact hdrop.congr rfl rfl rfl
  · split
    · exact hk.weaken fun e => by
        by_cases he : e = d
        · rw [he, more_self]
          omega
        · rw [more_other he]
    · next h hh =>
      have hdrop : Kept (more E d) (Function.update (paths k) (act, drv) 0) (dropOld act k drv) :=
        dropOld_kept hk (Int.le_refl 0)
      have hpathx := dropOld_pathx (k := k) act drv
      have hpaths : paths (dropOld act k drv) = paths k := paths_procx (dropOld_procx drv)
      -- What is still in use was in use before.
      have hused : ∀ n : Nat, 0 < n → 0 < uses (Function.update (paths k) (act, drv) 0) n →
          n < N_STDPATHS ∧ k.pathcntx n ≠ 0 ∧ 0 < uses (paths k) n := by
        intro n hn hu
        rcases uses_pos_iff.mp hu with ⟨c, hc⟩
        by_cases hcell : c = (act, drv)
        · rw [hcell, Function.update_self] at hc
          omega
        · rw [Function.update_of_ne hcell] at hc
          have huse := hk.used hfew hc hn
          exact ⟨huse.2.1, huse.2.2, huse.1⟩
      have hfound : 0 < h ∧ h < N_STDPATHS ∧
          (∀ n : Nat, 0 < n → 0 < uses (Function.update (paths k) (act, drv) 0) n →
            k.pathx n = some d → n = h) ∧
          (0 < uses (Function.update (paths k) (act, drv) 0) h → k.pathx h = some d) := by
        cases hdef : isdefault k (some d) with
        | some h' =>
          rw [hdef] at hh
          cases hh
          rcases isdefault_some hdef with ⟨hpos, hlt, hcnt, hx⟩
          refine ⟨hpos, hlt, fun n hn hu hnd => ?_, fun _ => hx⟩
          exact hk.apart n h d hn hpos (hused n hn hu).2.2 (hk.counted hpos hlt hcnt) hnd hx
        | none =>
          rw [hdef] at hh
          rcases isdefault_free hh with ⟨hpos, hlt, hfree⟩
          refine ⟨hpos, hlt, fun n hn hu hnd => ?_, fun hu => ?_⟩
          · have huse := hused n hn hu
            exact absurd hnd (isdefault_none hdef hn huse.1 huse.2.1)
          · have huse := hused h hpos hu
            rcases hfree with hz | hz
            · exact absurd hz huse.2.1
            · rcases hk.dir h hpos huse.2.2 with ⟨e, he, _⟩
              rw [hz] at he
              cases he
      rcases hfound with ⟨hpos, hlt, hown, hdir⟩
      have hopen' : ((dropOld act k drv).dd d).freed = false := by
        have hlock := hdrop.locks d
        rw [more_self] at hlock
        cases hf : ((dropOld act k drv).dd d).freed with
        | false => rfl
        | true =>
          rcases dropOld_freed hf with hf' | hz
          · rw [hopen] at hf'
            cases hf'
          · omega
      have hcell : Function.update (paths k) (act, drv) 0 (act, drv) ≤ 0 := by
        rw [Function.update_self]
      have hstore := hdrop.store hopen' hcell hpos hlt (by rw [hpathx]; exact hown)
        (by rw [hpathx]; exact hdir)
      have hstored : (storePath (dropOld act k drv) h d).procx act = some pd := by
        have hkeep : (storePath (dropOld act k drv) h d).procx = (dropOld act k drv).procx := rfl
        rw [hkeep, dropOld_procx, hp]
      have hpd : ∃ pd', (changeDefdrv act (storePath (dropOld act k drv) h d) given drv).procx act
          = some pd' := changeDefdrv_procx hstored given drv
      rcases hpd with ⟨pd', hpd'⟩
      have hsame : paths (changeDefdrv act (storePath (dropOld act k drv) h d) given drv)
          = paths k := by
        have hdef : paths (changeDefdrv act (storePath (dropOld act k drv) h d) given drv)
            = paths (dropOld act k drv) := by
          unfold paths
          rw [changeDefdrv_drvx]
          rfl
        rw [hdef, hpaths]
      rw [Function.update_idem] at hstore
      rw [paths_setDrvx hpd', hsame]
      exact hstore.congr (changeDefdrv_pathx given drv) (changeDefdrv_pathcntx given drv)
        (changeDefdrv_dd given drv)

/-- A new default path, or an error, after which no default path has changed. -/
theorem dsetpath_kept {x : Xfs} {fuel : Nat} {act : Slot} : ∀ {tries : Nat} {k : Kernel} {n : Nat}
    {path : List Char} {r}, Kept (fun _ => 0) (paths k) k → Few (paths k) →
    (k.procx act).isSome = true → dsetpath x fuel act tries k n path = some r →
    Kept (fun _ => 0) (paths r.1) r.1 := by
  intro tries
  induction tries with
  | zero =>
    intro k n path r _ _ _ h
    rw [dsetpath] at h
    cases h
  | succ tries ih =>
    intro k n path r hk hfew hact h
    rw [dsetpath] at h
    split at h
    · cases h
    · next k₁ n₁ e hsearch =>
      have hlocks : Locks k (fun _ => 0) k₁ := pathToDD_locks (Locks.refl k) hsearch
      have hstill : Still k k₁ := pathToDD_still hsearch
      have hpaths : paths k₁ = paths k := paths_procx hstill.procx
      have hk₁ : Kept (fun _ => 0) (paths k₁) k₁ := by
        rw [hpaths]
        exact hk.locked hstill hlocks
      split at h
      · exact ih hk₁ (by rw [hpaths]; exact hfew) (by rw [hstill.procx]; exact hact) h
      · cases h
        exact hk₁
    · next k₁ n₁ f hsearch =>
      have hlocks : Locks k (more (fun _ => 0) f.dir) k₁ :=
        pathToDD_locks (Locks.refl k) hsearch
      have hstill : Still k k₁ := pathToDD_still hsearch
      have hpaths : paths k₁ = paths k := paths_procx hstill.procx
      have hpos : ∀ d, 0 ≤ (k.dd d).refcnt := fun d => hk.locks d
      have hopen : (k₁.dd f.dir).freed = false :=
        pathToDD_open hpos (Locks.refl k) hsearch f rfl
      have hk₁ : Kept (more (fun _ => 0) f.dir) (paths k₁) k₁ := by
        rw [hpaths]
        exact hk.locked hstill hlocks
      rw [← hstill.procx] at hact
      rcases Option.isSome_iff_exists.mp hact with ⟨pd, hpd⟩
      simp only at h
      cases h
      exact setPath_kept hk₁ (by rw [hpaths]; exact hfew) hopen hpd

/-- What the path handles are about, without the numbers in the processes. -/
def pathTable (k : Kernel) :
    (Place → Int) × (Nat → Option Nat) × (Nat → BitVec 8) × (Nat → Dd) :=
  (paths k, k.pathx, k.pathcntx, k.dd)

theorem Kept.of_table (hk : Kept E (paths k) k) (h : pathTable k' = pathTable k) :
    Kept E (paths k') k' := by
  have hpaths : paths k' = paths k := congrArg Prod.fst h
  have hrest := congrArg Prod.snd h
  rw [hpaths]
  exact hk.congr (congrArg Prod.fst hrest) (congrArg (fun t => t.2.1) hrest)
    (congrArg (fun t => t.2.2) hrest)

theorem pathTable_onPd (p : Slot) {g : Pd → Pd} (hg : ∀ pd, (g pd).drvx = pd.drvx) :
    pathTable (onPd k p g) = pathTable k := by
  have hpaths : paths (onPd k p g) = paths k := by
    unfold paths
    rw [drvxOf_onPd p hg]
  unfold pathTable
  rw [hpaths]
  rfl

theorem pathTable_setEntry (e : Cell) (v : Option Nat) :
    pathTable (setEntry k e v) = pathTable k := by
  unfold setEntry
  refine pathTable_onPd e.1 ?_
  intro pd
  rfl

theorem pathTable_setFlag (e : Cell) (w : BitVec 16) : pathTable (setFlag k e w) = pathTable k := by
  unfold setFlag
  refine pathTable_onPd e.1 ?_
  intro pd
  rfl

theorem pathTable_countFd (f : Nat) : pathTable (countFd k f) = pathTable k := by
  unfold countFd
  split <;> rfl

theorem pathTable_devClose (f : Nat) : pathTable (devClose k f) = pathTable k := by
  unfold devClose dropFd
  split
  · rfl
  · split <;> rfl

theorem pathTable_initHandles (parent child : Slot) :
    pathTable (initHandles k parent child) = pathTable k := by
  unfold initHandles
  refine foldl_keeps pathTable (fun k i => ?_) _ _
  unfold inherit
  split
  · next pd f _ _ =>
    split
    · rfl
    · split
      · rfl
      · rw [pathTable_setFlag, pathTable_setEntry, pathTable_countFd]
  · rfl

theorem pathTable_killHandles (p : Slot) : pathTable (killHandles k p) = pathTable k := by
  unfold killHandles
  refine foldl_keeps pathTable (fun k i => ?_) _ _
  unfold killHandle
  split
  · rfl
  · rw [pathTable_devClose, pathTable_setEntry]

theorem inheritPath_kept {child : Slot} {drv : Fin NUM_DRIVES} {pd : Pd}
    (hk : Kept E (paths k) k) (hp : k.procx child = some pd) (hc : paths k (child, drv) ≤ 0)
    (parent : Slot) :
    Kept E (paths (inheritPath k parent child drv)) (inheritPath k parent child drv) ∧
      (∃ pd', (inheritPath k parent child drv).procx child = some pd') ∧
      ∀ e, e ≠ drv → paths (inheritPath k parent child drv) (child, e) = paths k (child, e) := by
  have hfrom : drvxOf k parent drv = paths k (parent, drv) := rfl
  have hset : ∀ v : Int, paths (setDrvx k child drv v) = Function.update (paths k) (child, drv) v :=
    paths_setDrvx hp drv
  have hother : ∀ (v : Int) e, e ≠ drv →
      Function.update (paths k) (child, drv) v (child, e) = paths k (child, e) :=
    fun v e he => Function.update_of_ne (fun h => he (congrArg Prod.snd h)) _ _
  unfold inheritPath
  simp only
  split
  · refine ⟨?_, onPd_procx hp _ _, fun e he => ?_⟩
    · rw [hset]
      have hsame : Kept E (Function.update (paths k) (child, drv) 0) k := by
        refine hk.retable fun c n hn => ?_
        by_cases he : c = (child, drv)
        · rw [he, Function.update_self]
          constructor
          · intro h
            omega
          · intro h
            omega
        · rw [Function.update_of_ne he]
      exact hsame.congr rfl rfl rfl
    · rw [hset, hother 0 e he]
  · next hgt =>
    have hcast : paths k (parent, drv) = ((drvxOf k parent drv).toNat : Int) := by omega
    have hpos : 0 < (drvxOf k parent drv).toNat := by omega
    rcases hk.take hc hpos (uses_pos_iff.mpr ⟨_, hcast⟩) with ⟨d, hd, htake⟩
    have hpathx : (setDrvx k child drv (drvxOf k parent drv)).pathx (drvxOf k parent drv).toNat
        = some d := hd
    rw [hpathx]
    simp only
    have hpaths : ∀ (w : Nat → BitVec 8), paths (lockDd { setDrvx k child drv (drvxOf k parent drv)
        with pathcntx := w } d)
          = Function.update (paths k) (child, drv) (drvxOf k parent drv) := by
      intro w
      have hkeep : paths (lockDd { setDrvx k child drv (drvxOf k parent drv) with pathcntx := w } d)
          = paths (setDrvx k child drv (drvxOf k parent drv)) := rfl
      rw [hkeep, hset]
    refine ⟨?_, onPd_procx hp _ _, fun e he => ?_⟩
    · rw [hpaths, hfrom, hcast]
      rw [← hfrom] at hcast
      exact htake.congr rfl rfl rfl
    · rw [hpaths, hother _ e he]

theorem initPaths_kept {child : Slot} {pd : Pd} (hk : Kept E (paths k) k)
    (hp : k.procx child = some pd) (hc : ∀ drv, paths k (child, drv) ≤ 0) (parent : Slot) :
    Kept E (paths (initPaths k parent child)) (initPaths k parent child) := by
  unfold initPaths
  have hnodup : (List.finRange NUM_DRIVES).reverse.Nodup :=
    List.nodup_reverse.mpr (List.nodup_finRange NUM_DRIVES)
  have hleft : ∀ drv ∈ (List.finRange NUM_DRIVES).reverse, paths k (child, drv) ≤ 0 :=
    fun drv _ => hc drv
  generalize (List.finRange NUM_DRIVES).reverse = l at hnodup hleft
  clear hc
  induction l generalizing k pd with
  | nil => exact hk
  | cons drv l ih =>
    rcases inheritPath_kept hk hp (hleft drv List.mem_cons_self) parent with
      ⟨hkept, ⟨pd', hp'⟩, hother⟩
    rw [List.foldl_cons]
    refine ih hkept hp' (List.nodup_cons.mp hnodup).2 fun e he => ?_
    have hne : e ≠ drv := fun h => (List.nodup_cons.mp hnodup).1 (h ▸ he)
    rw [hother e hne]
    exact hleft e (List.mem_cons_of_mem _ he)

theorem onPd_isSome (p q : Slot) (g : Pd → Pd) :
    ((onPd k p g).procx q).isSome = (k.procx q).isSome := by
  unfold onPd
  by_cases hq : q = p
  · rw [hq]
    simp only [Function.update_self, Option.isSome_map]
  · simp only [Function.update_of_ne hq]

theorem initHandles_isSome (parent child q : Slot) :
    ((initHandles k parent child).procx q).isSome = (k.procx q).isSome := by
  unfold initHandles
  refine foldl_keeps (fun k => (k.procx q).isSome) (fun k i => ?_) _ _
  unfold inherit
  split
  · next pd f _ _ =>
    split
    · rfl
    · split
      · rfl
      · have hcount : (countFd k f).procx = k.procx := by
          unfold countFd
          split <;> rfl
        have hset : ∀ j : Kernel, ((setEntry j (child, i) (some f)).procx q).isSome
            = (j.procx q).isSome := fun j => onPd_isSome _ _ _
        have hflag : ∀ (j : Kernel) w, ((setFlag j (child, i) w).procx q).isSome
            = (j.procx q).isSome := fun j w => onPd_isSome _ _ _
        simp only
        rw [hflag, hset, hcount]
  · rfl

/-- A process is created in a free slot. -/
theorem initPd_kept {parent child : Slot} (hk : Kept E (paths k) k)
    (hfree : k.procx child = none) (pd : Pd) :
    Kept E (paths (initPd k parent child pd)) (initPd k parent child pd) := by
  unfold initPd
  simp only
  obtain ⟨pd₀, hpd₀⟩ : ∃ q : Pd, q = { pd with drvx := fun _ => 0, handle := fun _ => Fh.empty } :=
    ⟨_, rfl⟩
  obtain ⟨k₁, hk₁⟩ : ∃ j : Kernel, j =
    { k with procx := Function.update k.procx child (some pd₀) } :=
    ⟨_, rfl⟩
  rw [← hpd₀, ← hk₁]
  have hproc : k₁.procx child = some pd₀ := by
    rw [hk₁]
    exact Function.update_self _ _ _
  -- The new process has no default paths, as the free slot had none.
  have hpaths : paths k₁ = paths k := by
    funext e
    unfold paths drvxOf
    by_cases he : e.1 = child
    · rw [he, hproc, hfree, hpd₀]
    · rw [hk₁]
      simp only [Function.update_of_ne he]
  have hnone : ∀ drv, paths k (child, drv) = 0 := by
    intro drv
    unfold paths drvxOf
    rw [hfree]
  have htable : pathTable k₁ = pathTable k := by
    unfold pathTable
    rw [hpaths, hk₁]
  have hhandles : pathTable (initHandles k₁ parent child) = pathTable k :=
    (pathTable_initHandles parent child).trans htable
  have hstart := hk.of_table hhandles
  have hlive : ((initHandles k₁ parent child).procx child).isSome = true := by
    rw [initHandles_isSome, hproc]
    rfl
  rcases Option.isSome_iff_exists.mp hlive with ⟨pd₁, hpd₁⟩
  have hpaths₁ : paths (initHandles k₁ parent child) = paths k := congrArg Prod.fst hhandles
  have hinit := initPaths_kept hstart hpd₁ (fun drv => by rw [hpaths₁, hnone]) parent
  refine hinit.of_table (pathTable_onPd child ?_)
  intro q
  rfl

theorem killPath_procx (p : Slot) (drv : Fin NUM_DRIVES) : (killPath k p drv).procx = k.procx := by
  unfold killPath
  simp only
  split
  · rfl
  · split
    · rfl
    · exact (still_unlockReldir _).procx

theorem killPath_kept {p : Slot} {drv : Fin NUM_DRIVES} (hk : Kept E T k) (hfew : Few T)
    (hT : T (p, drv) = paths k (p, drv)) :
    Kept E (Function.update T (p, drv) 0) (killPath k p drv) := by
  have hold : paths k (p, drv) = drvxOf k p drv := rfl
  unfold killPath
  simp only
  split
  · refine hk.retable fun c n hn => ?_
    by_cases hc : c = (p, drv)
    · rw [hc, Function.update_self]
      constructor
      · intro h
        omega
      · intro h
        omega
    · rw [Function.update_of_ne hc]
  · have hcell : T (p, drv) = ((drvxOf k p drv).toNat : Int) := by omega
    have hpos : 0 < (drvxOf k p drv).toNat := by omega
    split
    · next hz => exact absurd hz (hk.used hfew hcell hpos).2.2
    · exact hk.drop hcell hpos (Int.le_refl 0)

theorem killPaths_kept {p : Slot} {l : List (Fin NUM_DRIVES)} (hl : l.Nodup) (hk : Kept E T k)
    (hfew : Few T) (hT : ∀ drv ∈ l, T (p, drv) = paths k (p, drv)) :
    Kept E (fun c => if c.1 = p ∧ c.2 ∈ l then 0 else T c)
      (l.foldl (fun k drv => killPath k p drv) k) := by
  induction l generalizing k T with
  | nil =>
    refine hk.retable fun c n _ => ?_
    rw [if_neg fun h => absurd h.2 List.not_mem_nil]
  | cons drv l ih =>
    have hstep := killPath_kept hk hfew (hT drv List.mem_cons_self)
    have hfew' : Few (Function.update T (p, drv) 0) :=
      fun n hn => Nat.lt_of_le_of_lt (uses_drop_le hn (Int.le_refl 0)) (hfew n hn)
    have hrest : ∀ e ∈ l, Function.update T (p, drv) 0 (p, e)
        = paths (killPath k p drv) (p, e) := by
      intro e he
      have hne : e ≠ drv := fun h => (List.nodup_cons.mp hl).1 (h ▸ he)
      rw [Function.update_of_ne fun h => hne (congrArg Prod.snd h),
        paths_procx (killPath_procx p drv)]
      exact hT e (List.mem_cons_of_mem _ he)
    rw [List.foldl_cons]
    refine (ih (List.nodup_cons.mp hl).2 hstep hfew' hrest).retable fun c n hn => ?_
    -- A place of the first drive is cleared now, the other ones with the rest.
    by_cases hc : c = (p, drv)
    · rw [hc, Function.update_self, if_pos ⟨rfl, List.mem_cons_self⟩]
      split <;> rfl
    · rw [Function.update_of_ne hc]
      by_cases hrest' : c.1 = p ∧ c.2 ∈ l
      · rw [if_pos hrest', if_pos ⟨hrest'.1, List.mem_cons_of_mem _ hrest'.2⟩]
      · rw [if_neg hrest', if_neg]
        intro h
        rcases List.mem_cons.mp h.2 with hd | hd
        · exact hc (Prod.ext h.1 hd)
        · exact hrest' ⟨h.1, hd⟩

theorem pdKill_kept {p : Slot} (hk : Kept E (paths k) k) (hfew : Few (paths k)) :
    Kept E (paths (pdKill k p)) (pdKill k p) := by
  unfold pdKill
  simp only
  -- Neither the parents nor the files have to do with default paths.
  have hparents : paths (adjustParents k p) = paths k := by
    funext c
    unfold paths drvxOf adjustParents
    simp only
    cases k.procx c.1 with
    | none => rfl
    | some pd =>
      simp only [Option.map_some]
      split <;> rfl
  have htable : pathTable (killHandles (adjustParents k p) p) = pathTable k := by
    rw [pathTable_killHandles]
    unfold pathTable
    rw [hparents]
    rfl
  have hstart := hk.of_table htable
  have hpaths : paths (killHandles (adjustParents k p) p) = paths k := congrArg Prod.fst htable
  have hnodup : (List.finRange NUM_DRIVES).reverse.Nodup :=
    List.nodup_reverse.mpr (List.nodup_finRange NUM_DRIVES)
  have hkill := killPaths_kept (p := p) hnodup hstart (by rw [hpaths]; exact hfew)
    fun drv _ => rfl
  have hprocx : (killPaths (killHandles (adjustParents k p) p) p).procx
      = (killHandles (adjustParents k p) p).procx := by
    unfold killPaths
    exact foldl_keeps Kernel.procx (fun k drv => killPath_procx p drv) _ _
  have hfold : killPaths (killHandles (adjustParents k p) p) p
      = (List.finRange NUM_DRIVES).reverse.foldl (fun k drv => killPath k p drv)
        (killHandles (adjustParents k p) p) := rfl
  rw [← hfold] at hkill
  generalize killPaths (killHandles (adjustParents k p) p) p = j at hkill hprocx
  have htable' : ∀ c (n : Nat), 0 < n →
      (paths { j with procx := Function.update j.procx p none } c = n ↔
        (if c.1 = p ∧ c.2 ∈ (List.finRange NUM_DRIVES).reverse then 0
          else paths (killHandles (adjustParents k p) p) c) = (n : Int)) := by
    intro c n hn
    have hall : c.2 ∈ (List.finRange NUM_DRIVES).reverse :=
      List.mem_reverse.mpr (List.mem_finRange c.2)
    unfold paths drvxOf
    simp only
    by_cases hc : c.1 = p
    · rw [if_pos ⟨hc, hall⟩, hc, Function.update_self]
    · rw [if_neg fun h => hc h.1, Function.update_of_ne hc, hprocx]
  have hend := hkill.retable htable'
  exact hend.congr rfl rfl rfl

end

end Dos

end MagiC
