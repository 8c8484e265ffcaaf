import MagiC.Dos.Change
import Mathlib.Data.List.Pairwise
import Mathlib.Data.List.Range

/-!
# Giving Up a Drive

When `_dlock` lets go of a drive that still has open files, and when the change
of a disk closes the files of a drive as it should.

Both go through the handle tables with the same loop, which stops eight handles
before the end of every table. A file that is open there and nowhere else is not
seen. Closing a file takes the driver from the entry behind, so that it goes
wrong with the last reference to every file, unless what is found there happens
to be the driver.

## Main definitions

* `GivesUp`: What a change of the disk is to do with the files.

## Theorems

* `givenup_iff`: When a drive is given up as it should be.
-/

namespace MagiC

namespace Dos

open Census

/-- An entry holds a file of a drive. -/
def OnDrive (k : Kernel) (m : Nat) (c : Cell) (f : Nat) : Prop :=
  entry k c = some f ∧ (k.fd f).dmd = some m

/-- The place of an entry in the walk. -/
def key (c : Cell) : Nat := c.1 * HANDLES + c.2

/-- The drivers that have been called to close a file. -/
def closesOf (k : Kernel) (f : Nat) : List Nat :=
  (k.closes.filter fun x => decide (x.2 = f)).map Prod.fst

/-- How many of the entries hold a file. -/
def held (k : Kernel) (cs : List Cell) (f : Nat) : Nat :=
  cs.countP fun c => decide (entry k c = some f)

theorem mem_walked {c : Cell} : c ∈ walked ↔ (c.2 : Nat) < 28 := by
  have hlen : (MAX_OPEN + MIN_FHANDLE).toNat = 28 := rfl
  unfold walked
  rw [hlen]
  simp only [List.mem_flatMap, List.mem_finRange, List.mem_map, true_and]
  constructor
  · intro h
    rcases h with ⟨p, i, hi, hc⟩
    rw [← hc]
    rcases List.mem_take_iff_getElem.mp hi with ⟨j, hj, hget⟩
    rw [← hget, List.getElem_finRange]
    simp only [Fin.val_cast]
    omega
  · intro h
    refine ⟨c.1, c.2, ?_, rfl⟩
    refine List.mem_take_iff_getElem.mpr ⟨c.2, ?_, ?_⟩
    · rw [List.length_finRange]
      omega
    · rw [List.getElem_finRange]
      rfl

theorem walked_sorted : walked.Pairwise fun a b => key a < key b := by
  unfold walked
  rw [List.pairwise_flatMap]
  constructor
  · intro p _
    rw [List.pairwise_map]
    refine (List.Pairwise.sublist (List.take_sublist _ _)
      (List.pairwise_lt_finRange HANDLES)).imp ?_
    intro a b hab
    unfold key
    simp only
    omega
  · refine (List.pairwise_lt_finRange N_PROCS).imp ?_
    intro p q hpq a ha b hb
    rcases List.mem_map.mp ha with ⟨i, _, rfl⟩
    rcases List.mem_map.mp hb with ⟨j, _, rfl⟩
    unfold key
    have hp : (p : Nat) + 1 ≤ q := hpq
    have hi := i.isLt
    have hmul : ((p : Nat) + 1) * HANDLES ≤ q * HANDLES := Nat.mul_le_mul_right _ hp
    rw [Nat.succ_mul] at hmul
    simp only
    omega

theorem walked_nodup : walked.Nodup := by
  refine walked_sorted.imp ?_
  intro a b hab he
  rw [he] at hab
  exact Nat.lt_irrefl _ hab

/-- The driver is found behind an entry, if the file there has to be closed: it
is a device, or this is its last reference. -/
def Sure (k : Kernel) (m : Nat) (done : List Cell) (c : Cell) : Prop :=
  ∀ f, OnDrive k m c f →
    (k.fd f).refcnt = DEVICE ∨ (k.fd f).refcnt.toNat = held k done f + 1 →
      behind k c = (k.fd f).dev

/-- What the loop has done after some of the entries. -/
structure Freed (k : Kernel) (m : Nat) (done : List Cell) (k' : Kernel) : Prop where
  cleared : ∀ c ∈ done, ∀ f, OnDrive k m c f → entry k' c = none
  kept : ∀ c, (c ∈ done → ∀ f, ¬ OnDrive k m c f) → entry k' c = entry k c
  flags : flagOf k' = flagOf k
  dmd : ∀ f, (k'.fd f).dmd = (k.fd f).dmd
  dev : ∀ f, (k'.fd f).dev = (k.fd f).dev
  other : ∀ f, (k.fd f).dmd ≠ some m → k'.fd f = k.fd f ∧ closesOf k' f = closesOf k f
  device : ∀ f, (k.fd f).refcnt = DEVICE → (k'.fd f).refcnt = DEVICE
  count : ∀ f, (k.fd f).dmd = some m → (k.fd f).refcnt ≠ DEVICE →
    (k'.fd f).refcnt.toNat = (k.fd f).refcnt.toNat - held k done f
  calls : ∀ f, (k.fd f).dmd = some m → (k.fd f).refcnt ≠ DEVICE →
    closesOf k' f = closesOf k f ++
      if 0 < (k.fd f).refcnt.toNat ∧ (k.fd f).refcnt.toNat ≤ held k done f
      then [(k.fd f).dev] else []

section

variable {k k' : Kernel} {m : Nat} {done : List Cell} {c : Cell} {f : Nat}

theorem held_nil : held k [] f = 0 := rfl

theorem held_snoc : held k (done ++ [c]) f
    = held k done f + if entry k c = some f then 1 else 0 := by
  unfold held
  rw [List.countP_append]
  by_cases h : entry k c = some f
  · simp [h]
  · simp [h]

theorem held_snoc_ne (h : entry k c ≠ some f) : held k (done ++ [c]) f = held k done f := by
  rw [held_snoc, if_neg h, Nat.add_zero]

theorem freed_start : Freed k m [] k where
  cleared := fun c hc => absurd hc List.not_mem_nil
  kept := fun _ _ => rfl
  flags := rfl
  dmd := fun _ => rfl
  dev := fun _ => rfl
  other := fun _ _ => ⟨rfl, rfl⟩
  device := fun _ h => h
  count := fun _ _ _ => rfl
  calls := by
    intro f _ _
    rw [held_nil, if_neg (by omega), List.append_nil]

theorem Freed.skip (h : Freed k m done k') (hc : ∀ f, ¬ OnDrive k m c f) :
    Freed k m (done ++ [c]) k' where
  cleared := by
    intro e he f hf
    rcases List.mem_append.mp he with he | he
    · exact h.cleared e he f hf
    · rw [List.mem_singleton.mp he] at hf
      exact absurd hf (hc f)
  kept := by
    intro e he
    exact h.kept e fun hin => he (List.mem_append_left _ hin)
  flags := h.flags
  dmd := h.dmd
  dev := h.dev
  other := h.other
  device := h.device
  count := by
    intro f hf hr
    rw [h.count f hf hr, held_snoc_ne fun he => hc f ⟨he, hf⟩]
  calls := by
    intro f hf hr
    rw [h.calls f hf hr, held_snoc_ne fun he => hc f ⟨he, hf⟩]

theorem Freed.next {k₁ : Kernel} (h : Freed k m done k') (hf : OnDrive k m c f)
    (hentry : entry k₁ = Function.update (entry k') c none)
    (hflag : flagOf k₁ = flagOf k')
    (hother : ∀ e, e ≠ f → k₁.fd e = k'.fd e ∧ closesOf k₁ e = closesOf k' e)
    (hdmd : (k₁.fd f).dmd = (k'.fd f).dmd) (hdev : (k₁.fd f).dev = (k'.fd f).dev)
    (hdevice : (k.fd f).refcnt = DEVICE → (k₁.fd f).refcnt = DEVICE)
    (hcount : (k.fd f).refcnt ≠ DEVICE →
      (k₁.fd f).refcnt.toNat = (k.fd f).refcnt.toNat - (held k done f + 1))
    (hcalls : (k.fd f).refcnt ≠ DEVICE → closesOf k₁ f = closesOf k' f ++
      if (k.fd f).refcnt.toNat = held k done f + 1 then [(k.fd f).dev] else []) :
    Freed k m (done ++ [c]) k₁ where
  cleared := by
    intro e he g hg
    rw [hentry]
    by_cases hec : e = c
    · rw [hec, Function.update_self]
    · rw [Function.update_of_ne hec]
      rcases List.mem_append.mp he with he | he
      · exact h.cleared e he g hg
      · exact absurd (List.mem_singleton.mp he) hec
  kept := by
    intro e he
    have hec : e ≠ c := by
      intro hec
      exact he (by simp [hec]) f (hec ▸ hf)
    rw [hentry, Function.update_of_ne hec]
    exact h.kept e fun hin => he (List.mem_append_left _ hin)
  flags := hflag.trans h.flags
  dmd := by
    intro e
    by_cases he : e = f
    · rw [he, hdmd]
      exact h.dmd f
    · rw [(hother e he).1]
      exact h.dmd e
  dev := by
    intro e
    by_cases he : e = f
    · rw [he, hdev]
      exact h.dev f
    · rw [(hother e he).1]
      exact h.dev e
  other := by
    intro e he
    have hef : e ≠ f := fun hef => he (hef ▸ hf.2)
    rw [(hother e hef).1, (hother e hef).2]
    exact h.other e he
  device := by
    intro e he
    by_cases hef : e = f
    · rw [hef]
      rw [hef] at he
      exact hdevice he
    · rw [(hother e hef).1]
      exact h.device e he
  count := by
    intro e he hr
    by_cases hef : e = f
    · rw [hef] at hr ⊢
      rw [hcount hr, held_snoc, if_pos hf.1]
    · rw [(hother e hef).1, h.count e he hr, held_snoc_ne]
      intro hce
      exact hef (Option.some.inj (hce.symm.trans hf.1))
  calls := by
    intro e he hr
    by_cases hef : e = f
    · rw [hef] at hr ⊢
      rw [hcalls hr, h.calls f hf.2 hr, held_snoc, if_pos hf.1, List.append_assoc]
      congr 1
      -- The file was closed before, is closed now, or has references left.
      by_cases hlast : (k.fd f).refcnt.toNat = held k done f + 1
      · rw [if_neg (by omega), if_pos hlast, if_pos (by omega)]
        rfl
      · by_cases hbefore : 0 < (k.fd f).refcnt.toNat ∧ (k.fd f).refcnt.toNat ≤ held k done f
        · rw [if_pos hbefore, if_neg hlast, if_pos (by omega)]
          rfl
        · rw [if_neg hbefore, if_neg hlast, if_neg (by omega)]
          rfl
    · rw [(hother e hef).2, h.calls e he hr, held_snoc_ne]
      intro hce
      exact hef (Option.some.inj (hce.symm.trans hf.1))

theorem closesOf_devClose_self : closesOf (devClose k f) f = closesOf k f ++ [(k.fd f).dev] := by
  unfold closesOf devClose
  simp [List.filter_append]

theorem closesOf_devClose_other {e : Nat} (h : e ≠ f) :
    closesOf (devClose k f) e = closesOf k e := by
  unfold closesOf devClose
  have hef : f ≠ e := fun hfe => h hfe.symm
  simp [List.filter_append, hef]

theorem devClose_other {e : Nat} (h : e ≠ f) : (devClose k f).fd e = k.fd e := by
  show (dropFd k f).fd e = k.fd e
  unfold dropFd
  split
  · rfl
  · split
    · exact onFd_other h _
    · exact onFd_other h _

theorem devClose_dmd (e : Nat) : ((devClose k f).fd e).dmd = (k.fd e).dmd := by
  by_cases h : e = f
  · rw [h]
    show ((dropFd k f).fd f).dmd = (k.fd f).dmd
    unfold dropFd
    split
    · rfl
    · split
      · rw [onFd_self]
      · rw [onFd_self]
  · rw [devClose_other h]

theorem devClose_dev (e : Nat) : ((devClose k f).fd e).dev = (k.fd e).dev := by
  by_cases h : e = f
  · rw [h]
    show ((dropFd k f).fd f).dev = (k.fd f).dev
    unfold dropFd
    split
    · rfl
    · split
      · rw [onFd_self]
      · rw [onFd_self]
  · rw [devClose_other h]

theorem devClose_refcnt (h : (k.fd f).refcnt = DEVICE ∨ (k.fd f).refcnt = 0) :
    ((devClose k f).fd f).refcnt = (k.fd f).refcnt := by
  show ((dropFd k f).fd f).refcnt = (k.fd f).refcnt
  unfold dropFd
  by_cases hdev : (k.fd f).refcnt = DEVICE
  · rw [if_pos hdev]
  · rw [if_neg hdev, if_pos (h.resolve_left hdev), onFd_self]

theorem Freed.behind_eq (h : Freed k m done k') (hnext : ∀ e, key e = key c + 1 → e ∉ done) :
    behind k' c = behind k c := by
  unfold behind
  by_cases hc : (c.2 : Nat) + 1 < HANDLES
  · have hnot : (c.1, (⟨c.2 + 1, hc⟩ : Fin HANDLES)) ∉ done := by
      refine hnext _ ?_
      unfold key
      simp only
      omega
    rw [dif_pos hc, dif_pos hc, h.kept _ fun hin => absurd hin hnot, h.flags]
  · rw [dif_neg hc, dif_neg hc]

theorem behind_setEntry (hf : entry k c = some f) (v : Option Nat) :
    behind (setEntry k c v) c = behind k c := by
  rcases procx_of_entry hf with ⟨pd, hpd⟩
  unfold behind
  by_cases hc : (c.2 : Nat) + 1 < HANDLES
  · have hne : (c.1, (⟨c.2 + 1, hc⟩ : Fin HANDLES)) ≠ c := by
      intro he
      have := congrArg (fun x : Cell => (x.2 : Nat)) he
      simp at this
    rw [dif_pos hc, dif_pos hc, entry_setEntry hpd, Function.update_of_ne hne, flagOf_setEntry]
  · rw [dif_neg hc, dif_neg hc]

theorem closeBehind_ok (h : behind k c = (k.fd f).dev) :
    closeBehind k c f = .ok (devClose k f, 0) := if_pos h

theorem closeBehind_stray (h : behind k c ≠ (k.fd f).dev) :
    closeBehind k c f = .error .stray := if_neg h

theorem behind_onFd (g : Fd → Fd) : behind (onFd k f g) c = behind k c := rfl

theorem toNat_ne_device {r : BitVec 16} : r ≠ DEVICE ↔ r.toNat ≠ 65535 := by
  have hdev : DEVICE.toNat = 65535 := rfl
  rw [← hdev]
  constructor
  · intro h he
    exact h (BitVec.eq_of_toNat_eq he)
  · intro h he
    exact h (congrArg BitVec.toNat he)

theorem closeBehind_spec {j : Kernel} (hentry : entry j = Function.update (entry k') c none)
    (hflag : flagOf j = flagOf k') (hbehind : behind j c = behind k c)
    (hdmd : (j.fd f).dmd = (k'.fd f).dmd) (hdev : (j.fd f).dev = (k'.fd f).dev)
    (hother : ∀ e, e ≠ f → j.fd e = k'.fd e) (hcloses : j.closes = k'.closes)
    (hr : (j.fd f).refcnt = DEVICE ∨ (j.fd f).refcnt = 0)
    (hdevice : (k.fd f).refcnt = DEVICE → (j.fd f).refcnt = DEVICE)
    (hlast : (k.fd f).refcnt ≠ DEVICE →
      (j.fd f).refcnt = 0 ∧ (k.fd f).refcnt.toNat = held k done f + 1)
    (h : Freed k m done k') (hf : OnDrive k m c f) :
    (behind k c = (k.fd f).dev →
      ∃ k₁, closeBehind j c f = .ok (k₁, 0) ∧ Freed k m (done ++ [c]) k₁) ∧
    (behind k c ≠ (k.fd f).dev → closeBehind j c f = .error .stray) := by
  have hjdev : (j.fd f).dev = (k.fd f).dev := hdev.trans (h.dev f)
  have hcl : ∀ e, closesOf j e = closesOf k' e := by
    intro e
    unfold closesOf
    rw [hcloses]
  constructor
  · intro hb
    refine ⟨devClose j f, closeBehind_ok (by rw [hbehind, hb, hjdev]), ?_⟩
    refine h.next hf ?_ ?_ ?_ ?_ ?_ ?_ ?_ ?_
    · rw [entry_devClose, hentry]
    · rw [flagOf_devClose, hflag]
    · intro e he
      rw [devClose_other he, closesOf_devClose_other he, hother e he, hcl e]
      exact ⟨rfl, rfl⟩
    · rw [devClose_dmd, hdmd]
    · rw [devClose_dev, hdev]
    · intro hk
      rw [devClose_refcnt hr]
      exact hdevice hk
    · intro hk
      rw [devClose_refcnt hr, (hlast hk).1, (hlast hk).2, Nat.sub_self]
      rfl
    · intro hk
      rw [closesOf_devClose_self, hcl f, if_pos (hlast hk).2, hjdev]
  · intro hb
    exact closeBehind_stray (by rw [hbehind, hjdev]; exact hb)

/-- The entry holds one file only, so that being sure is about this file. -/
theorem sure_iff (hf : OnDrive k m c f) : Sure k m done c ↔
    ((k.fd f).refcnt = DEVICE ∨ (k.fd f).refcnt.toNat = held k done f + 1 →
      behind k c = (k.fd f).dev) := by
  refine ⟨fun hs => hs f hf, fun hs e he => ?_⟩
  rw [Option.some.inj (he.1.symm.trans hf.1)]
  exact hs

/-- One entry: the file loses a reference, unless it has to be closed and the
driver is not found. -/
theorem freeFile_spec (h : Freed k m done k') (hc : c ∉ done)
    (hnext : ∀ e, key e = key c + 1 → e ∉ done) (hf : OnDrive k m c f) :
    (Sure k m done c → ∃ k₁, freeFile m k' c f = .ok (k₁, 0) ∧ Freed k m (done ++ [c]) k₁) ∧
    (¬ Sure k m done c → freeFile m k' c f = .error .stray) := by
  have hentry : entry k' c = some f := by
    rw [h.kept c fun hin => absurd hin hc]
    exact hf.1
  rcases procx_of_entry hentry with ⟨pd, hpd⟩
  have hdmd : ¬ (k'.fd f).dmd ≠ some m := by
    rw [h.dmd, hf.2]
    exact fun hne => hne rfl
  have hset := entry_setEntry hpd (none : Option Nat)
  have hbehind : behind (setEntry k' c none) c = behind k c := by
    rw [behind_setEntry hentry, h.behind_eq hnext]
  have hsure : Sure k m done c ↔ _ := sure_iff hf
  have hfd : ∀ e, (setEntry k' c none).fd e = k'.fd e := fun e => rfl
  unfold freeFile
  rw [if_neg hdmd]
  by_cases hdev : (k.fd f).refcnt = DEVICE
  · -- A device is closed for every entry.
    have hdev' : ((setEntry k' c none).fd f).refcnt = DEVICE := h.device f hdev
    have hs := closeBehind_spec hset (flagOf_setEntry none) hbehind rfl rfl (fun e _ => rfl) rfl
      (Or.inl hdev') (fun _ => hdev') (fun hne => absurd hdev hne) h hf
    simp only
    rw [if_pos hdev']
    constructor
    · intro hsu
      exact hs.1 (hsure.mp hsu (Or.inl hdev))
    · intro hsu
      refine hs.2 fun hb => hsu (hsure.mpr fun _ => hb)
  · have hcount := h.count f hf.2 hdev
    have hlt := toNat_ne_device.mp hdev
    have hbound := (k.fd f).refcnt.isLt
    have hdev' : ¬ ((setEntry k' c none).fd f).refcnt = DEVICE := by
      refine toNat_ne_device.mpr ?_
      rw [hfd, hcount]
      omega
    simp only
    rw [if_neg hdev']
    by_cases hzero : ((setEntry k' c none).fd f).refcnt = 0
    · -- No reference is left to be counted.
      rw [if_pos hzero]
      have hz : (k'.fd f).refcnt.toNat = 0 := by
        rw [← hfd, hzero]
        rfl
      constructor
      · intro _
        refine ⟨_, rfl, h.next hf hset (flagOf_setEntry none) (fun e _ => ⟨rfl, rfl⟩) rfl rfl
          (fun hk => absurd hk hdev) (fun _ => ?_) fun _ => ?_⟩
        · rw [hfd, hz]
          omega
        · rw [if_neg (by omega), List.append_nil]
          rfl
      · intro hsu
        refine absurd (hsure.mpr fun hor => ?_) hsu
        rcases hor with hor | hor
        · exact absurd hor hdev
        · omega
    · rw [if_neg hzero]
      have hpos : (k'.fd f).refcnt.toNat ≠ 0 := by
        intro hz
        exact hzero (BitVec.eq_of_toNat_eq hz)
      have hself : ((onFd (setEntry k' c none) f fun x => { x with refcnt := x.refcnt - 1 }).fd
          f).refcnt = (k'.fd f).refcnt - 1 := by rw [onFd_self, hfd]
      have hsub : ((k'.fd f).refcnt - 1).toNat = (k'.fd f).refcnt.toNat - 1 :=
        BitVec.toNat_sub_of_le (BitVec.le_def.mpr (Nat.pos_of_ne_zero hpos))
      rw [hself]
      by_cases hlast : (k'.fd f).refcnt - 1 = 0
      · -- The last reference: the file is closed.
        have hr : (k.fd f).refcnt.toNat = held k done f + 1 := by
          have hz := congrArg BitVec.toNat hlast
          rw [hsub] at hz
          have hzz : (0 : BitVec 16).toNat = 0 := rfl
          omega
        rw [if_neg fun hne => hne hlast]
        have hs := closeBehind_spec (m := m) (c := c)
          (j := onFd (setEntry k' c none) f fun x => { x with refcnt := x.refcnt - 1 })
          (hset) (flagOf_setEntry none) (by rw [behind_onFd, hbehind])
          (by rw [onFd_self, hfd]) (by rw [onFd_self, hfd])
          (fun e he => by rw [onFd_other he, hfd]) rfl
          (Or.inr (by rw [hself, hlast])) (fun hk => absurd hk hdev)
          (fun _ => ⟨by rw [hself, hlast], hr⟩) h hf
        constructor
        · intro hsu
          exact hs.1 (hsure.mp hsu (Or.inr hr))
        · intro hsu
          exact hs.2 fun hb => hsu (hsure.mpr fun _ => hb)
      · rw [if_pos hlast]
        have hne : ((k'.fd f).refcnt - 1).toNat ≠ 0 := fun hz => hlast (BitVec.eq_of_toNat_eq hz)
        constructor
        · intro _
          refine ⟨_, rfl, h.next hf hset (flagOf_setEntry none) (fun e he => ⟨?_, rfl⟩) ?_ ?_
            (fun hk => absurd hk hdev) (fun _ => ?_) fun _ => ?_⟩
          · rw [onFd_other he, hfd]
          · rw [onFd_self, hfd]
          · rw [onFd_self, hfd]
          · rw [hself, hsub]
            omega
          · rw [if_neg (by omega), List.append_nil]
            rfl
        · intro hsu
          refine absurd (hsure.mpr fun hor => ?_) hsu
          rcases hor with hor | hor
          · exact absurd hor hdev
          · omega

theorem freeFiles_pass {cs : List Cell} (hentry : entry k' c = entry k c)
    (hdmd : ∀ f, (k'.fd f).dmd = (k.fd f).dmd) (hc : ∀ f, ¬ OnDrive k m c f) :
    forAllFiles (freeFile m) (c :: cs) k' = forAllFiles (freeFile m) cs k' := by
  rw [forAllFiles]
  cases he : entry k' c with
  | none => rfl
  | some f =>
    have hne : (k'.fd f).dmd ≠ some m := by
      rw [hdmd]
      exact fun hd => hc f ⟨hentry ▸ he, hd⟩
    simp only
    rw [freeFile, if_pos hne]
    rfl

theorem freeFiles_run (todo : List Cell) (h : Freed k m done k')
    (hs : (done ++ todo).Pairwise fun a b => key a < key b) :
    ((∀ l c r, todo = l ++ c :: r → Sure k m (done ++ l) c) →
      ∃ k₁, forAllFiles (freeFile m) todo k' = .ok (k₁, 0) ∧ Freed k m (done ++ todo) k₁) ∧
    (∀ l c r, todo = l ++ c :: r → ¬ Sure k m (done ++ l) c →
      forAllFiles (freeFile m) todo k' = .error .stray) := by
  induction todo generalizing done k' with
  | nil =>
    constructor
    · intro _
      exact ⟨k', rfl, by rw [List.append_nil]; exact h⟩
    · intro l c r hl
      cases l <;> cases hl
  | cons c todo ih =>
    have hsplit : done ++ c :: todo = (done ++ [c]) ++ todo := by simp
    have hbefore : ∀ a ∈ done, key a < key c := by
      intro a ha
      exact (List.pairwise_append.mp hs).2.2 a ha c List.mem_cons_self
    have hnotin : c ∉ done := fun hin => Nat.lt_irrefl _ (hbefore c hin)
    have hnext : ∀ e, key e = key c + 1 → e ∉ done := by
      intro e he hin
      have := hbefore e hin
      omega
    rw [hsplit] at hs
    have hcons : ∀ l : List Cell, done ++ (c :: l) = (done ++ [c]) ++ l := by
      intro l
      simp
    by_cases hon : ∃ f, OnDrive k m c f
    · rcases hon with ⟨f, hf⟩
      have hentry : entry k' c = some f := by
        rw [h.kept c fun hin => absurd hin hnotin]
        exact hf.1
      have hstep := freeFile_spec h hnotin hnext hf
      constructor
      · intro hall
        rcases hstep.1 (by simpa using hall [] c todo rfl) with ⟨k₁, hk₁, hfreed⟩
        rcases (ih hfreed hs).1 (fun l e r hl => by
          have := hall (c :: l) e r (by rw [hl]; rfl)
          rw [hcons] at this
          exact this) with ⟨k₂, hk₂, hfreed₂⟩
        refine ⟨k₂, ?_, by rw [hsplit]; exact hfreed₂⟩
        rw [forAllFiles, hentry]
        simp only [hk₁]
        rw [if_neg (fun hne => hne rfl)]
        exact hk₂
      · intro l e r hl hsu
        rw [forAllFiles, hentry]
        by_cases hsure : Sure k m done c
        · rcases hstep.1 hsure with ⟨k₁, hk₁, hfreed⟩
          simp only [hk₁]
          rw [if_neg (fun hne => hne rfl)]
          cases l with
          | nil =>
            cases hl
            rw [List.append_nil] at hsu
            exact absurd hsure hsu
          | cons a l =>
            cases hl
            rw [hcons] at hsu
            exact (ih hfreed hs).2 l e r rfl hsu
        · simp only [hstep.2 hsure]
    · have hnone : ∀ f, ¬ OnDrive k m c f := fun f hf => hon ⟨f, hf⟩
      have hkeep : entry k' c = entry k c := h.kept c fun hin => absurd hin hnotin
      rw [freeFiles_pass hkeep h.dmd hnone]
      constructor
      · intro hall
        rw [hsplit]
        refine (ih (h.skip hnone) hs).1 fun l e r hl => ?_
        have := hall (c :: l) e r (by rw [hl]; rfl)
        rw [hcons] at this
        exact this
      · intro l e r hl hsu
        cases l with
        | nil =>
          cases hl
          exact absurd (fun f hf => absurd hf (hnone f)) hsu
        | cons a l =>
          cases hl
          rw [hcons] at hsu
          exact (ih (h.skip hnone) hs).2 l e r rfl hsu

theorem chkOfls_spec (cs : List Cell) :
    forAllFiles (chkOfl m) cs k = .ok (k, EACCDN) ∧ (∃ c ∈ cs, ∃ f, OnDrive k m c f) ∨
    forAllFiles (chkOfl m) cs k = .ok (k, 0) ∧ ∀ c ∈ cs, ∀ f, ¬ OnDrive k m c f := by
  induction cs with
  | nil => exact Or.inr ⟨rfl, fun c hc => absurd hc List.not_mem_nil⟩
  | cons c cs ih =>
    rw [forAllFiles]
    cases he : entry k c with
    | none =>
      have hnone : ∀ f, ¬ OnDrive k m c f := by
        intro f hf
        rw [hf.1] at he
        cases he
      rcases ih with ⟨hk, e, hein, hf⟩ | ⟨hk, hall⟩
      · exact Or.inl ⟨hk, e, List.mem_cons_of_mem _ hein, hf⟩
      · refine Or.inr ⟨hk, fun e hein f hf => ?_⟩
        rcases List.mem_cons.mp hein with rfl | hein
        · exact hnone f hf
        · exact hall e hein f hf
    | some f =>
      unfold chkOfl
      by_cases hd : (k.fd f).dmd = some m
      · refine Or.inl ⟨?_, c, List.mem_cons_self, f, he, hd⟩
        simp only [if_pos hd]
        rw [if_pos (by decide)]
      · simp only [if_neg hd]
        rw [if_neg (fun hne => hne rfl)]
        have hnone : ∀ g, ¬ OnDrive k m c g := by
          intro g hg
          have hgf : g = f := Option.some.inj (hg.1.symm.trans he)
          exact hd (hgf ▸ hg.2)
        rcases ih with ⟨hk, e, hein, hf⟩ | ⟨hk, hall⟩
        · exact Or.inl ⟨hk, e, List.mem_cons_of_mem _ hein, hf⟩
        · refine Or.inr ⟨hk, fun e hein f hf => ?_⟩
          rcases List.mem_cons.mp hein with rfl | hein
          · exact hnone f hf
          · exact hall e hein f hf

end

/-- What locking a drive is to find: no file is open on the drive that was given
up. -/
def Unlocked (k : Kernel) (act : Slot) (drv : Fin NUM_DRIVES) (drvClose : Int) : Prop :=
  ∀ m k', k.dmdx drv = some m → dlock k act drv drvClose = .ok (k', 0) →
    ∀ c f, entry k' c = some f → (k.fd f).dmd ≠ some m

/-- What a change of the disk is to do with the files: no entry of the drive is
left, every file of the drive has lost a reference for each of its entries and
has been closed once if none is left, and the other entries are as before. -/
def GivesUp (k : Kernel) (m : Nat) : Prop :=
  ∃ k' d0, freeFiles k m = .ok (k', d0) ∧
    (∀ c f, entry k' c = some f → (k.fd f).dmd ≠ some m) ∧
    (∀ f, (∃ c, OnDrive k m c f) →
      (k'.fd f).refcnt = (k.fd f).refcnt - BitVec.ofNat 16 (uses (entry k) (some f)) ∧
      closesOf k' f = closesOf k f ++ if (k'.fd f).refcnt = 0 then [(k.fd f).dev] else []) ∧
    (∀ c, (∀ f, ¬ OnDrive k m c f) → entry k' c = entry k c)

/-- A drive with open files has one below handle 24. -/
def Seen (k : Kernel) (m : Nat) : Prop :=
  (∃ c f, OnDrive k m c f) → ∃ c f, OnDrive k m c f ∧ hdlOf c.2 < 24

/-- The files of a drive are open below handle 24 only, are counted, and have
references elsewhere, or else the driver happens to be found behind the last
entry. -/
def Closable (k : Kernel) (m : Nat) : Prop :=
  ∀ f, (∃ c, OnDrive k m c f) →
    (∀ c, entry k c = some f → hdlOf c.2 < 24) ∧ (k.fd f).refcnt ≠ DEVICE ∧
    (uses (entry k) (some f) < (k.fd f).refcnt.toNat ∨
      uses (entry k) (some f) = (k.fd f).refcnt.toNat ∧
      ∀ c, entry k c = some f → (∀ e, entry k e = some f → key e ≤ key c) →
        behind k c = (k.fd f).dev)

section

variable {k : Kernel} {m : Nat} {c : Cell} {f : Nat}

theorem mem_walked_iff : c ∈ walked ↔ hdlOf c.2 < 24 := by
  have hmin : MIN_FHANDLE = -4 := rfl
  rw [mem_walked]
  unfold hdlOf
  omega

theorem dlock_seen {act : Slot} {drv : Fin NUM_DRIVES} {drvClose : Int} {k' : Kernel}
    (hm : k.dmdx drv = some m) (h : ∃ c f, OnDrive k m c f ∧ hdlOf c.2 < 24) :
    dlock k act drv drvClose ≠ .ok (k', 0) := by
  intro hdl
  rcases h with ⟨c, f, hf, hlt⟩
  unfold dlock at hdl
  by_cases hlock : (k.dlockx drv).isSome
  · rw [if_pos hlock] at hdl
    have hz : EACCDN = 0 := congrArg Prod.snd (Except.ok.inj hdl)
    exact absurd hz (by decide)
  · rw [if_neg hlock] at hdl
    simp only [setDlock_dmdx, hm] at hdl
    unfold chkOfls at hdl
    rcases chkOfls_spec (k := setDlock k drv (some act)) (m := m) walked with
      ⟨hk, _⟩ | ⟨_, hnone⟩
    · simp only [hk] at hdl
      rw [if_pos (by decide)] at hdl
      have hz : EACCDN = 0 := congrArg Prod.snd (Except.ok.inj hdl)
      exact absurd hz (by decide)
    · exact hnone c (mem_walked_iff.mpr hlt) f hf

theorem dlock_unseen (act : Slot) {drv : Fin NUM_DRIVES} {drvClose : Int}
    (hlock : k.dlockx drv = none) (hclose : 0 ≤ drvClose) (hm : k.dmdx drv = some m)
    (h : ∀ c f, OnDrive k m c f → ¬ hdlOf c.2 < 24) :
    ∃ k', dlock k act drv drvClose = .ok (k', 0) ∧ entry k' = entry k := by
  refine ⟨dropDrive (freePathx (setDlock k drv (some act)) act (some m)) drv, ?_, ?_⟩
  · unfold dlock
    rw [if_neg (by rw [hlock]; exact Bool.false_ne_true)]
    simp only [setDlock_dmdx, hm]
    unfold chkOfls
    rcases chkOfls_spec (k := setDlock k drv (some act)) (m := m) walked with
      ⟨_, c, hc, f, hf⟩ | ⟨hk, _⟩
    · exact absurd (mem_walked_iff.mp hc) (h c f hf)
    · simp only [hk]
      rw [if_neg (by decide), if_neg (by omega)]
  · rw [entry_dropDrive, entry_freePathx, entry_setDlock]

theorem dlock_kept {act : Slot} {drv : Fin NUM_DRIVES} {drvClose : Int} {k' : Kernel}
    (hm : k.dmdx drv = some m) (h : dlock k act drv drvClose = .ok (k', 0)) :
    k.dlockx drv = none ∧ 0 ≤ drvClose := by
  unfold dlock at h
  by_cases hlock : (k.dlockx drv).isSome
  · rw [if_pos hlock] at h
    have hz : EACCDN = 0 := congrArg Prod.snd (Except.ok.inj h)
    exact absurd hz (by decide)
  · refine ⟨Option.not_isSome_iff_eq_none.mp hlock, ?_⟩
    rw [if_neg hlock] at h
    simp only [setDlock_dmdx, hm] at h
    unfold chkOfls at h
    rcases chkOfls_spec (k := setDlock k drv (some act)) (m := m) walked with
      ⟨hk, _⟩ | ⟨hk, _⟩
    · simp only [hk] at h
      rw [if_pos (by decide)] at h
      have hz : EACCDN = 0 := congrArg Prod.snd (Except.ok.inj h)
      exact absurd hz (by decide)
    · simp only [hk] at h
      rw [if_neg (by decide)] at h
      by_contra hneg
      rw [if_pos (by omega)] at h
      have hz : drvClose = 0 := congrArg Prod.snd (Except.ok.inj h)
      omega

theorem unlocked_iff (act : Slot) (drv : Fin NUM_DRIVES) (drvClose : Int) :
    Unlocked k act drv drvClose ↔
      (k.dlockx drv = none → 0 ≤ drvClose → ∀ m, k.dmdx drv = some m → Seen k m) := by
  constructor
  · intro hun hlock hclose m hm hopen
    by_contra hno
    have hhigh : ∀ c f, OnDrive k m c f → ¬ hdlOf c.2 < 24 := fun c f hf hlt =>
      hno ⟨c, f, hf, hlt⟩
    rcases dlock_unseen act hlock hclose hm hhigh with ⟨k', hk', hentry⟩
    rcases hopen with ⟨c, f, hf⟩
    exact hun m k' hm hk' c f (by rw [hentry]; exact hf.1) hf.2
  · intro hall m k' hm hdl c f hentry hdmd
    rcases dlock_kept hm hdl with ⟨hlock, hclose⟩
    by_cases hopen : ∃ c f, OnDrive k m c f
    · exact dlock_seen hm (hall hlock hclose m hm hopen) hdl
    · have hhigh : ∀ c f, OnDrive k m c f → ¬ hdlOf c.2 < 24 := fun c f hf _ =>
        hopen ⟨c, f, hf⟩
      rcases dlock_unseen act hlock hclose hm hhigh with ⟨k₁, hk₁, hsame⟩
      rw [hk₁] at hdl
      have hk : k₁ = k' := congrArg Prod.fst (Except.ok.inj hdl)
      rw [← hk, hsame] at hentry
      exact hopen ⟨c, f, hentry, hdmd⟩

theorem held_walked (h : ∀ c, entry k c = some f → hdlOf c.2 < 24) :
    held k walked f = uses (entry k) (some f) :=
  (uses_eq_countP walked_nodup fun c hc => mem_walked_iff.mpr (h c hc)).symm

theorem held_pos {cs : List Cell} (hc : c ∈ cs) (h : entry k c = some f) : 0 < held k cs f :=
  List.countP_pos_iff.mpr ⟨c, hc, decide_eq_true h⟩

theorem refcnt_sub {r : BitVec 16} {n : Nat} (hn : n ≤ r.toNat) :
    (r - BitVec.ofNat 16 n).toNat = r.toNat - n := by
  rw [BitVec.toNat_sub, BitVec.toNat_ofNat, Nat.mod_eq_of_lt (by omega : n < 2 ^ 16)]
  omega

theorem held_split {l r : List Cell} (hl : walked = l ++ c :: r) (hc : entry k c = some f) :
    held k walked f = held k l f + 1 + held k r f := by
  unfold held
  rw [hl, List.countP_append, List.countP_cons]
  simp only [hc]
  simp
  omega

/-- The driver is found behind every entry where it is looked for. -/
def Runs (k : Kernel) (m : Nat) : Prop :=
  ∀ l c r, walked = l ++ c :: r → Sure k m l c

theorem freeFiles_ok (hsure : Runs k m) :
    ∃ k', freeFiles k m = .ok (k', 0) ∧ Freed k m walked k' := by
  have hrun := freeFiles_run walked (freed_start (k := k) (m := m)) walked_sorted
  simp only [List.nil_append] at hrun
  exact hrun.1 hsure

theorem runs_of_ok {p : Kernel × Int} (h : freeFiles k m = .ok p) : Runs k m := by
  have hrun := freeFiles_run walked (freed_start (k := k) (m := m)) walked_sorted
  simp only [List.nil_append] at hrun
  intro l c r hl
  by_contra hno
  have hbad := hrun.2 l c r hl hno
  unfold freeFiles at h
  rw [h] at hbad
  cases hbad

theorem Closable.runs (hcl : Closable k m) : Runs k m := by
  intro l c r hl f hf hor
  rcases hcl f ⟨c, hf⟩ with ⟨hlow, hdev, hcase⟩
  have hheld := held_walked hlow
  have hsum := held_split hl hf.1
  rcases hor with hor | hor
  · exact absurd hor hdev
  · rcases hcase with hlt | ⟨heq, hbehind⟩
    · omega
    · refine hbehind c hf.1 fun e he => ?_
      have hin := mem_walked_iff.mpr (hlow e he)
      have hsorted := walked_sorted
      rw [hl] at hin hsorted
      rcases List.mem_append.mp hin with hin | hin
      · exact Nat.le_of_lt ((List.pairwise_append.mp hsorted).2.2 e hin c List.mem_cons_self)
      · rcases List.mem_cons.mp hin with rfl | hin
        · exact Nat.le_refl _
        · have := held_pos hin he
          omega

/-- All that a file has lost are the entries the loop has come to, so these are all there are. -/
theorem Freed.low {k' : Kernel} (h : Freed k m walked k')
    (hcleared : ∀ c f, entry k' c = some f → (k.fd f).dmd ≠ some m) (hf : (k.fd f).dmd = some m)
    (hc : entry k c = some f) : hdlOf c.2 < 24 := by
  by_contra hhigh
  have hnot : c ∉ walked := fun hin => hhigh (mem_walked_iff.mp hin)
  have hkept := h.kept c fun hin => absurd hin hnot
  exact hcleared c f (hkept.trans hc) hf

/-- Behind the last entry of a file that is closed there its driver has been found. -/
theorem Runs.last (hsure : Runs k m) (hf : (k.fd f).dmd = some m) (hlow : hdlOf c.2 < 24)
    (hheld : held k walked f = (k.fd f).refcnt.toNat) (hc : entry k c = some f)
    (hlast : ∀ e, entry k e = some f → key e ≤ key c) : behind k c = (k.fd f).dev := by
  rcases List.append_of_mem (mem_walked_iff.mpr hlow) with ⟨l, r, hl⟩
  have hrest : held k r f = 0 := by
    refine List.countP_eq_zero.mpr fun e he hef => ?_
    have hsorted := walked_sorted
    rw [hl] at hsorted
    have hlt := (List.pairwise_cons.mp (List.pairwise_append.mp hsorted).2.1).1 e he
    have := hlast e (of_decide_eq_true hef)
    omega
  have hsum := held_split hl hc
  exact hsure l c r hl f ⟨hc, hf⟩ (Or.inr (by omega))

theorem GivesUp.closable (hg : GivesUp k m) : Closable k m := by
  intro f hopen
  rcases hg with ⟨k', d0, hk, hcleared, hfile, _⟩
  have hsure := runs_of_ok hk
  rcases freeFiles_ok hsure with ⟨k₁, hk₁, hfreed⟩
  rw [hk₁] at hk
  cases hk
  have href := (hfile f hopen).1
  rcases hopen with ⟨c₀, hc₀⟩
  have hlow : ∀ c, entry k c = some f → hdlOf c.2 < 24 := fun c hc =>
    hfreed.low hcleared hc₀.2 hc
  have hheld := held_walked hlow
  have hpos : 0 < uses (entry k) (some f) := uses_pos_iff.mpr ⟨c₀, hc₀.1⟩
  have hsmall := uses_small (k := k) (f := f)
  have hrlt := (k.fd f).refcnt.isLt
  have hmod := congrArg BitVec.toNat href
  rw [BitVec.toNat_sub, BitVec.toNat_ofNat,
    Nat.mod_eq_of_lt (by omega : uses (entry k) (some f) < 2 ^ 16)] at hmod
  have hdev : (k.fd f).refcnt ≠ DEVICE := by
    intro hd
    rw [hfreed.device f hd, hd] at hmod
    omega
  have hcount := hfreed.count f hc₀.2 hdev
  rw [hheld] at hcount
  refine ⟨hlow, hdev, ?_⟩
  by_cases hlt : uses (entry k) (some f) < (k.fd f).refcnt.toNat
  · exact Or.inl hlt
  · have heq : uses (entry k) (some f) = (k.fd f).refcnt.toNat := by omega
    exact Or.inr ⟨heq, fun c hc hlast =>
      hsure.last hc₀.2 (hlow c hc) (hheld.trans heq) hc hlast⟩

/-- No entry of the drive is left. -/
theorem Freed.gone {k' : Kernel} (h : Freed k m walked k') (hcl : Closable k m)
    (hc : entry k' c = some f) : (k.fd f).dmd ≠ some m := by
  intro hd
  by_cases he : entry k c = some f
  · have hin := mem_walked_iff.mpr ((hcl f ⟨c, he, hd⟩).1 c he)
    rw [h.cleared c hin f ⟨he, hd⟩] at hc
    cases hc
  · by_cases hany : c ∈ walked ∧ ∃ g, OnDrive k m c g
    · rcases hany with ⟨hin, g, hg⟩
      rw [h.cleared c hin g hg] at hc
      cases hc
    · rw [h.kept c fun hin g hg => hany ⟨hin, g, hg⟩] at hc
      exact he hc

/-- A file of the drive has lost all its entries, and has been closed if nothing else refers
to it. -/
theorem Freed.file {k' : Kernel} (h : Freed k m walked k') (hcl : Closable k m)
    (hopen : ∃ c, OnDrive k m c f) :
    (k'.fd f).refcnt = (k.fd f).refcnt - BitVec.ofNat 16 (uses (entry k) (some f)) ∧
      closesOf k' f = closesOf k f ++ if (k'.fd f).refcnt = 0 then [(k.fd f).dev] else [] := by
  rcases hcl f hopen with ⟨hlow, hdev, hcase⟩
  rcases hopen with ⟨c₀, hc₀⟩
  have hheld := held_walked hlow
  have hle : uses (entry k) (some f) ≤ (k.fd f).refcnt.toNat := by
    rcases hcase with hlt | heq
    · exact Nat.le_of_lt hlt
    · exact Nat.le_of_eq heq.1
  have hpos : 0 < uses (entry k) (some f) := uses_pos_iff.mpr ⟨c₀, hc₀.1⟩
  have hcount := h.count f hc₀.2 hdev
  have hcalls := h.calls f hc₀.2 hdev
  rw [hheld] at hcount hcalls
  have href : (k'.fd f).refcnt
      = (k.fd f).refcnt - BitVec.ofNat 16 (uses (entry k) (some f)) := by
    refine BitVec.eq_of_toNat_eq ?_
    rw [hcount, refcnt_sub hle]
  refine ⟨href, ?_⟩
  rw [hcalls]
  congr 1
  by_cases hz : (k'.fd f).refcnt = 0
  · have hzn := congrArg BitVec.toNat hz
    have hzz : (0 : BitVec 16).toNat = 0 := rfl
    rw [if_pos hz, if_pos (by omega)]
  · have hzn : (k'.fd f).refcnt.toNat ≠ 0 := fun h0 => hz (BitVec.eq_of_toNat_eq h0)
    rw [if_neg hz, if_neg (by omega)]

theorem givesUp_iff : GivesUp k m ↔ Closable k m := by
  constructor
  · exact GivesUp.closable
  · intro hcl
    rcases freeFiles_ok hcl.runs with ⟨k₁, hk₁, hfreed⟩
    exact ⟨k₁, 0, hk₁, fun c f hc => hfreed.gone hcl hc, fun f hopen => hfreed.file hcl hopen,
      fun c hc => hfreed.kept c fun _ => hc⟩

end

/-- When a drive is given up as it should be. Locking it goes wrong when the
files on it are open from handle 24 on only, the file system lets go of it and
nobody has locked it before. A change of the disk goes right with the files that
are open below handle 24 and have further references, or whose driver happens to
be found behind their last entry. -/
theorem givenup_iff (k : Kernel) (act : Slot) (drv : Fin NUM_DRIVES) (drvClose : Int) (m : Nat) :
    (Unlocked k act drv drvClose ↔
      (k.dlockx drv = none → 0 ≤ drvClose → ∀ m, k.dmdx drv = some m → Seen k m)) ∧
    (GivesUp k m ↔ Closable k m) :=
  ⟨unlocked_iff act drv drvClose, givesUp_iff⟩

/-- A file at handle 24 is open when the drive has been locked, and it is not
closed when the disk changes; one at handle 6 is not closed by its driver. -/
theorem oneFile_not_closed :
    ¬ Unlocked (oneFile 28) 0 2 0 ∧ ¬ GivesUp (oneFile 28) 1 ∧ ¬ GivesUp (oneFile 10) 1 := by
  have hentry := entry_oneFile_self
  have honly : ∀ (i : Fin HANDLES) (c : Cell) (f : Nat), entry (oneFile i) c = some f →
      c = (0, i) := fun i c f h => (entry_oneFile_some h).1
  have hhigh : ¬ hdlOf (28 : Fin HANDLES) < 24 := by decide
  refine ⟨?_, ?_, ?_⟩
  · rw [unlocked_iff]
    intro h
    rcases h rfl (by decide) 1 rfl ⟨(0, 28), 1, hentry 28, rfl⟩ with ⟨c, f, hf, hlt⟩
    rw [honly 28 c f hf.1] at hlt
    exact hhigh hlt
  · rw [givesUp_iff]
    intro h
    exact hhigh ((h 1 ⟨(0, 28), hentry 28, rfl⟩).1 (0, 28) (hentry 28))
  · rw [givesUp_iff]
    intro h
    rcases (h 1 ⟨(0, 10), hentry 10, rfl⟩).2.2 with hlt | ⟨_, hlast⟩
    · have hpos : 0 < uses (entry (oneFile 10)) (some 1) :=
        uses_pos_iff.mpr ⟨(0, 10), hentry 10⟩
      have hone : ((oneFile 10).fd 1).refcnt.toNat = 1 := rfl
      omega
    · -- The entry behind is empty, so that the driver is looked for at address zero.
      have hb := hlast (0, 10) (hentry 10) fun e he => by
        rw [honly 10 e 1 he]
      have hzero : behind (oneFile 10) (0, 10) = 0 := by
        unfold behind
        rw [dif_pos (by decide), entry_oneFile, if_neg (by decide)]
        rfl
      rw [hzero] at hb
      exact absurd hb (by decide)

end Dos

end MagiC
