import MagiC.Dos.Change
import MagiC.Dos.Frame

/-!
# The Counters of Open Files

The reference counter of a file descriptor is the number of entries of the
handle tables that hold it, and no entry holds a descriptor that has been closed
for the last time.

Every call is a sequence of exchanges: what an entry holds is replaced, the new
descriptor is counted and the old one closed. `Counted.swap` is one exchange.
Only `Fforce` closes the old descriptor before it counts the new one, which goes
wrong when both are the same and this is the only reference.

## Main definitions

* `perform`: A call, by a process.

## Theorems

* `run_counted`: The counters in every state of a run.
-/

namespace MagiC

namespace Dos

open Census

/-- The counters and the tables agree. -/
structure Counted (k : Kernel) : Prop where
  refs : ∀ f, (k.fd f).refcnt ≠ DEVICE → (k.fd f).refcnt.toNat = uses (entry k) (some f)
  live : ∀ c f, entry k c = some f → (k.fd f).opened = true

section

variable {k k' : Kernel} {c : Cell} {f g : Nat} {v : Option Nat}

theorem toNat_device_iff {r : BitVec 16} : r = DEVICE ↔ r.toNat = 65535 := by
  have hdev : DEVICE.toNat = 65535 := rfl
  rw [← hdev]
  exact ⟨congrArg BitVec.toNat, BitVec.eq_of_toNat_eq⟩

theorem toNat_add_one {r : BitVec 16} (h : r.toNat < 65535) : (r + 1).toNat = r.toNat + 1 := by
  have hone : (1 : BitVec 16).toNat = 1 := rfl
  rw [BitVec.toNat_add, hone, Nat.mod_eq_of_lt (by omega)]

theorem toNat_sub_one {r : BitVec 16} (h : r ≠ 0) : (r - 1).toNat = r.toNat - 1 := by
  have hone : (1 : BitVec 16).toNat = 1 := rfl
  have hr := r.isLt
  have hpos : r.toNat ≠ 0 := fun hz => h (BitVec.eq_of_toNat_eq hz)
  rw [BitVec.toNat_sub, hone]
  omega

theorem Counted.still (h : Counted k) (hentry : entry k' = entry k) (hfd : k'.fd = k.fd) :
    Counted k' where
  refs := by
    intro f hf
    rw [hfd] at hf ⊢
    rw [hentry]
    exact h.refs f hf
  live := by
    intro c f hc
    rw [hentry] at hc
    rw [hfd]
    exact h.live c f hc

/-- An entry is exchanged, and the counters with it. -/
theorem Counted.swap (hentry : entry k' = Function.update (entry k) c v)
    (hcount : ∀ e, (k'.fd e).refcnt ≠ DEVICE →
      (k'.fd e).refcnt.toNat + (if entry k c = some e then 1 else 0)
        = uses (entry k) (some e) + if v = some e then 1 else 0)
    (hlive : ∀ e, 0 < uses (entry k') (some e) → (k'.fd e).opened = true) : Counted k' where
  refs := by
    intro e he
    have huses := uses_update (entry k) c v (some e)
    have hcnt := hcount e he
    rw [hentry]
    omega
  live := by
    intro e f hef
    exact hlive f (uses_pos_iff.mpr ⟨e, hef⟩)

theorem countFd_other {e : Nat} (h : f ≠ e) : (countFd k f).fd e = k.fd e := by
  unfold countFd
  split
  · rfl
  · exact onFd_other (Ne.symm h) _

theorem countFd_opened (e : Nat) : ((countFd k f).fd e).opened = (k.fd e).opened := by
  by_cases he : f = e
  · rw [← he]
    unfold countFd
    split
    · rfl
    · rw [onFd_self]
  · rw [countFd_other he]

theorem countFd_device {e : Nat} (h : (k.fd e).refcnt = DEVICE) :
    ((countFd k f).fd e).refcnt = DEVICE := by
  by_cases he : f = e
  · rw [← he] at h ⊢
    unfold countFd
    rw [if_pos h]
    exact h
  · rw [countFd_other he]
    exact h

theorem countFd_toNat {e : Nat} (hdev : (k.fd e).refcnt ≠ DEVICE) :
    ((countFd k f).fd e).refcnt.toNat = (k.fd e).refcnt.toNat + if f = e then 1 else 0 := by
  by_cases he : f = e
  · rw [← he] at hdev ⊢
    have hlt : (k.fd f).refcnt.toNat < 65535 := by
      have hr := (k.fd f).refcnt.isLt
      have hne : (k.fd f).refcnt.toNat ≠ 65535 := fun hd => hdev (toNat_device_iff.mpr hd)
      omega
    unfold countFd
    rw [if_neg hdev, onFd_self, if_pos rfl]
    exact toNat_add_one hlt
  · rw [countFd_other he, if_neg he, Nat.add_zero]

theorem dropFd_other {e : Nat} (h : f ≠ e) : (dropFd k f).fd e = k.fd e := by
  unfold dropFd
  split
  · rfl
  · split
    · exact onFd_other (Ne.symm h) _
    · exact onFd_other (Ne.symm h) _

theorem dropFd_device {e : Nat} (h : (k.fd e).refcnt = DEVICE) :
    (dropFd k f).fd e = k.fd e := by
  by_cases he : f = e
  · rw [← he] at h ⊢
    unfold dropFd
    rw [if_pos h]
  · exact dropFd_other he

theorem dropFd_toNat {e : Nat} (hdev : (k.fd e).refcnt ≠ DEVICE)
    (hz : f = e → (k.fd e).refcnt ≠ 0) :
    ((dropFd k f).fd e).refcnt.toNat + (if f = e then 1 else 0) = (k.fd e).refcnt.toNat ∧
    (((dropFd k f).fd e).refcnt.toNat ≠ 0 → (k.fd e).opened = true →
      ((dropFd k f).fd e).opened = true) := by
  by_cases he : f = e
  · have hne := hz he
    rw [← he] at hdev hne ⊢
    have hpos : (k.fd f).refcnt.toNat ≠ 0 := fun h => hne (BitVec.eq_of_toNat_eq h)
    have hsub := toNat_sub_one hne
    unfold dropFd
    rw [if_neg hdev, if_neg hne, onFd_self, if_pos rfl]
    refine ⟨by simp only [hsub]; omega, fun hleft hopen => ?_⟩
    have hleft' : (k.fd f).refcnt - 1 ≠ 0 := fun h => hleft (congrArg BitVec.toNat h)
    simp only [hopen, Bool.true_and]
    exact decide_eq_true hleft'
  · rw [dropFd_other he, if_neg he]
    exact ⟨Nat.add_zero _, fun _ hopen => hopen⟩

theorem devClose_fd : (devClose k f).fd = (dropFd k f).fd := rfl

theorem Counted.held (h : Counted k) (hc : entry k c = some f)
    (hdev : (k.fd f).refcnt ≠ DEVICE) : (k.fd f).refcnt ≠ 0 := by
  have hrefs := h.refs f hdev
  have hpos : 0 < uses (entry k) (some f) := uses_pos_iff.mpr ⟨c, hc⟩
  intro hz
  have hzn := congrArg BitVec.toNat hz
  have hzz : (0 : BitVec 16).toNat = 0 := rfl
  omega

theorem Counted.small (h : Counted k) (hdev : (k.fd f).refcnt ≠ DEVICE) :
    (k.fd f).refcnt.toNat ≤ 9216 := by
  rw [h.refs f hdev]
  exact uses_small

section

variable {pd : Pd} (h : Counted k) (hp : k.procx c.1 = some pd)

include h hp

theorem Counted.exchange (hc : entry k c = some g) (hv : ∀ f, v = some f → (k.fd f).opened = true) :
    Counted (devClose (setEntry (countOpt k v) c v) g) := by
  have hproc : (countOpt k v).procx = k.procx := by
    cases v with
    | none => rfl
    | some f =>
      show (countFd k f).procx = k.procx
      unfold countFd
      split <;> rfl
  have hsame : entry (countOpt k v) = entry k := by
    cases v with
    | none => rfl
    | some f => exact entry_countFd
  have hentry : entry (devClose (setEntry (countOpt k v) c v) g)
      = Function.update (entry k) c v := by
    rw [entry_devClose, entry_setEntry (by rw [hproc]; exact hp), hsame]
  obtain ⟨j, hj⟩ : ∃ j, j = setEntry (countOpt k v) c v := ⟨_, rfl⟩
  -- What is counted and what is open before the old descriptor is closed.
  have hdev : ∀ e, (k.fd e).refcnt = DEVICE → (j.fd e).refcnt = DEVICE := by
    intro e he
    rw [hj]
    cases v with
    | none => exact he
    | some f => exact countFd_device he
  have hnat : ∀ e, (k.fd e).refcnt ≠ DEVICE →
      (j.fd e).refcnt.toNat = (k.fd e).refcnt.toNat + if v = some e then 1 else 0 := by
    intro e he
    rw [hj]
    cases v with
    | none => simp [countOpt]
    | some f =>
      have hcnt := countFd_toNat (f := f) he
      simp only [Option.some.injEq]
      exact hcnt
  have hopen : ∀ e, (j.fd e).opened = (k.fd e).opened := by
    intro e
    rw [hj]
    cases v with
    | none => rfl
    | some f => exact countFd_opened e
  have hjdev : ∀ e, (k.fd e).refcnt ≠ DEVICE → (j.fd e).refcnt ≠ DEVICE := by
    intro e he hje
    have hn := hnat e he
    have hs := h.small he
    rw [toNat_device_iff] at hje
    split at hn <;> omega
  have hjz : ∀ e, (k.fd e).refcnt ≠ DEVICE → g = e → (j.fd e).refcnt ≠ 0 := by
    intro e he hge hz
    have hn := hnat e he
    have hheld := h.held (hge ▸ hc) he
    have hzn := congrArg BitVec.toNat hz
    have hzz : (0 : BitVec 16).toNat = 0 := rfl
    have hpos : (k.fd e).refcnt.toNat ≠ 0 := fun h0 => hheld (BitVec.eq_of_toNat_eq h0)
    split at hn <;> omega
  rw [← hj] at hentry ⊢
  refine Counted.swap (k := k) (c := c) (v := v) hentry ?_ ?_
  · intro e he
    rw [devClose_fd] at he ⊢
    have hke : (k.fd e).refcnt ≠ DEVICE := by
      intro hk
      rw [dropFd_device (hdev e hk)] at he
      exact he (hdev e hk)
    have hdrop := (dropFd_toNat (hjdev e hke) (hjz e hke)).1
    have hn := hnat e hke
    have hrefs := h.refs e hke
    rw [hc]
    simp only [Option.some.injEq]
    omega
  · intro e he
    rw [devClose_fd]
    have hwas : (k.fd e).opened = true := by
      rw [hentry] at he
      rcases uses_pos_iff.mp he with ⟨i, hi⟩
      by_cases hic : i = c
      · rw [hic, Function.update_self] at hi
        exact hv e hi
      · rw [Function.update_of_ne hic] at hi
        exact h.live i e hi
    by_cases hk : (k.fd e).refcnt = DEVICE
    · rw [dropFd_device (hdev e hk), hopen e]
      exact hwas
    · have hdrop := dropFd_toNat (hjdev e hk) (hjz e hk)
      refine hdrop.2 ?_ (by rw [hopen e]; exact hwas)
      -- Entries are left, so the counter is not zero.
      have hn := hnat e hk
      have hrefs := h.refs e hk
      have huses := uses_update (entry k) c v (some e)
      rw [hentry] at he
      rw [hc] at huses
      simp only [Option.some.injEq] at huses
      omega

theorem Counted.take (hfree : entry k c = none) (hopen : (k.fd f).opened = true) :
    Counted (countFd (setEntry k c (some f)) f) := by
  have hset := entry_setEntry hp (some f)
  have hentry : entry (countFd (setEntry k c (some f)) f)
      = Function.update (entry k) c (some f) := by rw [entry_countFd, hset]
  refine Counted.swap (k := k) (c := c) (v := some f) hentry ?_ ?_
  · intro e he
    have hke : ((setEntry k c (some f)).fd e).refcnt ≠ DEVICE := fun hk => he (countFd_device hk)
    have hcnt := countFd_toNat (f := f) hke
    have hrefs := h.refs e hke
    rw [setEntry_fd] at hcnt
    rw [hfree, if_neg (by simp)]
    simp only [Option.some.injEq]
    omega
  · intro e he
    rw [countFd_opened]
    rw [hentry] at he
    rcases uses_pos_iff.mp he with ⟨i, hi⟩
    by_cases hic : i = c
    · rw [hic, Function.update_self] at hi
      rw [← Option.some.inj hi]
      exact hopen
    · rw [Function.update_of_ne hic] at hi
      exact h.live i e hi

theorem Counted.redirect (hc : entry k c = some g) (hopen : (k.fd f).opened = true)
    (hlast : f = g → (k.fd f).refcnt ≠ 1) :
    Counted (countFd (setEntry (devClose k g) c (some f)) f) := by
  have hproc : (devClose k g).procx = k.procx := by
    show (dropFd k g).procx = k.procx
    unfold dropFd
    split
    · rfl
    · split <;> rfl
  have hentry : entry (countFd (setEntry (devClose k g) c (some f)) f)
      = Function.update (entry k) c (some f) := by
    rw [entry_countFd, entry_setEntry (by rw [hproc]; exact hp), entry_devClose]
  have hfd : (setEntry (devClose k g) c (some f)).fd = (dropFd k g).fd := rfl
  have hz : ∀ e, (k.fd e).refcnt ≠ DEVICE → g = e → (k.fd e).refcnt ≠ 0 := fun e he hge =>
    h.held (hge ▸ hc) he
  have hjdev : ∀ e, (k.fd e).refcnt ≠ DEVICE → ((dropFd k g).fd e).refcnt ≠ DEVICE := by
    intro e he hd
    have hdrop := (dropFd_toNat he (hz e he)).1
    have hs := h.small he
    rw [toNat_device_iff] at hd
    omega
  have hkdev : ∀ e, ((countFd (setEntry (devClose k g) c (some f)) f).fd e).refcnt ≠ DEVICE →
      (k.fd e).refcnt ≠ DEVICE := by
    intro e he hk
    refine he (countFd_device ?_)
    rw [hfd, dropFd_device hk]
    exact hk
  refine Counted.swap (k := k) (c := c) (v := some f) hentry ?_ ?_
  · intro e he
    have hke := hkdev e he
    have hcnt := countFd_toNat (k := setEntry (devClose k g) c (some f)) (f := f) (e := e)
      (by rw [hfd]; exact hjdev e hke)
    have hdrop := (dropFd_toNat hke (hz e hke)).1
    have hrefs := h.refs e hke
    rw [hfd] at hcnt
    rw [hc]
    simp only [Option.some.injEq]
    omega
  · intro e he
    rw [countFd_opened, hfd]
    rw [hentry] at he
    by_cases hk : (k.fd e).refcnt = DEVICE
    · rw [dropFd_device hk]
      rcases uses_pos_iff.mp he with ⟨i, hi⟩
      by_cases hic : i = c
      · rw [hic, Function.update_self] at hi
        rw [← Option.some.inj hi]
        exact hopen
      · rw [Function.update_of_ne hic] at hi
        exact h.live i e hi
    · have hdrop := dropFd_toNat hk (hz e hk)
      have hrefs := h.refs e hk
      have huses := uses_update (entry k) c (some f) (some e)
      rw [hc] at huses
      simp only [Option.some.injEq] at huses
      by_cases hfe : f = e
      · rw [← hfe] at hdrop hk hrefs huses ⊢
        by_cases hgf : g = f
        · -- The same descriptor: it is still counted when it is closed.
          have hne : (k.fd f).refcnt.toNat ≠ 1 := fun hone =>
            hlast hgf.symm (BitVec.eq_of_toNat_eq hone)
          have hnz := hz f hk hgf
          have hpos : (k.fd f).refcnt.toNat ≠ 0 := fun h0 => hnz (BitVec.eq_of_toNat_eq h0)
          rw [if_pos hgf] at hdrop
          exact hdrop.2 (by omega) hopen
        · rw [dropFd_other hgf]
          exact hopen
      · rw [if_neg hfe] at huses
        have hwas : (k.fd e).opened = true := by
          rcases uses_pos_iff.mp he with ⟨i, hi⟩
          have hic : i ≠ c := by
            intro hic
            rw [hic, Function.update_self] at hi
            exact hfe (Option.some.inj hi)
          rw [Function.update_of_ne hic] at hi
          exact h.live i e hi
        exact hdrop.2 (by omega) hwas

theorem Counted.redirect_last (hc : entry k c = some f) (hone : (k.fd f).refcnt = 1) :
    ¬ Counted (countFd (setEntry (devClose k f) c (some f)) f) := by
  intro hcon
  have hproc : (devClose k f).procx = k.procx := by
    show (dropFd k f).procx = k.procx
    unfold dropFd
    split
    · rfl
    · split <;> rfl
  have hentry : entry (countFd (setEntry (devClose k f) c (some f)) f) c = some f := by
    rw [entry_countFd, entry_setEntry (by rw [hproc]; exact hp), Function.update_self]
  have hlive := hcon.live c f hentry
  have hfd : (setEntry (devClose k f) c (some f)).fd = (dropFd k f).fd := rfl
  have hdev : (k.fd f).refcnt ≠ DEVICE := by
    rw [hone]
    decide
  have hz : (k.fd f).refcnt ≠ 0 := h.held hc hdev
  rw [countFd_opened, hfd] at hlive
  unfold dropFd at hlive
  rw [if_neg hdev, if_neg hz, onFd_self, hone] at hlive
  simp at hlive

end

theorem hdlToFD_some {act : Slot} {hdl : Int} {i : Fin HANDLES}
    (h : hdlToFD k act hdl = some (i, f)) : entry k (act, i) = some f := by
  unfold hdlToFD at h
  split at h
  · cases h
  · next l _ =>
    cases he : entry k (act, l) with
    | none =>
      rw [he] at h
      cases h
    | some g =>
      rw [he] at h
      cases h
      exact he

theorem newHdlFrom_some {act : Slot} {i j : Fin HANDLES} (h : newHdlFrom k act i = some (k', j)) :
    entry k (act, j) = none ∧ entry k' = entry k ∧ k'.fd = k.fd ∧
      ∀ pd, k.procx act = some pd → ∃ pd', k'.procx act = some pd' := by
  unfold newHdlFrom at h
  split at h
  · cases h
  · next l hl =>
    have hfree : entry k (act, l) = none := by
      have := List.find?_some hl
      simp only [Bool.and_eq_true, decide_eq_true_eq] at this
      exact this.2
    split at h
    · cases h
      exact ⟨hfree, entry_setFlag 1, rfl, fun pd hpd => onPd_procx hpd act _⟩
    · cases h
      exact ⟨hfree, rfl, rfl, fun pd hpd => ⟨pd, hpd⟩⟩

theorem Counted.dup {act : Slot} {i j l : Fin HANDLES} (h : Counted k)
    (hf : entry k (act, i) = some f) (hnew : newHdlFrom k act j = some (k', l)) :
    Counted (countFd (setEntry k' (act, l) (some f)) f) := by
  rcases procx_of_entry hf with ⟨pd, hpd⟩
  rcases newHdlFrom_some hnew with ⟨hfree, hentry, hfd, hproc⟩
  rcases hproc pd hpd with ⟨pd', hpd'⟩
  have hk' := h.still hentry hfd
  refine hk'.take hpd' (by rw [hentry]; exact hfree) ?_
  rw [hfd]
  exact h.live _ _ hf

theorem fdup_counted {act : Slot} (h : Counted k) (hdl : Int) :
    Counted (fdup k act hdl).1 := by
  unfold fdup
  split
  · exact h
  · next hf =>
    split
    · exact h
    · next hnew => exact h.dup (hdlToFD_some hf) hnew

theorem fcntlDup_counted {act : Slot} (h : Counted k) (hdl least : Int) :
    Counted (fcntlDup k act hdl least).1 := by
  unfold fcntlDup
  split
  · exact h
  · next hf =>
    split
    · split
      · exact h
      · split
        · exact h
        · next hnew => exact h.dup (hdlToFD_some hf) hnew
    · exact h

theorem fcntlSetfd_counted {act : Slot} (h : Counted k) (hdl : Int) (w : BitVec 16) :
    Counted (fcntlSetfd k act hdl w).1 := by
  unfold fcntlSetfd
  split
  · exact h
  · exact h.still (entry_setFlag w) rfl

theorem fclose_counted {act : Slot} (h : Counted k) (hdl : Int) :
    Counted (fclose k act hdl).1 := by
  unfold fclose
  split
  · exact h
  · split
    · exact h
    · next hf =>
      have hc := hdlToFD_some hf
      rcases procx_of_entry hc with ⟨pd, hpd⟩
      refine h.exchange hpd hc fun e he => ?_
      -- What a standard handle goes back to is open under the handle of its device.
      unfold closed at he
      split at he
      · cases he
      · split at he
        · cases he
        · exact h.live _ _ he

/-- Redirecting a handle keeps the counters, unless both handles hold the same
descriptor and nothing else does. -/
theorem fforce_counted {act : Slot} (h : Counted k) (stdhdl nstdhdl : Int) :
    Counted (fforce k act stdhdl nstdhdl).1 ↔
      ∀ i j f, hdlToFD k act stdhdl = some (i, f) → hdlToFD k act nstdhdl = some (j, f) →
        (k.fd f).refcnt ≠ 1 := by
  unfold fforce
  cases hn : hdlToFD k act nstdhdl with
  | none => exact ⟨fun _ i j f _ hf => (by cases hf), fun _ => h⟩
  | some jf =>
    cases hs : hdlToFD k act stdhdl with
    | none => exact ⟨fun _ i j f hf => (by cases hf), fun _ => h⟩
    | some ig =>
      rcases jf with ⟨j, f⟩
      rcases ig with ⟨i, g⟩
      have hc := hdlToFD_some hs
      rcases procx_of_entry hc with ⟨pd, hpd⟩
      simp only
      constructor
      · intro hcounted i' j' e hi hj hone
        cases hi
        cases hj
        exact h.redirect_last hpd hc hone hcounted
      · intro hne
        refine h.redirect hpd hc (h.live _ _ (hdlToFD_some hn)) fun hfg => ?_
        subst hfg
        exact hne i j f rfl rfl

theorem inherit_counted (parent : Slot) {child : Slot} {i : Fin HANDLES} (h : Counted k)
    (hfree : entry k (child, i) = none) :
    Counted (inherit k parent child i) ∧
      ∀ j, j ≠ i → entry (inherit k parent child i) (child, j) = entry k (child, j) := by
  unfold inherit
  split
  · next pd g hpd hg =>
    split
    · exact ⟨h, fun _ _ => rfl⟩
    · split
      · exact ⟨h, fun _ _ => rfl⟩
      · -- The counter is raised before the entry is stored; the order does not matter.
        have hproc : (countFd k g).procx = k.procx := by
          unfold countFd
          split <;> rfl
        have hset := entry_setEntry (k := countFd k g) (c := (child, i))
          (by rw [hproc]; exact hpd) (some g)
        have htake := h.take (c := (child, i)) hpd hfree (h.live _ _ hg)
        have hfd : (countFd (setEntry k (child, i) (some g)) g).fd = (countFd k g).fd := by
          unfold countFd
          rw [setEntry_fd]
          by_cases hd : (k.fd g).refcnt = DEVICE
          · rw [if_pos hd, if_pos hd, setEntry_fd]
          · rw [if_neg hd, if_neg hd]
            rfl
        refine ⟨htake.still ?_ hfd.symm, fun j hj => ?_⟩
        · rw [entry_setFlag, hset, entry_countFd, entry_countFd, entry_setEntry hpd]
        · have hne : (child, j) ≠ (child, i) := fun he => hj (congrArg Prod.snd he)
          rw [entry_setFlag, hset, entry_countFd, Function.update_of_ne hne]
  · exact ⟨h, fun _ _ => rfl⟩

theorem initHandles_counted (parent : Slot) {child : Slot} (h : Counted k)
    (hempty : ∀ i, entry k (child, i) = none) : Counted (initHandles k parent child) := by
  unfold initHandles
  have hnodup : (List.finRange HANDLES).Nodup := List.nodup_finRange HANDLES
  have hfree : ∀ i ∈ List.finRange HANDLES, entry k (child, i) = none := fun i _ => hempty i
  generalize List.finRange HANDLES = l at hnodup hfree
  clear hempty
  induction l generalizing k with
  | nil => exact h
  | cons i l ih =>
    have hstep := inherit_counted parent h (hfree i List.mem_cons_self)
    rw [List.foldl_cons]
    refine ih hstep.1 (List.nodup_cons.mp hnodup).2 fun j hj => ?_
    have hji : j ≠ i := fun hji => (List.nodup_cons.mp hnodup).1 (hji ▸ hj)
    rw [hstep.2 j hji]
    exact hfree j (List.mem_cons_of_mem _ hj)

theorem killHandle_counted {p : Slot} {i : Fin HANDLES} (h : Counted k) :
    Counted (killHandle k p i) ∧
      entry (killHandle k p i) = Function.update (entry k) (p, i) none := by
  unfold killHandle
  cases hc : entry k (p, i) with
  | none => exact ⟨h, (Function.update_eq_self_iff.mpr hc.symm).symm⟩
  | some f =>
    rcases procx_of_entry hc with ⟨pd, hpd⟩
    refine ⟨h.exchange (v := none) hpd hc fun e he => (by cases he), ?_⟩
    rw [entry_devClose, entry_setEntry hpd]

theorem killHandles_counted {p : Slot} (h : Counted k) :
    Counted (killHandles k p) ∧ ∀ i, entry (killHandles k p) (p, i) = none := by
  have hgen : ∀ (l : List (Fin HANDLES)) (k : Kernel), Counted k →
      Counted (l.foldl (fun k i => killHandle k p i) k) ∧
      ∀ i, (i ∈ l ∨ entry k (p, i) = none) →
        entry (l.foldl (fun k i => killHandle k p i) k) (p, i) = none := by
    intro l
    induction l with
    | nil =>
      intro k hk
      refine ⟨hk, fun i hi => ?_⟩
      rcases hi with hi | hi
      · exact absurd hi List.not_mem_nil
      · exact hi
    | cons i l ih =>
      intro k hk
      have hstep := killHandle_counted (p := p) (i := i) hk
      rw [List.foldl_cons]
      rcases ih _ hstep.1 with ⟨hcounted, hnone⟩
      refine ⟨hcounted, fun j hj => hnone j ?_⟩
      by_cases hji : j = i
      · right
        rw [hstep.2, hji, Function.update_self]
      · rcases hj with hj | hj
        · exact Or.inl (List.mem_of_ne_of_mem hji hj)
        · right
          have hne : (p, j) ≠ (p, i) := fun he => hji (congrArg Prod.snd he)
          rw [hstep.2, Function.update_of_ne hne]
          exact hj
  rcases hgen (List.finRange HANDLES) k h with ⟨hcounted, hnone⟩
  exact ⟨hcounted, fun i => hnone i (Or.inl (List.mem_finRange i))⟩

theorem opened_procx {j : Kernel} {f : Nat} {new : Fd} : (opened j f new).procx = j.procx := by
  unfold opened countFd
  split
  · split <;> rfl
  · rfl

theorem entry_opened {j : Kernel} {f : Nat} {new : Fd} : entry (opened j f new) = entry j := by
  unfold opened
  split
  · exact entry_countFd
  · rfl

theorem opened_other {j : Kernel} {f e : Nat} {new : Fd} (hfe : f ≠ e) :
    (opened j f new).fd e = j.fd e := by
  unfold opened
  split
  · exact countFd_other hfe
  · exact onFd_other (Ne.symm hfe) _

theorem opened_self {j : Kernel} {f : Nat} {new : Fd} : ((opened j f new).fd f).opened = true := by
  unfold opened
  by_cases hop : (j.fd f).opened
  · rw [if_pos hop, countFd_opened]
    exact hop
  · rw [if_neg hop, onFd_self]

/-- A descriptor that is new is held by no entry. -/
theorem opened_refs {j : Kernel} {f n : Nat} {new : Fd}
    (hrefs : (j.fd f).refcnt ≠ DEVICE → (j.fd f).refcnt.toNat = n)
    (hnone : (j.fd f).opened = false → n = 0)
    (hd : ((opened j f new).fd f).refcnt ≠ DEVICE) :
    ((opened j f new).fd f).refcnt.toNat = n + 1 := by
  unfold opened at hd ⊢
  by_cases hop : (j.fd f).opened
  · rw [if_pos hop] at hd ⊢
    have hk : (j.fd f).refcnt ≠ DEVICE := fun he => hd (countFd_device he)
    rw [countFd_toNat hk, hrefs hk, if_pos rfl]
  · rw [if_neg hop, onFd_self] at hd ⊢
    simp only at hd ⊢
    split at hd
    · exact absurd rfl hd
    · rw [if_neg (by assumption), hnone (by simpa using hop)]
      rfl

theorem fopen_counted {x : Xfs} {fuel n : Nat} {act : Slot} {path : List Char} {pd : Pd}
    {r : Kernel × Int} (h : Counted k) (hp : k.procx act = some pd)
    (hr : fopen x fuel act k n path = some r) : Counted r.1 := by
  unfold fopen at hr
  split at hr
  · cases hr
    exact h
  · next k₁ i hnew =>
    rcases newHdlFrom_some hnew with ⟨hfree, hentry, hfd, hproc⟩
    rcases hproc pd hp with ⟨pd', hpd'⟩
    obtain ⟨nul, hnul⟩ : ∃ nul, nul = k₁.devFds 0 := ⟨_, rfl⟩
    rw [← hnul] at hr
    have hreserved := entry_setEntry (c := (act, i)) hpd' (some nul)
    have hres := onPd_procx hpd' act fun pd =>
      { pd with handle := Function.update pd.handle i ⟨some nul, (pd.handle i).flag⟩ }
    rcases hres with ⟨pd₁, hpd₁⟩
    split at hr
    · cases hr
    · next k₂ n₂ f ho =>
      cases hr
      rcases fopTagain_still ho with ⟨j, new, hj, hopened⟩
      have hjfd : j.fd = k.fd := by rw [hj.fd, setEntry_fd, hfd]
      have hproc₂ : k₂.procx act = some pd₁ := by
        rw [hopened.procx, opened_procx, hj.procx]
        exact hpd₁
      have hentry₂ : entry (setEntry k₂ (act, i) (some f))
          = Function.update (entry k) (act, i) (some f) := by
        rw [entry_setEntry (by exact hproc₂), hopened.entry, entry_opened, hj.entry, hreserved,
          hentry, Function.update_idem]
      have hother : ∀ e, f ≠ e → (k₂.fd e) = k.fd e := by
        intro e hfe
        rw [hopened.fd, opened_other hfe, hjfd]
      refine Counted.swap (k := k) hentry₂ ?_ ?_
      · intro e he
        rw [setEntry_fd] at he ⊢
        rw [hfree, if_neg (by simp)]
        simp only [Option.some.injEq]
        by_cases hfe : f = e
        · rw [← hfe] at he ⊢
          rw [hopened.fd] at he ⊢
          rw [Nat.add_zero, if_pos rfl]
          refine opened_refs (fun hk => ?_) (fun hop => ?_) he
          · rw [hjfd] at hk ⊢
            exact h.refs f hk
          · refine uses_eq_zero fun c hc => ?_
            rw [hjfd, h.live c f hc] at hop
            cases hop
        · rw [hother e hfe] at he ⊢
          have hrefs := h.refs e he
          rw [if_neg hfe]
          omega
      · intro e he
        rw [setEntry_fd]
        rw [hentry₂] at he
        by_cases hfe : f = e
        · rw [← hfe, hopened.fd]
          exact opened_self
        · rw [hother e hfe]
          rcases uses_pos_iff.mp he with ⟨c, hc⟩
          by_cases hci : c = (act, i)
          · rw [hci, Function.update_self] at hc
            exact absurd (Option.some.inj hc) hfe
          · rw [Function.update_of_ne hci] at hc
            exact h.live c e hc
    · next k₂ n₂ e last ho =>
      cases hr
      have hstill : Still _ k₂ := fopTagain_still ho
      have hproc₂ : k₂.procx act = some pd₁ := by
        rw [hstill.procx]
        exact hpd₁
      refine h.still ?_ ?_
      · rw [entry_setEntry (by exact hproc₂), hstill.entry, hreserved, hentry,
          Function.update_idem, ← hfree, Function.update_eq_self]
      · rw [setEntry_fd, hstill.fd, setEntry_fd, hfd]

theorem inheritPath_files (parent child : Slot) (d : Fin NUM_DRIVES) :
    entry (inheritPath k parent child d) = entry k ∧
      (inheritPath k parent child d).fd = k.fd := by
  unfold inheritPath
  simp only
  split
  · exact ⟨entry_setDrvx _ _ _, rfl⟩
  · split
    · exact ⟨entry_setDrvx _ _ _, rfl⟩
    · exact ⟨entry_setDrvx _ _ _, rfl⟩

theorem killPath_files (p : Slot) (d : Fin NUM_DRIVES) :
    entry (killPath k p d) = entry k ∧ (killPath k p d).fd = k.fd := by
  unfold killPath
  simp only
  split
  · exact ⟨rfl, rfl⟩
  · split
    · exact ⟨rfl, rfl⟩
    · exact ⟨(still_unlockReldir _).entry, (still_unlockReldir _).fd⟩

theorem initPaths_files (parent child : Slot) :
    entry (initPaths k parent child) = entry k ∧ (initPaths k parent child).fd = k.fd :=
  ⟨foldl_keeps entry (fun _ d => (inheritPath_files parent child d).1) _ _,
    foldl_keeps Kernel.fd (fun _ d => (inheritPath_files parent child d).2) _ _⟩

theorem killPaths_files (p : Slot) :
    entry (killPaths k p) = entry k ∧ (killPaths k p).fd = k.fd :=
  ⟨foldl_keeps entry (fun _ d => (killPath_files p d).1) _ _,
    foldl_keeps Kernel.fd (fun _ d => (killPath_files p d).2) _ _⟩

theorem initPd_counted {parent child : Slot} (h : Counted k) (hfree : k.procx child = none)
    (pd : Pd) : Counted (initPd k parent child pd) := by
  unfold initPd
  simp only
  obtain ⟨pd', hpd'⟩ : ∃ pd', pd' = { pd with
      drvx := fun _ => 0, handle := fun _ => Fh.empty } := ⟨_, rfl⟩
  rw [← hpd']
  obtain ⟨k₁, hk₁⟩ : ∃ k₁, k₁ = { k with procx := Function.update k.procx child (some pd') } :=
    ⟨_, rfl⟩
  rw [← hk₁]
  have hempty : ∀ i, entry k₁ (child, i) = none := by
    intro i
    rw [hk₁, hpd']
    unfold entry
    simp [Fh.empty]
  have hentry : entry k₁ = entry k := by
    funext c
    by_cases hc : c.1 = child
    · have hnone : entry k c = none := by
        unfold entry
        rw [hc, hfree]
      have hcc : c = (child, c.2) := Prod.ext hc rfl
      rw [hnone, hcc]
      exact hempty c.2
    · rw [hk₁]
      unfold entry
      simp [Function.update_of_ne hc]
  have hk₁c : Counted k₁ := h.still hentry (by rw [hk₁])
  have hhandles := initHandles_counted parent hk₁c hempty
  have hpaths := initPaths_files (k := initHandles k₁ parent child) parent child
  refine hhandles.still ((entry_onPd child ?_).trans hpaths.1) ((onPd_fd child _).trans hpaths.2)
  intro pd
  rfl

theorem pdKill_counted {p : Slot} (h : Counted k) : Counted (pdKill k p) := by
  unfold pdKill
  simp only
  have hadj : Counted (adjustParents k p) := by
    refine h.still ?_ rfl
    funext c
    unfold entry adjustParents
    cases hc : k.procx c.1 with
    | none => simp [hc]
    | some pd =>
      simp only [hc, Option.map_some]
      split <;> rfl
  rcases killHandles_counted (p := p) hadj with ⟨hcounted, hnone⟩
  have hfiles := killPaths_files (k := killHandles (adjustParents k p) p) p
  obtain ⟨j, hj⟩ : ∃ j, j = killPaths (killHandles (adjustParents k p) p) p := ⟨_, rfl⟩
  rw [← hj] at hfiles ⊢
  rcases hfiles with ⟨hentry, hfd⟩
  refine hcounted.still ?_ hfd
  rw [← hentry]
  funext c
  by_cases hc : c.1 = p
  · have hcc : c = (p, c.2) := Prod.ext hc rfl
    have hz : entry j c = none := by
      rw [hentry, hcc]
      exact hnone c.2
    rw [hz]
    unfold entry
    simp [hc]
  · unfold entry
    simp [Function.update_of_ne hc]

end

/-- The calls on handles. -/
inductive Handling
  | fopen (x : Xfs) (fuel n : Nat) (path : List Char)
  | fdup (hdl : Int)
  | fcntlDup (hdl least : Int)
  | fcntlSetfd (hdl : Int) (w : BitVec 16)
  | fforce (stdhdl nstdhdl : Int)
  | fclose (hdl : Int)
  | initPd (child : Slot) (pd : Pd)
  | pdKill (p : Slot)

/-- A call, by a process that is there. A new process gets a free slot. -/
def perform (k : Kernel) (act : Slot) (c : Handling) : Option Kernel :=
  if (k.procx act).isSome then
    match c with
    | .fopen x fuel n path => (fopen x fuel act k n path).map Prod.fst
    | .fdup hdl => some (fdup k act hdl).1
    | .fcntlDup hdl least => some (fcntlDup k act hdl least).1
    | .fcntlSetfd hdl w => some (fcntlSetfd k act hdl w).1
    | .fforce stdhdl nstdhdl => some (fforce k act stdhdl nstdhdl).1
    | .fclose hdl => some (fclose k act hdl).1
    | .initPd child pd => if (k.procx child).isSome then none else some (initPd k act child pd)
    | .pdKill p => some (pdKill k p)
  else none

/-- A handle is not redirected to what it holds already, when there is no other
reference to it. -/
def Gentle (k : Kernel) (act : Slot) (c : Handling) : Prop :=
  match c with
  | .fforce stdhdl nstdhdl =>
    ∀ i j f, hdlToFD k act stdhdl = some (i, f) → hdlToFD k act nstdhdl = some (j, f) →
      (k.fd f).refcnt ≠ 1
  | _ => True

/-- What a call preserves. -/
theorem perform_counted {k k' : Kernel} {act : Slot} {c : Handling} (h : Counted k)
    (hc : perform k act c = some k') : Counted k' ↔ Gentle k act c := by
  unfold perform at hc
  by_cases hact : (k.procx act).isSome
  · rw [if_pos hact] at hc
    rcases Option.isSome_iff_exists.mp hact with ⟨pd, hpd⟩
    cases c with
    | fopen x fuel n path =>
      rcases Option.map_eq_some_iff.mp hc with ⟨r, hr, hk⟩
      rw [← hk]
      exact ⟨fun _ => trivial, fun _ => fopen_counted h hpd hr⟩
    | fdup hdl =>
      cases hc
      exact ⟨fun _ => trivial, fun _ => fdup_counted h hdl⟩
    | fcntlDup hdl least =>
      cases hc
      exact ⟨fun _ => trivial, fun _ => fcntlDup_counted h hdl least⟩
    | fcntlSetfd hdl w =>
      cases hc
      exact ⟨fun _ => trivial, fun _ => fcntlSetfd_counted h hdl w⟩
    | fforce stdhdl nstdhdl =>
      cases hc
      exact fforce_counted h stdhdl nstdhdl
    | fclose hdl =>
      cases hc
      exact ⟨fun _ => trivial, fun _ => fclose_counted h hdl⟩
    | initPd child pd' =>
      simp only at hc
      split at hc
      · cases hc
      · next hfree =>
        cases hc
        exact ⟨fun _ => trivial, fun _ =>
          initPd_counted h (Option.not_isSome_iff_eq_none.mp hfree) pd'⟩
    | pdKill p =>
      cases hc
      exact ⟨fun _ => trivial, fun _ => pdKill_counted h⟩
  · rw [if_neg hact] at hc
    cases hc

/-- The states after each call of a run, up to a call that does not come back. -/
def statesOf (k : Kernel) : List (Slot × Handling) → List Kernel
  | [] => []
  | a :: as =>
    match perform k a.1 a.2 with
    | none => []
    | some k' => k' :: statesOf k' as

/-- A run in which no handle is redirected to what it holds already without
another reference. -/
def Harmless (k : Kernel) : List (Slot × Handling) → Prop
  | [] => True
  | a :: as =>
    match perform k a.1 a.2 with
    | none => True
    | some k' => Gentle k a.1 a.2 ∧ Harmless k' as

/-- The counters and the tables agree after every call of a run, if and only if
no handle with the only reference to a file is redirected to itself. -/
theorem run_counted (k : Kernel) (h : Counted k) (as : List (Slot × Handling)) :
    (∀ k' ∈ statesOf k as, Counted k') ↔ Harmless k as := by
  induction as generalizing k with
  | nil => exact ⟨fun _ => trivial, fun _ k' hk' => absurd hk' List.not_mem_nil⟩
  | cons a as ih =>
    unfold statesOf Harmless
    cases hp : perform k a.1 a.2 with
    | none => exact ⟨fun _ => trivial, fun _ k' hk' => absurd hk' List.not_mem_nil⟩
    | some k₁ =>
      have hstep := perform_counted h hp
      simp only
      constructor
      · intro hall
        have hk₁ := hall k₁ List.mem_cons_self
        exact ⟨hstep.mp hk₁, (ih k₁ hk₁).mp fun k' hk' => hall k' (List.mem_cons_of_mem _ hk')⟩
      · intro hgood k' hk'
        have hk₁ := hstep.mpr hgood.1
        rcases List.mem_cons.mp hk' with rfl | hk'
        · exact hk₁
        · exact (ih k₁ hk₁).mpr hgood.2 k' hk'

theorem oneFile_counted (i : Fin HANDLES) : Counted (oneFile i) where
  refs := by
    intro f _
    by_cases hf : f = 1
    · have huses : uses (entry (oneFile i)) (some 1)
          = [((0 : Slot), i)].countP fun c => decide (entry (oneFile i) c = some 1) := by
        refine uses_eq_countP (List.nodup_singleton _) fun c hc => ?_
        rw [(entry_oneFile_some hc).1]
        exact List.mem_singleton_self _
      rw [hf, huses]
      simp [entry_oneFile_self]
      rfl
    · have hnone : uses (entry (oneFile i)) (some f) = 0 :=
        uses_eq_zero fun c hc => hf (entry_oneFile_some hc).2
      rw [hnone]
      unfold oneFile
      simp [hf]
  live := fun _ _ _ => rfl

/-- A file that is duplicated, then closed under its first handle, then the
process ends. -/
theorem run_counted_oneFile : Counted (oneFile 10) ∧
    ∀ k' ∈ statesOf (oneFile 10) [(0, .fdup 6), (0, .fclose 6), (0, .pdKill 0)], Counted k' := by
  refine ⟨oneFile_counted 10, (run_counted (oneFile 10) (oneFile_counted 10) _).mpr ?_⟩
  unfold Harmless
  split
  · trivial
  · refine ⟨trivial, ?_⟩
    unfold Harmless
    split
    · trivial
    · refine ⟨trivial, ?_⟩
      unfold Harmless
      split
      · trivial
      · exact ⟨trivial, trivial⟩

/-- `Fforce` from a handle to the same handle closes the file and leaves it in
the table. -/
theorem fforce_self_closed :
    Counted (oneFile 10) ∧
      ∃ k' ∈ statesOf (oneFile 10) [(0, .fforce 6 6)], ¬ Counted k' := by
  have hcounted := oneFile_counted 10
  have hhdl : hdlToFD (oneFile 10) 0 6 = some (10, 1) := by decide
  refine ⟨hcounted, (fforce (oneFile 10) 0 6 6).1, ?_, ?_⟩
  · have hperform : perform (oneFile 10) 0 (.fforce 6 6) = some (fforce (oneFile 10) 0 6 6).1 := rfl
    unfold statesOf
    rw [hperform]
    exact List.mem_cons_self
  · rw [fforce_counted hcounted]
    intro hall
    exact hall 10 10 1 hhdl hhdl rfl

end Dos

end MagiC
