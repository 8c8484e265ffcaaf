import MagiC.Slb.Kept

/-!
# Runs of Shared Libraries

What holds over whole runs. A library counts the processes that use it, it is removed when the
last of them closes it, and memory belongs to the libraries there are.

Three things go wrong. Closing a library that has been removed looks at memory that is no longer
there. A file that turns out to be no library of the version wanted is freed without the data of its
process. And a process that closes all its libraries goes through the list with a pointer to the
next one, while that may be removed, too.

## Main definitions

* `Good`: The libraries are counted and have their memory.

## Theorems

* `run_good`: A run whose steps are all as they should be.
-/

namespace MagiC

namespace Slb

/-- Every library that is loaded counts its users. -/
def State.AllCounted (s : State) : Prop := ∀ l r, s.lslbs l = some r → Counted r

/-- The library that is the next one for a loop. -/
def Frame.next : Frame → Option Nat
  | .closing _ a6 => some a6
  | _ => none

/-- The library is in use by this process only. -/
def State.Only (s : State) (l pd : Nat) : Prop :=
  (s.lslbs l).any fun r => decide (users r.lslbPdtab = [pd])

instance (s : State) (l pd : Nat) : Decidable (s.Only l pd) := by
  unfold State.Only
  infer_instance

/-- The step closes the library for the process. -/
def Closes (s : State) (a : Label) (pd l : Nat) : Prop :=
  match a with
  | .slbclose q (some l') => q = pd ∧ l' = l
  | .goOn => s.stack.head? = some (.closing pd l)
  | _ => False

/-- The step closes the library for its last user. -/
def Last (s : State) (a : Label) (l : Nat) : Prop := ∃ pd, Closes s a pd l ∧ s.Only l pd

/-- The libraries are counted and have their memory, and there is no other memory than that of
    the libraries in the list and of those that are initialised. -/
structure Good (s : State) : Prop where
  gone : s.gone = false
  counted : ∀ l ∈ s.lslbList, ∃ r, s.lslbs l = some r ∧ Counted r ∧ (l, r.lslbSlb) ∈ s.blocks ∧
    (r.lslbSlb, r.lslbSlb) ∈ s.blocks
  listed : ∀ l r, s.lslbs l = some r → l ∈ s.lslbList
  blocks : (∀ f ∈ s.stack, f.initBp ≠ none) → ∀ a o, (a, o) ∈ s.blocks →
    (∃ l ∈ s.lslbList, s.Proc l o) ∨ o ∈ initBps s.stack

section

variable (stricmp : Name → Name → Bool)

/-- The step does not look at a library that has been released, does not load a file that is no
    library of the version wanted, and does not remove a library a loop has come to. -/
def Meets (s : State) : Label → Prop
  | .slbopen _ name minVer (.loaded _ _ _ lslb slb) _ =>
    match s.lookup stricmp name minVer s.lslbList with
    | .none => slb.slbMagic = SLB_MAGIC ∧ minVer ≤ slb.slbVersion ∧ lslb ≠ 0
    | _ => True
  | .slbclose _ (some l) => l ∈ s.lslbList
  | .goOn =>
    match s.stack with
    | .closing pd a6 :: rest => s.Only a6 pd → ∀ f ∈ rest, f.next ≠ some a6
    | _ => True
  | _ => True

instance (f : Found) (p : Prop) [Decidable p] : Decidable (match f with | .none => p | _ => True) :=
  match f with
  | .none => inferInstanceAs (Decidable p)
  | .tooOld | .lib _ | .gone => .isTrue trivial

instance (fs : List Frame) (p : Nat → Nat → List Frame → Prop)
    [∀ pd a6 rest, Decidable (p pd a6 rest)] :
    Decidable (match fs with | .closing pd a6 :: rest => p pd a6 rest | _ => True) :=
  match fs with
  | .closing pd a6 :: rest => inferInstanceAs (Decidable (p pd a6 rest))
  | [] | .dying _ :: _ | .initing _ _ _ :: _ => .isTrue trivial

instance (s : State) (a : Label) : Decidable (Meets stricmp s a) :=
  match a with
  | .slbopen _ name minVer (.loaded _ _ _ lslb slb) _ =>
    inferInstanceAs (Decidable (match s.lookup stricmp name minVer s.lslbList with
      | .none => slb.slbMagic = SLB_MAGIC ∧ minVer ≤ slb.slbVersion ∧ lslb ≠ 0
      | _ => True))
  | .slbclose _ (some l) => inferInstanceAs (Decidable (l ∈ s.lslbList))
  | .goOn =>
    inferInstanceAs (Decidable (match s.stack with
      | .closing pd a6 :: rest => s.Only a6 pd → ∀ f ∈ rest, f.next ≠ some a6
      | _ => True))
  | .slbopen _ _ _ .error _ | .slbclose _ none | .inited _ _ | .pterm _ => .isTrue trivial

def run : State → List Label → Option State
  | s, [] => some s
  | s, a :: as => (step stricmp s a).bind fun s' => run s' as

/-- A run whose steps are all as they should be. -/
def AllMeet : State → List Label → Prop
  | _, [] => True
  | s, a :: as => Meets stricmp s a ∧
      match step stricmp s a with
      | none => True
      | some s' => AllMeet s' as

instance AllMeet.decide : ∀ (as : List Label) (s : State), Decidable (AllMeet stricmp s as)
  | [], _ => isTrue trivial
  | a :: as, s => by
    unfold AllMeet
    have := AllMeet.decide as
    split
    · infer_instance
    · infer_instance

end

section

variable {s s' : State} {l pd i : Nat} {r : Lslb}

theorem State.only_iff (hl : s.lslbs l = some r) : s.Only l pd ↔ users r.lslbPdtab = [pd] := by
  rw [State.Only, hl]
  exact decide_eq_true_iff

theorem slbfree_spec (h : Inv s) (hl : s.lslbs l = some r) :
    (s.slbfree l).lslbList = s.lslbList.erase l ∧
      (s.slbfree l).lslbs = Function.update s.lslbs l none := by
  have hmem : l ∈ s.lslbList := (h.mem l).mp ⟨_, r, hl, rfl⟩
  rw [State.slbfree, if_pos hmem, hl]
  exact ⟨rfl, rfl⟩

theorem State.AllCounted.update {q : Option Lslb} (hc : ∀ a, a ≠ l →
    ∀ x, s.lslbs a = some x → Counted x)
    (hq : ∀ x, q = some x → Counted x) (hs : s'.lslbs = Function.update s.lslbs l q) :
    s'.AllCounted := by
  intro a x hx
  rw [hs] at hx
  by_cases hal : a = l
  · rw [hal, Function.update_self] at hx
    exact hq x hx
  · rw [Function.update_of_ne hal] at hx
    exact hc a hal x hx

theorem remove_spec (h : Inv s) (hc : ∀ a, a ≠ l → ∀ x, s.lslbs a = some x → Counted x)
    (hl : s.lslbs l = some r) (hfree : ∀ pd, .closing pd l ∉ s.stack) :
    Inv (s.slbfree l) ∧ (s.slbfree l).AllCounted ∧ (s.slbfree l).lslbList = s.lslbList.erase l :=
  ⟨h.remove hl hfree, State.AllCounted.update hc (fun _ hx => absurd hx (by simp))
    (slbfree_spec h hl).2, (slbfree_spec h hl).1⟩

def Lslb.leave (r : Lslb) (i : Nat) : Lslb :=
  { r with lslbPdtab := r.lslbPdtab.set i 0, lslbRefcnt := r.lslbRefcnt - 1 }

theorem slbclose_none (hl : s.lslbs l = some r) (hent : (lslbPdsearch r.lslbPdtab pd).1 = none) :
    s.slbclose l pd = s := by
  rw [State.slbclose, hl]
  simp only [hent]

theorem slbclose_some (hl : s.lslbs l = some r) (hent : (lslbPdsearch r.lslbPdtab pd).1 = some i) :
    s.slbclose l pd =
      if r.lslbRefcnt - 1 = 0 then
        State.slbfree { s with lslbs := Function.update s.lslbs l (some (r.leave i)) } l
      else { s with lslbs := Function.update s.lslbs l (some (r.leave i)) } := by
  rw [State.slbclose, hl]
  simp only [hent]
  rfl

theorem slbclose_spec (h : Inv s) (hc : s.AllCounted) (hmem : l ∈ s.lslbList)
    (hfree : s.Only l pd → ∀ q, .closing q l ∉ s.stack) :
    Inv (s.slbclose l pd) ∧ (s.slbclose l pd).AllCounted ∧
      (s.slbclose l pd).lslbList = if s.Only l pd then s.lslbList.erase l else s.lslbList := by
  rcases (h.mem l).mpr hmem with ⟨k, r, hl, -⟩
  have honly : s.Only l pd ↔ users r.lslbPdtab = [pd] := State.only_iff hl
  cases hent : (lslbPdsearch r.lslbPdtab pd).1 with
  | none =>
    rw [slbclose_none hl hent]
    refine ⟨h, hc, ?_⟩
    rw [if_neg]
    intro hlast
    -- A process that has no entry is none of the users.
    have hin : pd ∈ users r.lslbPdtab := by
      rw [honly.mp hlast]
      exact List.mem_cons_self
    have hin := List.mem_filter.mp hin
    have hno := List.findIdx?_eq_none_iff.mp hent pd hin.1
    simp [of_decide_eq_true hin.2] at hno
  | some i =>
    rcases counted_leave (hc l r hl) hent with ⟨hzero, hpos⟩
    have hslb : (r.leave i).lslbSlb = r.lslbSlb := rfl
    have hinv := h.update hl hslb
    rw [slbclose_some hl hent]
    by_cases hr : r.lslbRefcnt - 1 = 0
    · rw [if_pos hr, if_pos (honly.mpr (hzero.mp hr))]
      refine remove_spec hinv (fun a hal x hx => hc a x ?_) (Function.update_self ..)
        (hfree (honly.mpr (hzero.mp hr)))
      have hx : Function.update s.lslbs l (some (r.leave i)) a = some x := hx
      rwa [Function.update_of_ne hal] at hx
    · rw [if_neg hr, if_neg fun hlast => hr (hzero.mpr (honly.mp hlast))]
      refine ⟨hinv, State.AllCounted.update (fun a _ x hx => hc a x hx) (fun x hx => ?_) rfl, rfl⟩
      exact Option.some.inj hx ▸ hpos hr

def Lslb.enter (r : Lslb) (i pd : Nat) : Lslb :=
  { r with lslbPdtab := r.lslbPdtab.set i pd, lslbRefcnt := r.lslbRefcnt + 1 }

theorem openLib_cases (hl : s.lslbs l = some r) (pd : Nat) (opened : Int) :
    (s.openLib pd l opened = s ∧
      (r.lslbRefcnt ≠ 0 ∨ ∀ i, lslbPdsearch r.lslbPdtab pd ≠ (none, some i))) ∨
    (r.lslbRefcnt = 0 ∧ s.openLib pd l opened = s.slbfree l) ∨
    ∃ i, lslbPdsearch r.lslbPdtab pd = (none, some i) ∧ s.openLib pd l opened =
      { s with lslbs := Function.update s.lslbs l (some (r.enter i pd)) } := by
  rw [State.openLib, hl]
  rcases hent : lslbPdsearch r.lslbPdtab pd with ⟨- | e, - | i⟩
  · refine .inl ⟨by simp only [hent], .inr fun i hi => ?_⟩
    simp at hi
  · simp only [hent]
    by_cases ho : opened < 0
    · by_cases hr : r.lslbRefcnt = 0
      · exact .inr (.inl ⟨hr, by rw [if_pos ho, if_pos hr]⟩)
      · exact .inl ⟨by rw [if_pos ho, if_neg hr], .inl hr⟩
    · exact .inr (.inr ⟨i, rfl, by rw [if_neg ho]; rfl⟩)
  · refine .inl ⟨by simp only [hent], .inr fun i hi => ?_⟩
    simp at hi
  · refine .inl ⟨by simp only [hent], .inr fun i hi => ?_⟩
    simp at hi

theorem pdsearch_empty (pd : Nat) : lslbPdsearch (List.replicate NPDL 0) pd = (none, some 0) := by
  unfold lslbPdsearch
  rw [List.findIdx?_replicate, List.findIdx?_replicate]
  simp [NPDL]

theorem openLib_spec (h : Inv s) (hc : s.AllCounted) (hmem : l ∈ s.lslbList) (hpd : pd ≠ 0)
    (opened : Int) : Inv (s.openLib pd l opened) ∧ (s.openLib pd l opened).AllCounted ∧
      (s.openLib pd l opened).lslbList = s.lslbList := by
  rcases (h.mem l).mpr hmem with ⟨k, r, hl, -⟩
  have hr := hc l r hl
  rcases openLib_cases hl pd opened with ⟨heq, -⟩ | ⟨hzero, -⟩ | ⟨i, hent, heq⟩
  · rw [heq]
    exact ⟨h, hc, rfl⟩
  · exact absurd hzero (Nat.ne_of_gt hr.pos)
  · have hslb : (r.enter i pd).lslbSlb = r.lslbSlb := rfl
    rw [heq]
    refine ⟨h.update hl hslb, State.AllCounted.update (fun a _ x hx => hc a x hx)
      (fun x hx => ?_) rfl, rfl⟩
    exact Option.some.inj hx ▸ counted_enter hr.refcnt hr.nodup hpd hent

theorem inited_spec (h : Inv s) (hc : s.AllCounted) {result opened : Int}
    (hs : s.inited result opened = some s') :
    Inv s' ∧ s'.AllCounted ∧ ∀ a ∈ s.lslbList, a ∈ s'.lslbList := by
  unfold State.inited at hs
  split at hs
  · rename_i pd l bp rest hst
    have hi := h.initing pd l bp (hst ▸ List.mem_cons_self)
    have hlink := h.link hst 0 (List.replicate NPDL 0)
    have hnested := h.nested
    rw [hst] at hnested
    generalize ht : ({ s with
      stack := rest
      lslbList := l :: s.lslbList
      lslbs :=
        Function.update s.lslbs l (some ⟨bp, 0, List.replicate NPDL 0⟩) } : State) = t at hlink
    have hl : t.lslbs l = some ⟨bp, 0, List.replicate NPDL 0⟩ := by
      rw [← ht]
      exact Function.update_self ..
    have hother : ∀ a, a ≠ l → ∀ x, t.lslbs a = some x → Counted x := by
      intro a hal x hx
      rw [← ht] at hx
      have hx : Function.update s.lslbs l _ a = some x := hx
      rw [Function.update_of_ne hal] at hx
      exact hc a x hx
    have hlist : t.lslbList = l :: s.lslbList := by rw [← ht]
    -- Only libraries that are initialised wait for this one, so no loop has come to it.
    have hfree : ∀ q, .closing q l ∉ t.stack := by
      intro q hq
      rw [← ht] at hq
      exact hnested.initing _ hq rfl
    have hremoved := remove_spec hlink hother hl hfree
    rw [hlist, List.erase_cons_head] at hremoved
    have hs := Option.some.inj hs
    split at hs
    · rw [← hs, ← unlinked h hst 0 (List.replicate NPDL 0), ht]
      exact ⟨hremoved.1, hremoved.2.1, fun a ha => hremoved.2.2 ▸ ha⟩
    · have hs : t.openLib pd l opened = s' := by
        rw [← ht]
        exact hs
      rcases openLib_cases hl pd opened with ⟨-, hno⟩ | ⟨-, heq⟩ | ⟨i, hent, heq⟩
      · rcases hno with hzero | hno
        · exact absurd rfl hzero
        · exact absurd (pdsearch_empty pd) (hno 0)
      · rw [← hs, heq]
        exact ⟨hremoved.1, hremoved.2.1, fun a ha => hremoved.2.2 ▸ ha⟩
      · rw [← hs, heq]
        have hslb : (Lslb.enter ⟨bp, 0, List.replicate NPDL 0⟩ i pd).lslbSlb = bp := rfl
        refine ⟨hlink.update hl hslb, State.AllCounted.update hother (fun x hx => ?_) rfl,
          fun a ha => ?_⟩
        · have hzero : users (List.replicate NPDL 0) = [] := by decide
          refine Option.some.inj hx ▸ counted_enter ?_ ?_ hi.pd_ne hent
          · show 0 = (users (List.replicate NPDL 0)).length
            rw [hzero]
            rfl
          · show (users (List.replicate NPDL 0)).Nodup
            rw [hzero]
            exact List.nodup_nil
        · show a ∈ t.lslbList
          rw [hlist]
          exact List.mem_cons_of_mem _ ha
  · exact absurd hs (by simp)

theorem lookup_spec {stricmp : Name → Name → Bool} {name : Name} {minVer : Nat} {ls : List Nat}
    (h : ∀ a ∈ ls, ∃ q, s.lslbs a = some q) :
    s.lookup stricmp name minVer ls ≠ .gone ∧
      ∀ a, s.lookup stricmp name minVer ls = .lib a → a ∈ ls := by
  induction ls with
  | nil => exact ⟨fun h => (by cases h), fun a h => by cases h⟩
  | cons x ls ih =>
    rcases h x List.mem_cons_self with ⟨q, hx⟩
    rcases ih fun a ha => h a (List.mem_cons_of_mem _ ha) with ⟨hgone, hlib⟩
    rw [State.lookup, hx]
    dsimp only
    split
    · split
      · exact ⟨fun h => (by cases h), fun a ha => Found.lib.inj ha ▸ List.mem_cons_self⟩
      · exact ⟨fun h => (by cases h), fun a h => by cases h⟩
    · exact ⟨hgone, fun a ha => List.mem_cons_of_mem _ (hlib a ha)⟩

theorem State.AllCounted.of_eq (hc : s.AllCounted) (hs : s'.lslbs = s.lslbs) : s'.AllCounted :=
  fun a x hx => hc a x (hs ▸ hx)

theorem closed_iff {c : Prop} [Decidable c] {a : Nat} (h : Inv s)
    (hlist : s'.lslbList = if c then s.lslbList.erase l else s.lslbList) (ha : a ∈ s.lslbList) :
    a ∉ s'.lslbList ↔ a = l ∧ c := by
  rw [hlist]
  split
  · rename_i hc
    rw [h.nodup.mem_erase_iff]
    constructor
    · intro hno
      refine ⟨?_, hc⟩
      by_contra hal
      exact hno ⟨hal, ha⟩
    · exact fun hq hno => hno.1 hq.1
  · rename_i hc
    exact ⟨fun hno => absurd ha hno, fun hq => absurd hq.2 hc⟩

theorem goOn_spec (h : Inv s) (hc : s.AllCounted) (hs : s.goOn = some s')
    (hm : ∀ pd a6 rest, s.stack = .closing pd a6 :: rest → s.Only a6 pd →
      ∀ f ∈ rest, f.next ≠ some a6) :
    Inv s' ∧ s'.AllCounted ∧ ∀ l ∈ s.lslbList, l ∉ s'.lslbList ↔
      ∃ pd, s.stack.head? = some (.closing pd l) ∧ s.Only l pd := by
  unfold State.goOn at hs
  split at hs
  · rename_i pd a6 rest hst
    have hhead : ∀ {q l}, s.stack.head? = some (.closing q l) → q = pd ∧ l = a6 := by
      intro q l hq
      rw [hst] at hq
      cases hq
      exact ⟨rfl, rfl⟩
    split at hs
    · -- The end of the list.
      rename_i ha6
      rw [← Option.some.inj hs]
      refine ⟨h.pop_closing hst, hc.of_eq rfl, fun l hl => ⟨fun hno => absurd hl hno, fun hq => ?_⟩⟩
      rcases hq with ⟨q, hq, -⟩
      exact absurd (ha6 ▸ (hhead hq).2 ▸ hl) h.nonzero
    · rename_i ha6
      have hmem : a6 ∈ s.lslbList :=
        (h.saved pd a6 (hst ▸ List.mem_cons_self)).resolve_left ha6
      rcases lslbNext_spec h.nodup h.nonzero hmem with ⟨hnext, hne⟩
      have hinv := (h.pop_closing hst).push_closing pd hnext
      generalize ht : ({ s with
        stack := .closing pd (lslbNext s.lslbList a6) :: rest } : State) = t at hinv hs
      have hlslbs : t.lslbs = s.lslbs := by rw [← ht]
      have honly : t.Only a6 pd ↔ s.Only a6 pd := by
        unfold State.Only
        rw [hlslbs]
      have hlist : t.lslbList = s.lslbList := by rw [← ht]
      have hfree : t.Only a6 pd → ∀ q, .closing q a6 ∉ t.stack := by
        intro hlast q hq
        rw [← ht] at hq
        rcases List.mem_cons.mp hq with heq | hq
        · exact hne (Frame.closing.inj heq).2.symm
        · exact hm pd a6 rest hst (honly.mp hlast) _ hq rfl
      have hclose := slbclose_spec hinv (hc.of_eq hlslbs) (hlist ▸ hmem) hfree
      split at hs
      · rename_i hl
        rcases (h.mem a6).mpr hmem with ⟨k, r, hr, -⟩
        rw [hl] at hr
        exact absurd hr (by simp)
      · rw [← Option.some.inj hs]
        refine ⟨hclose.1, hclose.2.1, fun l hl => ?_⟩
        rw [closed_iff h (hlist ▸ hclose.2.2) hl, honly]
        constructor
        · intro hq
          exact ⟨pd, by rw [hst, hq.1]; rfl, hq.1 ▸ hq.2⟩
        · intro hq
          rcases hq with ⟨q, hq, hlast⟩
          rcases hhead hq with ⟨rfl, rfl⟩
          exact ⟨rfl, hlast⟩
  · rename_i pd rest hst
    rw [← Option.some.inj hs]
    have hdy : .dying pd ∈ s.stack := hst ▸ List.mem_cons_self
    refine ⟨h.pfree hst, hc.of_eq (h.pfree_lslbs hdy), fun l hl => ⟨fun hno => absurd hl hno,
      fun hq => ?_⟩⟩
    rcases hq with ⟨q, hq, -⟩
    rw [hst] at hq
    cases hq
  · exact absurd hs (by simp)

theorem no_last {a : Label} (hkeep : ∀ l ∈ s.lslbList, l ∈ s'.lslbList)
    (hno : ∀ pd l, ¬ Closes s a pd l) : ∀ l ∈ s.lslbList, l ∉ s'.lslbList ↔ Last s a l := by
  intro l hl
  refine ⟨fun hnot => absurd (hkeep l hl) hnot, fun hlast => ?_⟩
  rcases hlast with ⟨pd, hcl, -⟩
  exact absurd hcl (hno pd l)

theorem Inv.waits (h : Inv s) (hmay : s.MayOpen pd) : ∀ f ∈ s.stack, f.initBp ≠ none := by
  have hnested := h.nested
  unfold State.MayOpen at hmay
  split at hmay
  · rename_i hst
    rw [hst]
    exact fun f hf => absurd hf List.not_mem_nil
  · rename_i q l bp rest hst
    rw [hst] at hnested ⊢
    intro f hf
    rcases List.mem_cons.mp hf with rfl | hf
    · simp [Frame.initBp]
    · exact hnested.initing f hf
  · exact absurd hmay id

theorem slbopen_spec {stricmp : Name → Name → Bool} {name : Name} {minVer : Nat} {load : Load}
    {opened : Int} (h : Inv s) (hc : s.AllCounted) (hpd : pd ≠ 0) (hmay : s.MayOpen pd)
    (hm : Meets stricmp s (.slbopen pd name minVer load opened))
    (hs : s.slbopen stricmp pd name minVer load opened = some s') :
    Inv s' ∧ s'.AllCounted ∧ ∀ l ∈ s.lslbList, l ∈ s'.lslbList := by
  have hthere : ∀ a ∈ s.lslbList, ∃ q, s.lslbs a = some q := by
    intro a ha
    rcases (h.mem a).mpr ha with ⟨k, q, hq, -⟩
    exact ⟨q, hq⟩
  have hlook : s.lookup stricmp name minVer s.lslbList ≠ .gone ∧
      ∀ a, s.lookup stricmp name minVer s.lslbList = .lib a → a ∈ s.lslbList :=
    lookup_spec hthere
  unfold State.slbopen at hs
  split at hs
  · rename_i hgone
    exact absurd hgone hlook.1
  · rw [← Option.some.inj hs]
    exact ⟨h, hc, fun _ hl => hl⟩
  · rename_i l hlib
    rcases openLib_spec h hc (hlook.2 l hlib) hpd opened with ⟨hinv, hcount, hlist⟩
    rw [← Option.some.inj hs]
    exact ⟨hinv, hcount, fun a ha => hlist ▸ ha⟩
  · rename_i hnone
    split at hs
    · rw [← Option.some.inj hs]
      exact ⟨h, hc, fun _ hl => hl⟩
    · rename_i bp procdata env lslb slb
      split at hs
      · rename_i hfresh
        unfold Meets at hm
        simp only [hnone] at hm
        rcases hm with ⟨hmagic, hver, hl0⟩
        have hbad : ¬ (slb.slbMagic ≠ SLB_MAGIC ∨ slb.slbVersion < minVer) := by
          rintro (hne | hlt)
          · exact hne hmagic
          · exact Nat.not_le.mpr hlt hver
        rw [State.init, if_neg hbad, if_neg hl0] at hs
        rw [← Option.some.inj hs]
        exact ⟨h.load (h.waits hmay) hfresh hl0 hpd, hc.of_eq rfl, fun _ hl => hl⟩
      · exact absurd hs (by simp)

/-- What one step does. A library is removed when its last user closes it. -/
theorem step_spec {stricmp : Name → Name → Bool} {a : Label} (h : Inv s) (hc : s.AllCounted)
    (hm : Meets stricmp s a) (hs : step stricmp s a = some s') :
    Inv s' ∧ s'.AllCounted ∧ ∀ l ∈ s.lslbList, l ∉ s'.lslbList ↔ Last s a l := by
  cases a with
  | slbopen pd name minVer load opened =>
    rcases Option.ite_none_left_eq_some.mp hs with ⟨hok, hs⟩
    rw [not_or, not_or, not_not] at hok
    rcases slbopen_spec h hc hok.2.1 hok.2.2 hm hs with ⟨hinv, hcount, hlist⟩
    exact ⟨hinv, hcount, no_last hlist fun _ _ hcl => hcl⟩
  | inited result opened =>
    rcases Option.ite_none_left_eq_some.mp hs with ⟨-, hs⟩
    rcases inited_spec h hc hs with ⟨hinv, hcount, hlist⟩
    exact ⟨hinv, hcount, no_last hlist fun _ _ hcl => hcl⟩
  | slbclose pd handle =>
    rcases Option.ite_none_left_eq_some.mp hs with ⟨hok, hs⟩
    rw [not_or, not_or, not_not] at hok
    have hst : s.stack = [] := hok.2.2
    cases handle with
    | none =>
      rw [← Option.some.inj hs]
      have hinv := h.push_closing pd (head_saved s)
      rw [hst] at hinv
      exact ⟨hinv, hc.of_eq rfl, no_last (fun _ hl => hl) fun _ _ hcl => hcl⟩
    | some l =>
      have hfree : s.Only l pd → ∀ q, .closing q l ∉ s.stack := by
        intro _ q
        rw [hst]
        exact List.not_mem_nil
      rcases slbclose_spec h hc hm hfree with ⟨hinv, hcount, hlist⟩
      rw [← Option.some.inj hs]
      refine ⟨hinv, hcount, fun a ha => ?_⟩
      rw [closed_iff h hlist ha]
      constructor
      · intro hq
        exact ⟨pd, ⟨rfl, hq.1.symm⟩, hq.1 ▸ hq.2⟩
      · intro hq
        rcases hq with ⟨q, ⟨rfl, rfl⟩, hlast⟩
        exact ⟨rfl, hlast⟩
  | pterm pd =>
    rcases Option.ite_none_left_eq_some.mp hs with ⟨hok, hs⟩
    rw [not_or, not_or, not_or, not_not, not_not] at hok
    rcases hok with ⟨-, -, hst, huser⟩
    rw [← Option.some.inj hs]
    refine ⟨h.kill (fun a ha => ?_) ?_, hc.of_eq rfl,
      no_last (fun _ hl => hl) fun _ _ hcl => hcl⟩
    · rcases ha with ⟨r, hr, hslb⟩
      have hne := huser a ((h.mem a).mp ⟨_, r, hr, rfl⟩)
      rw [hr] at hne
      exact of_decide_eq_true hne hslb
    · rw [hst]
      exact List.not_mem_nil
  | goOn =>
    rcases Option.ite_none_left_eq_some.mp hs with ⟨-, hs⟩
    refine goOn_spec h hc hs fun pd a6 rest hst => ?_
    unfold Meets at hm
    simp only [hst] at hm
    exact hm

theorem run_spec {stricmp : Name → Name → Bool} {as : List Label} (h : Inv s)
    (hc : s.AllCounted) (hm : AllMeet stricmp s as) (hs : run stricmp s as = some s') :
    Inv s' ∧ s'.AllCounted := by
  induction as generalizing s with
  | nil =>
    cases hs
    exact ⟨h, hc⟩
  | cons a as ih =>
    unfold AllMeet at hm
    rcases Option.bind_eq_some_iff.mp hs with ⟨t, ht, hs⟩
    rw [ht] at hm
    rcases step_spec h hc hm.1 ht with ⟨hinv, hcount, -⟩
    exact ih hinv hcount hm.2 hs

theorem start_spec : Inv State.start ∧ State.start.AllCounted := by
  have hproc : ∀ l k, ¬ State.start.Proc l k := by
    rintro l k ⟨r, hr, -⟩
    cases hr
  refine ⟨⟨rfl, List.nodup_nil, List.not_mem_nil, fun l => ⟨?_, fun h => by cases h⟩, ?_, ?_,
    List.nodup_nil, fun a o h => (by cases h), fun pd a6 h => (by cases h),
      fun pd l bp h => (by cases h),
    List.nodup_nil, fun o h => (by cases h), Nested.of_all fun f h => by cases h⟩, ?_⟩
  · rintro ⟨k, hk⟩
    exact absurd hk (hproc l k)
  · exact fun l k hk => absurd hk (hproc l k)
  · exact fun l l' k hk => absurd hk (hproc l k)
  · rintro l r ⟨⟩

theorem Inv.good (h : Inv s) (hc : s.AllCounted) : Good s := by
  refine ⟨h.gone, fun l hl => ?_, fun l r hr => (h.mem l).mp ⟨_, r, hr, rfl⟩,
    fun hwait a o ho => ?_⟩
  · rcases (h.mem l).mpr hl with ⟨k, r, hr, hk⟩
    have hheld := h.held l r.lslbSlb ⟨r, hr, rfl⟩
    exact ⟨r, hr, hc l r hr, hheld.1, hheld.2.1⟩
  · cases h.owned a o ho with
    | lib l hp => exact .inl ⟨l, (h.mem l).mp ⟨o, hp⟩, hp⟩
    | dying hf => exact absurd rfl (hwait _ hf)
    | initing q l hf => exact .inr (mem_initBps.mpr ⟨q, l, hf⟩)

end

/-- A run whose steps are all as they should be counts the libraries, and a library is removed in
    the step in which its last user closes it. -/
theorem run_good (stricmp : Name → Name → Bool) (as : List Label) (s : State)
    (hs : run stricmp .start as = some s) (hm : AllMeet stricmp .start as) :
    Good s ∧ ∀ a s', Meets stricmp s a → step stricmp s a = some s' →
      ∀ l ∈ s.lslbList, l ∉ s'.lslbList ↔ Last s a l := by
  rcases run_spec start_spec.1 start_spec.2 hm hs with ⟨hinv, hc⟩
  exact ⟨hinv.good hc, fun _ _ hmeet hstep => (step_spec hinv hc hmeet hstep).2.2⟩

/-- The first process opens a library that opens another one when it is initialised. -/
def openNested : List Label :=
  [.slbopen 1 [65] 1 (.loaded 10 11 0 12 ⟨SLB_MAGIC, [65], 1⟩) 0,
    .slbopen 10 [66] 1 (.loaded 20 21 0 22 ⟨SLB_MAGIC, [66], 1⟩) 0, .inited 0 0, .inited 0 0]

/-- It closes the first library, which closes the second one. -/
def closeFirst : List Label := openNested ++ .slbclose 1 (some 12) :: List.replicate 5 .goOn

theorem run_good_demo : ∃ s, run (fun x y => decide (x = y)) .start closeFirst = some s ∧
    Good s ∧ s.lslbList = [] ∧ s.blocks = [] :=
  ⟨_, rfl, (run_good (fun x y => decide (x = y)) closeFirst _ rfl (by decide)).1, rfl, rfl⟩

/-- When the first process closes all its libraries, the second library is removed with the first
    one, and looked at after that. And the data of a process stays when its file is too old. -/
theorem library_released_early : (∃ s, run (fun x y => decide (x = y)) .start
    (openNested ++ .slbclose 1 none :: List.replicate 7 .goOn) = some s ∧ s.gone = true ∧
      ¬ Good s) ∧
    ∃ s, run (fun x y => decide (x = y)) .start
      [.slbopen 1 [65] 2 (.loaded 10 11 0 12 ⟨SLB_MAGIC, [65], 1⟩) 0] = some s ∧ s.stack = [] ∧
        s.lslbList = [] ∧ (11, 1) ∈ s.blocks :=
  ⟨⟨_, rfl, rfl, fun h => absurd h.gone (by decide)⟩, _, rfl, rfl, rfl, by decide⟩

end Slb

end MagiC
