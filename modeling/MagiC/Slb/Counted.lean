import Mathlib.Data.List.Nodup
import MagiC.Slb.Library

/-!
# Counting the Users of Shared Libraries

What holds in every state as long as nothing has gone wrong: a library that is loaded is in use
and counts its users, memory belongs to a library, to one that is initialised or to a process
that is being removed, and a routine goes on with a library that is loaded.

## Main definitions

* `Counted`: The number of the users of a library.

## Theorems

* `Inv.update`, `Inv.remove`, `Inv.link`, `Inv.pfree`: What the parts of a step keep.
-/

namespace MagiC

namespace Slb

/-- The processes in a table. -/
def users (tab : List Nat) : List Nat := tab.filter fun e => decide (e ≠ 0)

/-- A library is in use, and it counts its users. -/
structure Counted (r : Lslb) : Prop where
  refcnt : r.lslbRefcnt = (users r.lslbPdtab).length
  pos : 0 < r.lslbRefcnt
  nodup : (users r.lslbPdtab).Nodup

section

variable {tab : List Nat} {pd i : Nat} {r : Lslb}

theorem users_append (u v : List Nat) : users (u ++ v) = users u ++ users v :=
  List.filter_append ..

theorem users_cons_zero (v : List Nat) : users (0 :: v) = users v :=
  List.filter_cons_of_neg (by simp)

theorem users_cons (v : List Nat) (hpd : pd ≠ 0) : users (pd :: v) = pd :: users v :=
  List.filter_cons_of_pos (by simpa using hpd)

theorem split_of_findIdx {p : Nat → Bool} (h : tab.findIdx? p = some i) :
    ∃ u a v, tab = u ++ a :: v ∧ p a = true ∧ ∀ e, tab.set i e = u ++ e :: v := by
  rcases List.findIdx?_eq_some_iff_getElem.mp h with ⟨hlt, hp, -⟩
  refine ⟨tab.take i, tab[i], tab.drop (i + 1), ?_, hp, fun e => ?_⟩
  · rw [List.getElem_cons_drop, List.take_append_drop]
  · rw [List.set_eq_take_append_cons_drop, if_pos hlt]

theorem pdsearch_free (hpd : pd ≠ 0) (h : lslbPdsearch tab pd = (none, some i)) :
    pd ∉ users tab ∧ ∃ u v, users tab = u ++ v ∧ users (tab.set i pd) = u ++ pd :: v := by
  rcases Prod.mk.inj h with ⟨hnone, hsome⟩
  refine ⟨fun hmem => ?_, ?_⟩
  · have hfree := List.findIdx?_eq_none_iff.mp hnone pd (List.mem_of_mem_filter hmem)
    simp [hpd] at hfree
  · rcases split_of_findIdx hsome with ⟨u, a, v, htab, ha, hset⟩
    have ha : a = 0 := of_decide_eq_true ha
    refine ⟨users u, users v, ?_, ?_⟩
    · rw [htab, ha, users_append, users_cons_zero]
    · rw [hset, users_append, users_cons v hpd]

theorem pdsearch_entry (h : (lslbPdsearch tab pd).1 = some i) :
    ∃ u v, users tab = u ++ pd :: v ∧ users (tab.set i 0) = u ++ v := by
  rcases split_of_findIdx h with ⟨u, a, v, htab, ha, hset⟩
  have ha : a ≠ 0 ∧ a = pd := of_decide_eq_true ha
  refine ⟨users u, users v, ?_, ?_⟩
  · rw [htab, users_append, users_cons v ha.1, ha.2]
  · rw [hset, users_append, users_cons_zero]

/-- One user more. -/
theorem counted_enter (hc : r.lslbRefcnt = (users r.lslbPdtab).length)
    (hn : (users r.lslbPdtab).Nodup) (hpd : pd ≠ 0)
    (h : lslbPdsearch r.lslbPdtab pd = (none, some i)) : Counted { r with
      lslbPdtab := r.lslbPdtab.set i pd, lslbRefcnt := r.lslbRefcnt + 1 } := by
  rcases pdsearch_free hpd h with ⟨hnot, u, v, htab, hset⟩
  rw [htab] at hc hn hnot
  refine ⟨?_, Nat.succ_pos _, ?_⟩
  · show r.lslbRefcnt + 1 = (users (r.lslbPdtab.set i pd)).length
    rw [hset, hc]
    simp only [List.length_append, List.length_cons]
    omega
  · show (users (r.lslbPdtab.set i pd)).Nodup
    rw [hset]
    exact List.nodup_middle.mpr (List.nodup_cons.mpr ⟨hnot, hn⟩)

theorem counted_leave (hr : Counted r) (h : (lslbPdsearch r.lslbPdtab pd).1 = some i) :
    (r.lslbRefcnt - 1 = 0 ↔ users r.lslbPdtab = [pd]) ∧
      (r.lslbRefcnt - 1 ≠ 0 → Counted { r with
        lslbPdtab := r.lslbPdtab.set i 0, lslbRefcnt := r.lslbRefcnt - 1 }) := by
  rcases pdsearch_entry h with ⟨u, v, htab, hset⟩
  have hc := hr.refcnt
  have hn := hr.nodup
  rw [htab] at hc hn ⊢
  simp only [List.length_append, List.length_cons] at hc
  refine ⟨⟨fun hzero => ?_, fun hone => ?_⟩, fun hne => ⟨?_, Nat.pos_of_ne_zero hne, ?_⟩⟩
  · have hu : u = [] := List.eq_nil_of_length_eq_zero (by omega)
    have hv : v = [] := List.eq_nil_of_length_eq_zero (by omega)
    rw [hu, hv]
    rfl
  · have hlen := congrArg List.length hone
    simp only [List.length_append, List.length_cons, List.length_nil] at hlen
    omega
  · show r.lslbRefcnt - 1 = (users (r.lslbPdtab.set i 0)).length
    rw [hset, List.length_append]
    omega
  · show (users (r.lslbPdtab.set i 0)).Nodup
    rw [hset]
    exact (List.nodup_cons.mp (List.nodup_middle.mp hn)).2

end

/-- The process of a library that is initialised. -/
def Frame.initBp : Frame → Option Nat
  | .initing _ _ bp => some bp
  | _ => none

def initBps (stack : List Frame) : List Nat := stack.filterMap Frame.initBp

/-- The library `l` is loaded, and its process is `k`. -/
def State.Proc (s : State) (l k : Nat) : Prop := ∃ r, s.lslbs l = some r ∧ r.lslbSlb = k

/-- Whose memory there may be. -/
inductive Owner (s : State) (o : Nat) : Prop
  | lib (l : Nat) (h : s.Proc l o)
  | dying (h : .dying o ∈ s.stack)
  | initing (pd l : Nat) (h : .initing pd l o ∈ s.stack)

/-- What holds of a library that is initialised. -/
structure Initing (s : State) (pd l bp : Nat) : Prop where
  pd_ne : pd ≠ 0
  not_mem : l ∉ s.lslbList
  lslb : (l, bp) ∈ s.blocks
  base : (bp, bp) ∈ s.blocks
  ne : l ≠ bp
  nonzero : l ≠ 0
  proc : ∀ k, ¬ s.Proc k bp

/-- Libraries wait for others to be initialised, and these have been called by nothing else. -/
def Nested (st : List Frame) : Prop :=
  ∃ u v, st = u ++ v ∧ (∀ f ∈ u, f.initBp = none) ∧ ∀ f ∈ v, f.initBp ≠ none

/-- What holds in every state. The number of the users is apart from it. -/
structure Inv (s : State) : Prop where
  gone : s.gone = false
  nodup : s.lslbList.Nodup
  nonzero : 0 ∉ s.lslbList
  mem : ∀ l, (∃ k, s.Proc l k) ↔ l ∈ s.lslbList
  held : ∀ l k, s.Proc l k → (l, k) ∈ s.blocks ∧ (k, k) ∈ s.blocks ∧ l ≠ k
  inj : ∀ l l' k, s.Proc l k → s.Proc l' k → l = l'
  keys : (s.blocks.map Prod.fst).Nodup
  owned : ∀ a o, (a, o) ∈ s.blocks → Owner s o
  saved : ∀ pd a6, .closing pd a6 ∈ s.stack → a6 = 0 ∨ a6 ∈ s.lslbList
  initing : ∀ pd l bp, .initing pd l bp ∈ s.stack → Initing s pd l bp
  distinct : (initBps s.stack).Nodup
  dying : ∀ o, .dying o ∈ s.stack → (∀ k, ¬ s.Proc k o) ∧ o ∉ initBps s.stack
  nested : Nested s.stack

section

variable {s : State} {l k pd bp a6 : Nat} {r r' : Lslb} {rest : List Frame}

theorem State.Proc.unique {k' : Nat} (h : s.Proc l k) (h' : s.Proc l k') : k = k' := by
  rcases h with ⟨r, hr, rfl⟩
  rcases h' with ⟨r', hr', rfl⟩
  rw [hr, Option.some.injEq] at hr'
  rw [hr']

theorem mem_initBps {st : List Frame} {o : Nat} :
    o ∈ initBps st ↔ ∃ pd l, .initing pd l o ∈ st := by
  rw [initBps, List.mem_filterMap]
  constructor
  · intro h
    rcases h with ⟨f, hf, ho⟩
    cases f with
    | closing pd a6 => exact absurd ho (by simp [Frame.initBp])
    | dying pd => exact absurd ho (by simp [Frame.initBp])
    | initing pd l bp => exact ⟨pd, l, by rwa [← Option.some.inj ho]⟩
  · intro h
    rcases h with ⟨pd, l, hf⟩
    exact ⟨_, hf, rfl⟩

theorem Inv.owner_unique {a o o' : Nat} (h : Inv s) (ho : (a, o) ∈ s.blocks)
    (ho' : (a, o') ∈ s.blocks) : o = o' := by
  have heq := List.inj_on_of_nodup_map h.keys ho ho' rfl
  exact congrArg Prod.snd heq

theorem lslbNext_spec {xs : List Nat} (hn : xs.Nodup) (h0 : 0 ∉ xs) (hl : l ∈ xs) :
    (lslbNext xs l = 0 ∨ lslbNext xs l ∈ xs) ∧ lslbNext xs l ≠ l := by
  induction xs with
  | nil => exact absurd hl List.not_mem_nil
  | cons x xs ih =>
    rcases List.nodup_cons.mp hn with ⟨hx, hn⟩
    have hx0 : x ≠ 0 := fun h => h0 (h ▸ List.mem_cons_self)
    have hxs0 : 0 ∉ xs := fun h => h0 (List.mem_cons_of_mem _ h)
    unfold lslbNext
    split
    · rename_i hxl
      subst hxl
      cases xs with
      | nil => exact ⟨.inl rfl, hx0.symm⟩
      | cons y ys =>
        refine ⟨.inr (List.mem_cons_of_mem _ List.mem_cons_self), fun h => hx ?_⟩
        have h : y = x := h
        exact h ▸ List.mem_cons_self
    · rename_i hxl
      have hl := (List.mem_cons.mp hl).resolve_left (Ne.symm hxl)
      rcases ih hn hxs0 hl with ⟨hnext, hne⟩
      exact ⟨hnext.imp_right (List.mem_cons_of_mem _), hne⟩

theorem head_saved (s : State) :
    s.lslbList.headD 0 = 0 ∨ s.lslbList.headD 0 ∈ s.lslbList := by
  cases s.lslbList with
  | nil => exact .inl rfl
  | cons x xs => exact .inr List.mem_cons_self

/-- The entries of a library change. -/
theorem Inv.update (h : Inv s) (hl : s.lslbs l = some r) (hslb : r'.lslbSlb = r.lslbSlb) :
    Inv { s with lslbs := Function.update s.lslbs l (some r') } := by
  generalize hs : ({ s with lslbs := Function.update s.lslbs l (some r') } : State) = t
  have hproc : ∀ a k, t.Proc a k ↔ s.Proc a k := by
    intro a k
    rw [← hs]
    show (∃ q, Function.update s.lslbs l (some r') a = some q ∧ q.lslbSlb = k) ↔ _
    by_cases hal : a = l
    · subst hal
      rw [Function.update_self]
      constructor
      · intro hq
        rcases hq with ⟨q, hq, hk⟩
        exact ⟨r, hl, by rw [← hk, ← Option.some.inj hq, hslb]⟩
      · intro hq
        rcases hq with ⟨q, hq, hk⟩
        rw [hl, Option.some.injEq] at hq
        exact ⟨r', rfl, by rw [hslb, hq, hk]⟩
    · rw [Function.update_of_ne hal]
      exact Iff.rfl
  have hlist : t.lslbList = s.lslbList := by rw [← hs]
  have hblocks : t.blocks = s.blocks := by rw [← hs]
  have hstack : t.stack = s.stack := by rw [← hs]
  refine ⟨?_, hlist ▸ h.nodup, hlist ▸ h.nonzero, fun a => ?_, fun a k ha => ?_,
    fun a b k ha hb => ?_, hblocks ▸ h.keys, fun a o ho => ?_, fun pd a6 hf => ?_,
    fun pd a bp hf => ?_, hstack ▸ h.distinct, fun o hf => ?_, hstack ▸ h.nested⟩
  · rw [← hs]
    exact h.gone
  · simp only [hproc, hlist]
    exact h.mem a
  · rw [hblocks]
    exact h.held a k ((hproc a k).mp ha)
  · exact h.inj a b k ((hproc a k).mp ha) ((hproc b k).mp hb)
  · rw [hblocks] at ho
    cases h.owned a o ho with
    | lib l' hp => exact .lib l' ((hproc l' o).mpr hp)
    | dying hd => exact .dying (hstack ▸ hd)
    | initing pd l' hi => exact .initing pd l' (hstack ▸ hi)
  · rw [hlist]
    exact h.saved pd a6 (hstack ▸ hf)
  · have hi := h.initing pd a bp (hstack ▸ hf)
    exact ⟨hi.pd_ne, hlist ▸ hi.not_mem, hblocks ▸ hi.lslb, hblocks ▸ hi.base, hi.ne, hi.nonzero,
      fun b hb => hi.proc b ((hproc b bp).mp hb)⟩
  · have hd := h.dying o (hstack ▸ hf)
    exact ⟨fun b hb => hd.1 b ((hproc b o).mp hb), hstack ▸ hd.2⟩

theorem Inv.restack (h : Inv s) {st : List Frame}
    (hi : ∀ pd l bp, .initing pd l bp ∈ st ↔ .initing pd l bp ∈ s.stack)
    (hd : ∀ o, .dying o ∈ st ↔ .dying o ∈ s.stack)
    (hc : ∀ pd a6, .closing pd a6 ∈ st → a6 = 0 ∨ a6 ∈ s.lslbList)
    (hinit : initBps st = initBps s.stack) (hnested : Nested st) : Inv { s with stack := st } := by
  refine ⟨h.gone, h.nodup, h.nonzero, h.mem, h.held, h.inj, h.keys, fun a o ho => ?_, hc,
    fun pd l bp hf => ?_, ?_, fun o hf => ?_, hnested⟩
  · cases h.owned a o ho with
    | lib l hp => exact .lib l hp
    | dying hf => exact .dying ((hd o).mpr hf)
    | initing pd l hf => exact .initing pd l ((hi pd l o).mpr hf)
  · have hini := h.initing pd l bp ((hi pd l bp).mp hf)
    exact ⟨hini.pd_ne, hini.not_mem, hini.lslb, hini.base, hini.ne, hini.nonzero, hini.proc⟩
  · exact hinit ▸ h.distinct
  · have hdy := h.dying o ((hd o).mp hf)
    exact ⟨hdy.1, fun hmem => hdy.2 (hinit ▸ hmem)⟩

theorem Nested.cons {f : Frame} (hf : f.initBp = none) (h : Nested rest) : Nested (f :: rest) := by
  rcases h with ⟨u, v, huv, hu, hv⟩
  refine ⟨f :: u, v, by rw [huv]; rfl, fun g hg => ?_, hv⟩
  rcases List.mem_cons.mp hg with rfl | hg
  · exact hf
  · exact hu g hg

theorem Nested.tail {f : Frame} (hf : f.initBp = none) (h : Nested (f :: rest)) : Nested rest := by
  rcases h with ⟨u, v, huv, hu, hv⟩
  rcases u with - | ⟨g, u⟩
  · rw [List.nil_append] at huv
    exact absurd hf (hv f (huv ▸ List.mem_cons_self))
  · rcases List.cons.inj huv with ⟨-, huv⟩
    exact ⟨u, v, huv, fun g hg => hu g (List.mem_cons_of_mem _ hg), hv⟩

theorem Nested.initing (h : Nested (.initing pd l bp :: rest)) :
    ∀ f ∈ rest, f.initBp ≠ none := by
  rcases h with ⟨u, v, huv, hu, hv⟩
  intro f hf
  rcases u with - | ⟨g, u⟩
  · rw [List.nil_append] at huv
    exact hv f (huv ▸ List.mem_cons_of_mem _ hf)
  · rcases List.cons.inj huv with ⟨hg, -⟩
    exact absurd (hu g List.mem_cons_self) (by rw [← hg]; simp [Frame.initBp])

theorem Nested.of_all {st : List Frame} (h : ∀ f ∈ st, f.initBp ≠ none) : Nested st :=
  ⟨[], st, rfl, fun _ hf => absurd hf List.not_mem_nil, h⟩

theorem Inv.push_closing (h : Inv s) (pd : Nat) (ha : a6 = 0 ∨ a6 ∈ s.lslbList) :
    Inv { s with stack := .closing pd a6 :: s.stack } := by
  refine h.restack (fun _ _ _ => ?_) (fun _ => ?_) (fun q b hf => ?_) rfl (h.nested.cons rfl)
  · simp
  · simp
  · rcases List.mem_cons.mp hf with heq | hf
    · cases heq
      exact ha
    · exact h.saved q b hf

theorem Inv.pop_closing (h : Inv s) (hst : s.stack = .closing pd a6 :: rest) :
    Inv { s with stack := rest } := by
  have hnested := h.nested
  rw [hst] at hnested
  refine h.restack (fun _ _ _ => ?_) (fun _ => ?_) (fun q b hf => ?_) ?_ (hnested.tail rfl)
  · simp [hst]
  · simp [hst]
  · exact h.saved q b (by rw [hst]; exact List.mem_cons_of_mem _ hf)
  · rw [hst]
    rfl

end

end Slb

end MagiC
