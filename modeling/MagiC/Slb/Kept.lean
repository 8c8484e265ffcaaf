import MagiC.Slb.Counted

/-!
# Loading and Removing Shared Libraries

The parts of a step that give out memory or take it back. Each of them keeps what holds in every
state.

A library that is removed is taken out of the list before its process is. Its memory other than
its entry in the list then belongs to a process that is being removed, and is freed when the
libraries that process has opened have been closed. No library that is closed later may be the
removed one, which is the hypothesis of `Inv.remove`.

## Theorems

* `unlinked`: An initialisation that fails.
-/

namespace MagiC

namespace Slb

section

variable {s : State} {l k pd bp env procdata minVer : Nat} {r : Lslb} {rest : List Frame}

theorem Inv.kill (h : Inv s) (hk : ∀ a, ¬ s.Proc a k) (hinit : k ∉ initBps s.stack) :
    Inv (s.pdkill k) := by
  have hdying : Inv { s with stack := .dying k :: s.stack } := by
    refine ⟨h.gone, h.nodup, h.nonzero, h.mem, h.held, h.inj, h.keys, fun a o ho => ?_,
      fun q b hf => ?_, fun q a b hf => ?_, h.distinct, fun o hf => ?_, h.nested.cons rfl⟩
    · cases h.owned a o ho with
      | lib a hp => exact .lib a hp
      | dying hf => exact .dying (List.mem_cons_of_mem _ hf)
      | initing q a hf => exact .initing q a (List.mem_cons_of_mem _ hf)
    · exact h.saved q b ((List.mem_cons.mp hf).resolve_left (by rintro ⟨⟩))
    · have hi := h.initing q a b ((List.mem_cons.mp hf).resolve_left (by rintro ⟨⟩))
      exact ⟨hi.pd_ne, hi.not_mem, hi.lslb, hi.base, hi.ne, hi.nonzero, hi.proc⟩
    · rcases List.mem_cons.mp hf with heq | hf
      · cases heq
        exact ⟨hk, hinit⟩
      · exact h.dying o hf
  exact hdying.push_closing k (head_saved _)

theorem Inv.remove (h : Inv s) (hl : s.lslbs l = some r)
    (hfree : ∀ pd, .closing pd l ∉ s.stack) : Inv (s.slbfree l) := by
  have hproc : s.Proc l r.lslbSlb := ⟨r, hl, rfl⟩
  have hmem : l ∈ s.lslbList := (h.mem l).mp ⟨_, hproc⟩
  have hheld := h.held l _ hproc
  rw [State.slbfree, if_pos hmem, hl]
  generalize ht : ({ s with
    lslbList := s.lslbList.erase l
    lslbs := Function.update s.lslbs l none } : State).mxfree l = t
  show Inv (t.pdkill r.lslbSlb)
  have hlist : t.lslbList = s.lslbList.erase l := by rw [← ht]; rfl
  have hstack : t.stack = s.stack := by rw [← ht]; rfl
  have hblocks : ∀ a o, (a, o) ∈ t.blocks ↔ (a, o) ∈ s.blocks ∧ a ≠ l := by
    intro a o
    rw [← ht]
    show (a, o) ∈ s.blocks.filter _ ↔ _
    rw [List.mem_filter, decide_eq_true_iff]
  have hprocs : ∀ a k, t.Proc a k ↔ s.Proc a k ∧ a ≠ l := by
    intro a k
    rw [← ht]
    show (∃ q, Function.update s.lslbs l none a = some q ∧ q.lslbSlb = k) ↔ _
    by_cases hal : a = l
    · rw [hal, Function.update_self]
      simp
    · rw [Function.update_of_ne hal]
      exact ⟨fun hq => ⟨hq, hal⟩, And.left⟩
  -- No other memory that is in use is at the address of the library.
  have hother : ∀ a k, (a, k) ∈ s.blocks → (k, k) ∈ s.blocks → a ≠ l → k ≠ l := by
    intro a k _ hk _ hkl
    rw [hkl] at hk
    exact hheld.2.2 (h.owner_unique hk hheld.1)
  have hdying : ∀ a, ¬ t.Proc a r.lslbSlb :=
    fun a ha => ((hprocs a _).mp ha).2 (h.inj a l _ ((hprocs a _).mp ha).1 hproc)
  have hinit : r.lslbSlb ∉ initBps s.stack := by
    intro hin
    rcases mem_initBps.mp hin with ⟨pd, b, hf⟩
    exact (h.initing pd b _ hf).proc l hproc
  have hd : Inv { t with stack := .dying r.lslbSlb :: t.stack } := by
    refine ⟨?_, ?_, ?_, fun a => ?_, fun a k ha => ?_, fun a b k ha hb => ?_, ?_, fun a o ho => ?_,
      fun q b hf => ?_, fun q a b hf => ?_, ?_, fun o hf => ?_, ?_⟩
    · show t.gone = false
      rw [← ht]
      exact h.gone
    · show t.lslbList.Nodup
      rw [hlist]
      exact h.nodup.erase l
    · show 0 ∉ t.lslbList
      rw [hlist]
      exact fun h0 => h.nonzero (List.mem_of_mem_erase h0)
    · show (∃ k, t.Proc a k) ↔ a ∈ t.lslbList
      rw [hlist, h.nodup.mem_erase_iff, ← h.mem a]
      constructor
      · intro hq
        rcases hq with ⟨k, hk⟩
        exact ⟨((hprocs a k).mp hk).2, k, ((hprocs a k).mp hk).1⟩
      · intro hq
        rcases hq with ⟨hal, k, hk⟩
        exact ⟨k, (hprocs a k).mpr ⟨hk, hal⟩⟩
    · have ha := (hprocs a k).mp ha
      rcases h.held a k ha.1 with ⟨h₁, h₂, h₃⟩
      exact ⟨(hblocks _ _).mpr ⟨h₁, ha.2⟩, (hblocks _ _).mpr ⟨h₂, hother a k h₁ h₂ ha.2⟩, h₃⟩
    · exact h.inj a b k ((hprocs a k).mp ha).1 ((hprocs b k).mp hb).1
    · show (t.blocks.map Prod.fst).Nodup
      rw [← ht]
      exact h.keys.sublist (List.filter_sublist.map _)
    · have ho := (hblocks a o).mp ho
      cases h.owned a o ho.1 with
      | lib b hp =>
        -- What the library has owned belongs to a process that is being removed.
        by_cases hbl : b = l
        · have heq : r.lslbSlb = o := hproc.unique (hbl ▸ hp)
          exact .dying (heq ▸ List.mem_cons_self)
        · exact .lib b ((hprocs b o).mpr ⟨hp, hbl⟩)
      | dying hf => exact .dying (List.mem_cons_of_mem _ (hstack ▸ hf))
      | initing q b hf => exact .initing q b (List.mem_cons_of_mem _ (hstack ▸ hf))
    · have hf := (List.mem_cons.mp hf).resolve_left (by rintro ⟨⟩)
      rw [hstack] at hf
      show b = 0 ∨ b ∈ t.lslbList
      rw [hlist, h.nodup.mem_erase_iff]
      exact (h.saved q b hf).imp_right fun hb => ⟨fun hbl => hfree q (hbl ▸ hf), hb⟩
    · have hf := (List.mem_cons.mp hf).resolve_left (by rintro ⟨⟩)
      rw [hstack] at hf
      have hi := h.initing q a b hf
      have hal : a ≠ l := fun hal => hi.not_mem (hal ▸ hmem)
      refine ⟨hi.pd_ne, ?_, (hblocks _ _).mpr ⟨hi.lslb, hal⟩,
        (hblocks _ _).mpr ⟨hi.base, hother a b hi.lslb hi.base hal⟩, hi.ne, hi.nonzero,
        fun c hc => hi.proc c ((hprocs c b).mp hc).1⟩
      show a ∉ t.lslbList
      rw [hlist]
      exact fun ha => hi.not_mem (List.mem_of_mem_erase ha)
    · show (initBps t.stack).Nodup
      rw [hstack]
      exact h.distinct
    · show (∀ b, ¬ t.Proc b o) ∧ o ∉ initBps t.stack
      rw [hstack]
      rcases List.mem_cons.mp hf with heq | hf
      · cases heq
        exact ⟨hdying, hinit⟩
      · have hd := h.dying o (hstack ▸ hf)
        exact ⟨fun b hb => hd.1 b ((hprocs b o).mp hb).1, hd.2⟩
    · show Nested (.dying r.lslbSlb :: t.stack)
      rw [hstack]
      exact h.nested.cons rfl
  exact hd.push_closing r.lslbSlb (head_saved _)

theorem Inv.pfree_lslbs (h : Inv s) (hdy : .dying pd ∈ s.stack) : (s.pfree pd).lslbs = s.lslbs := by
  funext a
  show (if (a, pd) ∈ s.blocks then none else s.lslbs a) = s.lslbs a
  split
  · rename_i hin
    rcases Option.eq_none_or_eq_some (s.lslbs a) with ha | ⟨q, ha⟩
    · exact ha.symm
    · have hp : s.Proc a q.lslbSlb := ⟨q, ha, rfl⟩
      have heq := h.owner_unique hin (h.held a _ hp).1
      exact absurd (heq ▸ hp) ((h.dying pd hdy).1 a)
  · rfl

theorem Inv.pfree (h : Inv s) (hst : s.stack = .dying pd :: rest) :
    Inv (State.pfree { s with stack := rest } pd) := by
  have hdy : .dying pd ∈ s.stack := by
    rw [hst]
    exact List.mem_cons_self
  have hsub : ∀ f ∈ rest, f ∈ s.stack := fun f hf => hst ▸ List.mem_cons_of_mem _ hf
  have hbps : initBps rest = initBps s.stack := by
    rw [hst]
    rfl
  generalize ht : State.pfree { s with stack := rest } pd = t
  have hlslbs : t.lslbs = s.lslbs := ht ▸ h.pfree_lslbs hdy
  have hprocs : ∀ a k, t.Proc a k ↔ s.Proc a k := by
    intro a k
    unfold State.Proc
    rw [hlslbs]
  have hlist : t.lslbList = s.lslbList := by rw [← ht]; rfl
  have hstack : t.stack = rest := by rw [← ht]; rfl
  have hblocks : ∀ a o, (a, o) ∈ t.blocks ↔ (a, o) ∈ s.blocks ∧ o ≠ pd := by
    intro a o
    rw [← ht]
    show (a, o) ∈ s.blocks.filter _ ↔ _
    rw [List.mem_filter, decide_eq_true_iff]
  have hlib : ∀ a k, s.Proc a k → k ≠ pd := fun a k ha hk => (h.dying pd hdy).1 a (hk ▸ ha)
  have hinit : ∀ q a b, .initing q a b ∈ rest → b ≠ pd := fun q a b hf hb =>
    (h.dying pd hdy).2 (mem_initBps.mpr ⟨q, a, hb ▸ hsub _ hf⟩)
  refine ⟨?_, hlist ▸ h.nodup, hlist ▸ h.nonzero, fun a => ?_, fun a k ha => ?_,
    fun a b k ha hb => ?_, ?_, fun a o ho => ?_, fun q b hf => ?_, fun q a b hf => ?_, ?_,
    fun o hf => ?_, ?_⟩
  · rw [← ht]
    exact h.gone
  · simp only [hprocs, hlist]
    exact h.mem a
  · have ha := (hprocs a k).mp ha
    rcases h.held a k ha with ⟨h₁, h₂, h₃⟩
    exact ⟨(hblocks _ _).mpr ⟨h₁, hlib a k ha⟩, (hblocks _ _).mpr ⟨h₂, hlib a k ha⟩, h₃⟩
  · exact h.inj a b k ((hprocs a k).mp ha) ((hprocs b k).mp hb)
  · rw [← ht]
    exact h.keys.sublist (List.filter_sublist.map _)
  · have ho := (hblocks a o).mp ho
    cases h.owned a o ho.1 with
    | lib b hp => exact .lib b ((hprocs b o).mpr hp)
    | dying hf =>
      rw [hst] at hf
      rcases List.mem_cons.mp hf with heq | hf
      · exact absurd (Frame.dying.inj heq) ho.2
      · exact .dying (hstack ▸ hf)
    | initing q b hf =>
      rw [hst] at hf
      exact .initing q b (hstack ▸ (List.mem_cons.mp hf).resolve_left (by rintro ⟨⟩))
  · rw [hlist]
    exact h.saved q b (hsub _ (hstack ▸ hf))
  · rw [hstack] at hf
    have hi := h.initing q a b (hsub _ hf)
    exact ⟨hi.pd_ne, hlist ▸ hi.not_mem, (hblocks _ _).mpr ⟨hi.lslb, hinit q a b hf⟩,
      (hblocks _ _).mpr ⟨hi.base, hinit q a b hf⟩, hi.ne, hi.nonzero,
      fun c hc => hi.proc c ((hprocs c b).mp hc)⟩
  · rw [hstack, hbps]
    exact h.distinct
  · have hd := h.dying o (hsub _ (hstack ▸ hf))
    rw [hstack, hbps]
    exact ⟨fun b hb => hd.1 b ((hprocs b o).mp hb), hd.2⟩
  · rw [hstack]
    have hnested := h.nested
    rw [hst] at hnested
    exact hnested.tail rfl

theorem blocksOf_new {lslb : Nat} (hf : Fresh s bp procdata env lslb) (hl : lslb ≠ 0) :
    (((lslb, bp) :: blocksOf bp procdata env bp).map Prod.fst).Nodup ∧
      ∀ b ∈ (lslb, bp) :: blocksOf bp procdata env bp, s.Unused b.1 ∧ b.2 = bp := by
  rcases hf with ⟨hbp, hpr, henv, hls, h₁, h₂, h₃, h₄, h₅, h₆⟩
  have hls := hls.resolve_left hl
  have h₆ : env ≠ lslb := fun heq => hl (heq ▸ h₆ heq)
  unfold blocksOf
  constructor
  · split
    · simp only [List.append_nil, List.map_cons, List.map_nil]
      simp [h₁, h₃.symm, h₅.symm]
    · simp only [List.cons_append, List.nil_append, List.map_cons, List.map_nil]
      simp [h₁, h₂, h₄, h₃.symm, h₅.symm, h₆.symm]
  · intro b hb
    split at hb
    · simp only [List.append_nil, List.mem_cons, List.not_mem_nil, or_false] at hb
      rcases hb with rfl | rfl | rfl
      · exact ⟨hls, rfl⟩
      · exact ⟨hbp, rfl⟩
      · exact ⟨hpr, rfl⟩
    · rename_i henv0
      simp only [List.cons_append, List.nil_append, List.mem_cons, List.not_mem_nil,
        or_false] at hb
      rcases hb with rfl | rfl | rfl | rfl
      · exact ⟨hls, rfl⟩
      · exact ⟨hbp, rfl⟩
      · exact ⟨hpr, rfl⟩
      · exact ⟨henv.resolve_left henv0, rfl⟩

theorem Inv.load {lslb : Nat} {slb : Header} (h : Inv s) (hwait : ∀ f ∈ s.stack, f.initBp ≠ none)
    (hf : Fresh s bp procdata env lslb) (hl : lslb ≠ 0) (hpd : pd ≠ 0) :
    Inv { s with
      blocks := (lslb, bp) :: blocksOf bp procdata env bp ++ s.blocks
      slbs := Function.update s.slbs bp slb
      stack := .initing pd lslb bp :: s.stack } := by
  rcases blocksOf_new hf hl with ⟨hnodup, hnew⟩
  have hbpu : s.Unused bp := hf.1
  have hlsu : s.Unused lslb := hf.2.2.2.1.resolve_left hl
  have hne : lslb ≠ bp := hf.2.2.2.2.2.2.1.symm
  generalize hnews : (lslb, bp) :: blocksOf bp procdata env bp = news at hnodup hnew
  have hls : (lslb, bp) ∈ news := hnews ▸ List.mem_cons_self
  have hbp : (bp, bp) ∈ news := hnews ▸ List.mem_cons_of_mem _ List.mem_cons_self
  have hold : ∀ {b}, b ∈ s.blocks → b ∈ news ++ s.blocks := fun hb => List.mem_append_right _ hb
  -- The process of a library and a library that is initialised have memory, so they are not new.
  have hlib : ∀ a k, s.Proc a k → a ≠ lslb ∧ k ≠ bp := fun a k ha =>
    ⟨fun he => hlsu.2 _ (h.held a k ha).1 he, fun he => hbpu.2 _ (h.held a k ha).2.1 he⟩
  have hinit : bp ∉ initBps s.stack := by
    intro hin
    rcases mem_initBps.mp hin with ⟨q, a, hq⟩
    exact hbpu.2 _ (h.initing q a bp hq).base rfl
  have hnone : ∀ f : Frame, f ∈ Frame.initing pd lslb bp :: s.stack → f.initBp ≠ none := by
    intro f hf
    rcases List.mem_cons.mp hf with rfl | hf
    · simp [Frame.initBp]
    · exact hwait f hf
  refine ⟨h.gone, h.nodup, h.nonzero, h.mem, fun a k ha => ?_, h.inj, ?_, fun a o ho => ?_,
    fun q b hf => ?_, fun q a b hf => ?_, ?_, fun o hf => ?_, Nested.of_all hnone⟩
  · rcases h.held a k ha with ⟨h₁, h₂, h₃⟩
    exact ⟨hold h₁, hold h₂, h₃⟩
  · show ((news ++ s.blocks).map Prod.fst).Nodup
    rw [List.map_append, List.nodup_append]
    refine ⟨hnodup, h.keys, fun a ha b hb hab => ?_⟩
    rcases List.mem_map.mp ha with ⟨x, hx, rfl⟩
    rcases List.mem_map.mp hb with ⟨y, hy, rfl⟩
    exact (hnew x hx).1.2 y hy hab.symm
  · rcases List.mem_append.mp ho with hn | hb
    · have ho : o = bp := (hnew _ hn).2
      exact .initing pd lslb (ho ▸ List.mem_cons_self)
    · cases h.owned a o hb with
      | lib b hp => exact .lib b hp
      | dying hf => exact absurd rfl (hwait _ hf)
      | initing q b hf => exact .initing q b (List.mem_cons_of_mem _ hf)
  · exact h.saved q b ((List.mem_cons.mp hf).resolve_left (by rintro ⟨⟩))
  · rcases List.mem_cons.mp hf with heq | hf
    · cases heq
      refine ⟨hpd, fun hin => ?_, List.mem_append_left _ hls, List.mem_append_left _ hbp, ?_, hl,
        fun c hc => (hlib c _ hc).2 rfl⟩
      · rcases (h.mem lslb).mpr hin with ⟨k, hk⟩
        exact (hlib lslb k hk).1 rfl
      · exact hne
    · have hi := h.initing q a b hf
      exact ⟨hi.pd_ne, hi.not_mem, hold hi.lslb, hold hi.base, hi.ne, hi.nonzero, hi.proc⟩
  · exact List.nodup_cons.mpr ⟨hinit, h.distinct⟩
  · exact absurd rfl (hnone _ hf)

theorem Inv.link (h : Inv s) (hst : s.stack = .initing pd l bp :: rest) (n : Nat)
    (tab : List Nat) : Inv { s with
      stack := rest
      lslbList := l :: s.lslbList
      lslbs := Function.update s.lslbs l (some ⟨bp, n, tab⟩) } := by
  have hf : .initing pd l bp ∈ s.stack := by
    rw [hst]
    exact List.mem_cons_self
  have hi := h.initing pd l bp hf
  have hsub : ∀ f ∈ rest, f ∈ s.stack := fun f hf => hst ▸ List.mem_cons_of_mem _ hf
  have hwait : ∀ f ∈ rest, f.initBp ≠ none := by
    have hnested := h.nested
    rw [hst] at hnested
    exact hnested.initing
  have hdistinct : bp ∉ initBps rest ∧ (initBps rest).Nodup := by
    have hd := h.distinct
    rw [hst] at hd
    exact List.nodup_cons.mp hd
  generalize ht : ({ s with
    stack := rest
    lslbList := l :: s.lslbList
    lslbs := Function.update s.lslbs l (some ⟨bp, n, tab⟩) } : State) = t
  have hprocs : ∀ a k, t.Proc a k ↔ (a = l ∧ k = bp) ∨ (a ≠ l ∧ s.Proc a k) := by
    intro a k
    rw [← ht]
    show (∃ q, Function.update s.lslbs l (some ⟨bp, n, tab⟩) a = some q ∧ q.lslbSlb = k) ↔ _
    by_cases hal : a = l
    · rw [hal, Function.update_self]
      constructor
      · intro hq
        rcases hq with ⟨q, hq, hk⟩
        exact .inl ⟨rfl, by rw [← hk, ← Option.some.inj hq]⟩
      · intro hq
        rcases hq with ⟨-, rfl⟩ | ⟨hne, -⟩
        · exact ⟨_, rfl, rfl⟩
        · exact absurd rfl hne
    · rw [Function.update_of_ne hal]
      constructor
      · exact fun hq => .inr ⟨hal, hq⟩
      · exact fun hq => (hq.resolve_left fun hq => hal hq.1).2
  have hlist : t.lslbList = l :: s.lslbList := by rw [← ht]
  have hblocks : t.blocks = s.blocks := by rw [← ht]
  have hstack : t.stack = rest := by rw [← ht]
  have hne : ∀ a, a ∈ s.lslbList → a ≠ l := fun a ha hal => hi.not_mem (hal ▸ ha)
  -- Another library that is initialised has other memory.
  have hother : ∀ q a b, .initing q a b ∈ rest → a ≠ l ∧ b ≠ bp := by
    intro q a b hq
    have hb : b ≠ bp := fun hb => hdistinct.1 (mem_initBps.mpr ⟨q, a, hb ▸ hq⟩)
    refine ⟨fun hal => hb ?_, hb⟩
    exact h.owner_unique (hal ▸ (h.initing q a b (hsub _ hq)).lslb) hi.lslb
  refine ⟨?_, ?_, ?_, fun a => ?_, fun a k ha => ?_, fun a b k ha hb => ?_, hblocks ▸ h.keys,
    fun a o ho => ?_, fun q b hq => ?_, fun q a b hq => ?_, hstack ▸ hdistinct.2, fun o hq => ?_,
    hstack ▸ Nested.of_all hwait⟩
  · rw [← ht]
    exact h.gone
  · rw [hlist]
    exact List.nodup_cons.mpr ⟨hi.not_mem, h.nodup⟩
  · rw [hlist]
    exact fun h0 => (List.mem_cons.mp h0).elim hi.nonzero.symm h.nonzero
  · rw [hlist, List.mem_cons, ← h.mem a]
    constructor
    · intro hq
      rcases hq with ⟨k, hk⟩
      rcases (hprocs a k).mp hk with ⟨hal, -⟩ | ⟨-, hk⟩
      · exact .inl hal
      · exact .inr ⟨k, hk⟩
    · intro hq
      rcases hq with hal | ⟨k, hk⟩
      · exact ⟨bp, (hprocs a bp).mpr (.inl ⟨hal, rfl⟩)⟩
      · exact ⟨k, (hprocs a k).mpr (.inr ⟨hne a ((h.mem a).mp ⟨k, hk⟩), hk⟩)⟩
  · rw [hblocks]
    rcases (hprocs a k).mp ha with ⟨rfl, rfl⟩ | ⟨-, ha⟩
    · exact ⟨hi.lslb, hi.base, hi.ne⟩
    · exact h.held a k ha
  · rcases (hprocs a k).mp ha with ⟨rfl, rfl⟩ | ⟨-, ha⟩
    · rcases (hprocs b k).mp hb with ⟨rfl, -⟩ | ⟨-, hb⟩
      · rfl
      · exact absurd hb (hi.proc b)
    · rcases (hprocs b k).mp hb with ⟨rfl, rfl⟩ | ⟨-, hb⟩
      · exact absurd ha (hi.proc a)
      · exact h.inj a b k ha hb
  · rw [hblocks] at ho
    cases h.owned a o ho with
    | lib b hp => exact .lib b ((hprocs b o).mpr (.inr ⟨hne b ((h.mem b).mp ⟨o, hp⟩), hp⟩))
    | dying hf =>
      rw [hst] at hf
      exact absurd rfl (hwait _ ((List.mem_cons.mp hf).resolve_left (by rintro ⟨⟩)))
    | initing q b hf =>
      rw [hst] at hf
      rcases List.mem_cons.mp hf with heq | hf
      · cases heq
        exact .lib l ((hprocs l bp).mpr (.inl ⟨rfl, rfl⟩))
      · exact .initing q b (hstack ▸ hf)
  · exact absurd rfl (hwait _ (hstack ▸ hq))
  · rw [hstack] at hq
    have hj := h.initing q a b (hsub _ hq)
    have hab := hother q a b hq
    refine ⟨hj.pd_ne, ?_, hblocks ▸ hj.lslb, hblocks ▸ hj.base, hj.ne, hj.nonzero, fun c hc => ?_⟩
    · rw [hlist, List.mem_cons]
      exact fun ha => ha.elim hab.1 hj.not_mem
    · rcases (hprocs c b).mp hc with ⟨-, hb⟩ | ⟨-, hc⟩
      · exact hab.2 hb
      · exact hj.proc c hc
  · exact absurd rfl (hwait _ (hstack ▸ hq))

/-- An initialisation that fails does what linking the library and removing it again does. -/
theorem unlinked (h : Inv s) (hst : s.stack = .initing pd l bp :: rest) (n : Nat)
    (tab : List Nat) :
    State.slbfree { s with
      stack := rest
      lslbList := l :: s.lslbList
      lslbs := Function.update s.lslbs l (some ⟨bp, n, tab⟩) } l =
      (State.mxfree { s with stack := rest } l).pdkill bp := by
  have hi := h.initing pd l bp (hst ▸ List.mem_cons_self)
  have hnone : s.lslbs l = none := by
    rcases Option.eq_none_or_eq_some (s.lslbs l) with hl | ⟨q, hl⟩
    · exact hl
    · exact absurd ((h.mem l).mp ⟨_, q, hl, rfl⟩) hi.not_mem
  rw [State.slbfree, if_pos List.mem_cons_self]
  simp only [Function.update_self, List.erase_cons_head, Function.update_idem]
  rw [← hnone, Function.update_eq_self]

end

end Slb

end MagiC
