import MagiC.Malloc.Spares

/-!
# No Memory in Pieces

What a run of requests leaves behind. The lists stay where they are, and in a well formed heap
the allocated blocks determine the free ones. So when everything that was handed out has been
taken back the lists are what they were, whatever the order of the calls.

## Main definitions

* `Heap.fixed`: What no request changes.

## Theorems

* `heap_restored`: A run that leaves the same blocks allocated.
-/

namespace MagiC

namespace Malloc

/-- Where the lists are and whom the kernel's own blocks belong to. -/
def Heap.fixed (h : Heap) : (Nat → Nat) × (Nat → Nat) × Nat × Nat :=
  (h.root, h.memEnd, h.actPd, h.urPd)

/-- All of this is as before in the heap that a routine returns. -/
def Fixes {α : Type} (h : Heap) (x : Option (Heap × α)) : Prop := ∀ y ∈ x, y.1.fixed = h.fixed

section

variable {α : Type} {h : Heap} {x y : Option (Heap × α)} {P : Prop} [Decidable P]

theorem Fixes.fail : Fixes h (none : Option (Heap × α)) := nofun

theorem Fixes.found {g : Heap} {v : α} (hg : g.fixed = h.fixed) : Fixes h (some (g, v)) := by
  intro y hy
  rw [← Option.some.inj hy]
  exact hg

theorem Fixes.same {v : α} : Fixes h (some (h, v)) := .found rfl

theorem Fixes.ite (hx : Fixes h x) (hy : Fixes h y) : Fixes h (if P then x else y) := by
  split_ifs
  · exact hx
  · exact hy

end

section

variable (h : Heap) (pd : Nat)

theorem mfreeBlock_fixed (a0 : Nat) : Fixes h (mfreeBlock h a0 pd) := by
  unfold mfreeBlock
  refine .ite .same (.ite .same ?_)
  extract_lets g k
  have hk : k.fixed = h.fixed := by
    unfold k
    split_ifs <;> rfl
  split
  · exact .fail
  · rintro y hy
    obtain ⟨m, -, rfl⟩ := Option.map_eq_some_iff.mp hy
    exact hk

theorem mfreeFree_fixed (a0 : Nat) : Fixes h (mfreeFree h a0 pd) := by
  unfold mfreeFree
  refine .ite ?_ (mfreeBlock_fixed h pd a0)
  split
  · exact .same
  · split
    · exact .same
    · exact .ite (.found rfl) (mfreeBlock_fixed _ pd a0)

theorem mxfree_fixed (memblk : Nat) : Fixes h (mxfree h memblk pd) :=
  .ite .same (.ite (mfreeFree_fixed h pd _) (.ite .same .same))

theorem mshShrink_fixed (a6 a5 d7 : Nat) : Fixes h (mshShrink h a6 a5 d7 pd) := by
  by_cases hbig : h.mem (a6 + mcbLen) - d7 ≤ mcbData
  · unfold mshShrink
    rw [if_pos hbig]
    exact .same
  · rw [mshShrink_eq h a6 a5 d7 pd hbig]
    exact fun y hy => (mxfree_fixed _ pd _ y hy).trans rfl

theorem mxshrink_fixed (memblk size : Nat) : Fixes h (mxshrink h memblk size pd) := by
  unfold mxshrink
  refine .ite (mxfree_fixed h pd memblk) (.ite .same (.ite .same (.ite .fail (.ite .same
    (.ite .same (.ite (mshShrink_fixed h pd _ _ _) (.ite .same (.ite .same (.ite .same ?_)))))))))
  split
  · exact .fail
  · exact mshShrink_fixed _ pd _ _ _

theorem mallocLast_fixed (amount list : Nat) : Fixes h (mallocLast h amount list) := by
  unfold mallocLast
  refine .ite .same ?_
  split
  · exact .fail
  · exact .ite .same (.found rfl)

theorem mxalloc_fixed (size mode : Nat) (ok : HeapOk h) (hpd : pd ≠ 0) :
    Fixes h (mxalloc h size mode pd) := by
  obtain ⟨g, r, heq, hcase⟩ := mxalloc_spec h ok size mode pd hpd
  rw [heq]
  rcases hcase with ⟨rfl, -⟩ | ⟨-, b, -, -, -, ht⟩
  · exact .same
  · refine .found ?_
    unfold Heap.fixed
    rw [ht.same.root, ht.same.memEnd, ht.same.actPd, ht.same.urPd]

end

theorem step_fixed {s t : World} {c : Call} (ok : HeapOk s.heap) (hst : step s c t) :
    t.heap.fixed = s.heap.fixed := by
  obtain ⟨hadm, hex⟩ := hst
  cases c with
  | mxalloc size mode pd =>
    obtain ⟨x, hx, rfl⟩ := Option.map_eq_some_iff.mp hex
    exact mxalloc_fixed _ pd size mode ok hadm x hx
  | mallocLast amount list =>
    obtain ⟨x, hx, rfl⟩ := Option.map_eq_some_iff.mp hex
    exact mallocLast_fixed _ amount list x hx
  | mxfree memblk pd =>
    obtain ⟨x, hx, rfl⟩ := Option.map_eq_some_iff.mp hex
    exact mxfree_fixed _ pd memblk x hx
  | mxshrink memblk size pd =>
    obtain ⟨x, hx, rfl⟩ := Option.map_eq_some_iff.mp hex
    have hfix := mxshrink_fixed _ pd memblk size x hx
    split_ifs
    · exact hfix
    · exact hfix

theorem run_fixed {s t : World} {calls : List Call} (hrun : Runs.Run step s calls t)
    (ok : WorldOk s) : t.heap.fixed = s.heap.fixed := by
  induction hrun with
  | nil s => rfl
  | cons s t u c calls h hrest ih =>
    have hone := run_ok s t [c] (.cons s t t c [] h (.nil t)) ok
    exact (ih hone).trans (step_fixed ok.heap h)

/-- When a run leaves those blocks allocated that were allocated when it began, the same blocks
    are free: no memory is lost, and none is left in pieces. -/
theorem heap_restored (h : Heap) (ok : HeapOk h) (calls : List Call) (t : World)
    (hrun : Runs.Run step ⟨h, []⟩ calls t) (hsame : ∀ c, Alloc t.heap c ↔ Alloc h c) (b : Block) :
    HasBlock t.heap b ↔ HasBlock h b := by
  have hw : WorldOk ⟨h, []⟩ := ⟨ok, fun e he => absurd he List.not_mem_nil, List.nodup_nil⟩
  have hok := (run_ok _ t calls hrun hw).heap
  obtain ⟨hroot, hrest⟩ := Prod.mk.inj (run_fixed hrun hw)
  obtain ⟨hend, hrest⟩ := Prod.mk.inj hrest
  obtain ⟨hact, hur⟩ := Prod.mk.inj hrest
  -- The blocks do not depend on the processes, which may have changed.
  let g : Heap := { t.heap with pds := h.pds }
  have hs : Same h g := ⟨hroot, hend, hact, hur, fun _ => rfl⟩
  have hok' : HeapOk g :=
    ⟨hok.lists, hok.apart, hok.bound, hok.marker, hok.last, hok.empty, hok.actPd, hok.urPd⟩
  have hto : HasBlock h b → HasBlock g b := hasBlock_of_alloc ok hok' hs hsame
  exact ⟨hasBlock_of_alloc (h := g) hok' ok (hs.symm _ _) fun c => (hsame c).symm, hto⟩

theorem not_alloc_single {h : Heap} {m : Mem} {a fin : Nat} {b c : Block}
    (hroot : h.root = (oneList m a fin).root) (hend : h.memEnd = (oneList m a fin).memEnd)
    (hl : RamList h.mem a fin [b]) (hfree : b.owner = 0) : ¬ Alloc h c := by
  rintro ⟨⟨i, bs, hi, hbs, hc⟩, hown⟩
  unfold IsList at hi
  rw [hroot] at hi
  rw [isList_oneList m a fin i hi, hroot, hend] at hbs
  rw [ramList_unique _ _ _ _ _ _ hbs hl, List.mem_singleton] at hc
  exact hown (hc ▸ hfree)

/-- A block is handed out of a fresh heap and taken back. -/
theorem heap_restored_fresh :
    ∃ t, Runs.Run step ⟨oneList freshMem 4096 8192, []⟩
        [.mxalloc 100 0 0x8000, .mxfree 4112 0x8000] t ∧
      HasBlock t.heap ⟨4096, KROM, 4080, 0⟩ := by
  have ok := heapOk_oneList freshMem 4096 8192 _ (by decide) (by decide) freshMem_ramList
  obtain ⟨s, t, hs, ht, hroot, hend, hlinked⟩ : ∃ s t,
      exec ⟨oneList freshMem 4096 8192, []⟩ (.mxalloc 100 0 0x8000) = some s ∧
        exec s (.mxfree 4112 0x8000) = some t ∧
        t.heap.root = (oneList freshMem 4096 8192).root ∧
        t.heap.memEnd = (oneList freshMem 4096 8192).memEnd ∧
        Linked t.heap.mem 0 [⟨4096, KROM, 4080, 0⟩] :=
    ⟨_, _, rfl, rfl, rfl, rfl, ⟨rfl, rfl, rfl, rfl⟩, trivial⟩
  have hfirst : step ⟨oneList freshMem 4096 8192, []⟩ (.mxalloc 100 0 0x8000) s :=
    ⟨Nat.succ_ne_zero _, hs⟩
  have hw := run_ok _ s _ (.cons _ s s _ _ hfirst (.nil s))
    ⟨ok, fun e he => absurd he List.not_mem_nil, List.nodup_nil⟩
  have hheld : ⟨4096, s.heap.mem 4100⟩ ∈ s.held := by
    obtain ⟨g, heq⟩ : ∃ g, mxalloc (oneList freshMem 4096 8192) 100 0 0x8000 = some (g, 4112) :=
      ⟨_, rfl⟩
    simp only [exec, heq, Option.map_some, Option.some.injEq] at hs
    rw [← hs]
    exact List.mem_cons_self
  obtain ⟨b, hb, hadr, -⟩ := hw.held _ hheld
  have hsecond : step s (.mxfree 4112 0x8000) t := ⟨.inl ⟨b, hb, by rw [hadr]; rfl⟩, ht⟩
  have hrun := Runs.Run.cons _ s t _ _ hfirst (.cons s t t _ _ hsecond (.nil t))
  have hlist : RamList t.heap.mem 4096 8192 [⟨4096, KROM, 4080, 0⟩] :=
    ⟨hlinked, freshMem_ramList.tiled, freshMem_ramList.coalesced⟩
  exact ⟨t, hrun, (heap_restored _ ok _ t hrun (fun c =>
    iff_of_false (not_alloc_single hroot hend hlist rfl)
      (not_alloc_single rfl rfl freshMem_ramList rfl)) _).mpr
    ⟨0, _, ⟨by decide, by decide, by decide⟩, freshMem_ramList, List.mem_singleton_self _⟩⟩

end Malloc

end MagiC
