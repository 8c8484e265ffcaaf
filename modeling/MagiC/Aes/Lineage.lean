import MagiC.Aes.Family
import Mathlib.Data.BitVec

/-!
# Where an Object Is

The place of an object is kept as a distance from its parent. Where it is on the screen is
the sum of these distances over the object and its ancestors.

In a well-formed tree an object has one list of ancestors, which goes up to the root and has
no object twice. So the loop that follows the parents comes to its end, and two lists that
belong to the same object are the same list. What is said of a subtree below is said of the
lists that end in the one of its root.

## Main definitions

* `Lineage`: The ancestors of an object.

## Theorems

* `Lineage.offset`: The loop adds up the distances.
-/

namespace MagiC

namespace Aes

namespace Obj

open Chains

/-- The objects of a tree with their places and flags. -/
structure Objects extends Objs where
  obFlags : Nat → BitVec 16
  obX : Nat → BitVec 16
  obY : Nat → BitVec 16
  obWidth : Nat → BitVec 16
  obHeight : Nat → BitVec 16

def Objects.word (t : Objects) (f : Nat → BitVec 16) (o : Nat) : Except Fault (BitVec 16) :=
  if o < t.size then .ok (f o) else .error .outside

/-- The flag that hides the children of an object, and the object itself from a search. -/
def HIDETREE (flags : BitVec 16) : Bool := flags.getLsbD 7

/-- The loop of `_objc_offset`, which stops at the root and at no object. -/
def offsLoop (t : Objects) : Nat → Nat → BitVec 16 → BitVec 16 →
    Except Fault (BitVec 16 × BitVec 16)
  | 0, _, _, _ => .error .endless
  | n + 1, d0, d3, d4 => do
    let obX ← t.word t.obX d0
    let obY ← t.word t.obY d0
    if d0 = 0 ∨ 0x8000 ≤ d0 then return (d3 + obX, d4 + obY)
    let d0 ← parentob t.toObjs d0
    offsLoop t n d0 (d3 + obX) (d4 + obY)

def objcOffset (t : Objects) (objnr : Nat) : Except Fault (BitVec 16 × BitVec 16) :=
  offsLoop t t.size objnr 0 0

/-- The objects from one to the last one, by the links. -/
def line (t : Objs) (last : Nat) : Nat → Nat → List Nat
  | 0, _ => []
  | n + 1, c => if c = last then [c] else c :: line t last n (t.obNext c)

/-- The child list of an object, from the links. -/
def children (t : Objs) (x : Nat) : List Nat :=
  if t.obHead x = NIL then [] else line t (t.obTail x) t.size (t.obHead x)

/-- The ancestors of an object, from its parent to the root. -/
inductive Lineage (t : Objs) : Nat → List Nat → Prop where
  | root : Lineage t 0 []
  | child {p c : Nat} {l k : List Nat} (hp : Lineage t p l) (hk : Kids t p k) (hc : c ∈ k) :
      Lineage t c (p :: l)

/-- The distances to the left of the screen, added up. -/
def placeX (t : Objects) (l : List Nat) : BitVec 16 := (l.map t.obX).sum

/-- The distances to the top of the screen, added up. -/
def placeY (t : Objects) (l : List Nat) : BitVec 16 := (l.map t.obY).sum

section

variable {t : Objs} {p x y c last : Nat} {k l m : List Nat}

theorem line_eq (n : Nat) (hp : Path t.obNext c (k ++ [last]) p) (hl : last ∉ k)
    (hn : k.length < n) : line t last n c = k ++ [last] := by
  induction k generalizing c n with
  | nil =>
    rcases n with - | n
    · exact absurd hn (Nat.not_lt_zero _)
    · rw [hp.1, line, if_pos rfl, List.nil_append]
  | cons z k ih =>
    rcases n with - | n
    · exact absurd hn (Nat.not_lt_zero _)
    · have hne : z ≠ last := fun heq => hl (heq ▸ List.mem_cons_self)
      rw [hp.1, line, if_neg hne, List.cons_append,
        ih n hp.2 (fun hm => hl (List.mem_cons_of_mem z hm)) (by simpa using hn)]

/-- The child list is the one that the links give. -/
theorem Kids.children (h : Kids t x l) : children t x = l := by
  rcases List.eq_nil_or_concat l with rfl | ⟨k, last, rfl⟩
  · rcases h.sibs with ⟨-, hhead, -⟩ | ⟨hne, -⟩
    · exact if_pos hhead
    · exact absurd rfl hne
  · rw [List.concat_eq_append] at h ⊢
    rcases h.sibs.path (by simp) with ⟨hpath, htail⟩
    have hlast : last = t.obTail x := by simpa using htail
    have hhead := h.sibs.head_mem (by simp)
    have hnd := h.nodup
    have hlen := h.length_le
    rw [List.nodup_append] at hnd
    rw [List.length_append, List.length_singleton] at hlen
    rw [Obj.children, if_neg (ne_NIL (h.lt _ hhead)), ← hlast]
    exact line_eq t.size hpath (fun hm => hnd.2.2 last hm last List.mem_cons_self rfl) (by omega)

theorem Lineage.reach (h : Lineage t x l) : Reach t 0 x := by
  induction h with
  | root => exact Reach.root
  | child _ hk hc ih => exact Reach.child ih hk hc

theorem Reach.lineage (h : Reach t 0 x) : ∃ l, Lineage t x l := by
  induction h with
  | root => exact ⟨[], Lineage.root⟩
  | child _ hk hc ih =>
    rcases ih with ⟨l, hl⟩
    exact ⟨_, Lineage.child hl hk hc⟩

theorem Lineage.unique (hw : WellFormed t 0) (h : Lineage t x l) (h' : Lineage t x m) : l = m := by
  induction h generalizing m with
  | root =>
    cases h' with
    | root => rfl
    | child hp hk hc => exact absurd hc (hw.root _ _ hp.reach hk)
  | child hp hk hc ih =>
    cases h' with
    | root => exact absurd hc (hw.root _ _ hp.reach hk)
    | child hp' hk' hc' =>
      have heq := hw.once _ _ _ _ _ hp.reach hp'.reach hk hk' hc hc'
      subst heq
      rw [ih hp']

theorem Lineage.rest (h : Lineage t x (k ++ y :: m)) : Lineage t y m := by
  induction k generalizing x with
  | nil =>
    cases h with
    | child hp _ _ => exact hp
  | cons z k ih =>
    cases h with
    | child hp _ _ => exact ih hp

theorem Lineage.rest_cons (h : Lineage t x l) (he : x :: l = k ++ y :: m) : Lineage t y m := by
  rcases k with - | ⟨z, k⟩
  · injection he with hx hl
    rwa [← hx, ← hl]
  · injection he with hx hl
    exact (hl ▸ h).rest

section

variable (hw : WellFormed t 0) (h : Lineage t x l)

include hw h

theorem Lineage.length_lt_of_mem (hy : Lineage t y m) (hmem : y ∈ l) : m.length < l.length := by
  rcases List.append_of_mem hmem with ⟨k, j, rfl⟩
  rw [hy.unique hw h.rest, List.length_append, List.length_cons]
  omega

theorem Lineage.not_mem : x ∉ l := by
  intro hx
  exact Nat.lt_irrefl _ (h.length_lt_of_mem hw h hx)

theorem Lineage.nodup : (x :: l).Nodup := by
  induction h with
  | root => exact List.nodup_singleton 0
  | child hp hk hc ih => exact List.nodup_cons.mpr ⟨(Lineage.child hp hk hc).not_mem hw, ih⟩

theorem Lineage.lt : ∀ y ∈ x :: l, y < t.size := by
  induction h with
  | root =>
    intro y hy
    rw [List.mem_singleton.mp hy]
    exact hw.lt
  | child hp hk hc ih =>
    intro y hy
    rcases List.mem_cons.mp hy with rfl | hy
    · exact hk.lt y hc
    · exact ih y hy

theorem Lineage.length_lt : l.length < t.size := by
  have hsub : x :: l ⊆ List.range t.size := fun y hy => List.mem_range.mpr (h.lt hw y hy)
  have hle := (List.subperm_of_subset (h.nodup hw) hsub).length_le
  rwa [List.length_range] at hle

end

end

section

variable {t : Objects} {x : Nat} {l : List Nat}

theorem word_ok {f : Nat → BitVec 16} (h : x < t.size) : t.word f x = .ok (f x) := if_pos h

theorem placeX_cons (t : Objects) (x : Nat) (l : List Nat) :
    placeX t (x :: l) = t.obX x + placeX t l := by
  rw [placeX, List.map_cons, List.sum_cons]
  rfl

theorem placeY_cons (t : Objects) (x : Nat) (l : List Nat) :
    placeY t (x :: l) = t.obY x + placeY t l := by
  rw [placeY, List.map_cons, List.sum_cons]
  rfl

theorem Lineage.offsLoop (hw : WellFormed t.toObjs 0) (h : Lineage t.toObjs x l) (n : Nat)
    (d3 d4 : BitVec 16) (hn : l.length < n) :
    offsLoop t n x d3 d4 = .ok (d3 + placeX t (x :: l), d4 + placeY t (x :: l)) := by
  -- the root is where the loop stops, and every other object has a parent
  induction h generalizing n d3 d4 with
  | root =>
    rcases n with - | n
    · exact absurd hn (Nat.not_lt_zero _)
    · rw [Obj.offsLoop, word_ok hw.lt, word_ok hw.lt, Outcome.ok_bind, Outcome.ok_bind,
        if_pos (Or.inl rfl), placeX_cons, placeY_cons]
      simp [placeX, placeY]
      rfl
  | @child p c l k hp hk hc ih =>
    rcases n with - | n
    · exact absurd hn (Nat.not_lt_zero _)
    · have hlt := hk.lt c hc
      have hsmall := t.small
      have h0 : c ≠ 0 := fun heq => hw.root p k hp.reach hk (heq ▸ hc)
      rw [Obj.offsLoop, word_ok hlt, word_ok hlt, Outcome.ok_bind, Outcome.ok_bind,
        if_neg (by omega), hw.parentob hp.reach hk hc, Outcome.ok_bind,
        ih n _ _ (by simpa using hn), placeX_cons t c, placeY_cons t c, BitVec.add_assoc,
        BitVec.add_assoc]

theorem Lineage.offset (hw : WellFormed t.toObjs 0) (h : Lineage t.toObjs x l) :
    objcOffset t x = .ok (placeX t (x :: l), placeY t (x :: l)) := by
  rw [objcOffset, h.offsLoop hw t.size 0 0 (h.length_lt hw)]
  simp

end

end Obj

end Aes

end MagiC
