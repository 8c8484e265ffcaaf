import Mathlib.Data.List.Induction
import MagiC.Aes.Lineage
import MagiC.Aes.Order

/-!
# The Object below a Point

`_objc_find` looks for the object that is on top at a point of the screen.

Children are drawn in the order of their list, so the last one that has the point is on
top. The loop goes through a child list from its end. As the objects are linked forwards
only, the one in front of an object is looked for from the start of the list each time.
What has been found so far is the parent of the objects tried, and where it is on the
screen is kept, so the place of an object tried is known without going up.

## Main definitions

* `Hit`: An object is not hidden, and the point is in it.

## Theorems

* `objcFind_topmost`: The call finds the object that is looked for.
-/

namespace MagiC

namespace Aes

namespace Obj

/-- A rectangle. -/
structure Grect where
  gX : BitVec 16
  gY : BitVec 16
  gW : BitVec 16
  gH : BitVec 16
  deriving DecidableEq

def xyInGrect (d0 d1 : BitVec 16) (g : Grect) : Bool :=
  if d0.slt g.gX then false
  else if d1.slt g.gY then false
  else if (g.gX + g.gW).sle d0 then false
  else if (g.gY + g.gH).sle d1 then false
  else true

/-- The place and the size of an object as they are kept. -/
def getObXywh (t : Objects) (objnr : Nat) : Except Fault Grect := do
  let x ← t.word t.obX objnr
  let y ← t.word t.obY objnr
  let w ← t.word t.obWidth objnr
  let h ← t.word t.obHeight objnr
  return ⟨x, y, w, h⟩

def objToG (t : Objects) (objnr : Nat) : Except Fault Grect := do
  let w ← t.word t.obWidth objnr
  let h ← t.word t.obHeight objnr
  let xy ← objcOffset t objnr
  return ⟨xy.1, xy.2, w, h⟩

/-- The loop of `_objc_find`: the object `d6` is tried, `d7` has been found, and `a4` is the
    rectangle of the parent. -/
def obfLoop (t : Objects) (x y : BitVec 16) : Nat → Nat → Nat → Nat → Grect → Except Fault Nat
  | 0, _, _, _, _ => .error .endless
  | n + 1, d6, d7, d5, a4 => do
    let g ← getObXywh t d6
    let sp : Grect := { g with gX := g.gX + a4.gX, gY := g.gY + a4.gY }
    let flags ← t.word t.obFlags d6
    if xyInGrect x y sp && !HIDETREE flags then
      let d0 ← t.rd t.obTail d6
      if d0 = NIL then return d6
      if d5 = 0 then return d6
      obfLoop t x y n d0 d6 (d5 - 1) { a4 with gX := sp.gX, gY := sp.gY }
    else
      if d7 = NIL then return d7
      let d0 ← predObjc t.toObjs d7 d6
      if d0 = NIL then return d7
      obfLoop t x y n d0 d7 d5 a4

def objcFind (t : Objects) (n startob depth : Nat) (x y : BitVec 16) : Except Fault Nat := do
  if startob = 0 then obfLoop t x y n startob NIL depth ⟨0, 0, 0, 0⟩
  else
    let parent ← parentob t.toObjs startob
    let a4 ← objToG t parent
    obfLoop t x y n startob NIL depth a4

/-- The points of a rectangle. -/
def Grect.Has (g : Grect) (x y : BitVec 16) : Prop :=
  (g.gX.toInt ≤ x.toInt ∧ x.toInt < (g.gX + g.gW).toInt) ∧
    g.gY.toInt ≤ y.toInt ∧ y.toInt < (g.gY + g.gH).toInt

instance (g : Grect) (x y : BitVec 16) : Decidable (g.Has x y) :=
  inferInstanceAs (Decidable ((_ ∧ _) ∧ _ ∧ _))

/-- Where an object with the ancestors `l` is. -/
def rectOf (t : Objects) (o : Nat) (l : List Nat) : Grect :=
  ⟨placeX t (o :: l), placeY t (o :: l), t.obWidth o, t.obHeight o⟩

/-- An object is not hidden, and the point is in it. -/
def Hit (t : Objects) (x y : BitVec 16) (l : List Nat) (o : Nat) : Prop :=
  (rectOf t o l).Has x y ∧ HIDETREE (t.obFlags o) = false

instance (t : Objects) (x y : BitVec 16) (l : List Nat) (o : Nat) : Decidable (Hit t x y l o) :=
  inferInstanceAs (Decidable (_ ∧ _))

/-- The last child that has the point. -/
def lastHit (t : Objects) (x y : BitVec 16) (l ks : List Nat) : Option Nat :=
  ks.reverse.find? fun c => Hit t x y l c

/-- What is on top of an object that has the point. -/
def descend (t : Objects) (x y : BitVec 16) : Nat → List Nat → Nat → Nat
  | 0, _, o => o
  | depth + 1, l, o =>
    match lastHit t x y (o :: l) (children t.toObjs o) with
    | none => o
    | some c => descend t x y depth (o :: l) c

/-- The object with the point that is on top. -/
def topmost (t : Objects) (x y : BitVec 16) (depth : Nat) (l : List Nat) (o : Nat) : Nat :=
  if Hit t x y l o then descend t x y depth l o else NIL

section

variable {t : Objects} {x y : BitVec 16} {p c o : Nat} {l k : List Nat}

theorem xyInGrect_iff (g : Grect) : xyInGrect x y g = true ↔ g.Has x y := by
  rw [xyInGrect, Grect.Has]
  simp only [BitVec.slt_iff_toInt_lt, BitVec.sle_iff_toInt_le]
  grind

theorem lastHit_append (a : List Nat) (c : Nat) :
    lastHit t x y l (a ++ [c]) = if Hit t x y l c then some c else lastHit t x y l a := by
  rw [lastHit, List.reverse_append, List.reverse_singleton, List.singleton_append, List.find?_cons]
  by_cases hc : Hit t x y l c
  · rw [if_pos hc, decide_eq_true hc]
  · rw [if_neg hc, decide_eq_false hc]
    rfl

theorem obfLoop_succ (hc : c < t.size) (n d7 depth : Nat) (a4 : Grect)
    (ha : a4.gX = placeX t l ∧ a4.gY = placeY t l) :
    obfLoop t x y (n + 1) c d7 depth a4 =
      if Hit t x y l c then
        if t.obTail c = NIL then .ok c
        else if depth = 0 then .ok c
        else obfLoop t x y n (t.obTail c) c (depth - 1)
          { a4 with gX := placeX t (c :: l), gY := placeY t (c :: l) }
      else if d7 = NIL then .ok d7
      else predObjc t.toObjs d7 c >>= fun d0 =>
        if d0 = NIL then .ok d7 else obfLoop t x y n d0 d7 depth a4 := by
  have hhit : (xyInGrect x y (rectOf t c l) && !HIDETREE (t.obFlags c)) = true ↔ Hit t x y l c := by
    rw [Bool.and_eq_true, xyInGrect_iff, Bool.not_eq_true', Hit]
  rw [obfLoop, getObXywh]
  simp only [word_ok hc, Outcome.ok_bind, ha.1, ha.2, ← placeX_cons, ← placeY_cons, pure,
    Except.pure]
  rw [rd_ok hc, Outcome.ok_bind]
  exact if_congr hhit rfl rfl

/-- From an object that has the point on, the loop finds what is on top of it. -/
def Descends (t : Objects) (x y : BitVec 16) (depth : Nat) : Prop :=
  ∀ o l d7 a4, Lineage t.toObjs o l → Hit t x y l o → a4.gX = placeX t l ∧ a4.gY = placeY t l →
    ∃ n, ∀ m, n ≤ m → obfLoop t x y m o d7 depth a4 = .ok (descend t x y depth l o)

/-- The children of an object are tried from `c` down to the first one. -/
theorem obfLoop_child (hw : WellFormed t.toObjs 0) {depth : Nat} (hd : Descends t x y depth)
    (hp : Lineage t.toObjs p l) (a b : List Nat) (c : Nat) (hk : Kids t.toObjs p (a ++ c :: b))
    (a4 : Grect) (ha : a4.gX = placeX t (p :: l) ∧ a4.gY = placeY t (p :: l)) :
    ∃ n, ∀ m, n ≤ m → obfLoop t x y m c p depth a4 =
      .ok (match lastHit t x y (p :: l) (a ++ [c]) with
        | none => p
        | some q => descend t x y depth (p :: l) q) := by
  -- the induction takes the objects in front of `c` from the last one on
  induction a using List.reverseRecOn generalizing b c with
  | nil =>
    have hc := hk.lt c (by simp)
    have hpl := hp.lt hw p List.mem_cons_self
    by_cases hhit : Hit t x y (p :: l) c
    · rw [lastHit_append, if_pos hhit]
      exact hd c (p :: l) p a4 (.child hp hk (by simp)) hhit ha
    · refine ⟨1, fun m hm => ?_⟩
      rcases Nat.exists_eq_add_of_le' hm with ⟨m, rfl⟩
      rw [lastHit_append, if_neg hhit, obfLoop_succ hc m p depth a4 ha, if_neg hhit,
        if_neg (ne_NIL hpl), hk.predObjc_first hpl, Outcome.ok_bind, if_pos rfl]
      rfl
  | append_singleton a z ih =>
    have hc := hk.lt c (by simp)
    have hpl := hp.lt hw p List.mem_cons_self
    by_cases hhit : Hit t x y (p :: l) c
    · rw [lastHit_append, if_pos hhit]
      exact hd c (p :: l) p a4 (.child hp hk (by simp)) hhit ha
    · rw [List.append_assoc, List.singleton_append] at hk
      rcases ih (c :: b) z hk with ⟨n, hn⟩
      refine ⟨n + 1, fun m hm => ?_⟩
      rcases Nat.exists_eq_add_of_le' (Nat.le_trans (Nat.le_add_left 1 n) hm) with ⟨m, rfl⟩
      rw [lastHit_append, if_neg hhit, obfLoop_succ hc m p depth a4 ha, if_neg hhit,
        if_neg (ne_NIL hpl), hk.predObjc_next hpl, Outcome.ok_bind,
        if_neg (ne_NIL (hk.lt z (by simp))), hn m (by omega)]

theorem descends (hw : WellFormed t.toObjs 0) (depth : Nat) : Descends t x y depth := by
  induction depth with
  | zero =>
    intro o l d7 a4 hl hhit ha
    refine ⟨1, fun m hm => ?_⟩
    rcases Nat.exists_eq_add_of_le' hm with ⟨m, rfl⟩
    rw [obfLoop_succ (hl.lt hw o List.mem_cons_self) m d7 0 a4 ha, if_pos hhit, if_pos rfl,
      ite_self]
    rfl
  | succ depth ih =>
    intro o l d7 a4 hl hhit ha
    have ho := hl.lt hw o List.mem_cons_self
    rcases hw.kids o hl.reach with ⟨k, hk⟩
    rw [descend, hk.children]
    rcases List.eq_nil_or_concat k with rfl | ⟨k, last, rfl⟩
    · -- an object without children is the result itself
      refine ⟨1, fun m hm => ?_⟩
      rcases Nat.exists_eq_add_of_le' hm with ⟨m, rfl⟩
      have htail : t.obTail o = NIL := by
        rcases hk.sibs with ⟨-, -, htail⟩ | ⟨hne, -⟩
        · exact htail
        · exact absurd rfl hne
      rw [obfLoop_succ ho m d7 _ a4 ha, if_pos hhit, if_pos htail]
      rfl
    · rw [List.concat_eq_append] at hk ⊢
      have htail : t.obTail o = last := by simpa using (hk.sibs.path (by simp)).2.symm
      rcases obfLoop_child hw ih hl k [] last hk
        { a4 with gX := placeX t (o :: l), gY := placeY t (o :: l) } ⟨rfl, rfl⟩ with ⟨n, hn⟩
      refine ⟨n + 1, fun m hm => ?_⟩
      rcases Nat.exists_eq_add_of_le' (Nat.le_trans (Nat.le_add_left 1 n) hm) with ⟨m, rfl⟩
      rw [obfLoop_succ ho m d7 _ a4 ha, if_pos hhit, htail,
        if_neg (ne_NIL (hk.lt last (by simp))), if_neg (Nat.succ_ne_zero depth),
        Nat.add_sub_cancel, hn m (by omega)]

theorem obfLoop_topmost (hw : WellFormed t.toObjs 0) (hl : Lineage t.toObjs o l) (depth : Nat)
    (a4 : Grect) (ha : a4.gX = placeX t l ∧ a4.gY = placeY t l) :
    ∃ n, ∀ m, n ≤ m → obfLoop t x y m o NIL depth a4 = .ok (topmost t x y depth l o) := by
  rw [topmost]
  by_cases hhit : Hit t x y l o
  · rw [if_pos hhit]
    exact descends hw depth o l NIL a4 hl hhit ha
  · refine ⟨1, fun m hm => ?_⟩
    rcases Nat.exists_eq_add_of_le' hm with ⟨m, rfl⟩
    rw [if_neg hhit, obfLoop_succ (hl.lt hw o List.mem_cons_self) m NIL depth a4 ha, if_neg hhit,
      if_pos rfl]

theorem objcFind_spec (hw : WellFormed t.toObjs 0) (hl : Lineage t.toObjs o l) (depth : Nat) :
    ∃ n, ∀ m, n ≤ m → objcFind t m o depth x y = .ok (topmost t x y depth l o) := by
  cases hl with
  | root => exact obfLoop_topmost hw Lineage.root depth ⟨0, 0, 0, 0⟩ ⟨rfl, rfl⟩
  | @child p _ l k hp hk hc =>
    have h0 : o ≠ 0 := fun heq => hw.root p k hp.reach hk (heq ▸ hc)
    have hpl := hp.lt hw p List.mem_cons_self
    rcases obfLoop_topmost hw (.child hp hk hc) depth
      ⟨placeX t (p :: l), placeY t (p :: l), t.obWidth p, t.obHeight p⟩ ⟨rfl, rfl⟩ with ⟨n, hn⟩
    refine ⟨n, fun m hm => ?_⟩
    rw [objcFind, if_neg h0, hw.parentob hp.reach hk hc, Outcome.ok_bind, objToG, word_ok hpl,
      Outcome.ok_bind, word_ok hpl, Outcome.ok_bind, hp.offset hw, Outcome.ok_bind]
    exact hn m hm

/-- The search for the object below a point ends, and finds the one on top: children that have
    the point are on top of their parent, and later ones on top of earlier ones. -/
theorem objcFind_topmost (t : Objects) (hw : WellFormed t.toObjs 0) (startob depth : Nat)
    (hs : Reach t.toObjs 0 startob) (x y : BitVec 16) :
    ∃ l, Lineage t.toObjs startob l ∧
      ∃ n, ∀ m, n ≤ m → objcFind t m startob depth x y = .ok (topmost t x y depth l startob) := by
  rcases hs.lineage with ⟨l, hl⟩
  exact ⟨l, hl, objcFind_spec hw hl depth⟩

end

/-- A box with two children, of which the second one covers a part of the first one. -/
def demoBox : Objects where
  toObjs := demoTree 2 (by decide)
  obFlags _ := 0
  obX i := if i = 0 then 10 else BitVec.ofNat 16 (10 * i)
  obY i := if i = 0 then 10 else 0
  obWidth i := if i = 0 then 100 else 20
  obHeight _ := 20

theorem demoBox_wellFormed : WellFormed demoBox.toObjs 0 :=
  wellFormed_flat (by decide) twoKids fun c hc => demoTree_leaf 2 _ c (by
    rcases List.mem_cons.mp hc with rfl | hc
    · decide
    · rw [List.mem_singleton.mp hc]
      decide)

theorem objcFind_topmost_second : ∃ n, ∀ m, n ≤ m → objcFind demoBox m 0 8 35 15 = .ok 2 := by
  rcases objcFind_topmost demoBox demoBox_wellFormed 0 8 Reach.root 35 15 with ⟨l, hl, n, hn⟩
  cases hl.unique demoBox_wellFormed Lineage.root
  have hfound : topmost demoBox 35 15 8 [] 0 = 2 := by decide
  exact ⟨n, fun m hm => hfound ▸ hn m hm⟩

end Obj

end Aes

end MagiC
