import MagiC.Aes.Reorder

/-!
# Ordering Objects, and Runs

`objc_order` takes an object out of the list it is in and puts it in again. In between the
list may be empty, and then there is no object it can be put in front of or behind. The
code takes the null element for one: at position 0 it becomes the next object of the one
that is put in, and at position -1 it is written to. So an only child must not be ordered.

## Main definitions

* `Stays`: A run of calls after each of which the tree is as asked.

## Theorems

* `stays_iff`: The runs in which a tree stays a tree.
-/

namespace MagiC

namespace Aes

namespace Obj

open Chains

variable {t t' : Objs} {r p o x y c : Nat} {l m a b : List Nat} {pos : Int}

/-- An object put into a list, at a position or at the end. -/
def placed (l : List Nat) (o : Nat) (pos : Int) : List Nat :=
  if pos = -1 then l ++ [o] else l.insertIdx pos.toNat o

theorem insertIdx_middle (a b : List Nat) (o : Nat) :
    (a ++ b).insertIdx a.length o = a ++ o :: b := by
  induction a with
  | nil => simp
  | cons z a ih => simp [List.insertIdx_succ_cons, ih]

theorem split_at (l : List Nat) (n : Nat) (h : n < l.length) :
    ∃ a y b, l = a ++ y :: b ∧ a.length = n := by
  refine ⟨l.take n, l[n], l.drop (n + 1), ?_, ?_⟩
  · rw [← List.drop_eq_getElem_cons h, List.take_append_drop]
  · rw [List.length_take]
    omega

theorem insert_kids (hl : Kids t p (a ++ y :: b)) (ho : o ∉ a ++ y :: b) (hop : o ≠ p)
    (hlt : o < t.size) :
    Kids { t with
      obNext := Function.update (Function.update t.obNext o (t.obNext y)) y o
      obTail := if b = [] then Function.update t.obTail p o else t.obTail } p
      (a ++ y :: o :: b) := by
  have hoy : o ≠ y := fun h => ho (by simp [h])
  have hnd := hl.nodup
  have hy : Function.update (Function.update t.obNext o (t.obNext y)) y o y = o :=
    Function.update_self _ _ _
  have hins := sibs_insert hl.sibs hy
    (by rw [Function.update_of_ne hoy, Function.update_self]) fun z hz => by
      have hzy : z ≠ y := by
        intro h
        rw [h] at hz
        rcases List.mem_append.mp hz with hz | hz
        · exact (List.nodup_append.mp hnd).2.2 y hz y (by simp) rfl
        · exact (List.nodup_cons.mp (List.nodup_append.mp hnd).2.1).1 hz
      have hzo : z ≠ o := fun h => ho (h ▸ (by
        rcases List.mem_append.mp hz with hz | hz
        · exact List.mem_append_left _ hz
        · exact List.mem_append_right _ (List.mem_cons_of_mem y hz)))
      rw [Function.update_of_ne hzy, Function.update_of_ne hzo]
  have hmem : ∀ d, d ∈ a ++ y :: o :: b → d = o ∨ d ∈ a ++ y :: b := by
    intro d hd
    simp only [List.mem_append, List.mem_cons] at hd ⊢
    rcases hd with hd | hd | hd | hd
    · exact .inr (.inl hd)
    · exact .inr (.inr (.inl hd))
    · exact .inl hd
    · exact .inr (.inr (.inr hd))
  refine ⟨?_, fun h => ?_, fun d hd => ?_⟩
  · by_cases hb : b = []
    · simpa only [if_pos hb, Function.update_self] using hins
    · simpa only [if_neg hb] using hins
  · rcases hmem p h with h | h
    · exact hop h.symm
    · exact hl.self h
  · rcases hmem d hd with rfl | hd
    · exact hlt
    · exact hl.lt d hd

theorem oborLoop_spec (hl : Kids t p (a ++ y :: b)) (hx : a ++ y :: b = x :: m) :
    oborLoop t a.length x = .ok y := by
  have hpath := (hl.sibs.path (by simp)).1
  -- from brother to brother, as many times as there are brothers in front
  have walk : ∀ (a : List Nat) (h : Nat), Path t.obNext h (a ++ y :: b) p →
      (∀ d ∈ a ++ y :: b, d < t.size) → oborLoop t a.length h = .ok y := by
    intro a
    induction a with
    | nil =>
      intro h hh _
      rw [List.length_nil, oborLoop, hh.1]
    | cons z a ih =>
      intro h hh hlt
      rw [List.length_cons, oborLoop, hh.1, rd_ok (hlt z (by simp)), Outcome.ok_bind]
      exact ih _ hh.2 fun d hd => hlt d (List.mem_cons_of_mem z hd)
  have hhead : t.obHead p = x := by
    rw [hx] at hpath
    exact hpath.1
  exact hhead ▸ walk a _ hpath hl.lt

theorem oborL5_spec (hl : Kids t p (a ++ y :: b)) (ho : o ∉ a ++ y :: b) (hop : o ≠ p)
    (hp : p < t.size) (hlt : o < t.size) (hy : y ∈ l) (hol : o ∈ l) :
    ∃ t', oborL5 t p o y = .ok t' ∧ Frame t t' p l ∧ Kids t' p (a ++ y :: o :: b) := by
  have hylt := hl.lt y (by simp)
  have hoy : o ≠ y := fun h => ho (by simp [h])
  have hins := insert_kids hl ho hop hlt
  have hpb : p ∉ b := fun h => hl.self (List.mem_append_right a (List.mem_cons_of_mem y h))
  have hiff := sibs_last_iff hl.sibs hpb
  have hnext : ∀ x, x ∉ l →
      Function.update (Function.update t.obNext o (t.obNext y)) y o x = t.obNext x := by
    intro x hx
    rw [Function.update_of_ne (fun h : x = y => hx (h ▸ hy)),
      Function.update_of_ne (fun h : x = o => hx (h ▸ hol))]
  rw [oborL5, rd_ok hylt, Outcome.ok_bind, setNext_ok _ hlt, Outcome.ok_bind,
    setNext_ok o (by exact hylt), Outcome.ok_bind, oborL6, rd_ok (by exact hlt), Outcome.ok_bind]
  simp only [Function.update_of_ne hoy, Function.update_self]
  by_cases hb : b = []
  · rw [if_pos (hiff.mpr hb)]
    simp only [if_pos hb] at hins
    exact ⟨_, setTail_ok o (show p < t.size from hp), ⟨rfl, fun x _ => rfl,
      fun x hx => Function.update_of_ne hx _ _, hnext⟩, hins⟩
  · rw [if_neg fun h => hb (hiff.mp h)]
    simp only [if_neg hb] at hins
    exact ⟨_, rfl, ⟨rfl, fun x _ => rfl, fun x _ => rfl, hnext⟩, hins⟩

theorem erase_ne_nil (ho : o ∈ l) (hne : l ≠ [o]) : l.erase o ≠ [] := by
  intro hnil
  have hlen := List.length_erase_of_mem ho
  rw [hnil] at hlen
  rcases l with - | ⟨z, - | ⟨w, l⟩⟩
  · exact absurd ho List.not_mem_nil
  · exact hne (by rw [List.mem_singleton.mp ho])
  · simp at hlen

/-- An object that has siblings comes to the position asked for. -/
theorem objcOrder_spec (hw : WellFormed t r) (hp : Reach t r p) (hl : Kids t p l) (ho : o ∈ l)
    (h0 : o ≠ 0) (hne : l ≠ [o]) (hpos : pos = -1 ∨ 0 ≤ pos ∧ pos < l.length) :
    ∃ t', objcOrder t o pos = .ok t' ∧ Frame t t' p l ∧ Kids t' p (placed (l.erase o) o pos) := by
  have hop : o ≠ p := fun h => hl.self (h ▸ ho)
  rcases objcDelete_spec hw hp hl ho h0 with ⟨t₁, hdel, hframe, hkids⟩
  have hlen := List.length_erase_of_mem ho
  have hoe : o ∉ l.erase o := hl.nodup.not_mem_erase
  have hsub : ∀ d ∈ l.erase o, d ∈ l := fun d hd => List.mem_of_mem_erase hd
  have hplt : p < t₁.size := hframe.size ▸ hp.lt hw
  have holt : o < t₁.size := hframe.size ▸ hl.lt o ho
  have hnil := erase_ne_nil ho hne
  rw [objcOrder, if_neg h0, hw.parentob hp hl ho, Outcome.ok_bind, hdel, Outcome.ok_bind,
    rd_ok hplt, Outcome.ok_bind]
  by_cases hzero : pos = 0
  · -- in front of the first one
    have hnp : t₁.obHead p ≠ p := fun h => hkids.self (h ▸ hkids.sibs.head_mem hnil)
    have hpush₀ : Function.update t₁.obNext o (t₁.obHead p) o = t₁.obHead p :=
      Function.update_self _ _ _
    have hpush := sibs_push hkids.sibs hnil hpush₀
      fun z hz => Function.update_of_ne (fun h : z = o => hoe (h ▸ hz)) _ _
    have hplaced : placed (l.erase o) o pos = o :: l.erase o := by
      rw [placed, hzero]
      rfl
    rw [if_pos hzero, setNext_ok _ holt, Outcome.ok_bind, setHead_ok o (by exact hplt),
      Outcome.ok_bind, oborL6, rd_ok (by exact holt), Outcome.ok_bind, hplaced]
    simp only [Function.update_self]
    rw [if_neg hnp]
    refine ⟨_, rfl, hframe.trans ⟨rfl, fun x hx => Function.update_of_ne hx _ _, fun x _ => rfl,
      fun x hx => Function.update_of_ne (fun h : x = o => hx (h ▸ ho)) _ _⟩, ?_, ?_, ?_⟩
    · simp only [Function.update_self]
      exact hpush
    · exact fun h => (List.mem_cons.mp h).elim (fun h => hop h.symm) hkids.self
    · intro d hd
      rcases List.mem_cons.mp hd with rfl | hd
      · exact holt
      · exact hkids.lt d hd
  · -- behind another one
    rw [if_neg hzero]
    by_cases hlast : pos = -1
    · have htail := (hkids.sibs.path hnil).2
      have hsplit := List.dropLast_append_getLast? _ htail
      have hplaced : placed (l.erase o) o pos = (l.erase o).dropLast ++ t₁.obTail p :: o :: [] := by
        rw [placed, if_pos hlast]
        conv_lhs => rw [← hsplit]
        simp
      have hmem := hsub _ (hkids.sibs.mem_tail hnil)
      rw [← hsplit] at hoe hkids
      rw [if_pos hlast, rd_ok hplt, Outcome.ok_bind, hplaced]
      rcases oborL5_spec hkids hoe hop hplt holt hmem ho with ⟨t₂, hrun, hframe', hkids'⟩
      exact ⟨t₂, hrun, hframe.trans hframe', hkids'⟩
    · rcases hpos with hpos | ⟨hge, hlt⟩
      · exact absurd hpos hlast
      · rcases split_at (l.erase o) (pos - 1).toNat (by omega) with ⟨a, y, b, he, ha⟩
        have hplaced : placed (l.erase o) o pos = a ++ y :: o :: b := by
          have hat : pos.toNat = (a ++ [y]).length := by
            rw [List.length_append, List.length_singleton, ha]
            omega
          rw [placed, if_neg hlast, he, hat, List.append_cons, insertIdx_middle]
          simp
        have hmem := hsub y (by rw [he]; simp)
        rcases hx : l.erase o with - | ⟨x, m⟩
        · exact absurd hx hnil
        · have hhead : t₁.obHead p = x := by
            have hpath := (hkids.sibs.path hnil).1
            rw [hx] at hpath
            exact hpath.1
          rw [← hx, hplaced, if_neg hlast]
          have hne' := he.symm.trans hx
          rw [he] at hkids hoe
          rw [hhead, ← ha, oborLoop_spec hkids hne', Outcome.ok_bind]
          rcases oborL5_spec hkids hoe hop hplt holt hmem ho with ⟨t₂, hrun, hframe', hkids'⟩
          exact ⟨t₂, hrun, hframe.trans hframe', hkids'⟩

/-- An only child does not come back into the list. -/
theorem order_only (hw : WellFormed t r) (hp : Reach t r p) (hl : Kids t p [o]) (h0 : o ≠ 0)
    (hpos : pos = -1 ∨ pos = 0) :
    objcOrder t o pos = .error .outside ∨
      ∃ t', objcOrder t o pos = .ok t' ∧ ∀ l, Kids t' p l → o ∉ l := by
  rcases objcDelete_spec hw hp hl (by simp) h0 with ⟨t₁, hdel, hframe, hkids⟩
  have hplt : p < t₁.size := hframe.size ▸ hp.lt hw
  have holt : o < t₁.size := hframe.size ▸ hl.lt o (by simp)
  rw [List.erase_cons_head] at hkids
  have hends : t₁.obHead p = NIL ∧ t₁.obTail p = NIL := by
    rcases hkids.sibs with ⟨-, h⟩ | ⟨hne, -⟩
    · exact h
    · exact absurd rfl hne
  rw [objcOrder, if_neg h0, hw.parentob hp hl (by simp), Outcome.ok_bind, hdel, Outcome.ok_bind,
    rd_ok hplt, Outcome.ok_bind]
  have hnil : ¬ NIL < t₁.size := fun h => ne_NIL h rfl
  rcases hpos with hpos | hpos
  · -- the null element is taken for the last child
    left
    rw [if_neg (by omega), if_pos hpos, rd_ok hplt, Outcome.ok_bind, hends.2, oborL5, Objs.rd,
      if_neg hnil]
    rfl
  · -- the null element becomes the next object, and the last child stays the null element
    right
    have hne : NIL ≠ p := fun h => ne_NIL hplt h.symm
    rw [if_pos hpos, setNext_ok _ holt, Outcome.ok_bind, setHead_ok o (by exact hplt),
      Outcome.ok_bind, oborL6, rd_ok (by exact holt), Outcome.ok_bind]
    simp only [Function.update_self, hends.1]
    rw [if_neg hne]
    refine ⟨_, rfl, fun l hl' hmem => ?_⟩
    rcases hl'.sibs with ⟨hnil', -⟩ | ⟨hne', -⟩
    · rw [hnil'] at hmem
      exact absurd hmem List.not_mem_nil
    · have htail := hl'.sibs.mem_tail hne'
      exact hnil (hends.2 ▸ hl'.lt _ htail)

/-- A call. -/
inductive Call where
  | add (parent child : Nat)
  | delete (objnr : Nat)
  | order (objnr : Nat) (pos : Int)

def Call.exec (t : Objs) : Call → Except Fault Objs
  | .add parent child => objcAdd t parent child
  | .delete objnr => objcDelete t objnr
  | .order objnr pos => objcOrder t objnr pos

def Legal (t : Objs) : Call → Prop
  | .add parent child =>
    Reach t 0 parent ∧ WellFormed t child ∧ ∀ x, Reach t 0 x → ¬ Reach t child x
  | .delete objnr => Reach t 0 objnr ∧ objnr ≠ 0
  | .order objnr pos => Reach t 0 objnr ∧ objnr ≠ 0 ∧
      ∀ p l, Reach t 0 p → Kids t p l → objnr ∈ l → pos = -1 ∨ 0 ≤ pos ∧ pos < l.length

/-- One child list is replaced, and all others in the tree stay. Objects that are not in the tree
    are not touched. -/
def Replaces (t t' : Objs) (tree : Nat → Prop) (p : Nat) (l m : List Nat) : Prop :=
  Kids t p l ∧ Kids t' p m ∧ (∀ x k, tree x → x ≠ p → Kids t x k → Kids t' x k) ∧
    ∀ x, ¬ tree x →
      t'.obNext x = t.obNext x ∧ t'.obHead x = t.obHead x ∧ t'.obTail x = t.obTail x

def Effect (t t' : Objs) : Call → Prop
  | .add parent child => ∃ l,
      Replaces t t' (fun x => Reach t 0 x ∨ Reach t child x) parent l (l ++ [child])
  | .delete objnr => ∃ p l, Reach t 0 p ∧ objnr ∈ l ∧
      Replaces t t' (Reach t 0) p l (l.erase objnr)
  | .order objnr pos => ∃ p l, Reach t 0 p ∧ objnr ∈ l ∧
      Replaces t t' (Reach t 0) p l (placed (l.erase objnr) objnr pos)

/-- The parent and the predecessor of every object are found. -/
def Found (t : Objs) : Prop :=
  ∀ p l o, Reach t 0 p → Kids t p l → o ∈ l →
    parentob t o = .ok p ∧ ∃ y, predObjc t p o = .ok y

/-- After each call of a run the tree is well formed, and the call has done what it is to do. -/
def Stays : Objs → List Call → Prop
  | _, [] => True
  | t, c :: cs => ∃ t', c.exec t = .ok t' ∧ Effect t t' c ∧ WellFormed t' 0 ∧ Found t' ∧ Stays t' cs

def LegalRun : Objs → List Call → Prop
  | _, [] => True
  | t, c :: cs => Legal t c ∧ ∀ t', c.exec t = .ok t' → LegalRun t' cs

/-- The call does not order an only child. -/
def NotOnlyChild (t : Objs) : Call → Prop
  | .order objnr _ => ∀ p, Reach t 0 p → ¬ Kids t p [objnr]
  | _ => True

/-- No call of a run orders an only child. -/
def NotOnly : Objs → List Call → Prop
  | _, [] => True
  | t, c :: cs => NotOnlyChild t c ∧ ∀ t', c.exec t = .ok t' → NotOnly t' cs

theorem found_of_wellFormed (hw : WellFormed t 0) : Found t :=
  fun _ _ _ hp hl ho => ⟨hw.parentob hp hl ho, hw.predObjc hp hl ho⟩

theorem parent_of_reach (hx : Reach t r x) (hne : x ≠ r) :
    ∃ p l, Reach t r p ∧ Kids t p l ∧ x ∈ l := by
  cases hx with
  | root => exact absurd rfl hne
  | child hp hl hc => exact ⟨_, _, hp, hl, hc⟩

theorem Frame.replaces (hw : WellFormed t r) (h : Frame t t' p l) (hp : Reach t r p)
    (hl : Kids t p l) (hm : Kids t' p m) : Replaces t t' (Reach t r) p l m := by
  refine ⟨hl, hm, fun x k hx hxp hk => h.others hw hp hl hx hxp hk, fun x hx => ⟨?_, ?_, ?_⟩⟩
  · exact h.next x fun hxl => hx (Reach.child hp hl hxl)
  · exact h.head x fun hxp => hx (hxp ▸ hp)
  · exact h.tail x fun hxp => hx (hxp ▸ hp)

theorem mem_placed (ho : o ∈ l) (hpos : pos = -1 ∨ 0 ≤ pos ∧ pos < l.length) :
    ∀ d ∈ placed (l.erase o) o pos, d ∈ l := by
  intro d hd
  have hlen := List.length_erase_of_mem ho
  rw [placed] at hd
  split at hd
  · rcases List.mem_append.mp hd with hd | hd
    · exact List.mem_of_mem_erase hd
    · exact List.mem_singleton.mp hd ▸ ho
  · rw [List.mem_insertIdx (by omega)] at hd
    rcases hd with rfl | hd
    · exact ho
    · exact List.mem_of_mem_erase hd

theorem exec_spec (hw : WellFormed t 0) {c : Call} (hc : Legal t c) (hn : NotOnlyChild t c) :
    ∃ t', c.exec t = .ok t' ∧ Effect t t' c ∧ WellFormed t' 0 := by
  cases c with
  | add parent child =>
    rcases hc with ⟨hp, hsub, hd⟩
    rcases hw.kids parent hp with ⟨l, hl⟩
    have hcp : child ≠ parent := fun h => hd parent hp (h ▸ Reach.root)
    have hcl : child ∉ l := fun h => hd child (Reach.child hp hl h) Reach.root
    rcases objcAdd_spec (hp.lt hw) hsub.lt hcp hl hcl with ⟨t', hrun, hframe, hkids⟩
    rcases hw.graft hsub hd hp hl hframe hkids with ⟨hw', hothers⟩
    refine ⟨t', hrun, ⟨l, hl, hkids, hothers, fun x hx => ⟨?_, ?_, ?_⟩⟩, hw'⟩
    · refine hframe.next x fun hxl => hx ?_
      rcases List.mem_cons.mp hxl with rfl | hxl
      · exact .inr Reach.root
      · exact .inl (Reach.child hp hl hxl)
    · exact hframe.head x fun hxp => hx (.inl (hxp ▸ hp))
    · exact hframe.tail x fun hxp => hx (.inl (hxp ▸ hp))
  | delete objnr =>
    rcases hc with ⟨hr, h0⟩
    rcases parent_of_reach hr h0 with ⟨p, l, hp, hl, ho⟩
    rcases objcDelete_spec hw hp hl ho h0 with ⟨t', hrun, hframe, hkids⟩
    exact ⟨t', hrun, ⟨p, l, hp, ho, hframe.replaces hw hp hl hkids⟩,
      hw.relist hframe hp hl hkids fun d hd => List.mem_of_mem_erase hd⟩
  | order objnr pos =>
    rcases hc with ⟨hr, h0, hpos⟩
    rcases parent_of_reach hr h0 with ⟨p, l, hp, hl, ho⟩
    have hne : l ≠ [objnr] := fun h => hn p hp (h ▸ hl)
    have hpos := hpos p l hp hl ho
    rcases objcOrder_spec hw hp hl ho h0 hne hpos with ⟨t', hrun, hframe, hkids⟩
    exact ⟨t', hrun, ⟨p, l, hp, ho, hframe.replaces hw hp hl hkids⟩,
      hw.relist hframe hp hl hkids (mem_placed ho hpos)⟩

theorem not_effect (hw : WellFormed t 0) {c : Call} (hc : Legal t c) (hn : ¬ NotOnlyChild t c)
    (h : c.exec t = .ok t') : ¬ Effect t t' c := by
  cases c with
  | add parent child => exact absurd trivial hn
  | delete objnr => exact absurd trivial hn
  | order objnr pos =>
    rw [NotOnlyChild] at hn
    simp only [not_forall, not_not] at hn
    rcases hn with ⟨p, hp, hl⟩
    rcases hc with ⟨-, h0, hpos⟩
    have hpos := hpos p [objnr] hp hl (by simp)
    have hcases : pos = -1 ∨ pos = 0 := by
      rcases hpos with hpos | ⟨hge, hlt⟩
      · exact .inl hpos
      · simp only [List.length_singleton] at hlt
        omega
    intro heff
    rcases heff with ⟨q, l, hq, ho, hlq, hkids, -⟩
    have hpq := hw.once q p l [objnr] objnr hq hp hlq hl ho (by simp)
    subst hpq
    rcases order_only hw hp hl h0 hcases with herr | ⟨t₂, hok, hnone⟩
    · rw [Call.exec, herr] at h
      exact absurd h (by simp)
    · rw [Call.exec, hok, Except.ok.injEq] at h
      subst h
      refine hnone _ hkids ?_
      rw [hlq.unique hl, List.erase_cons_head, placed]
      rcases hcases with rfl | rfl
      · simp
      · simp

/-- A tree stays a tree in the runs that order no only child, and in no others. -/
theorem stays_iff (t : Objs) (cs : List Call) (hw : WellFormed t 0) (hl : LegalRun t cs) :
    Stays t cs ↔ NotOnly t cs := by
  induction cs generalizing t with
  | nil => exact Iff.rfl
  | cons c cs ih =>
    rcases hl with ⟨hc, hrest⟩
    refine ⟨fun hs => ?_, fun hn => ?_⟩
    · rcases hs with ⟨t', hrun, heff, hw', -, hs'⟩
      refine ⟨?_, fun t₂ hrun' => ?_⟩
      · by_contra hn
        exact not_effect hw hc hn hrun heff
      · rw [hrun, Except.ok.injEq] at hrun'
        exact hrun' ▸ (ih t' hw' (hrest t' hrun)).mp hs'
    · rcases exec_spec hw hc hn.1 with ⟨t', hrun, heff, hw'⟩
      exact ⟨t', hrun, heff, hw', found_of_wellFormed hw',
        (ih t' hw' (hrest t' hrun)).mpr (hn.2 t' hrun)⟩

theorem reach_flat (hl : Kids t r l) (hc : ∀ c ∈ l, Kids t c []) {x : Nat} (hx : Reach t r x) :
    x = r ∨ x ∈ l := by
  induction hx with
  | root => exact .inl rfl
  | child _ hk hd ih =>
    rcases ih with rfl | hy
    · exact .inr (hk.unique hl ▸ hd)
    · rw [hk.unique (hc _ hy)] at hd
      exact absurd hd List.not_mem_nil

theorem wellFormed_flat (hr : r < t.size) (hl : Kids t r l) (hc : ∀ c ∈ l, Kids t c []) :
    WellFormed t r := by
  have only : ∀ x k d, Reach t r x → Kids t x k → d ∈ k → x = r := by
    intro x k d hx hk hd
    rcases reach_flat hl hc hx with rfl | hx
    · rfl
    · rw [hk.unique (hc x hx)] at hd
      exact absurd hd List.not_mem_nil
  refine ⟨hr, fun x hx => ?_, fun x k hx hk h => ?_, fun x y k j d hx hy hk hj hdk hdj => ?_⟩
  · rcases reach_flat hl hc hx with rfl | hx
    · exact ⟨l, hl⟩
    · exact ⟨[], hc x hx⟩
  · have hx0 := only x k r hx hk h
    subst hx0
    exact hk.self h
  · rw [only x k d hx hk hdk, only y j d hy hj hdj]

/-- A root with the children 1 to `n`, for a small `n`. -/
def demoTree (n : Nat) (h : n + 1 ≤ 0x8000) : Objs where
  size := n + 1
  small := h
  obNext i := if i = n then 0 else i + 1
  obHead i := if i = 0 then 1 else NIL
  obTail i := if i = 0 then n else NIL

theorem demoTree_leaf (n : Nat) (h : n + 1 ≤ 0x8000) (c : Nat) (hc : c ≠ 0) :
    Kids (demoTree n h) c [] :=
  ⟨.inl ⟨rfl, if_neg hc, if_neg hc⟩, List.not_mem_nil, fun _ hd => absurd hd List.not_mem_nil⟩

theorem twoKids : Kids (demoTree 2 (by decide)) 0 [1, 2] :=
  ⟨.inr ⟨by decide, ⟨rfl, rfl, rfl⟩, rfl⟩, by decide, by decide⟩

theorem oneKid : Kids (demoTree 1 (by decide)) 0 [1] :=
  ⟨.inr ⟨by decide, ⟨rfl, rfl⟩, rfl⟩, by decide, by decide⟩

theorem stays_iff_two :
    Stays (demoTree 2 (by decide)) [.order 2 0] ↔ NotOnly (demoTree 2 (by decide)) [.order 2 0] :=
  stays_iff _ _
    (wellFormed_flat (by decide) twoKids fun c hc => demoTree_leaf 2 _ c (by
      rcases List.mem_cons.mp hc with rfl | hc
      · decide
      · rw [List.mem_singleton.mp hc]
        decide))
    ⟨⟨Reach.child Reach.root twoKids (by decide), by decide,
      fun _ _ _ _ ho => .inr ⟨Int.le_refl 0, by exact_mod_cast List.length_pos_of_mem ho⟩⟩,
      fun _ _ => trivial⟩

/-- Ordering an only child writes outside of the tree, or breaks the list of its parent. -/
theorem order_breaks : WellFormed (demoTree 1 (by decide)) 0 ∧
    LegalRun (demoTree 1 (by decide)) [.order 1 0] ∧
    ¬ Stays (demoTree 1 (by decide)) [.order 1 0] ∧
    objcOrder (demoTree 1 (by decide)) 1 (-1) = .error .outside := by
  have hw : WellFormed (demoTree 1 (by decide)) 0 :=
    wellFormed_flat (by decide) oneKid fun c hc => demoTree_leaf 1 _ c (by
      rw [List.mem_singleton.mp hc]
      decide)
  have hc : Legal (demoTree 1 (by decide)) (.order 1 0) :=
    ⟨Reach.child Reach.root oneKid (by decide), by decide,
      fun _ _ _ _ ho => .inr ⟨Int.le_refl 0, by exact_mod_cast List.length_pos_of_mem ho⟩⟩
  refine ⟨hw, ⟨hc, fun _ _ => trivial⟩, fun hs => ?_, rfl⟩
  rcases hs with ⟨t', hrun, heff, -⟩
  exact not_effect hw hc (fun hn => hn 0 Reach.root oneKid) hrun heff

/-- A subtree that has been added can be taken out again. Then every object has the children
    that it had before. -/
theorem objcDelete_objcAdd (hw : WellFormed t r) (hc : WellFormed t c)
    (hd : ∀ x, Reach t r x → ¬ Reach t c x) (hp : Reach t r p) (h0 : c ≠ 0) :
    ∃ t₁ t₂, objcAdd t p c = .ok t₁ ∧ WellFormed t₁ r ∧ objcDelete t₁ c = .ok t₂ ∧
      WellFormed t₂ r ∧ ∀ x k, Reach t r x ∨ Reach t c x → (Kids t₂ x k ↔ Kids t x k) := by
  rcases hw.kids p hp with ⟨l, hl⟩
  have hcl : c ∉ l := fun h => hd c (Reach.child hp hl h) Reach.root
  have hcp : c ≠ p := fun h => hd p hp (h ▸ Reach.root)
  rcases objcAdd_spec (hp.lt hw) hc.lt hcp hl hcl with ⟨t₁, hadd, hframe, hkids⟩
  rcases hw.graft hc hd hp hl hframe hkids with ⟨hw₁, hothers⟩
  -- what was reached before is still reached
  have hreach : ∀ x, Reach t r x → Reach t₁ r x := by
    intro x hx
    induction hx with
    | root => exact Reach.root
    | @child y d k hy hk hdk ih =>
      by_cases hyp : y = p
      · subst hyp
        exact Reach.child ih hkids (List.mem_append_left _ (hk.unique hl ▸ hdk))
      · exact Reach.child ih (hothers y k (.inl hy) hyp hk) hdk
  rcases objcDelete_spec hw₁ (hreach p hp) hkids (by simp) h0 with ⟨t₂, hdel, hframe₂, hkids₂⟩
  rw [List.erase_append_right _ hcl, List.erase_cons_head, List.append_nil] at hkids₂
  have hback : ∀ x k, Reach t r x ∨ Reach t c x → Kids t x k → Kids t₂ x k := by
    intro x k hx hk
    by_cases hxp : x = p
    · subst hxp
      exact hk.unique hl ▸ hkids₂
    · refine hframe₂.kids hxp (hothers x k hx hxp hk) fun d hdk hdl => ?_
      rcases hx with hx | hx <;> rcases List.mem_append.mp hdl with hdl | hdl
      · exact hxp (hw.once x p k l d hx hp hk hl hdk hdl)
      · exact hd c (Reach.child hx hk (List.mem_singleton.mp hdl ▸ hdk)) Reach.root
      · exact hd d (Reach.child hp hl hdl) (Reach.child hx hk hdk)
      · exact hc.root x k hx hk (List.mem_singleton.mp hdl ▸ hdk)
  refine ⟨t₁, t₂, hadd, hw₁, hdel, hw₁.relist hframe₂ (hreach p hp) hkids hkids₂
    fun d hdl => List.mem_append_left _ hdl, fun x k hx => ⟨fun hk => ?_, hback x k hx⟩⟩
  rcases hx.elim (hw.kids x) (hc.kids x) with ⟨k', hk'⟩
  exact hk.unique (hback x k' hx hk') ▸ hk'

/-- The root 0 with the children 1 and 2, and the root 3 with the child 4. -/
def twoTrees : Objs where
  size := 5
  small := by decide
  obNext i := if i = 1 then 2 else if i = 2 then 0 else if i = 4 then 3 else NIL
  obHead i := if i = 0 then 1 else if i = 3 then 4 else NIL
  obTail i := if i = 0 then 2 else if i = 3 then 4 else NIL

/-- The second tree is put under the first one. -/
theorem objcDelete_objcAdd_two : ∃ t₁ t₂, objcAdd twoTrees 0 3 = .ok t₁ ∧ WellFormed t₁ 0 ∧
    objcDelete t₁ 3 = .ok t₂ ∧ WellFormed t₂ 0 ∧
      ∀ x k, Reach twoTrees 0 x ∨ Reach twoTrees 3 x → (Kids t₂ x k ↔ Kids twoTrees x k) := by
  have h0 : Kids twoTrees 0 [1, 2] := ⟨.inr ⟨by decide, ⟨rfl, rfl, rfl⟩, rfl⟩, by decide, by decide⟩
  have h3 : Kids twoTrees 3 [4] := ⟨.inr ⟨by decide, ⟨rfl, rfl⟩, rfl⟩, by decide, by decide⟩
  have hleaf : ∀ c ∈ [1, 2, 4], Kids twoTrees c [] := by
    intro c hc
    have hnil : twoTrees.obHead c = NIL ∧ twoTrees.obTail c = NIL := by
      revert c
      decide
    exact ⟨.inl ⟨rfl, hnil.1, hnil.2⟩, List.not_mem_nil, fun _ hd => absurd hd List.not_mem_nil⟩
  have hkids0 : ∀ c ∈ [1, 2], Kids twoTrees c [] := fun c hc => hleaf c (by
    rcases List.mem_pair.mp hc with rfl | rfl
    · decide
    · decide)
  have hkids3 : ∀ c ∈ [4], Kids twoTrees c [] := fun c hc => hleaf c (by
    rw [List.mem_singleton.mp hc]
    decide)
  refine objcDelete_objcAdd (wellFormed_flat (by decide) h0 hkids0)
    (wellFormed_flat (by decide) h3 hkids3) (fun x hx hx' => ?_) Reach.root (by decide)
  have hno : ∀ x ∈ [0, 1, 2], x ∉ [3, 4] := by decide
  exact hno x (List.mem_cons.mpr (reach_flat h0 hkids0 hx))
    (List.mem_cons.mpr (reach_flat h3 hkids3 hx'))

end Obj

end Aes

end MagiC
