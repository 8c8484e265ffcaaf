import MagiC.Aes.Lineage

/-!
# Drawing a Tree

`_objc_draw` draws an object and what is below it, each object in front of its children.

The loop has no stack of objects. From an object without children to be drawn it goes on to
the next one, and if the object left is the last child of that one, this is a parent that
has been drawn already. The places on the screen are kept in two tables on the stack, with
one entry for each level, of which the first one is for the parent of the object that the
drawing starts with.

The tables have `MAXDEPTH` entries, but nothing compares the level with it. An object that is seven
levels below the first one has its place behind the end of the second table, which is where the
frame pointer of the caller is kept.

## Main definitions

* `Draws`: The call draws these objects, and writes to the tables only.

## Theorems

* `draws_iff`: The call is right just if the levels fit.
-/

namespace MagiC

namespace Aes

namespace Obj

def MAXDEPTH : Nat := 8

/-- Where the table for the vertical places is, from the frame pointer. -/
def YTAB : Int := -(4 * MAXDEPTH)

/-- Where the table for the horizontal places is, from the frame pointer. -/
def XTAB : Int := -(2 * MAXDEPTH)

/-- What is drawn: an object with its place. -/
abbrev Drawing := Nat × BitVec 16 × BitVec 16

/-- The words around the frame pointer, what has been drawn, and which words have been
    written. -/
structure Paint where
  frame : Int → BitVec 16
  calls : List Drawing
  writes : List Int

def Paint.put (s : Paint) (a : Int) (w : BitVec 16) : Paint :=
  { s with frame := Function.update s.frame a w, writes := s.writes ++ [a] }

def Paint.start (frame : Int → BitVec 16) : Paint := ⟨frame, [], []⟩

/-- An object is drawn at the place of its parent and its own distance. -/
def drawObj (t : Objects) (d6 : Nat) (d3 : BitVec 16) (s : Paint) : Except Fault Paint := do
  let obX ← t.word t.obX d6
  let x := s.frame (XTAB - 2 + d3.toInt) + obX
  let s := s.put (XTAB + d3.toInt) x
  let obY ← t.word t.obY d6
  let y := s.frame (YTAB - 2 + d3.toInt) + obY
  let s := s.put (YTAB + d3.toInt) y
  return { s with calls := s.calls ++ [(d6, x, y)] }

/-- Where the loop is. -/
inductive Label where
  | walkLoop
  | walkLoopTiny
  | walkLoop2
  deriving DecidableEq

/-- The loop of `_objc_draw`. -/
def walk (t : Objects) (d5 : BitVec 16) (d7 : Nat) :
    Nat → Label → Nat → BitVec 16 → Paint → Except Fault Paint
  | 0, _, _, _, _ => .error .endless
  | n + 1, .walkLoop, d6, d3, s =>
    if d6 = d7 then .ok s else walk t d5 d7 n .walkLoopTiny d6 d3 s
  | n + 1, .walkLoopTiny, d6, d3, s => do
    let s ← drawObj t d6 d3 s
    let d1 ← t.rd t.obHead d6
    let flags ← t.word t.obFlags d6
    if d1 = NIL then walk t d5 d7 n .walkLoop2 d6 d3 s
    else if HIDETREE flags then walk t d5 d7 n .walkLoop2 d6 d3 s
    else if d5 < d3 then walk t d5 d7 n .walkLoop2 d6 d3 s
    else walk t d5 d7 n .walkLoop d1 (d3 + 2) s
  | n + 1, .walkLoop2, d1, d3, s =>
    if d1 = 0 then .ok s
    else do
      let d6 ← t.rd t.obNext d1
      if d6 = d7 then return s
      let tail ← t.rd t.obTail d6
      if tail ≠ d1 then walk t d5 d7 n .walkLoopTiny d6 d3 s
      else if (2 : BitVec 16).slt d3 then walk t d5 d7 n .walkLoop2 d6 (d3 - 2) s
      else return s

/-- `draw_obj_tree`, with the place of the parent. -/
def drawObjTree (t : Objects) (n d6 d7 depth : Nat) (offsx offsy : BitVec 16) (s : Paint) :
    Except Fault Paint :=
  let d5 := BitVec.ofNat 16 depth
  walk t (d5 + d5) d7 n .walkLoop d6 2 ((s.put YTAB offsy).put XTAB offsx)

def objcDraw (t : Objects) (n startob depth : Nat) (s : Paint) : Except Fault Paint := do
  if startob = 0 then drawObjTree t n startob NIL depth 0 0 s
  else
    let d7 ← t.rd t.obNext startob
    if 0x8000 ≤ d7 then return s
    let parent ← parentob t.toObjs startob
    let xy ← objcOffset t parent
    drawObjTree t n startob d7 depth xy.1 xy.2 s

/-- The objects to be drawn in their order, each with its ancestors. -/
def shown (t : Objects) : Nat → List Nat → Nat → List (List Nat)
  | 0, l, o => [o :: l]
  | depth + 1, l, o =>
    (o :: l) :: if HIDETREE (t.obFlags o) then []
      else (children t.toObjs o).flatMap fun c => shown t depth (o :: l) c

/-- How an object with its ancestors is drawn. -/
def drawn (t : Objects) (v : List Nat) : Drawing := (v.headD NIL, placeX t v, placeY t v)

def InTables (a : Int) : Prop := YTAB ≤ a ∧ a < XTAB + 2 * MAXDEPTH

instance (a : Int) : Decidable (InTables a) := inferInstanceAs (Decidable (_ ∧ _))

/-- The objects have been drawn, each once and at its place, and only the tables have been
    written to. -/
structure Exact (t : Objects) (depth : Nat) (l : List Nat) (startob : Nat) (s : Paint) : Prop where
  calls : s.calls = (shown t depth l startob).map (drawn t)
  once : (s.calls.map Prod.fst).Nodup
  within : ∀ a ∈ s.writes, InTables a

/-- The call returns, and has drawn what it should. -/
def Draws (t : Objects) (frame : Int → BitVec 16) (startob depth : Nat) : Prop :=
  ∃ l, Lineage t.toObjs startob l ∧ ∃ n s,
    (∀ m, n ≤ m → objcDraw t m startob depth (.start frame) = .ok s) ∧ Exact t depth l startob s

/-- No object to be drawn is as many levels below the first one as there is room for. -/
def Shallow (t : Objects) (startob depth : Nat) : Prop :=
  ∀ l, Lineage t.toObjs startob l → ∀ v ∈ shown t depth l startob, v.length < l.length + MAXDEPTH

section

variable {t : Objects} {o c p x d7 depth : Nat} {l m v : List Nat} {s s' : Paint}

/-- The objects to be drawn are those with no hidden ancestor, down to the depth. -/
theorem mem_shown (hw : WellFormed t.toObjs 0) (hl : Lineage t.toObjs o l) :
    v ∈ shown t depth l o ↔ (∃ x m, v = x :: m ∧ Lineage t.toObjs x m) ∧
      ∃ e, v = e ++ o :: l ∧ e.length ≤ depth ∧
        ∀ y ∈ (e ++ [o]).tail, HIDETREE (t.obFlags y) = false := by
  induction depth generalizing o l with
  | zero =>
    rw [shown, List.mem_singleton]
    constructor
    · rintro rfl
      exact ⟨⟨o, l, rfl, hl⟩, [], rfl, Nat.le_refl 0, fun y hy => absurd hy List.not_mem_nil⟩
    · rintro ⟨-, e, rfl, he, -⟩
      rw [List.eq_nil_of_length_eq_zero (Nat.le_zero.mp he), List.nil_append]
  | succ depth ih =>
    rcases hw.kids o hl.reach with ⟨k, hk⟩
    rw [shown, List.mem_cons, hk.children]
    constructor
    · rintro (rfl | hv)
      · exact ⟨⟨o, l, rfl, hl⟩, [], rfl, Nat.zero_le _, fun y hy => absurd hy List.not_mem_nil⟩
      · by_cases hide : HIDETREE (t.obFlags o) = true
        · rw [if_pos hide] at hv
          exact absurd hv List.not_mem_nil
        · rw [if_neg hide, List.mem_flatMap] at hv
          rcases hv with ⟨c, hc, hv⟩
          rcases (ih (hl.child hk hc)).mp hv with ⟨hlin, e, rfl, he, hall⟩
          refine ⟨hlin, e ++ [c], by simp, by simpa using he, fun y hy => ?_⟩
          rw [List.tail_append_of_ne_nil (by simp)] at hy
          rcases List.mem_append.mp hy with hy | hy
          · exact hall y hy
          · rw [List.mem_singleton.mp hy]
            simpa using hide
    · rintro ⟨hlin, e, rfl, he, hall⟩
      rcases List.eq_nil_or_concat' e with rfl | ⟨e, c, rfl⟩
      · exact .inl rfl
      · have hide : HIDETREE (t.obFlags o) = false :=
          hall o (by rw [List.tail_append_of_ne_nil (by simp)]; simp)
        have hlc : Lineage t.toObjs c (o :: l) := by
          rcases hlin with ⟨x, m, hxm, hm⟩
          exact hm.rest_cons (k := e) (by rw [← hxm]; simp)
        have hc : c ∈ k := by
          cases hlc with
          | child _ hk' hc => exact hk.unique hk' ▸ hc
        refine .inr ?_
        rw [if_neg (by rw [hide]; exact Bool.false_ne_true), List.mem_flatMap]
        refine ⟨c, hc, (ih hlc).mpr ⟨hlin, e, by simp, by simpa using he, fun y hy => ?_⟩⟩
        rw [List.tail_append_of_ne_nil (by simp)] at hall
        exact hall y (List.mem_append_left [o] hy)

theorem shown_nodup (hw : WellFormed t.toObjs 0) (hl : Lineage t.toObjs o l) :
    (shown t depth l o).Nodup := by
  induction depth generalizing o l with
  | zero => exact List.nodup_singleton _
  | succ depth ih =>
    rcases hw.kids o hl.reach with ⟨k, hk⟩
    rw [shown, hk.children, List.nodup_cons]
    by_cases hide : HIDETREE (t.obFlags o) = true
    · rw [if_pos hide]
      exact ⟨List.not_mem_nil, List.nodup_nil⟩
    · rw [if_neg hide]
      -- what is below a child ends in the list of this child
      have tail : ∀ c ∈ k, ∀ v ∈ shown t depth (o :: l) c, ∃ e, v = e ++ c :: o :: l := by
        intro c hc v hv
        rcases ((mem_shown hw (hl.child hk hc)).mp hv).2 with ⟨e, he, -⟩
        exact ⟨e, he⟩
      refine ⟨fun hmem => ?_, List.nodup_flatMap.mpr ⟨fun c hc => ih (hl.child hk hc), ?_⟩⟩
      · rcases List.mem_flatMap.mp hmem with ⟨c, hc, hv⟩
        rcases tail c hc _ hv with ⟨e, he⟩
        have hlen := congrArg List.length he
        simp only [List.length_append, List.length_cons] at hlen
        omega
      · refine hk.nodup.pairwise_of_forall_ne fun c hc d hd hne v hv hv' => hne ?_
        rcases tail c hc v hv with ⟨e, rfl⟩
        rcases tail d hd _ hv' with ⟨e', he⟩
        have hsame := (List.append_inj' he rfl).2
        injection hsame

theorem drawn_nodup (hw : WellFormed t.toObjs 0) (hl : Lineage t.toObjs o l) :
    (((shown t depth l o).map (drawn t)).map Prod.fst).Nodup := by
  rw [List.map_map]
  refine (shown_nodup hw hl).map_on fun v hv u hu heq => ?_
  rcases ((mem_shown hw hl).mp hv).1 with ⟨x, m, rfl, hx⟩
  rcases ((mem_shown hw hl).mp hu).1 with ⟨y, k, rfl, hy⟩
  have hxy : x = y := heq
  subst hxy
  rw [hx.unique hw hy]

def count (k : Nat) : BitVec 16 := BitVec.ofNat 16 (2 * (k + 1))

theorem count_toInt {k : Nat} (hk : k + 1 < 0x4000) :
    (count k).toInt = 2 * ((k + 1 : Nat) : Int) := by
  rw [count, BitVec.toInt_eq_toNat_bmod, BitVec.toNat_ofNat, Nat.mod_eq_of_lt (by omega),
    Int.bmod_eq_of_le] <;> omega

theorem count_succ (k : Nat) : count k + 2 = count (k + 1) := by
  rw [count, count, Nat.mul_succ 2 (k + 1), BitVec.ofNat_add]
  rfl

theorem count_pred (k : Nat) : count (k + 1) - 2 = count k := by
  rw [← count_succ, BitVec.add_sub_cancel]

/-- The tables have the place of an object at its level. -/
def Ready (t : Objects) (s : Paint) (k : Nat) (l : List Nat) : Prop :=
  s.frame (XTAB + 2 * k) = placeX t l ∧ s.frame (YTAB + 2 * k) = placeY t l

/-- Some objects have been drawn, and the tables are as before up to a level. -/
structure Painted (s s' : Paint) (k : Nat) (new : List Drawing) : Prop where
  calls : s'.calls = s.calls ++ new
  writes : ∀ a ∈ s'.writes, a ∈ s.writes ∨ InTables a
  left : ∀ j : Nat, j ≤ k →
    s'.frame (XTAB + 2 * j) = s.frame (XTAB + 2 * j) ∧
      s'.frame (YTAB + 2 * j) = s.frame (YTAB + 2 * j)

theorem Painted.trans {s'' : Paint} {k j : Nat} {a b : List Drawing} (h : Painted s s' k a)
    (h' : Painted s' s'' j b) (hkj : k ≤ j) : Painted s s'' k (a ++ b) := by
  refine ⟨by rw [h'.calls, h.calls, List.append_assoc], fun w hw => ?_, fun i hi => ?_⟩
  · rcases h'.writes w hw with hw | hw
    · exact h.writes w hw
    · exact .inr hw
  · rcases h.left i hi with ⟨hx, hy⟩
    rcases h'.left i (Nat.le_trans hi hkj) with ⟨hx', hy'⟩
    exact ⟨hx'.trans hx, hy'.trans hy⟩

theorem Painted.ready {k : Nat} {a : List Drawing} (h : Painted s s' k a) (hr : Ready t s k l) :
    Ready t s' k l :=
  ⟨(h.left k (Nat.le_refl k)).1.trans hr.1, (h.left k (Nat.le_refl k)).2.trans hr.2⟩

theorem drawObj_ok (ho : o < t.size) (d3 : BitVec 16) (s : Paint) :
    ∃ s' x y, drawObj t o d3 s = .ok s' ∧ s'.calls = s.calls ++ [(o, x, y)] ∧
      s'.writes = s.writes ++ [XTAB + d3.toInt, YTAB + d3.toInt] := by
  rw [drawObj, word_ok ho, Outcome.ok_bind, word_ok ho, Outcome.ok_bind]
  exact ⟨_, _, _, rfl, rfl, by simp [Paint.put]⟩

theorem tables_apart (i : Nat) {j : Nat} (hj : j < MAXDEPTH) :
    YTAB + 2 * (j : Int) ≠ XTAB + 2 * (i : Int) := by
  rw [XTAB, YTAB]
  omega

theorem drawObj_spec (ho : o < t.size) {k : Nat} (hk : k + 1 < MAXDEPTH) (hr : Ready t s k l) :
    ∃ s', drawObj t o (count k) s = .ok s' ∧ Painted s s' k [drawn t (o :: l)] ∧
      Ready t s' (k + 1) (o :: l) := by
  have hlt : k + 1 < 0x4000 := Nat.lt_trans hk (by decide)
  have hx : XTAB - 2 + 2 * ((k + 1 : Nat) : Int) = XTAB + 2 * (k : Int) := by omega
  have hy : YTAB - 2 + 2 * ((k + 1 : Nat) : Int) = YTAB + 2 * (k : Int) := by omega
  have hplaceX : s.frame (XTAB + 2 * (k : Int)) + t.obX o = placeX t (o :: l) := by
    rw [hr.1, placeX_cons, BitVec.add_comm]
  have hplaceY : s.frame (YTAB + 2 * (k : Int)) + t.obY o = placeY t (o :: l) := by
    rw [hr.2, placeY_cons, BitVec.add_comm]
  rw [drawObj, word_ok ho, Outcome.ok_bind, word_ok ho, Outcome.ok_bind]
  simp only [hx, hy, hplaceX, Paint.put, count_toInt hlt, pure, Except.pure,
    Function.update_of_ne (tables_apart (k + 1) (Nat.lt_of_succ_lt hk)), hplaceY]
  refine ⟨_, rfl, ⟨rfl, fun a ha => ?_, fun j hj => ?_⟩, ?_, ?_⟩
  · simp only [List.append_assoc, List.mem_append, List.mem_cons, List.not_mem_nil, or_false] at ha
    refine ha.imp_right fun ha => ?_
    rw [InTables]
    rw [XTAB, YTAB] at *
    omega
  · have hjk : j ≠ k + 1 := Nat.ne_of_lt (Nat.lt_succ_of_le hj)
    have hjm : j < MAXDEPTH := Nat.lt_of_le_of_lt hj (Nat.lt_of_succ_lt hk)
    have hxx : XTAB + 2 * (j : Int) ≠ XTAB + 2 * ((k + 1 : Nat) : Int) := by omega
    have hyy : YTAB + 2 * (j : Int) ≠ YTAB + 2 * ((k + 1 : Nat) : Int) := by omega
    simp only [Function.update_of_ne (tables_apart j hk).symm, Function.update_of_ne hxx,
      Function.update_of_ne hyy, Function.update_of_ne (tables_apart (k + 1) hjm), and_self]
  · simp only [Function.update_of_ne (tables_apart (k + 1) hk).symm, Function.update_self]
  · simp only [Function.update_self]

/-- The depth as it is compared with the counter. -/
def limit (depth : Nat) : BitVec 16 := BitVec.ofNat 16 depth + BitVec.ofNat 16 depth

theorem limit_lt (hd : depth < 0x4000) {k : Nat} (hk : k < 0x4000) :
    limit depth < count k ↔ depth < k + 1 := by
  rw [limit, count, BitVec.lt_def, ← BitVec.ofNat_add, BitVec.toNat_ofNat, BitVec.toNat_ofNat,
    Nat.mod_eq_of_lt (by omega), Nat.mod_eq_of_lt (by omega)]
  omega

theorem walk_brother {d5 d3 : BitVec 16} {f z : Nat} (hw : WellFormed t.toObjs 0)
    (hl : Lineage t.toObjs o l) {a b : List Nat} (hk : Kids t.toObjs o (a ++ c :: z :: b))
    (hz : z ≠ d7) :
    walk t d5 d7 (f + 1) .walkLoop2 c d3 s = walk t d5 d7 f .walkLoopTiny z d3 s := by
  have h0 : c ≠ 0 := fun heq => hw.root o _ hl.reach hk (by simp [heq])
  have htail : t.obTail z ≠ c := hw.tail_ne hl.reach hk (by simp) (by simp)
  rw [walk, if_neg h0, rd_ok (hk.lt c (by simp)), Outcome.ok_bind, hk.next_brother, if_neg hz,
    rd_ok (hk.lt z (by simp)), Outcome.ok_bind, if_pos htail]

theorem walk_parent {d5 d3 : BitVec 16} {f : Nat} (hw : WellFormed t.toObjs 0)
    (hl : Lineage t.toObjs o l) {a : List Nat} (hk : Kids t.toObjs o (a ++ [c])) (ho : o ≠ d7) :
    walk t d5 d7 (f + 1) .walkLoop2 c d3 s =
      if (2 : BitVec 16).slt d3 then walk t d5 d7 f .walkLoop2 o (d3 - 2) s else .ok s := by
  have h0 : c ≠ 0 := fun heq => hw.root o _ hl.reach hk (by simp [heq])
  rcases hk.next_parent with ⟨hnext, htail⟩
  rw [walk, if_neg h0, rd_ok (hk.lt c (by simp)), Outcome.ok_bind, hnext, if_neg ho,
    rd_ok (hl.lt hw o List.mem_cons_self), Outcome.ok_bind, if_neg (not_not.mpr htail)]
  rfl

/-- The objects below the first one are not the one the drawing stops at. -/
def Away (t : Objects) (startob d7 : Nat) : Prop :=
  ∀ x m, Lineage t.toObjs x m → startob ∈ x :: m → x ≠ d7

/-- From an object on, the loop draws a part of the tree and comes back to the object. -/
def Covers (t : Objects) (d5 : BitVec 16) (d7 r k : Nat) (l : List Nat) (o : Nat) : Prop :=
  ∀ s, Ready t s k l → ∃ n s',
    (∀ f, walk t d5 d7 (f + n) .walkLoopTiny o (count k) s =
      walk t d5 d7 f .walkLoop2 o (count k) s') ∧
    Painted s s' k ((shown t r l o).map (drawn t))

theorem walk_children (hw : WellFormed t.toObjs 0) {startob : Nat} (haway : Away t startob d7)
    (hl : Lineage t.toObjs o l) (hin : startob ∈ o :: l) {d5 : BitVec 16} {r k : Nat}
    (hk : k + 2 < MAXDEPTH) (a b : List Nat) (c : Nat) (hkids : Kids t.toObjs o (a ++ c :: b))
    (hsub : ∀ z ∈ c :: b, Covers t d5 d7 r (k + 1) (o :: l) z) (s : Paint)
    (hr : Ready t s (k + 1) (o :: l)) :
    ∃ n s', (∀ f, walk t d5 d7 (f + n) .walkLoopTiny c (count (k + 1)) s =
        walk t d5 d7 f .walkLoop2 o (count k) s') ∧
      Painted s s' (k + 1) (((c :: b).flatMap fun z => shown t r (o :: l) z).map (drawn t)) := by
  induction b generalizing a c s with
  | nil =>
    rcases hsub c List.mem_cons_self s hr with ⟨n, s', hrun, hpaint⟩
    refine ⟨1 + n, s', fun f => ?_, by simpa using hpaint⟩
    have hup : (2 : BitVec 16).slt (count (k + 1)) = true := by
      rw [BitVec.slt_iff_toInt_lt, count_toInt (Nat.lt_trans hk (by decide))]
      exact Int.lt_of_lt_of_le (b := 4) (by decide) (by omega)
    rw [← Nat.add_assoc, hrun, walk_parent hw hl hkids (haway o l hl hin), if_pos hup, count_pred]
  | cons z b ih =>
    rcases hsub c List.mem_cons_self s hr with ⟨n, s₁, hrun, hpaint⟩
    have happ : a ++ c :: z :: b = (a ++ [c]) ++ z :: b := by simp
    have hz : z ≠ d7 := haway z (o :: l) (hl.child hkids (by simp)) (List.mem_cons_of_mem z hin)
    rcases ih (a ++ [c]) z (happ ▸ hkids) (fun y hy => hsub y (List.mem_cons_of_mem c hy)) s₁
      (hpaint.ready hr) with ⟨n', s', hrun', hpaint'⟩
    refine ⟨n' + 1 + n, s', fun f => ?_, ?_⟩
    · rw [← Nat.add_assoc, hrun, ← Nat.add_assoc, walk_brother hw hl hkids hz, hrun']
    · rw [List.flatMap_cons, List.map_append]
      exact hpaint.trans hpaint' (Nat.le_refl _)

/-- The loop draws a subtree whose levels fit. -/
theorem walk_subtree (hw : WellFormed t.toObjs 0) {startob : Nat} (haway : Away t startob d7)
    (hd : depth < 0x4000) (r k : Nat) (hrk : depth = k + r) (hl : Lineage t.toObjs o l)
    (hin : startob ∈ o :: l) (hfit : ∀ v ∈ shown t r l o, v.length + k < l.length + MAXDEPTH) :
    Covers t (limit depth) d7 r k l o := by
  induction r generalizing o l k with
  | zero =>
    intro s hr
    have hk : k + 1 < MAXDEPTH := by
      have hself := hfit (o :: l) (by simp [shown])
      rw [List.length_cons] at hself
      omega
    have ho := hl.lt hw o List.mem_cons_self
    have hdeep := (limit_lt hd (k := k) (by omega)).mpr (by omega)
    rcases drawObj_spec ho hk hr with ⟨s', hdraw, hpaint, -⟩
    refine ⟨1, s', fun f => ?_, hpaint⟩
    rw [walk, hdraw, Outcome.ok_bind, rd_ok ho, Outcome.ok_bind, word_ok ho, Outcome.ok_bind,
      if_pos hdeep, ite_self, ite_self]
  | succ r ih =>
    intro s hr
    have hk : k + 1 < MAXDEPTH := by
      have hself := hfit (o :: l) (by simp [shown])
      rw [List.length_cons] at hself
      omega
    have ho := hl.lt hw o List.mem_cons_self
    rcases hw.kids o hl.reach with ⟨ks, hks⟩
    rcases drawObj_spec ho hk hr with ⟨s₁, hdraw, hpaint, hr₁⟩
    rw [shown, hks.children] at hfit ⊢
    have hstep : ∀ f, walk t (limit depth) d7 (f + 1)
        .walkLoopTiny o (count k) s =
        if t.obHead o = NIL then
          walk t (limit depth) d7 f .walkLoop2 o (count k) s₁
        else if HIDETREE (t.obFlags o) then
          walk t (limit depth) d7 f .walkLoop2 o (count k) s₁
        else walk t (limit depth) d7 f .walkLoop (t.obHead o)
          (count (k + 1)) s₁ := by
      intro f
      have hdeep := mt (limit_lt hd (k := k) (by omega)).mp (by omega)
      rw [walk, hdraw, Outcome.ok_bind, rd_ok ho, Outcome.ok_bind, word_ok ho, Outcome.ok_bind,
        if_neg hdeep, count_succ]
    rcases ks with - | ⟨c, b⟩
    · have hnil : t.obHead o = NIL := by
        rcases hks.sibs with ⟨-, hhead, -⟩ | ⟨hne, -⟩
        · exact hhead
        · exact absurd rfl hne
      refine ⟨1, s₁, fun f => ?_, by simpa using hpaint⟩
      rw [hstep, if_pos hnil]
    · have hhead : t.obHead o = c := (hks.sibs.path (List.cons_ne_nil c b)).1.1
      have hc : t.obHead o ≠ NIL := hhead ▸ ne_NIL (hks.lt c List.mem_cons_self)
      by_cases hide : HIDETREE (t.obFlags o) = true
      · rw [if_pos hide] at hfit ⊢
        refine ⟨1, s₁, fun f => ?_, hpaint⟩
        rw [hstep, if_neg hc, if_pos hide]
      · rw [if_neg hide] at hfit ⊢
        -- what is below a child is below the object
        have hsub : ∀ z ∈ c :: b, Covers t (limit depth) d7 r
            (k + 1) (o :: l) z := fun z hz =>
          ih (k + 1) (by omega) (hl.child hks hz) (List.mem_cons_of_mem z hin) fun v hv => by
            have := hfit v (List.mem_cons_of_mem _ (List.mem_flatMap.mpr ⟨z, hz, hv⟩))
            rw [List.length_cons]
            omega
        have hk2 : k + 2 < MAXDEPTH := by
          have hself : c :: o :: l ∈ shown t r (o :: l) c := by
            cases r <;> simp [shown]
          have := hfit _ (List.mem_cons_of_mem _
            (List.mem_flatMap.mpr ⟨c, List.mem_cons_self, hself⟩))
          rw [List.length_cons, List.length_cons] at this
          omega
        rcases walk_children hw haway hl hin hk2 [] b c hks hsub s₁ hr₁ with
          ⟨n, s', hrun, hpaint'⟩
        refine ⟨n + 1 + 1, s', fun f => ?_, ?_⟩
        · have hne := haway c (o :: l) (hl.child hks List.mem_cons_self)
            (List.mem_cons_of_mem c hin)
          rw [← Nat.add_assoc, hstep, if_neg hc, if_neg hide, hhead, ← Nat.add_assoc, walk,
            if_neg hne, hrun]
        · rw [List.map_cons]
          exact hpaint.trans hpaint' (Nat.le_succ k)

/-- An object `k` levels below the first one, within the depth. -/
def Level (t : Objects) (startob depth : Nat) (l : List Nat) (o k : Nat) : Prop :=
  k ≤ depth ∧ ∃ m, Lineage t.toObjs o m ∧ startob ∈ o :: m ∧ m.length = l.length + k

/-- As long as only the tables have been written to, the levels fit. -/
def Logged (t : Objects) (l : List Nat) (s : Paint) : Prop :=
  (∀ a ∈ s.writes, InTables a) →
    ∀ e ∈ s.calls, ∃ m, Lineage t.toObjs e.1 m ∧ m.length + 1 < l.length + MAXDEPTH

theorem count_inTables {k : Nat} (hk : k < 0x4000) (h : InTables (XTAB + (count k).toInt)) :
    k + 1 < MAXDEPTH := by
  rw [InTables] at h
  by_cases hlt : k + 1 < 0x4000
  · rw [count_toInt hlt] at h
    omega
  · have hlast : k = 0x3fff := by omega
    rw [hlast] at h
    exact absurd h (by decide)

theorem Logged.draw {startob k : Nat} (hd : depth < 0x4000) (hlev : Level t startob depth l o k)
    (hlog : Logged t l s) {x y : BitVec 16} (hcalls : s'.calls = s.calls ++ [(o, x, y)])
    (hwrites : s'.writes = s.writes ++ [XTAB + (count k).toInt, YTAB + (count k).toInt]) :
    Logged t l s' := by
  rcases hlev with ⟨hk, m, hm, -, hlen⟩
  intro hin e he
  rw [hwrites] at hin
  rw [hcalls] at he
  have hfit := count_inTables (Nat.lt_of_le_of_lt hk hd) (hin _ (by simp))
  rcases List.mem_append.mp he with he | he
  · exact hlog (fun a ha => hin a (List.mem_append_left _ ha)) e he
  · rw [List.mem_singleton.mp he]
    exact ⟨m, hm, by omega⟩

/-- As long as the loop writes to the tables only, the levels fit. -/
theorem walk_levels (hw : WellFormed t.toObjs 0) {startob : Nat} (hl : Lineage t.toObjs startob l)
    (haway : Away t startob d7) (hstop : startob = 0 ∨ t.obNext startob = d7)
    (hd : depth < 0x4000) (n : Nat) (lab : Label) (o k : Nat) (s : Paint)
    (hlev : Level t startob depth l o k) (hlog : Logged t l s)
    (h : walk t (limit depth) d7 n lab o (count k) s = .ok s') :
    Logged t l s' := by
  induction n generalizing lab o k s with
  | zero => exact absurd h (by simp [walk])
  | succ n ih =>
    have ho : o < t.size := by
      rcases hlev with ⟨-, m, hm, -⟩
      exact hm.lt hw o List.mem_cons_self
    cases lab with
    | walkLoop =>
      rw [walk] at h
      split at h
      · injection h with h
        exact h ▸ hlog
      · exact ih _ o k s hlev hlog h
    | walkLoopTiny =>
      rcases drawObj_ok ho (count k) s with ⟨s₁, x, y, hdraw, hcalls, hwrites⟩
      have hlog₁ := hlog.draw hd hlev hcalls hwrites
      rw [walk, hdraw, Outcome.ok_bind, rd_ok ho, Outcome.ok_bind, word_ok ho,
        Outcome.ok_bind] at h
      by_cases hnil : t.obHead o = NIL
      · rw [if_pos hnil] at h
        exact ih _ o k s₁ hlev hlog₁ h
      · rw [if_neg hnil] at h
        by_cases hide : HIDETREE (t.obFlags o) = true
        · rw [if_pos hide] at h
          exact ih _ o k s₁ hlev hlog₁ h
        · rw [if_neg hide] at h
          have hk := hlev.1
          by_cases hdeep : limit depth < count k
          · rw [if_pos hdeep] at h
            exact ih _ o k s₁ hlev hlog₁ h
          · rw [if_neg hdeep, count_succ] at h
            have hlt := mt (limit_lt hd (k := k) (by omega)).mpr hdeep
            rcases hlev with ⟨-, m, hm, hin, hlen⟩
            rcases hw.kids o hm.reach with ⟨ks, hks⟩
            have hmem : t.obHead o ∈ ks := by
              rcases hks.sibs with ⟨-, hhead, -⟩ | ⟨hne, -⟩
              · exact absurd hhead hnil
              · exact hks.sibs.head_mem hne
            refine ih _ (t.obHead o) (k + 1) s₁ ⟨by omega, o :: m, hm.child hks hmem,
              List.mem_cons_of_mem _ hin, ?_⟩ hlog₁ h
            rw [List.length_cons, hlen]
            rfl
    | walkLoop2 =>
      by_cases hfirst : o = startob
      · -- the loop comes back to the first object only to stop
        have hend : s = s' := by
          rw [walk] at h
          rcases hstop with h0 | hnext
          · rw [if_pos (hfirst.trans h0)] at h
            injection h
          · rw [rd_ok ho, Outcome.ok_bind, hfirst, if_pos hnext] at h
            split at h <;> injection h
        exact hend ▸ hlog
      · rcases hlev with ⟨hk, m, hm, hin, hlen⟩
        cases hm with
        | root => exact absurd (List.mem_singleton.mp hin).symm hfirst
        | @child p _ m ks hp hks hc =>
          have hin' : startob ∈ p :: m := (List.mem_cons.mp hin).resolve_left (Ne.symm hfirst)
          rcases List.append_of_mem hc with ⟨a, b, rfl⟩
          rcases b with - | ⟨z, b⟩
          · rw [walk_parent hw hp hks (haway p m hp hin')] at h
            split at h
            · have habove := (hp.child hks hc).length_lt_of_mem hw hl hin'
              rcases k with - | k
              · exact absurd hlen (Nat.ne_of_gt habove)
              · rw [count_pred] at h
                exact ih _ p k s ⟨Nat.le_of_succ_le hk, m, hp, hin', Nat.succ.inj hlen⟩ hlog h
            · injection h with h
              exact h ▸ hlog
          · rw [walk_brother hw hp hks (haway z (p :: m) (hp.child hks (by simp))
              (List.mem_cons_of_mem z hin'))] at h
            exact ih _ z k s ⟨hk, p :: m, hp.child hks (by simp),
              List.mem_cons_of_mem z hin', hlen⟩ hlog h

theorem away_of_not_mem (hw : WellFormed t.toObjs 0) {startob : Nat}
    (hd7 : Lineage t.toObjs d7 m) (h : startob ∉ d7 :: m) : Away t startob d7 := by
  intro x k hx hin heq
  subst heq
  exact h (hx.unique hw hd7 ▸ hin)

theorem objcDraw_walk (hw : WellFormed t.toObjs 0) {startob : Nat}
    (hl : Lineage t.toObjs startob l) (frame : Int → BitVec 16) (depth : Nat) :
    ∃ d7 s, Away t startob d7 ∧ (startob = 0 ∨ t.obNext startob = d7) ∧ Ready t s 0 l ∧
      s.calls = [] ∧ (∀ a ∈ s.writes, InTables a) ∧ ∀ n, objcDraw t n startob depth (.start frame) =
        walk t (limit depth) d7 n .walkLoop startob (count 0) s := by
  have hne : YTAB ≠ XTAB := by decide
  have tables : ∀ a ∈ [YTAB, XTAB], InTables a := by decide
  cases hl with
  | root =>
    refine ⟨NIL, ((Paint.start frame).put YTAB 0).put XTAB 0, fun x m hx _ => ?_, .inl rfl,
      ⟨?_, ?_⟩, rfl, tables, fun n => rfl⟩
    · exact ne_NIL (hx.lt hw x List.mem_cons_self)
    · simp [Paint.put, placeX]
    · simp [Paint.put, placeY, hne]
  | @child p _ l k hp hk hc =>
    have hlc := hp.child hk hc
    have h0 : startob ≠ 0 := fun heq => hw.root p k hp.reach hk (heq ▸ hc)
    have hsmall := t.small
    -- the loop stops at the brother behind the object, or at the parent
    have hend : ∃ m, Lineage t.toObjs (t.obNext startob) m ∧ startob ∉ t.obNext startob :: m := by
      rcases List.append_of_mem hc with ⟨a, b, rfl⟩
      have hself := hlc.not_mem hw
      rcases b with - | ⟨z, b⟩
      · rw [hk.next_parent.1]
        exact ⟨l, hp, hself⟩
      · rw [hk.next_brother]
        refine ⟨p :: l, hp.child hk (by simp), fun hmem => ?_⟩
        rcases List.mem_cons.mp hmem with rfl | hmem
        · have hnd := hk.nodup
          simp [List.nodup_append] at hnd
        · exact hself hmem
    rcases hend with ⟨m, hm, hnot⟩
    have hlt := hm.lt hw _ List.mem_cons_self
    refine ⟨t.obNext startob, ((Paint.start frame).put YTAB (placeY t (p :: l))).put XTAB
      (placeX t (p :: l)), away_of_not_mem hw hm hnot, .inr rfl, ⟨?_, ?_⟩, rfl, tables,
      fun n => ?_⟩
    · simp [Paint.put]
    · simp [Paint.put, hne]
    · rw [objcDraw, if_neg h0, rd_ok (hk.lt startob hc), Outcome.ok_bind, if_neg (by omega),
        hw.parentob hp.reach hk hc, Outcome.ok_bind, hp.offset hw, Outcome.ok_bind]
      rfl

theorem walk_stop (ho : o < t.size) (hstop : o = 0 ∨ t.obNext o = d7) (d5 d3 : BitVec 16) (n : Nat)
    (s : Paint) : walk t d5 d7 (n + 1) .walkLoop2 o d3 s = .ok s := by
  rw [walk]
  rcases hstop with h0 | hnext
  · rw [if_pos h0]
  · rw [rd_ok ho, Outcome.ok_bind, if_pos hnext, ite_eq_left_iff]
    exact fun _ => rfl

theorem draws_of_shallow (hw : WellFormed t.toObjs 0) {startob : Nat}
    (hl : Lineage t.toObjs startob l) (hd : depth < 0x4000) (frame : Int → BitVec 16)
    (h : Shallow t startob depth) : Draws t frame startob depth := by
  rcases objcDraw_walk hw hl frame depth with ⟨d7, s, haway, hstop, hr, hcalls, hin, hrun⟩
  have hne := haway startob l hl List.mem_cons_self
  rcases walk_subtree hw haway hd depth 0 (Nat.zero_add depth).symm hl List.mem_cons_self
    (h l hl) s hr with ⟨n, s', hsub, hpaint⟩
  have hsame : s'.calls = (shown t depth l startob).map (drawn t) := by
    rw [hpaint.calls, hcalls, List.nil_append]
  refine ⟨l, hl, 1 + n + 1, s', fun m hm => ?_, hsame, ?_, fun a ha => ?_⟩
  · rcases Nat.exists_eq_add_of_le' hm with ⟨f, rfl⟩
    rw [hrun, ← Nat.add_assoc, walk, if_neg hne, ← Nat.add_assoc, hsub,
      walk_stop (hl.lt hw startob List.mem_cons_self) hstop]
  · rw [hsame]
    exact drawn_nodup hw hl
  · exact (hpaint.writes a ha).elim (hin a) id

theorem shallow_of_draws (hw : WellFormed t.toObjs 0) {startob : Nat} (hd : depth < 0x4000)
    (frame : Int → BitVec 16) (h : Draws t frame startob depth) : Shallow t startob depth := by
  rcases h with ⟨l, hl, n, s', hret, hex⟩
  intro l' hl' v hv
  rw [hl'.unique hw hl] at hv ⊢
  rcases objcDraw_walk hw hl frame depth with ⟨d7, s, haway, hstop, hr, hcalls, hin, hrun⟩
  have hlog : Logged t l s := fun _ e he => absurd he (by rw [hcalls]; exact List.not_mem_nil)
  have hend := walk_levels hw hl haway hstop hd n .walkLoop startob 0 s
    ⟨Nat.zero_le _, l, hl, List.mem_cons_self, rfl⟩ hlog
    ((hrun n).symm.trans (hret n (Nat.le_refl n)))
  -- what is to be drawn has been drawn
  have hmem : drawn t v ∈ s'.calls := hex.calls ▸ List.mem_map_of_mem hv
  rcases hend hex.within _ hmem with ⟨m, hm, hlen⟩
  rcases ((mem_shown hw hl).mp hv).1 with ⟨x, k, rfl, hx⟩
  have hkm : k = m := hx.unique hw hm
  rw [List.length_cons, hkm]
  exact hlen

/-- The objects are drawn as they should be, and nothing but the tables is written to, just if no
    object to be drawn is seven or more levels below the first one. -/
theorem draws_iff (t : Objects) (hw : WellFormed t.toObjs 0) (frame : Int → BitVec 16)
    (startob depth : Nat) (hs : Reach t.toObjs 0 startob) (hd : depth < 0x4000) :
    Draws t frame startob depth ↔ Shallow t startob depth := by
  rcases hs.lineage with ⟨l, hl⟩
  exact ⟨shallow_of_draws hw hd frame, draws_of_shallow hw hl hd frame⟩

end

/-- Objects of which each is the only child of the one before. -/
def nested (n : Nat) (h : n ≤ 0x8000) : Objects where
  size := n
  small := h
  obNext o := if o = 0 then NIL else o - 1
  obHead o := if o + 1 < n then o + 1 else NIL
  obTail o := if o + 1 < n then o + 1 else NIL
  obFlags _ := 0
  obX _ := 1
  obY _ := 1
  obWidth _ := 100
  obHeight _ := 100

theorem nested_kids (n : Nat) (h : n ≤ 0x8000) (o : Nat) :
    Kids (nested n h).toObjs o (if o + 1 < n then [o + 1] else []) := by
  by_cases ho : o + 1 < n
  · rw [if_pos ho]
    refine ⟨.inr ⟨by simp, ⟨if_pos ho, ?_⟩, ?_⟩, by simp, fun c hc => ?_⟩
    · show (if o + 1 = 0 then NIL else o) = o
      exact if_neg (Nat.succ_ne_zero o)
    · exact congrArg some (if_pos ho).symm
    · rw [List.mem_singleton.mp hc]
      exact ho
  · rw [if_neg ho]
    exact ⟨.inl ⟨rfl, if_neg ho, if_neg ho⟩, List.not_mem_nil,
      fun c hc => absurd hc List.not_mem_nil⟩

theorem nested_child (n : Nat) (h : n ≤ 0x8000) {x c : Nat} {k : List Nat}
    (hk : Kids (nested n h).toObjs x k) (hc : c ∈ k) : c = x + 1 := by
  rw [hk.unique (nested_kids n h x)] at hc
  split at hc
  · exact List.mem_singleton.mp hc
  · exact absurd hc List.not_mem_nil

theorem nested_wellFormed (n : Nat) (h : n ≤ 0x8000) (hn : 0 < n) :
    WellFormed (nested n h).toObjs 0 := by
  refine ⟨hn, fun x _ => ⟨_, nested_kids n h x⟩, fun x k _ hk h0 => ?_, fun x y k m c _ _ hk hm hck
    hcm => ?_⟩
  · exact absurd (nested_child n h hk h0) (Nat.succ_ne_zero x).symm
  · exact Nat.succ.inj ((nested_child n h hk hck).symm.trans (nested_child n h hm hcm))

theorem draws_iff_two : Draws (nested 2 (by decide)) (fun _ => 0) 0 8 ↔
    Shallow (nested 2 (by decide)) 0 8 :=
  draws_iff _ (nested_wellFormed 2 _ (by decide)) (fun _ => 0) 0 8 Reach.root (by decide)

/-- With eight objects below each other the last one is drawn over the frame pointer. -/
theorem draws_eight : WellFormed (nested 8 (by decide)).toObjs 0 ∧
    ¬ Draws (nested 8 (by decide)) (fun _ => 0) 0 MAXDEPTH := by
  have hw := nested_wellFormed 8 (by decide) (by decide)
  refine ⟨hw, fun hdraws => ?_⟩
  have hlast : [7, 6, 5, 4, 3, 2, 1, 0] ∈ shown (nested 8 (by decide)) MAXDEPTH [] 0 := by decide
  exact absurd (shallow_of_draws hw (by decide) _ hdraws [] .root _ hlast) (by decide)

end Obj

end Aes

end MagiC
