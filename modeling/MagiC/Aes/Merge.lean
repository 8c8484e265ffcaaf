import MagiC.Aes.Buffer
import Mathlib.Data.List.Perm.Basic
import Mathlib.Tactic.Linarith

/-!
# Merging Messages Loses No Information

The queue as the application sees it: a list of messages of sixteen bytes,
each of which stands for one or more that were sent.

`Deliver` is what may become of a message. It goes to the end, or takes the
place of a pending message of its type for its window, or, if it is a redraw
message, becomes part of one or two pending ones, which then cover it. The code
does the same, except that it looks for a message to be replaced by its type
only, so a scroll request for one window replaces the one for another. For
redraw messages it looks at the window, too.

## Main definitions

* `Grect.Covers`: Points of a rectangle.

## Theorems

* `messages_kept`: In every run the application gets what was sent.
-/

namespace MagiC

namespace Aes

namespace Msg

open Copy

/-! ## Rectangles -/

structure Grect where
  x : BitVec 16
  y : BitVec 16
  w : BitVec 16
  h : BitVec 16
  deriving DecidableEq

def Grect.Has (r : Grect) (p : Int × Int) : Prop :=
  (r.x.toInt ≤ p.1 ∧ p.1 < r.x.toInt + r.w.toInt) ∧
    r.y.toInt ≤ p.2 ∧ p.2 < r.y.toInt + r.h.toInt

def Grect.Covers (r s : Grect) : Prop := ∀ p, s.Has p → r.Has p

/-- What `grects_union` makes of a rectangle, given another one. -/
def Grect.join (r s : Grect) : Grect where
  x := (unionSpan s.x s.w r.x r.w).1
  y := (unionSpan s.y s.h r.y r.h).1
  w := (unionSpan s.x s.w r.x r.w).2
  h := (unionSpan s.y s.h r.y r.h).2

/-- The far end of a span is a word, and not too far from another near end. -/
structure Near (x w x' : BitVec 16) : Prop where
  low : -2 ^ 15 ≤ x.toInt + w.toInt
  high : x.toInt + w.toInt < 2 ^ 15
  span : x.toInt + w.toInt - x'.toInt < 2 ^ 15

instance (x w x' : BitVec 16) : Decidable (Near x w x') :=
  decidable_of_iff (-2 ^ 15 ≤ x.toInt + w.toInt ∧ x.toInt + w.toInt < 2 ^ 15 ∧
    x.toInt + w.toInt - x'.toInt < 2 ^ 15) ⟨fun h => ⟨h.1, h.2.1, h.2.2⟩, fun h => ⟨h.1, h.2, h.3⟩⟩

def Fits (l : List Grect) : Prop := ∀ r ∈ l, ∀ s ∈ l, Near r.x r.w s.x ∧ Near r.y r.h s.y

instance (l : List Grect) : Decidable (Fits l) := inferInstanceAs (Decidable (∀ r ∈ l, _))

theorem toInt_add_of_near {x w x' : BitVec 16} (h : Near x w x') :
    (x + w).toInt = x.toInt + w.toInt := by
  rw [BitVec.toInt_add]
  exact Int.bmod_eq_of_le (by have := h.low; omega) (by have := h.high; omega)

theorem unionSpan_spec {x0 w0 x1 w1 : BitVec 16} (h00 : Near x0 w0 x0) (h01 : Near x0 w0 x1)
    (h10 : Near x1 w1 x0) (h11 : Near x1 w1 x1) :
    (unionSpan x0 w0 x1 w1).1.toInt = min x0.toInt x1.toInt ∧
      (unionSpan x0 w0 x1 w1).1.toInt + (unionSpan x0 w0 x1 w1).2.toInt
        = max (x0.toInt + w0.toInt) (x1.toInt + w1.toInt) := by
  have hfst : (unionSpan x0 w0 x1 w1).1.toInt = min x0.toInt x1.toInt := by
    unfold unionSpan
    dsimp only
    by_cases hlt : x1.slt x0 = true
    · rw [if_pos hlt]
      have := BitVec.slt_iff_toInt_lt.mp hlt
      omega
    · rw [if_neg hlt]
      have := mt BitVec.slt_iff_toInt_lt.mpr hlt
      omega
  refine ⟨hfst, ?_⟩
  -- The far end, from which the width is taken.
  have hend : (if (x0 + w0).slt (x1 + w1) then x1 + w1 else x0 + w0).toInt
      = max (x0.toInt + w0.toInt) (x1.toInt + w1.toInt) := by
    by_cases hlt : (x0 + w0).slt (x1 + w1) = true
    · rw [if_pos hlt]
      have := BitVec.slt_iff_toInt_lt.mp hlt
      rw [toInt_add_of_near h00, toInt_add_of_near h11] at this
      rw [toInt_add_of_near h11]
      omega
    · rw [if_neg hlt]
      have := mt BitVec.slt_iff_toInt_lt.mpr hlt
      rw [toInt_add_of_near h00, toInt_add_of_near h11] at this
      rw [toInt_add_of_near h00]
      omega
  have hsnd : (unionSpan x0 w0 x1 w1).2.toInt
      = max (x0.toInt + w0.toInt) (x1.toInt + w1.toInt) - min x0.toInt x1.toInt := by
    rw [← hfst, ← hend]
    unfold unionSpan
    dsimp only
    rw [BitVec.toInt_sub]
    have hlow0 := BitVec.le_toInt w0
    have hs00 := h00.span
    have hs01 := h01.span
    have hs10 := h10.span
    have hs11 := h11.span
    unfold unionSpan at hfst
    dsimp only at hfst
    refine Int.bmod_eq_of_le ?_ ?_
    · rw [hend, hfst]
      omega
    · rw [hend, hfst]
      omega
  rw [hfst, hsnd]
  omega

theorem span_join {x0 w0 x1 w1 : BitVec 16} (h00 : Near x0 w0 x0) (h01 : Near x0 w0 x1)
    (h10 : Near x1 w1 x0) (h11 : Near x1 w1 x1) {a : Int} :
    (x0.toInt ≤ a ∧ a < x0.toInt + w0.toInt → (unionSpan x0 w0 x1 w1).1.toInt ≤ a ∧
      a < (unionSpan x0 w0 x1 w1).1.toInt + (unionSpan x0 w0 x1 w1).2.toInt) ∧
    (x1.toInt ≤ a ∧ a < x1.toInt + w1.toInt → (unionSpan x0 w0 x1 w1).1.toInt ≤ a ∧
      a < (unionSpan x0 w0 x1 w1).1.toInt + (unionSpan x0 w0 x1 w1).2.toInt) := by
  have hspec := unionSpan_spec h00 h01 h10 h11
  rw [hspec.2, hspec.1]
  constructor
  · intro ha
    omega
  · intro ha
    omega

theorem Fits.mono {l l' : List Grect} (h : Fits l) (hsub : ∀ r ∈ l', r ∈ l) : Fits l' :=
  fun r hr s hs => h r (hsub r hr) s (hsub s hs)

/-- A joined rectangle covers both. -/
theorem join_covers {r s : Grect} (h : Fits [s, r]) :
    (r.join s).Covers r ∧ (r.join s).Covers s := by
  have hs : s ∈ [s, r] := List.mem_cons_self
  have hr : r ∈ [s, r] := List.mem_cons_of_mem _ List.mem_cons_self
  have hx := fun a => span_join (h s hs s hs).1 (h s hs r hr).1 (h r hr s hs).1 (h r hr r hr).1
    (a := a)
  have hy := fun a => span_join (h s hs s hs).2 (h s hs r hr).2 (h r hr s hs).2 (h r hr r hr).2
    (a := a)
  exact ⟨fun p hp => ⟨(hx p.1).2 hp.1, (hy p.2).2 hp.2⟩,
    fun p hp => ⟨(hx p.1).1 hp.1, (hy p.2).1 hp.2⟩⟩

theorem Near.join {x0 w0 x1 w1 x : BitVec 16} (h00 : Near x0 w0 x0) (h01 : Near x0 w0 x1)
    (h10 : Near x1 w1 x0) (h11 : Near x1 w1 x1) (h0 : Near x0 w0 x) (h1 : Near x1 w1 x) :
    Near (unionSpan x0 w0 x1 w1).1 (unionSpan x0 w0 x1 w1).2 x := by
  have hspec := unionSpan_spec h00 h01 h10 h11
  refine ⟨?_, ?_, ?_⟩
  · rw [hspec.2]
    have := h00.low
    omega
  · rw [hspec.2]
    have := h00.high
    have := h11.high
    omega
  · rw [hspec.2]
    have := h0.span
    have := h1.span
    omega

theorem Near.toJoin {x0 w0 x1 w1 x w : BitVec 16} (h00 : Near x0 w0 x0) (h01 : Near x0 w0 x1)
    (h10 : Near x1 w1 x0) (h11 : Near x1 w1 x1) (h0 : Near x w x0) (h1 : Near x w x1) :
    Near x w (unionSpan x0 w0 x1 w1).1 := by
  refine ⟨h0.low, h0.high, ?_⟩
  rw [(unionSpan_spec h00 h01 h10 h11).1]
  have := h0.span
  have := h1.span
  omega

theorem Fits.join {r s t : Grect} (h : Fits [s, r, t]) : Fits [t, r.join s] := by
  have hs : s ∈ [s, r, t] := List.mem_cons_self
  have hr : r ∈ [s, r, t] := List.mem_cons_of_mem _ List.mem_cons_self
  have ht : t ∈ [s, r, t] := List.mem_cons_of_mem _ (List.mem_cons_of_mem _ List.mem_cons_self)
  -- Both axes, for one rectangle and the joined one.
  have hto : ∀ u ∈ [s, r, t], Near u.x u.w (r.join s).x ∧ Near u.y u.h (r.join s).y :=
    fun u hu => ⟨Near.toJoin (h s hs s hs).1 (h s hs r hr).1 (h r hr s hs).1 (h r hr r hr).1
      (h u hu s hs).1 (h u hu r hr).1, Near.toJoin (h s hs s hs).2 (h s hs r hr).2
      (h r hr s hs).2 (h r hr r hr).2 (h u hu s hs).2 (h u hu r hr).2⟩
  have hfrom : ∀ x y, (∀ u ∈ [s, r, t], Near u.x u.w x ∧ Near u.y u.h y) →
      Near (r.join s).x (r.join s).w x ∧ Near (r.join s).y (r.join s).h y :=
    fun x y hu => ⟨Near.join (h s hs s hs).1 (h s hs r hr).1 (h r hr s hs).1 (h r hr r hr).1
      (hu s hs).1 (hu r hr).1, Near.join (h s hs s hs).2 (h s hs r hr).2 (h r hr s hs).2
      (h r hr r hr).2 (hu s hs).2 (hu r hr).2⟩
  intro u hu v hv
  rcases List.mem_cons.mp hu with rfl | hu
  · rcases List.mem_cons.mp hv with rfl | hv
    · exact h _ ht _ ht
    · rw [List.mem_singleton.mp hv]
      exact hto _ ht
  · rw [List.mem_singleton.mp hu]
    rcases List.mem_cons.mp hv with rfl | hv
    · exact hfrom _ _ (fun u hu => h u hu v ht)
    · rw [List.mem_singleton.mp hv]
      exact hfrom _ _ hto

/-! ## Messages in memory -/

structure Message where
  typ : BitVec 16
  id : BitVec 16
  overlen : BitVec 16
  whdl : BitVec 16
  g : Grect
  deriving DecidableEq

def grectAt (m : Mem) (a : Nat) : Grect :=
  ⟨word m a, word m (a + 2), word m (a + 4), word m (a + 6)⟩

def readMsg (m : Mem) (a : Nat) : Message :=
  ⟨word m a, word m (a + 2), word m (a + 4), word m (a + 6), grectAt m (a + 8)⟩

theorem readMsg_congr {m m' : Mem} {a a' : Nat}
    (h : ∀ k, k < 16 → (m (a + k)).byte = (m' (a' + k)).byte) :
    readMsg m a = readMsg m' a' := by
  have hw : ∀ k, k < 15 → word m (a + k) = word m' (a' + k) :=
    fun k hk => word_congr (h k (by omega)) (h (k + 1) (by omega))
  have h0 : word m a = word m' a' := hw 0 (by omega)
  unfold readMsg grectAt
  simp only [Nat.add_assoc, h0, hw 2 (by omega), hw 4 (by omega), hw 6 (by omega),
    hw 8 (by omega), hw (8 + 2) (by omega), hw (8 + 4) (by omega), hw (8 + 6) (by omega)]

theorem word_putWord (m : Mem) (a : Nat) (w : BitVec 16) (s : Bool) :
    word (putWord m a w s) a = w := by
  unfold word putWord
  rw [Function.update_self, Function.update_of_ne (by omega), Function.update_self]
  ext i hi
  rw [BitVec.getElem_append]
  by_cases h : i < 8
  · rw [dif_pos h, BitVec.getElem_extractLsb', Nat.zero_add, BitVec.getLsbD_eq_getElem hi]
  · rw [dif_neg h, BitVec.getElem_extractLsb', show 8 + (i - 8) = i by omega,
      BitVec.getLsbD_eq_getElem hi]

theorem word_putWord_other (m : Mem) {a b : Nat} (w : BitVec 16) (s : Bool)
    (h : b + 2 ≤ a ∨ a + 2 ≤ b) : word (putWord m a w s) b = word m b := by
  unfold word
  rw [putWord_other m w s (by omega) (by omega), putWord_other m w s (by omega) (by omega)]

theorem unionAxis_near (m : Mem) (a0 a1 : Nat) :
    word (unionAxis m a0 a1) a1
      = (unionSpan (word m a0) (word m (a0 + 4)) (word m a1) (word m (a1 + 4))).1 := by
  unfold unionAxis
  rw [word_putWord_other _ _ _ (by omega), word_putWord]

theorem unionAxis_far (m : Mem) (a0 a1 : Nat) :
    word (unionAxis m a0 a1) (a1 + 4)
      = (unionSpan (word m a0) (word m (a0 + 4)) (word m a1) (word m (a1 + 4))).2 := by
  unfold unionAxis
  rw [word_putWord]

theorem unionAxis_word (m : Mem) (a0 : Nat) {a1 b : Nat}
    (h : b + 2 ≤ a1 ∨ (a1 + 2 ≤ b ∧ b + 2 ≤ a1 + 4) ∨ a1 + 6 ≤ b) :
    word (unionAxis m a0 a1) b = word m b := by
  unfold unionAxis
  rw [word_putWord_other _ _ _ (by omega), word_putWord_other _ _ _ (by omega)]

theorem grectAt_union (m : Mem) {a0 a1 : Nat} (h : a0 + 8 ≤ a1 ∨ a1 + 8 ≤ a0) :
    grectAt (grectsUnion m a0 a1) a1 = (grectAt m a1).join (grectAt m a0) := by
  unfold grectsUnion
  have h1 := unionAxis_near (unionAxis m a0 a1) (a0 + 2) (a1 + 2)
  have h2 := unionAxis_far (unionAxis m a0 a1) (a0 + 2) (a1 + 2)
  rw [unionAxis_word m a0 (by omega), unionAxis_word m a0 (by omega),
    unionAxis_word m a0 (by omega), unionAxis_word m a0 (by omega)] at h1 h2
  unfold grectAt Grect.join
  simp only [Nat.add_assoc] at h1 h2 ⊢
  rw [h1, h2, unionAxis_word _ _ (by omega), unionAxis_near, unionAxis_word _ _ (by omega),
    unionAxis_far]

theorem readMsg_union (m : Mem) {a0 a : Nat} (h : a0 + 8 ≤ a + 8 ∨ a + 16 ≤ a0) :
    readMsg (grectsUnion m a0 (a + 8)) a
      = { readMsg m a with g := (readMsg m a).g.join (grectAt m a0) } := by
  have hw : ∀ k, k < 7 → word (grectsUnion m a0 (a + 8)) (a + k) = word m (a + k) :=
    fun k hk => word_congr (by rw [grectsUnion_other m a0 (by omega)])
      (by rw [grectsUnion_other m a0 (by omega)])
  have h0 : word (grectsUnion m a0 (a + 8)) a = word m a := hw 0 (by omega)
  unfold readMsg
  dsimp only
  rw [grectAt_union m (by omega), h0, hw 2 (by omega), hw 4 (by omega), hw 6 (by omega)]

/-! ## The messages in the buffer -/

def Appl.msg (ap : Appl) (i : Nat) : Message := readMsg ap.mem (apBuf + 16 * i)

/-- A pending message that a new one is compared with. -/
def Like (m o : Message) : Prop := o.typ = m.typ ∧ (m.typ = wmRedraw → m.whdl = o.whdl)

instance (m : Message) : DecidablePred (Like m) := fun _ => inferInstanceAs (Decidable (_ ∧ _))

/-- The buffer holds `n` messages without overlength. -/
structure Rows (ap : Appl) (n : Nat) : Prop where
  len : ap.apLen.toNat = 16 * n
  fit : 16 * n ≤ apBuflen
  overlen : ∀ i, i < n → (ap.msg i).overlen = 0

/-- Those of the first `k` messages that are like the one behind them all. -/
def likes (ap : Appl) (n k : Nat) : List Nat :=
  (List.range k).filter (fun i => Like (ap.msg n) (ap.msg i))

section rows

variable {ap : Appl} {n : Nat}

theorem Rows.msgAt (h : Rows ap n) : msgAt ap.apLen = apBuf + 16 * n := by
  have hfit := h.fit
  unfold apBuflen at hfit
  rw [msgAt_of_lt (by rw [h.len]; omega), h.len]

theorem Rows.msgAt_ofNat (h : Rows ap n) {i : Nat} (hi : i ≤ n) :
    Msg.msgAt (BitVec.ofNat 16 (16 * i)) = apBuf + 16 * i := by
  have hfit := h.fit
  unfold apBuflen at hfit
  have hmod : (BitVec.ofNat 16 (16 * i)).toNat = 16 * i := by
    rw [BitVec.toNat_ofNat, Nat.mod_eq_of_lt (by omega)]
  rw [msgAt_of_lt (by rw [hmod]; omega), hmod]

theorem Rows.visit (h : Rows ap n) {i : Nat} (hi : i ≤ n) :
    Msg.visit ap.mem i = BitVec.ofNat 16 (16 * i) := by
  induction i with
  | zero => rfl
  | succ k ih =>
    have hover : word ap.mem (apBuf + 16 * k + 4) = 0 := h.overlen k (by omega)
    rw [visit_succ, ih (by omega)]
    unfold nextMsg
    rw [h.msgAt_ofNat (by omega), hover, if_neg (by decide)]
    rw [show 16 * (k + 1) = 16 * k + 16 by omega, BitVec.ofNat_add]
    rfl

theorem Rows.visit_lt (h : Rows ap n) {i : Nat} (hi : i ≤ n) :
    Msg.visit ap.mem i < ap.apLen ↔ i < n := by
  have hfit := h.fit
  unfold apBuflen at hfit
  rw [h.visit hi, BitVec.lt_def, h.len, BitVec.toNat_ofNat, Nat.mod_eq_of_lt (by omega)]
  omega

theorem Rows.alike (h : Rows ap n) {i : Nat} (hi : i ≤ n) :
    Alike ap.mem (Msg.msgAt ap.apLen) (Msg.visit ap.mem i) ↔ Like (ap.msg n) (ap.msg i) := by
  unfold Alike
  rw [h.visit hi, h.msgAt_ofNat hi, h.msgAt]
  exact Iff.rfl

theorem Rows.alikes (h : Rows ap n) {k : Nat} (hk : k ≤ n) :
    Msg.alikes ap.mem (Msg.msgAt ap.apLen) k = (likes ap n k).map (fun i => apBuf + 16 * i) := by
  unfold Msg.alikes likes
  rw [List.filter_map, List.map_map]
  have hfilter : (List.range k).filter
      ((fun d => decide (Alike ap.mem (Msg.msgAt ap.apLen) d)) ∘ Msg.visit ap.mem)
      = (List.range k).filter (fun i => decide (Like (ap.msg n) (ap.msg i))) := by
    refine List.filter_congr (fun i hi => ?_)
    have hik : i < k := List.mem_range.mp hi
    exact decide_eq_decide.mpr (h.alike (by omega))
  rw [hfilter]
  refine List.map_congr_left (fun i hi => ?_)
  have hik : i < k := List.mem_range.mp (List.mem_filter.mp hi).1
  dsimp only [Function.comp]
  rw [h.visit (by omega), h.msgAt_ofNat (by omega)]

theorem Rows.stops (h : Rows ap n) {k : Nat} (hk : k ≤ n) :
    Stops ap k ↔ k = n ∨ (Like (ap.msg n) (ap.msg k) ∧
      ((ap.msg n).typ = wmRedraw → 2 ≤ (likes ap n k).length)) := by
  unfold Stops
  rw [h.visit_lt hk, h.alike hk, h.alikes hk, List.length_map, h.msgAt]
  refine or_congr ?_ Iff.rfl
  omega

theorem Rows.stopped (h : Rows ap n) : ∃ k, k ≤ n ∧ Stopped ap k :=
  stopped_of_stops _ _ ((h.stops (Nat.le_refl n)).mpr (.inl rfl))

theorem likes_add (ap : Appl) (n k j : Nat) : ∃ l, likes ap n (k + j) = likes ap n k ++ l := by
  unfold likes
  rw [List.range_add, List.filter_append]
  exact ⟨_, rfl⟩

theorem mem_likes {k i : Nat} : i ∈ likes ap n k ↔ i < k ∧ Like (ap.msg n) (ap.msg i) := by
  unfold likes
  rw [List.mem_filter, List.mem_range, decide_eq_true_iff]

theorem likes_lt {k i j : Nat} (h : [i, j].Sublist (likes ap n k)) : i < j := by
  have hsub : [i, j].Sublist (List.range k) := h.trans List.filter_sublist
  exact List.rel_of_pairwise_cons (List.pairwise_lt_range.sublist hsub) List.mem_cons_self

theorem Rows.found (h : Rows ap n) {k : Nat} (hk : k ≤ n) (hs : Stopped ap k) :
    ((ap.msg n).typ ≠ wmRedraw ∧ k < n ∧ found ap k = .overwr (apBuf + 16 * k) ∧
        (likes ap n n).head? = some k) ∨
      (∃ d5, found ap k = .redraws (d5.map (fun i => apBuf + 16 * i)) ∧
        d5.take 2 = (likes ap n n).take 2 ∧ ((ap.msg n).typ ≠ wmRedraw → d5 = [])) := by
  rcases Nat.exists_eq_add_of_le hk with ⟨j, hj⟩
  have hadd := likes_add ap n k j
  rw [← hj] at hadd
  have hstop := (h.stops hk).mp hs.1
  -- A message that is no redraw message would have stopped at the first one like it.
  have hnone : (ap.msg n).typ ≠ wmRedraw → likes ap n k = [] := by
    intro hne
    refine List.eq_nil_iff_forall_not_mem.mpr (fun i hi => ?_)
    have hi' := mem_likes.mp hi
    exact hs.2 i hi'.1 ((h.stops (by omega)).mpr (.inr ⟨hi'.2, fun e => absurd e hne⟩))
  have htyp : word ap.mem (Msg.msgAt ap.apLen) = (ap.msg n).typ := by
    rw [h.msgAt]
    rfl
  by_cases hover : k < n ∧ (ap.msg n).typ ≠ wmRedraw
  · refine .inl ⟨hover.2, hover.1, ?_, ?_⟩
    · refine (if_pos ⟨(h.visit_lt hk).mpr hover.1, fun e => hover.2 (htyp.symm.trans e)⟩).trans ?_
      rw [h.visit hk, h.msgAt_ofNat hk]
    · have hlike : Like (ap.msg n) (ap.msg k) := by
        rcases hstop with he | hl
        · omega
        · exact hl.1
      rcases likes_add ap n (k + 1) (n - (k + 1)) with ⟨l, hl⟩
      rw [show k + 1 + (n - (k + 1)) = n by omega] at hl
      have hfst : likes ap n (k + 1) = [k] := by
        have hkk := hnone hover.2
        unfold likes at hkk ⊢
        rw [List.range_succ, List.filter_append, hkk]
        simp only [hlike, decide_true, List.filter_cons_of_pos, List.filter_nil, List.nil_append]
      rw [hl, hfst]
      rfl
  · refine .inr ⟨likes ap n k, ?_, ?_, hnone⟩
    · refine (if_neg (fun hv => hover ⟨(h.visit_lt hk).mp hv.1,
        fun e => hv.2 (htyp.trans e)⟩)).trans ?_
      rw [h.alikes hk]
    · rcases hadd with ⟨l, hl⟩
      by_cases hkn : k = n
      · rw [hkn]
      · -- A third redraw message of the window ends the search before the end.
        have hred : (ap.msg n).typ = wmRedraw := by
          by_contra hne
          exact hover ⟨by omega, hne⟩
        rcases hstop with he | htwo
        · exact absurd he hkn
        · rw [hl, List.take_append_of_le_length (htwo.2 hred)]

/-! ## What becomes of the messages -/

def Message.join (o m : Message) : Message := { o with g := o.g.join m.g }

variable (ap) in
theorem moveLongs_msg {k i : Nat} (hk : k < n) (hi : i < n) :
    readMsg (moveLongs 4 (apBuf + 16 * n) (apBuf + 16 * k) ap.mem) (apBuf + 16 * i)
      = if i = k then ap.msg n else ap.msg i := by
  by_cases hik : i = k
  · subst hik
    rw [if_pos rfl]
    refine readMsg_congr (fun j hj => ?_)
    rw [moveLongs_apply _ _ (by omega), if_pos (by omega)]
    rw [show apBuf + 16 * n + (apBuf + 16 * i + j - (apBuf + 16 * i)) = apBuf + 16 * n + j by omega]
  · rw [if_neg hik]
    refine readMsg_congr (fun j hj => ?_)
    rw [moveLongs_apply _ _ (by omega), if_neg (by omega)]

theorem union_msg (m : Mem) {a k i : Nat} (ha : a + 16 ≤ apBuf + 16 * k ∨ apBuf + 16 * k + 16 ≤ a) :
    readMsg (grectsUnion m (a + 8) (apBuf + 16 * k + 8)) (apBuf + 16 * i)
      = if i = k then (readMsg m (apBuf + 16 * k)).join (readMsg m a)
        else readMsg m (apBuf + 16 * i) := by
  by_cases hik : i = k
  · subst hik
    rw [if_pos rfl, readMsg_union m (by omega)]
    rfl
  · rw [if_neg hik]
    refine readMsg_congr (fun j hj => ?_)
    rw [grectsUnion_other _ _ (by omega)]

theorem union_two (m : Mem) {n i j a : Nat} (hij : i < j) (hj : j < n) :
    readMsg (grectsUnion (grectsUnion m (apBuf + 16 * n + 8) (apBuf + 16 * i + 8))
        (apBuf + 16 * j + 8) (apBuf + 16 * i + 8)) (apBuf + 16 * a)
      = if a = i then ((readMsg m (apBuf + 16 * i)).join (readMsg m (apBuf + 16 * n))).join
          (readMsg m (apBuf + 16 * j)) else readMsg m (apBuf + 16 * a) := by
  have hfst : ∀ b, readMsg (grectsUnion m (apBuf + 16 * n + 8) (apBuf + 16 * i + 8))
    (apBuf + 16 * b)
      = if b = i then (readMsg m (apBuf + 16 * i)).join (readMsg m (apBuf + 16 * n))
        else readMsg m (apBuf + 16 * b) := fun b => union_msg m (by omega)
  rw [union_msg _ (by omega), hfst i, hfst j, hfst a, if_pos rfl, if_neg (Nat.ne_of_gt hij)]
  by_cases hai : a = i
  · rw [if_pos hai, if_pos hai]
  · rw [if_neg hai, if_neg hai, if_neg hai]

theorem remove_msg (m : Mem) {n j i : Nat} (hj : j < n) (hi : i + 1 < n) :
    readMsg (vmemcpy (apBuf + 16 * j) (apBuf + 16 * j + 16) (16 * (n - (j + 1))) m)
        (apBuf + 16 * i)
      = if i < j then readMsg m (apBuf + 16 * i) else readMsg m (apBuf + 16 * (i + 1)) := by
  by_cases hij : i < j
  · rw [if_pos hij]
    refine readMsg_congr (fun b hb => ?_)
    rw [vmemcpy_apply _ _ (by omega), if_neg (by omega)]
  · rw [if_neg hij]
    refine readMsg_congr (fun b hb => ?_)
    rw [vmemcpy_apply _ _ (by omega), if_pos (by omega)]
    rw [show apBuf + 16 * j + 16 + (apBuf + 16 * i + b - (apBuf + 16 * j))
      = apBuf + 16 * (i + 1) + b by omega]

theorem Rows.behind (h : Rows ap n) {j : Nat} (hj : j < n) :
    Msg.behind ap.apLen (apBuf + 16 * j) = 16 * (n - (j + 1)) := by
  have hfit := h.fit
  unfold Msg.behind
  rw [h.msgAt]
  unfold apBuflen at hfit
  unfold apBuf
  omega

end rows

/-! ## The mailbox -/

/-- A pending message, and the messages it stands for. -/
structure Entry where
  msg : Message
  parts : List Message

/-- The messages of which only the last one matters. -/
def Scrolls (typ : BitVec 16) : Prop := typ = wmOntop ∨ (wmArrowed ≤ typ ∧ typ ≤ wmVslid)

/-- What may become of a message: it comes last, or takes the place of a message
    of its type for its window, or is joined to one or two redraw messages. -/
inductive Deliver (q : List Entry) (m : Message) : List Entry → Prop where
  | append : Deliver q m (q ++ [⟨m, [m]⟩])
  | replace (i : Nat) (hi : i < q.length) : Scrolls m.typ → q[i].msg.typ = m.typ →
      q[i].msg.whdl = m.whdl → Deliver q m (q.set i ⟨m, [m]⟩)
  | join (i : Nat) (hi : i < q.length) (g : Grect) : m.typ = wmRedraw → q[i].msg.typ = m.typ →
      q[i].msg.whdl = m.whdl → g.Covers m.g → g.Covers q[i].msg.g →
      Deliver q m (q.set i ⟨{ q[i].msg with g := g }, m :: q[i].parts⟩)
  | joinTwo (i j : Nat) (hij : i < j) (hj : j < q.length) (g : Grect) : m.typ = wmRedraw →
      q[i].msg.typ = m.typ → q[i].msg.whdl = m.whdl → q[j].msg.typ = m.typ →
      q[j].msg.whdl = m.whdl → g.Covers m.g → g.Covers q[i].msg.g → g.Covers q[j].msg.g →
      Deliver q m
        ((q.set i ⟨{ q[i].msg with g := g }, m :: (q[i].parts ++ q[j].parts)⟩).eraseIdx j)

/-- A message is sent, or read. -/
inductive Event where
  | sent (m : Message)
  | got (m : Message)

/-- What is in the mailbox after some events, and what was there before. -/
inductive Mail : List Event → List Entry → List Entry → Prop where
  | nil : Mail [] [] []
  | sent (t : List Event) (out q q' : List Entry) (m : Message) :
      Mail t out q → Deliver q m q' → Mail (t ++ [.sent m]) out q'
  | got (t : List Event) (out q : List Entry) (e : Entry) :
      Mail t out (e :: q) → Mail (t ++ [.got e.msg]) (out ++ [e]) q

/-- The buffer holds the messages of a list. -/
structure Holds (ap : Appl) (q : List Entry) : Prop where
  len : ap.apLen.toNat = 16 * q.length
  fit : 16 * q.length ≤ apBuflen
  msgs : ∀ i (h : i < q.length), ap.msg i = q[i].msg
  overlen : ∀ e ∈ q, e.msg.overlen = 0

def FitsAll (nosmart : Bool) (m : Message) : List Message → Prop
  | [] => True
  | [o] => nosmart = true ∨ (meetSpan o.g.x o.g.w m.g.x m.g.w = true ∧
      meetSpan o.g.y o.g.h m.g.y m.g.h = true) → Fits [m.g, o.g]
  | o :: e :: _ => Fits [m.g, o.g, e.g]

/-- The pending message that a new one replaces is for the same window, and no
    edge overflows. -/
structure Merges (nosmart : Bool) (q : List Message) (m : Message) : Prop where
  window : Scrolls m.typ → ∀ o, (q.filter (Like m)).head? = some o → o.whdl = m.whdl
  edges : m.typ = wmRedraw → FitsAll nosmart m ((q.filter (Like m)).take 2)

section holds

variable {ap : Appl} {q : List Entry} {nosmart : Bool}

theorem Holds.rows (h : Holds ap q) : Rows ap q.length where
  len := h.len
  fit := h.fit
  overlen := fun i hi => by
    rw [h.msgs i hi]
    exact h.overlen _ (List.getElem_mem hi)

def pending (ap : Appl) : List Message := (List.range (ap.apLen.toNat / 16)).map ap.msg

theorem Holds.filter (h : Holds ap q) :
    (pending ap).filter (Like (ap.msg q.length)) = (likes ap q.length q.length).map ap.msg := by
  unfold pending likes
  rw [h.len, Nat.mul_div_cancel_left _ (by omega), List.filter_map]
  rfl

theorem Holds.longer (h : Holds ap q) (room : 16 * q.length + 16 ≤ apBuflen)
    (hover : (ap.msg q.length).overlen = 0) :
    Holds { ap with apLen := ap.apLen + 16 }
      (q ++ [⟨ap.msg q.length, [ap.msg q.length]⟩]) := by
  have hlen : (ap.apLen + 16).toNat = 16 * q.length + 16 := by
    unfold apBuflen at room
    rw [BitVec.toNat_add, h.len, show (16 : BitVec 16).toNat = 16 from rfl]
    exact Nat.mod_eq_of_lt (by omega)
  refine ⟨?_, ?_, ?_, ?_⟩
  · rw [List.length_append]
    exact hlen
  · rw [List.length_append, List.length_singleton]
    omega
  · intro i hi
    rw [List.length_append, List.length_singleton] at hi
    rw [List.getElem_append]
    by_cases hlt : i < q.length
    · rw [dif_pos hlt]
      exact h.msgs i hlt
    · rw [dif_neg hlt]
      have hi' : i = q.length := by omega
      subst hi'
      simp only [Nat.sub_self, List.getElem_cons_zero]
      rfl
  · intro e he
    rcases List.mem_append.mp he with he | he
    · exact h.overlen e he
    · rw [List.mem_singleton.mp he]
      exact hover

theorem Holds.set (h : Holds ap q) {k : Nat} {e : Entry} {m : Mem}
    (hm : ∀ i, i < q.length → readMsg m (apBuf + 16 * i) = if i = k then e.msg else ap.msg i)
    (hover : e.msg.overlen = 0) : Holds { ap with mem := m } (q.set k e) := by
  refine ⟨?_, ?_, ?_, ?_⟩
  · rw [List.length_set]
    exact h.len
  · rw [List.length_set]
    exact h.fit
  · intro i hi
    rw [List.length_set] at hi
    rw [List.getElem_set]
    refine (hm i hi).trans ?_
    by_cases hik : i = k
    · rw [if_pos hik, if_pos hik.symm]
    · rw [if_neg hik, if_neg (Ne.symm hik)]
      exact h.msgs i hi
  · intro x hx
    rcases List.mem_or_eq_of_mem_set hx with hx | rfl
    · exact h.overlen x hx
    · exact hover

theorem Holds.eraseIdx (h : Holds ap q) {j : Nat} (hj : j < q.length) :
    Holds { ap with
      mem := vmemcpy (apBuf + 16 * j) (apBuf + 16 * j + 16) (16 * (q.length - (j + 1))) ap.mem
      apLen := ap.apLen - 16 } (q.eraseIdx j) := by
  have hlen := h.len
  have hfit := h.fit
  refine ⟨?_, ?_, ?_, ?_⟩
  · rw [List.length_eraseIdx_of_lt hj]
    dsimp only
    unfold apBuflen at hfit
    bv_omega
  · rw [List.length_eraseIdx_of_lt hj]
    omega
  · intro i hi
    rw [List.length_eraseIdx_of_lt hj] at hi
    rw [List.getElem_eraseIdx]
    refine (remove_msg ap.mem hj (by omega)).trans ?_
    by_cases hij : i < j
    · rw [if_pos hij, dif_pos hij]
      exact h.msgs i (by omega)
    · rw [if_neg hij, dif_neg hij]
      exact h.msgs (i + 1) (by omega)
  · intro x hx
    exact h.overlen x (List.mem_of_mem_eraseIdx hx)

theorem Holds.like (h : Holds ap q) {i : Nat} (hi : i ∈ likes ap q.length q.length) :
    ∃ hq : i < q.length, q[i].msg.typ = (ap.msg q.length).typ ∧
      ((ap.msg q.length).typ = wmRedraw → q[i].msg.whdl = (ap.msg q.length).whdl) := by
  have hm := mem_likes.mp hi
  refine ⟨hm.1, ?_⟩
  rw [← h.msgs i hm.1]
  exact ⟨hm.2.1, fun hr => (hm.2.2 hr).symm⟩

theorem Holds.delivers (h : Holds ap q) (room : 16 * q.length + 16 ≤ apBuflen)
    (hover : (ap.msg q.length).overlen = 0)
    (hscan : (ap.msg q.length).typ ≠ wmRedraw → Scrolls (ap.msg q.length).typ)
    (hmerge : Merges nosmart (pending ap) (ap.msg q.length)) {k : Nat} (hk : k ≤ q.length)
    (hs : Stopped ap k) :
    ∃ q', Deliver q (ap.msg q.length) q' ∧ Holds (rwapFound nosmart ap 16 (found ap k)) q' := by
  have hwin := hmerge.window
  have hedges := hmerge.edges
  rw [h.filter] at hwin hedges
  rcases h.rows.found hk hs with ⟨hne, hkn, hf, hhead⟩ | ⟨d5, hf, htake, hred⟩
  · -- The first message of the type is overwritten, which is for the same window.
    have hlike : k ∈ likes ap q.length q.length := List.mem_of_mem_head? (by rw [hhead]; rfl)
    rcases h.like hlike with ⟨hq, htyp, _⟩
    have hwhdl : q[k].msg.whdl = (ap.msg q.length).whdl := by
      rw [← h.msgs k hq]
      exact hwin (hscan hne) _ (by rw [List.head?_map, hhead]; rfl)
    refine ⟨_, .replace k hq (hscan hne) htyp hwhdl, ?_⟩
    rw [hf]
    refine h.set (fun i hi => ?_) hover
    rw [h.rows.msgAt]
    exact moveLongs_msg ap hq hi
  · rw [hf]
    match d5, htake, hred with
    | [], _, _ => exact ⟨_, .append, h.longer room hover⟩
    | [i], htake, hred =>
      have hi : i ∈ likes ap q.length q.length :=
        List.mem_of_mem_take (by rw [← htake]; exact List.mem_singleton_self i)
      have hr : (ap.msg q.length).typ = wmRedraw := not_not.mp (fun hne => by cases hred hne)
      rcases h.like hi with ⟨hq, htyp, hwhdl⟩
      have hfits := hedges hr
      rw [← List.map_take, ← htake] at hfits
      simp only [rwapFound, List.map_cons, List.map_nil]
      by_cases hj : joins nosmart ap.mem (Msg.msgAt ap.apLen) (apBuf + 16 * i) = true
      · rw [if_pos hj]
        rw [h.rows.msgAt] at hj ⊢
        have hcov := join_covers (hfits (by
          rcases Bool.or_eq_true_iff.mp hj with hn | hm
          · exact .inl hn
          · exact .inr (Bool.and_eq_true_iff.mp hm)))
        refine ⟨_, .join i hq _ hr htyp (hwhdl hr) hcov.2 ?_, h.set (fun a ha => ?_) ?_⟩
        · rw [← h.msgs i hq]
          exact hcov.1
        · rw [union_msg ap.mem (by omega)]
          by_cases hai : a = i
          · rw [if_pos hai, if_pos hai]
            rw [← h.msgs i hq]
            rfl
          · rw [if_neg hai, if_neg hai]
            rfl
        · show q[i].msg.overlen = 0
          exact h.overlen q[i] (List.getElem_mem hq)
      · rw [if_neg hj]
        exact ⟨_, .append, h.longer room hover⟩
    | i :: j :: l, htake, hred =>
      have hsub : [i, j].Sublist (likes ap q.length q.length) :=
        (show [i, j] = (likes ap q.length q.length).take 2 from htake) ▸ List.take_sublist _ _
      have hij : i < j := likes_lt hsub
      have hr : (ap.msg q.length).typ = wmRedraw := not_not.mp (fun hne => by cases hred hne)
      rcases h.like (hsub.mem List.mem_cons_self) with ⟨hqi, htypi, hwhdli⟩
      rcases h.like (hsub.mem (List.mem_cons_of_mem _ List.mem_cons_self)) with
        ⟨hqj, htypj, hwhdlj⟩
      have hfits := hedges hr
      rw [← List.map_take, ← htake] at hfits
      have hthree : Fits [(ap.msg q.length).g, (ap.msg i).g, (ap.msg j).g] := hfits
      have hone := join_covers (hthree.mono (fun r hr => by
        rcases List.mem_cons.mp hr with rfl | hr
        · exact List.mem_cons_self
        · rw [List.mem_singleton.mp hr]
          exact List.mem_cons_of_mem _ List.mem_cons_self))
      have htwo := join_covers hthree.join
      rw [← h.msgs i hqi] at htypi hwhdli
      refine ⟨_, .joinTwo i j hij hqj
        (((ap.msg i).g.join (ap.msg q.length).g).join (ap.msg j).g) hr ?_ ?_ htypj (hwhdlj hr)
        (fun p hp => htwo.1 p (hone.2 p hp)) ?_ ?_, ?_⟩
      · rw [← h.msgs i hqi]
        exact htypi
      · rw [← h.msgs i hqi]
        exact hwhdli hr
      · rw [← h.msgs i hqi]
        exact fun p hp => htwo.1 p (hone.1 p hp)
      · rw [← h.msgs j hqj]
        exact htwo.2
      · simp only [rwapFound, List.map_cons]
        rw [h.rows.behind hqj, h.rows.msgAt]
        -- First the two joins, then the removal.
        have hset := h.set (k := i) (m := grectsUnion (grectsUnion ap.mem
          (apBuf + 16 * q.length + 8) (apBuf + 16 * i + 8)) (apBuf + 16 * j + 8)
          (apBuf + 16 * i + 8)) (e := ⟨{ q[i].msg with
            g := ((ap.msg i).g.join (ap.msg q.length).g).join (ap.msg j).g },
            ap.msg q.length :: (q[i].parts ++ q[j].parts)⟩) (fun a ha => ?_) ?_
        · have herase := hset.eraseIdx (j := j) (by rw [List.length_set]; exact hqj)
          rw [List.length_set] at herase
          exact herase
        · rw [union_two ap.mem hij hqj, ← h.msgs i hqi]
          rfl
        · show q[i].msg.overlen = 0
          exact h.overlen q[i] (List.getElem_mem hqi)

/-! ## The routines -/

/-- A message as its bytes say. -/
def message (msg : Nat → BitVec 8) : Message := readMsg (fun k => ⟨msg k, true⟩) 0

theorem scans_iff {typ : BitVec 16} : scans false typ = true ↔ typ = wmRedraw ∨ Scrolls typ := by
  unfold scans Scrolls
  simp only [Bool.false_or, Bool.or_eq_true, Bool.and_eq_true, decide_eq_true_eq]
  constructor
  · intro h
    rcases h with (h | h) | h
    · exact .inr (.inl h)
    · exact .inl h
    · exact .inr (.inr h)
  · intro h
    rcases h with h | h | h
    · exact .inl (.inr h)
    · exact .inl (.inl h)
    · exact .inr h

theorem Holds.append_msg (h : Holds ap q) (msg : Nat → BitVec 8) {i : Nat} (hi : i < q.length) :
    (append ap 16 msg).msg i = ap.msg i := by
  refine readMsg_congr (fun j hj => ?_)
  unfold append
  dsimp only
  rw [moveBytes_apply, h.rows.msgAt, if_neg (by omega)]

theorem Holds.append_new (h : Holds ap q) (msg : Nat → BitVec 8) :
    (append ap 16 msg).msg q.length = message msg := by
  refine readMsg_congr (fun j hj => ?_)
  unfold append
  dsimp only
  rw [moveBytes_apply, h.rows.msgAt,
    if_pos ⟨by omega, by rw [show (16 : BitVec 16).toNat = 16 from rfl]; omega⟩]
  rw [show 0 + (apBuf + 16 * q.length + j - (apBuf + 16 * q.length)) = 0 + j by omega]

theorem Holds.append (h : Holds ap q) (msg : Nat → BitVec 8) : Holds (append ap 16 msg) q where
  len := h.len
  fit := h.fit
  msgs := fun i hi => by rw [h.append_msg msg hi, h.msgs i hi]
  overlen := h.overlen

theorem Holds.append_pending (h : Holds ap q) (msg : Nat → BitVec 8) :
    pending (Msg.append ap 16 msg) = pending ap := by
  unfold pending
  refine List.map_congr_left (fun i hi => h.append_msg msg ?_)
  have hlt : i < ap.apLen.toNat / 16 := List.mem_range.mp hi
  rw [h.len] at hlt
  omega

/-- The event words, which writing leaves alone. -/
def Appl.events (ap : Appl) : Bool × Bool × Parm := (ap.rbits, ap.hbits, ap.evparm)

theorem rwapFound_events (nosmart : Bool) (ap : Appl) (msgLen : BitVec 16) (f : Found) :
    (rwapFound nosmart ap msgLen f).events = ap.events := by
  cases f with
  | overwr a4 => rfl
  | redraws d5 =>
    match d5 with
    | [] => rfl
    | [d] =>
      simp only [rwapFound]
      split
      · rfl
      · rfl
    | d :: e :: l => rfl

/-- Writing delivers the message. -/
theorem write_delivers (h : Holds ap q) {msg : Nat → BitVec 8}
    (room : 16 * q.length + 16 ≤ apBuflen) (hover : (message msg).overlen = 0)
    (hmerge : Merges nosmart (pending ap) (message msg)) {fuel : Nat} {ap' : Appl}
    (hw : rwapWrite fuel nosmart false ap 16 msg = some ap') :
    (∃ q', Deliver q (message msg) q' ∧ Holds ap' q') ∧ ap'.events = ap.events := by
  have h' := h.append msg
  have hnew := h.append_new msg
  have htyp : word (Msg.append ap 16 msg).mem (Msg.msgAt ap.apLen) = (message msg).typ := by
    rw [← hnew, h.rows.msgAt]
    rfl
  unfold rwapWrite at hw
  dsimp only at hw
  rw [show (Msg.append ap 16 msg).apLen = ap.apLen from rfl, htyp] at hw
  by_cases hs : scans false (message msg).typ = true
  · rw [if_pos hs] at hw
    rcases h'.rows.stopped with ⟨k, hk, hstop⟩
    have hspec := scanLoop_spec hstop fuel
    rw [show (Msg.append ap 16 msg).apLen = ap.apLen from rfl] at hspec
    rw [hspec] at hw
    by_cases hfuel : k < fuel
    · rw [if_pos hfuel] at hw
      cases hw
      refine ⟨?_, rwapFound_events _ _ _ _⟩
      have hscan : (message msg).typ ≠ wmRedraw → Scrolls (message msg).typ := by
        intro hne
        rcases scans_iff.mp hs with he | hsc
        · exact absurd he hne
        · exact hsc
      have hd := h'.delivers room (by rw [hnew]; exact hover)
        (by rw [hnew]; exact hscan) (by rw [hnew, h.append_pending msg]; exact hmerge) hk hstop
      rw [hnew] at hd
      exact hd
    · rw [if_neg hfuel] at hw
      cases hw
  · rw [if_neg hs] at hw
    cases hw
    refine ⟨⟨_, .append, ?_⟩, rfl⟩
    have hl := h'.longer room (by rw [hnew]; exact hover)
    rw [hnew] at hl
    exact hl

theorem Holds.read {e : Entry} (h : Holds ap (e :: q)) {p : Parm} (hp : p.msgLen = 16) :
    Holds (rwapRead ap p).1 q ∧ readMsg (rwapRead ap p).2.buf 0 = e.msg ∧
      (rwapRead ap p).1.events = ap.events := by
  have hlen := h.len
  have hfit := h.fit
  have hcount : (e :: q).length = q.length + 1 := List.length_cons
  rw [hcount] at hlen hfit
  have hsub : (ap.apLen - p.msgLen).toNat = 16 * q.length := by
    rw [hp]
    unfold apBuflen at hfit
    bv_omega
  have hat : Msg.msgAt p.msgLen = apBuf + 16 := by
    rw [hp, msgAt_of_lt (by decide)]
    rfl
  refine ⟨⟨hsub, by omega, fun i hi => ?_, fun x hx => h.overlen x (List.mem_cons_of_mem _ hx)⟩,
    ?_, rfl⟩
  · have hne : ap.apLen - p.msgLen ≠ 0 := by
      intro h0
      rw [h0] at hsub
      have hz : 0 = 16 * q.length := hsub
      omega
    have hmsg := h.msgs (i + 1) (by rw [hcount]; omega)
    rw [List.getElem_cons_succ] at hmsg
    rw [← hmsg]
    refine readMsg_congr (fun j hj => ?_)
    unfold rwapRead
    dsimp only
    rw [if_neg hne, vmemcpy_apply _ _ (by omega), hsub, hat, if_pos (by omega)]
    rw [show apBuf + 16 + (apBuf + 16 * i + j - apBuf) = apBuf + 16 * (i + 1) + j by omega]
  · have hmsg := h.msgs 0 (by rw [hcount]; omega)
    rw [List.getElem_cons_zero] at hmsg
    rw [← hmsg]
    refine readMsg_congr (fun j hj => ?_)
    unfold rwapRead
    dsimp only
    rw [moveBytes_apply, hp,
      if_pos ⟨by omega, by rw [show (16 : BitVec 16).toNat = 16 from rfl]; omega⟩]
    rw [show apBuf + (0 + j - 0) = apBuf + 16 * 0 + j by omega]

end holds

/-! ## What the mailbox keeps -/

/-- What a message stands for is of its type, for its window, and covered. -/
def Entry.Kept (e : Entry) : Prop :=
  ∀ m ∈ e.parts, m.typ = e.msg.typ ∧ m.whdl = e.msg.whdl ∧ e.msg.g.Covers m.g

theorem single_kept (m : Message) : Entry.Kept ⟨m, [m]⟩ := by
  intro x hx
  rw [List.mem_singleton.mp hx]
  exact ⟨rfl, rfl, fun _ h => h⟩

theorem Entry.Kept.grow {e : Entry} (he : e.Kept) {g : Grect} (hg : g.Covers e.msg.g)
    {l : List Message}
    (hl : ∀ m ∈ l, m.typ = e.msg.typ ∧ m.whdl = e.msg.whdl ∧ g.Covers m.g) :
    Entry.Kept ⟨{ e.msg with g := g }, l ++ e.parts⟩ := by
  intro m hm
  rcases List.mem_append.mp hm with hm | hm
  · exact hl m hm
  · exact ⟨(he m hm).1, (he m hm).2.1, fun p hp => hg p ((he m hm).2.2 p hp)⟩

theorem Deliver.kept {q q' : List Entry} {m : Message} (h : Deliver q m q')
    (hq : ∀ e ∈ q, e.Kept) : ∀ e ∈ q', e.Kept := by
  cases h with
  | append =>
    intro e he
    rcases List.mem_append.mp he with he | he
    · exact hq e he
    · rw [List.mem_singleton.mp he]
      exact single_kept m
  | replace i hi _ _ _ =>
    intro e he
    rcases List.mem_or_eq_of_mem_set he with he | rfl
    · exact hq e he
    · exact single_kept m
  | join i hi g _ htyp hwhdl hm hi' =>
    intro e he
    rcases List.mem_or_eq_of_mem_set he with he | rfl
    · exact hq e he
    · refine (hq _ (List.getElem_mem hi)).grow hi' (l := [m]) (fun x hx => ?_)
      rw [List.mem_singleton.mp hx]
      exact ⟨htyp.symm, hwhdl.symm, hm⟩
  | joinTwo i j hij hj g _ htyp hwhdl htyp' hwhdl' hm hi' hj' =>
    intro e he
    rcases List.mem_or_eq_of_mem_set (List.mem_of_mem_eraseIdx he) with he | rfl
    · exact hq e he
    · have hkj := hq _ (List.getElem_mem hj)
      have hki := (hq _ (List.getElem_mem (Nat.lt_trans hij hj))).grow hi' (l := m :: q[j].parts)
        (fun x hx => ?_)
      · intro x hx
        refine hki x ?_
        rcases List.mem_cons.mp hx with rfl | hx
        · exact List.mem_cons_self
        · rcases List.mem_append.mp hx with hx | hx
          · exact List.mem_append_right _ hx
          · exact List.mem_cons_of_mem _ (List.mem_append_left _ hx)
      · rcases List.mem_cons.mp hx with rfl | hx
        · exact ⟨htyp.symm, hwhdl.symm, hm⟩
        · exact ⟨(hkj x hx).1.trans (htyp'.trans htyp.symm),
            (hkj x hx).2.1.trans (hwhdl'.trans hwhdl.symm),
            fun p hp => hj' p ((hkj x hx).2.2 p hp)⟩

theorem Mail.kept {t : List Event} {out q : List Entry} (h : Mail t out q) :
    ∀ e ∈ out ++ q, e.Kept := by
  induction h with
  | nil => exact fun _ he => absurd he List.not_mem_nil
  | sent t out q q' m _ hd ih =>
    intro e he
    rcases List.mem_append.mp he with he | he
    · exact ih e (List.mem_append_left _ he)
    · exact hd.kept (fun x hx => ih x (List.mem_append_right _ hx)) e he
  | got t out q e _ ih =>
    rw [List.append_assoc]
    exact ih

def redraws (l : List Message) : List Message := l.filter (fun m => m.typ = wmRedraw)

/-- The redraw messages that entries stand for. -/
def allRedraws (q : List Entry) : List Message := redraws (q.flatMap Entry.parts)

def Event.sends : Event → List Message
  | .sent m => [m]
  | .got _ => []

theorem allRedraws_cons (e : Entry) (q : List Entry) :
    allRedraws (e :: q) = redraws e.parts ++ allRedraws q := by
  unfold allRedraws redraws
  rw [List.flatMap_cons, List.filter_append]

theorem allRedraws_append (q q' : List Entry) :
    allRedraws (q ++ q') = allRedraws q ++ allRedraws q' := by
  unfold allRedraws redraws
  rw [List.flatMap_append, List.filter_append]

theorem allRedraws_perm {q q' : List Entry} (h : q.Perm q') :
    (allRedraws q).Perm (allRedraws q') := (h.flatMap_right _).filter _

theorem not_scrolls_redraw : ¬ Scrolls wmRedraw := by
  intro h
  rcases h with h | h
  · exact absurd h (by decide)
  · exact absurd h.1 (by decide)

theorem redraws_append (l l' : List Message) : redraws (l ++ l') = redraws l ++ redraws l' :=
  List.filter_append _ _

theorem allRedraws_set {q : List Entry} {i : Nat} (hi : i < q.length) (e : Entry) :
    (redraws q[i].parts ++ allRedraws (q.set i e)).Perm (redraws e.parts ++ allRedraws q) := by
  have hset := allRedraws_perm (List.set_perm_cons_eraseIdx hi e)
  have herase := allRedraws_perm (List.getElem_cons_eraseIdx_perm hi)
  rw [allRedraws_cons] at hset herase
  refine (hset.append_left _).trans ?_
  refine List.Perm.trans ?_ (herase.append_left _)
  exact List.perm_append_comm_assoc _ _ _

theorem Deliver.redraws {q q' : List Entry} {m : Message} (h : Deliver q m q')
    (hq : ∀ e ∈ q, e.Kept) : (allRedraws q').Perm (Msg.redraws [m] ++ allRedraws q) := by
  cases h with
  | append =>
    rw [allRedraws_append]
    exact List.perm_append_comm
  | replace i hi hs htyp _ =>
    -- What is replaced stands for no redraw message.
    have hnone : Msg.redraws q[i].parts = [] := by
      refine List.filter_eq_nil_iff.mpr (fun x hx hr => ?_)
      have hx' := (hq _ (List.getElem_mem hi) x hx).1
      rw [htyp, of_decide_eq_true hr] at hx'
      exact not_scrolls_redraw (hx' ▸ hs)
    have hset := allRedraws_set hi ⟨m, [m]⟩
    rw [hnone] at hset
    exact hset
  | join i hi g _ _ _ _ _ =>
    have hset := allRedraws_set hi ⟨{ q[i].msg with g := g }, m :: q[i].parts⟩
    rw [← List.singleton_append, redraws_append] at hset
    rw [List.append_assoc] at hset
    exact (List.perm_append_left_iff _).mp (hset.trans (List.perm_append_comm_assoc _ _ _))
  | joinTwo i j hij hj g _ _ _ _ _ _ _ _ =>
    have hset := allRedraws_set (Nat.lt_trans hij hj)
      ⟨{ q[i].msg with g := g }, m :: (q[i].parts ++ q[j].parts)⟩
    have herase := allRedraws_perm (List.getElem_cons_eraseIdx_perm
      (l := q.set i ⟨{ q[i].msg with g := g }, m :: (q[i].parts ++ q[j].parts)⟩)
      (by rw [List.length_set]; exact hj))
    rw [allRedraws_cons, List.getElem_set_ne (Nat.ne_of_lt hij)] at herase
    have hparts : Msg.redraws (m :: (q[i].parts ++ q[j].parts))
        = Msg.redraws [m] ++ (Msg.redraws q[i].parts ++ Msg.redraws q[j].parts) := by
      rw [← redraws_append, ← redraws_append]
      rfl
    dsimp only at hset
    rw [hparts] at hset
    refine List.perm_iff_count.mpr (fun a => ?_)
    have hs := hset.count_eq a
    have he := herase.count_eq a
    simp only [List.count_append] at hs he ⊢
    omega

theorem Mail.redraws {t : List Event} {out q : List Entry} (h : Mail t out q) :
    (allRedraws (out ++ q)).Perm (Msg.redraws (t.flatMap Event.sends)) := by
  induction h with
  | nil => exact List.Perm.refl _
  | sent t out q q' m hm hd ih =>
    have hdr := hd.redraws (fun x hx => hm.kept x (List.mem_append_right _ hx))
    rw [allRedraws_append] at ih ⊢
    rw [List.flatMap_append, redraws_append]
    refine (hdr.append_left _).trans ?_
    refine (List.perm_append_comm_assoc _ _ _).trans ?_
    exact List.perm_append_comm.trans (ih.append_right _)
  | got t out q e _ ih =>
    rw [List.flatMap_append, redraws_append, List.append_assoc]
    exact ih.trans (List.Perm.of_eq (List.append_nil _).symm)

/-! ## Runs -/

/-- The calls that are meant: messages of sixteen bytes without overlength that
    are accepted, and reads of as many bytes. -/
def Plain (ap : Appl) : Op → Prop
  | .write _ unique msgLen msg atmem => unique = false ∧ msgLen = 16 ∧
      (message (attach msg atmem)).overlen = 0 ∧ Accepted ap msgLen atmem
  | .read p => p.msgLen = 16
  | .resume => True

/-- A message that is merged with the right ones. -/
def Mergeable (ap : Appl) : Op → Prop
  | .write nosmart _ _ msg atmem => Merges nosmart (pending ap) (message (attach msg atmem))
  | _ => True

def PlainStep (ap : Appl) (l : Op × Option Parm) (ap' : Appl) : Prop :=
  ApStep ap l ap' ∧ Plain ap l.1

def MergeStep (ap : Appl) (l : Op × Option Parm) (ap' : Appl) : Prop :=
  PlainStep ap l ap' ∧ Mergeable ap l.1

/-- What is sent and read in a step. -/
def events (l : Op × Option Parm) : List Event :=
  (match l.1 with
    | .write _ _ _ msg atmem => [.sent (message (attach msg atmem))]
    | _ => []) ++
  match l.2 with
    | some q => [.got (readMsg q.buf 0)]
    | none => []

/-- The buffer holds the mail, and who waits has found it empty. -/
structure Delivered (ap : Appl) (q : List Entry) : Prop where
  holds : Holds ap q
  waits : ap.rbits = true → ap.hbits = false → q = [] ∧ ap.evparm.msgLen = 16

theorem write_mail {ap ap' : Appl} {t : List Event} {out q : List Entry} (hm : Mail t out q)
    (hd : Delivered ap q) {nosmart : Bool} {msg : Nat → BitVec 8} {atmem : Option Atmem}
    {o : Option Parm} (hover : (message (attach msg atmem)).overlen = 0)
    (hacc : Accepted ap 16 atmem)
    (hmerge : Merges nosmart (pending ap) (message (attach msg atmem))) {fuel : Nat}
    (hstep : step fuel ap (.write nosmart false 16 msg atmem) = some (ap', o)) :
    ∃ out' q', Mail (t ++ events (.write nosmart false 16 msg atmem, o)) out' q' ∧
      Delivered ap' q' := by
  have hlen := hd.holds.len
  have room : 16 * q.length + 16 ≤ apBuflen := by
    have hr := hacc.room (by rw [hlen]; exact hd.holds.fit)
    rw [hlen] at hr
    exact hr
  have hcall : (applWrite fuel nosmart false ap 16 msg atmem).map (fun r => (r.1, r.2.1))
      = some (ap', o) := hstep
  rw [applWrite_eq, if_pos hacc, Option.map_map] at hcall
  rcases Option.map_eq_some_iff.mp hcall with ⟨ap₁, hw, heq⟩
  rcases write_delivers hd.holds room hover hmerge hw with ⟨⟨q₁, hdel, hh⟩, hev⟩
  have hmail := Mail.sent t out q q₁ _ hm hdel
  have hrb : ap₁.rbits = ap.rbits := congrArg Prod.fst hev
  have hhb : ap₁.hbits = ap.hbits := congrArg (fun x => x.2.1) hev
  have hep : ap₁.evparm = ap.evparm := congrArg (fun x => x.2.2) hev
  dsimp only [Function.comp] at heq
  unfold handOver at heq
  by_cases hb : (ap₁.rbits && !ap₁.hbits) = true
  · rw [if_pos hb] at heq
    simp only [Bool.and_eq_true, Bool.not_eq_true', hrb, hhb] at hb
    -- The queue was empty, so the message is all there is.
    have hq := hd.waits hb.1 hb.2
    rw [hq.1] at hdel
    have hone : ∃ e, q₁ = [e] := by
      cases hdel with
      | append => exact ⟨_, rfl⟩
      | replace i hi => exact absurd hi (Nat.not_lt_zero i)
      | join i hi => exact absurd hi (Nat.not_lt_zero i)
      | joinTwo i j hij hj => exact absurd hj (Nat.not_lt_zero j)
    rcases hone with ⟨e, rfl⟩
    have hr := hh.read (p := ap₁.evparm) (by rw [hep]; exact hq.2)
    have hgot := Mail.got _ out [] e hmail
    cases heq
    refine ⟨out ++ [e], [], ?_, ⟨⟨hr.1.len, hr.1.fit, hr.1.msgs, hr.1.overlen⟩,
      fun _ h => by cases h⟩⟩
    · unfold events
      dsimp only
      rw [hr.2.1, ← List.append_assoc]
      exact hgot
  · rw [if_neg hb] at heq
    cases heq
    refine ⟨_, _, hmail, ⟨hh, fun h0 h1 => absurd ?_ hb⟩⟩
    rw [h0, h1]
    rfl

theorem step_mail {ap ap' : Appl} {l : Op × Option Parm} {t : List Event} {out q : List Entry}
    (hm : Mail t out q) (hd : Delivered ap q) (hstep : MergeStep ap l ap') :
    ∃ out' q', Mail (t ++ events l) out' q' ∧ Delivered ap' q' := by
  rcases l with ⟨op, o⟩
  rcases hstep with ⟨⟨⟨hen, fuel, hs⟩, hplain⟩, hmerge⟩
  cases op with
  | write nosmart unique msgLen msg atmem =>
    rcases hplain with ⟨rfl, rfl, hover, hacc⟩
    exact write_mail hm hd hover hacc hmerge hs
  | read p =>
    have hrun : ap.rbits = false := hen
    have hs' : applRead ap p = (ap', o) := Option.some.inj hs
    unfold applRead at hs'
    by_cases h0 : ap.apLen = 0
    · rw [if_pos h0] at hs'
      cases hs'
      have hnil : q = [] := by
        have hlen := hd.holds.len
        rw [h0] at hlen
        exact List.eq_nil_of_length_eq_zero (by
          have hz : 0 = 16 * q.length := hlen
          omega)
      refine ⟨out, q, ?_, ⟨⟨hd.holds.len, hd.holds.fit, hd.holds.msgs, hd.holds.overlen⟩,
        fun _ _ => ⟨hnil, hplain⟩⟩⟩
      unfold events
      rw [List.append_nil, List.append_nil]
      exact hm
    · rw [if_neg h0] at hs'
      cases hs'
      cases q with
      | nil =>
        have hlen := hd.holds.len
        exact absurd (BitVec.eq_of_toNat_eq hlen) h0
      | cons e q' =>
        have hr := hd.holds.read (p := p) hplain
        refine ⟨out ++ [e], q', ?_, ⟨hr.1, fun hb => ?_⟩⟩
        · unfold events
          dsimp only
          rw [hr.2.1]
          exact Mail.got t out q' e hm
        · have hrb : (rwapRead ap p).1.rbits = ap.rbits := congrArg Prod.fst hr.2.2
          rw [hrb, hrun] at hb
          cases hb
  | resume =>
    cases hs
    refine ⟨out, q, ?_, ⟨⟨hd.holds.len, hd.holds.fit, hd.holds.msgs, hd.holds.overlen⟩,
      fun hb => by cases hb⟩⟩
    unfold events
    rw [List.append_nil, List.append_nil]
    exact hm

theorem run_mail {ap ap' : Appl} {ls : List (Op × Option Parm)}
    (hrun : Runs.Run MergeStep ap ls ap') {t : List Event} {out q : List Entry}
    (hm : Mail t out q) (hd : Delivered ap q) :
    ∃ out' q', Mail (t ++ ls.flatMap events) out' q' ∧ Delivered ap' q' := by
  induction hrun generalizing t out q with
  | nil s =>
    refine ⟨out, q, ?_, hd⟩
    rw [List.flatMap_nil, List.append_nil]
    exact hm
  | cons s t' u a as hstep _ ih =>
    rcases step_mail hm hd hstep with ⟨out₁, q₁, hm₁, hd₁⟩
    rcases ih hm₁ hd₁ with ⟨out₂, q₂, hm₂, hd₂⟩
    refine ⟨out₂, q₂, ?_, hd₂⟩
    rw [List.flatMap_cons, ← List.append_assoc]
    exact hm₂

/-- What is sent and read in a run is what goes through a mailbox whose pending
    messages are those in the buffer. Each message that was read or is pending
    covers what it stands for, and no redraw message is lost. -/
def Lossless (t : List Event) (ap : Appl) : Prop :=
  ∃ out q, Mail t out q ∧ Holds ap q ∧ (∀ e ∈ out ++ q, e.Kept) ∧
    (allRedraws (out ++ q)).Perm (redraws (t.flatMap Event.sends))

/-- In every run of messages that are merged with the right ones the application
    gets what was sent. -/
theorem messages_kept (ap₀ ap : Appl) (ls : List (Op × Option Parm)) (h₀ : Start ap₀)
    (hrun : Runs.Run MergeStep ap₀ ls ap) : Lossless (ls.flatMap events) ap := by
  have hd₀ : Delivered ap₀ [] := by
    refine ⟨⟨by rw [h₀.len]; rfl, Nat.zero_le _, fun i hi => absurd hi (Nat.not_lt_zero i),
      fun e he => absurd he List.not_mem_nil⟩, fun hb => ?_⟩
    rw [h₀.rbits] at hb
    cases hb
  rcases run_mail hrun Mail.nil hd₀ with ⟨out, q, hm, hd⟩
  exact ⟨out, q, hm, hd.holds, hm.kept, hm.redraws⟩

/-- Two redraw messages, which are joined, and a reader. -/
theorem messages_kept_redraw :
    ∃ ap ls, Runs.Run MergeStep demoAppl ls ap ∧ ls.length = 3 ∧ ap.apLen = 0 ∧
      Lossless (ls.flatMap events) ap := by
  have hrun : ∃ ap, ∃ l₁ l₂ l₃, Runs.Run MergeStep demoAppl [l₁, l₂, l₃] ap ∧ ap.apLen = 0 := by
    refine ⟨_, (.write true false 16 demoRedraw none, _), (.write true false 16 demoRedraw none, _),
      (.read ⟨16, fun _ => ⟨0, false⟩⟩, _),
      .cons _ _ _ _ _ ⟨⟨⟨trivial, 1, rfl⟩, rfl, rfl, by decide, by decide⟩, ?_⟩
      (.cons _ _ _ _ _ ⟨⟨⟨trivial, 2, rfl⟩, rfl, rfl, by decide, by decide⟩, ?_⟩
      (.cons _ _ _ _ _ ⟨⟨⟨rfl, 0, rfl⟩, rfl⟩, trivial⟩ (.nil _))), by decide⟩
    · exact ⟨fun hs => absurd hs not_scrolls_redraw, fun _ => trivial⟩
    · exact ⟨fun hs => absurd hs not_scrolls_redraw, fun _ => fun _ => by decide⟩
  rcases hrun with ⟨ap, l₁, l₂, l₃, hrun, hlen⟩
  exact ⟨ap, _, hrun, rfl, hlen, messages_kept demoAppl ap _ demoAppl_start hrun⟩

theorem Mail.nil_inv {t : List Event} {out q : List Entry} (h : Mail t out q) (ht : t = []) :
    q = [] := by
  cases h with
  | nil => rfl
  | sent t out q q' m _ _ =>
    exact absurd ht (List.append_ne_nil_of_right_ne_nil _ (List.cons_ne_nil _ _))
  | got t out q e _ => exact absurd ht (List.append_ne_nil_of_right_ne_nil _ (List.cons_ne_nil _ _))

theorem Mail.sent_inv {t t' : List Event} {out q : List Entry} {m : Message} (h : Mail t' out q)
    (ht : t' = t ++ [.sent m]) : ∃ q₀, Mail t out q₀ ∧ Deliver q₀ m q := by
  cases h with
  | nil => exact absurd ht.symm (List.append_ne_nil_of_right_ne_nil _ (List.cons_ne_nil _ _))
  | sent t₁ out q₀ q' m' hm hd =>
    have heq := List.append_inj' ht rfl
    rw [← heq.1]
    have hm' : m' = m := by
      have := heq.2
      simp only [List.cons.injEq, Event.sent.injEq, and_true] at this
      exact this
    rw [← hm']
    exact ⟨q₀, hm, hd⟩
  | got t₁ out q' e _ =>
    have heq := (List.append_inj' ht rfl).2
    simp only [List.cons.injEq, reduceCtorEq, and_true] at heq

/-- A scroll request for the first window, and one for the second. -/
def demoArrowed (w k : Nat) : BitVec 8 :=
    if k = 1 then 24 else if k = 7 then BitVec.ofNat 8 w else 0

/-- A scroll request for one window takes the place of the one for another. -/
theorem scroll_lost :
    ∃ ap l₁ l₂, Runs.Run PlainStep demoAppl [l₁, l₂] ap ∧
      ¬ Lossless ([l₁, l₂].flatMap events) ap := by
  refine ⟨_, (.write false false 16 (demoArrowed 1) none, _),
    (.write false false 16 (demoArrowed 2) none, _),
    .cons _ _ _ _ _ ⟨⟨trivial, 1, rfl⟩, rfl, rfl, by decide, by decide⟩
    (.cons _ _ _ _ _ ⟨⟨trivial, 1, rfl⟩, rfl, rfl, by decide, by decide⟩ (.nil _)), ?_⟩
  intro h
  rcases h with ⟨out, q, hm, hh, _, _⟩
  have hlen : q.length = 1 := by
    have hl := hh.len
    have h16 : 16 = 16 * q.length := hl
    omega
  rcases hm.sent_inv (t := [.sent (message (demoArrowed 1))]) (m := message (demoArrowed 2)) rfl
    with ⟨q₁, hm₁, hd₂⟩
  rcases hm₁.sent_inv (t := []) rfl with ⟨q₀, hm₀, hd₁⟩
  rw [hm₀.nil_inv rfl] at hd₁
  have hne : (message (demoArrowed 2)).typ ≠ wmRedraw := by decide
  -- The first message is the only one in the mailbox, and for another window.
  have hq₁ : q₁ = [⟨message (demoArrowed 1), [message (demoArrowed 1)]⟩] := by
    cases hd₁ with
    | append => rfl
    | replace i hi => exact absurd hi (Nat.not_lt_zero i)
    | join i hi => exact absurd hi (Nat.not_lt_zero i)
    | joinTwo i j hij hj => exact absurd hj (Nat.not_lt_zero j)
  subst hq₁
  cases hd₂ with
  | append => exact absurd hlen (by decide)
  | replace i hi _ _ hwhdl =>
    have hi0 : i = 0 := by simpa using hi
    subst hi0
    have hw : (message (demoArrowed 1)).whdl ≠ (message (demoArrowed 2)).whdl := by decide
    exact absurd hwhdl hw
  | join i hi g hred => exact absurd hred hne
  | joinTwo i j hij hj g hred => exact absurd hred hne

end Msg

end Aes

end MagiC
