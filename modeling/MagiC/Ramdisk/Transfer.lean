import MagiC.Lib.Outcome
import MagiC.Lib.Paged
import MagiC.Ramdisk.File
import MagiC.Ramdisk.Tree

/-!
# Walking along a File

What the loops of `read` and `write` do to the blocks of a file.

The blocks of a file are an array of bytes (`flat`). A transfer starts in a
block at an offset of up to 4096, so that `offset + readable` is the size of a
block in each round, also in the first one that may not move any byte. The
number of bytes that are left is what gets less, from the second round on at
the latest.

## Main definitions

* `flat`: A byte of the blocks of a file.

## Theorems

* `writeLoop_spec`: The bytes that are written, and no others.
-/

namespace MagiC

namespace Ramdisk

open Outcome Chains Paged

/-- The data of a block. -/
def pageOf (files : Nat → Option Fileblock) (a : Nat) : Nat → BitVec 8 :=
  match files a with
  | none => fun _ => 0
  | some b => b.data

/-- A byte of the blocks of a file. -/
def flat (files : Nat → Option Fileblock) (bs : List Nat) (q : Nat) : BitVec 8 :=
  Paged.get 4096 (bs.map (pageOf files)) q

section

variable {files : Nat → Option Fileblock} {a : Nat} {bs : List Nat}

theorem chain_head (h : Chain files a bs) (hne : bs ≠ []) :
    ∃ b m, bs = a :: m ∧ a ≠ 0 ∧ files a = some b ∧ Chain files b.next m ∧ a ∉ m := by
  cases bs with
  | nil => exact absurd rfl hne
  | cons x m =>
    have hx := (linked_cons x).mp h.1
    have hax : a = x := hx.1
    subst hax
    have hnd := linked_nodup h.1
    cases hb : files a with
    | none => exact absurd hb (h.2 a List.mem_cons_self)
    | some b =>
      have hnext : nextOf files a = b.next := by
        unfold nextOf
        rw [hb]
      refine ⟨b, m, rfl, hx.2.1, rfl, ⟨hnext ▸ hx.2.2, fun y hy => ?_⟩, (List.nodup_cons.mp hnd).1⟩
      exact h.2 y (List.mem_cons_of_mem a hy)

theorem getBlock_eq {b : Fileblock} (ha : a ≠ 0) (hb : files a = some b) :
    getBlock files a = .ok b := by
  unfold getBlock
  rw [if_neg ha, hb]

theorem chain_nil (h : Chain files a []) : a = 0 := h.1.1

theorem flat_lt {b : Fileblock} {m : List Nat} (hb : files a = some b) (q : Nat) (hq : q < 4096) :
    flat files (a :: m) q = b.data q := by
  unfold flat
  rw [List.map_cons, get_cons_lt _ _ _ _ hq]
  unfold pageOf
  rw [hb]

theorem flat_add {m : List Nat} (q : Nat) : flat files (a :: m) (4096 + q) = flat files m q := by
  unfold flat
  rw [List.map_cons, get_cons_add _ _ _ _ (by decide)]

theorem flat_behind (pre post : List Nat) (q : Nat) :
    flat files (pre ++ post) (4096 * pre.length + q) = flat files post q := by
  induction pre with
  | nil => simp
  | cons x pre ih =>
    rw [List.cons_append, List.length_cons, ← ih,
      show 4096 * (pre.length + 1) + q = 4096 + (4096 * pre.length + q) by omega, flat_add]

theorem flat_front (pre post : List Nat) (q : Nat) (hq : q < 4096 * pre.length) :
    flat files (pre ++ post) q = flat files pre q := by
  unfold flat
  rw [List.map_append, get_append _ _ _ _ (by simpa using hq)]

theorem chain_behind (pre m : List Nat) (x : Nat) (h : Chain files a (pre ++ x :: m)) :
    Chain files x (x :: m) := by
  rcases (path_append _ a 0 pre (x :: m)).mp h.1.1 with ⟨c, _, rfl, hm⟩
  refine ⟨⟨⟨rfl, hm⟩, fun hc => h.1.2 (List.mem_append_right _ hc)⟩, fun y hy => ?_⟩
  exact h.2 y (List.mem_append_right _ hy)

theorem flat_congr {files' : Nat → Option Fileblock} (h : ∀ x ∈ bs, files' x = files x) (q : Nat) :
    flat files' bs q = flat files bs q := by
  unfold flat
  congr 1
  refine List.map_congr_left fun x hx => ?_
  unfold pageOf
  rw [h x hx]

theorem long32_eq (x : Int) (h : -2 ^ 31 ≤ x) (h' : x < 2 ^ 31) : long32 x = x := by
  unfold long32
  rw [Int.bmod_eq_of_le] <;> omega

theorem long32_neg (x : Int) (h : 2 ^ 31 ≤ x) (h' : x < 2 ^ 32) : long32 x < 0 := by
  unfold long32 Int.bmod
  simp only
  split <;> omega

end

/-! ## Reading -/

section

variable {files : Nat → Option Fileblock}

/-- Where a transfer starts: the blocks from there on, and their position. A
    position between two blocks is the end of the first one. -/
structure Start (files : Nat → Option Fileblock) (bs : List Nat) (fpos a pos : Nat)
    (pre post : List Nat) : Prop where
  blocks : bs = pre ++ post
  chain : Chain files a post
  nonempty : post ≠ []
  start : pos = 4096 * pre.length
  low : pos ≤ fpos
  high : fpos ≤ pos + 4096

theorem readWalk_spec (bs : List Nat) (fpos : Nat) (hlen : 4096 * bs.length < 2 ^ 31)
    (hfit : fpos ≤ 4096 * bs.length) (fuel : Nat) : ∀ (a : Nat) (pre post : List Nat),
    bs = pre ++ post → Chain files a post → post ≠ [] → 4096 * pre.length ≤ fpos →
    fpos < 4096 * pre.length + fuel →
    ∃ a' pos pre' post', readWalk files fuel a (4096 * pre.length : Nat) fpos = .ok (a',
      (pos : Nat)) ∧
      Start files bs fpos a' pos pre' post' := by
  induction fuel with
  | zero => intro a pre post _ _ _ hlow hfuel; omega
  | succ fuel ih =>
    intro a pre post hbs hc hne hlow hfuel
    have hlens := congrArg List.length hbs
    rw [List.length_append] at hlens
    have hpost : 0 < post.length := List.length_pos_iff.mpr hne
    have hd : defaultfile = 4096 := rfl
    unfold readWalk
    rw [long32_eq _ (by omega) (by omega)]
    by_cases hstep : ((4096 * pre.length : Nat) : Int) + defaultfile < (fpos : Int)
    · rw [if_pos hstep]
      rcases chain_head hc hne with ⟨b, m, rfl, ha, hb, hm, _⟩
      rw [getBlock_eq ha hb, ok_bind]
      have hm0 : m ≠ [] := by
        rintro rfl
        simp only [List.length_cons, List.length_nil] at hlens
        omega
      have hpre : (pre ++ [a]).length = pre.length + 1 := by simp
      rcases ih b.next (pre ++ [a]) m (by simp [hbs]) hm hm0 (by omega) (by omega) with
        ⟨a', pos, pre', post', hw, hs⟩
      refine ⟨a', pos, pre', post', ?_, hs⟩
      rw [← hw, hpre]
      congr 1
    · rw [if_neg hstep]
      exact ⟨a, _, pre, post, rfl, hbs, hc, hne, rfl, hlow, by omega⟩

theorem readLoop_spec (fuel : Nat) : ∀ (a pos count readable : Nat) (bs : List Nat)
    (out : List (BitVec 8)), Chain files a bs → pos + readable = 4096 →
    pos + count ≤ 4096 * bs.length → count + (if readable = 0 then 2 else 1) ≤ fuel →
    readLoop files fuel a pos count readable out =
      .ok (out ++ slice (flat files bs) pos count) := by
  induction fuel with
  | zero => intro a pos count readable bs out _ _ _ hfuel; split at hfuel <;> omega
  | succ fuel ih =>
    intro a pos count readable bs out hc hpos hfit hfuel
    unfold readLoop
    by_cases hcount : 0 < count
    swap
    · have hzero : count = 0 := by omega
      subst hzero
      simp [slice]
    rw [if_pos (by exact_mod_cast hcount)]
    have hne : bs ≠ [] := by
      rintro rfl
      simp only [List.length_nil] at hfit
      omega
    rcases chain_head hc hne with ⟨b, m, rfl, ha, hb, hm, _⟩
    rw [getBlock_eq ha hb, ok_bind]
    -- The bytes of this block.
    have hlen : (if (count : Int) < (readable : Int) then (count : Int) else (readable : Int)) =
        ((min count readable : Nat) : Int) := by
      split <;> omega
    rw [hlen]
    have hcopy : copyOut b pos (min count readable : Nat) =
        .ok (slice (flat files (a :: m)) pos (min count readable)) := by
      unfold copyOut
      rw [if_neg (by simp only [defaultfile]; omega)]
      congr 1
      refine List.map_congr_left fun i hi => ?_
      have hi' := List.mem_range.mp hi
      rw [flat_lt hb _ (by omega)]
      rfl
    rw [hcopy, ok_bind]
    simp only [List.length_cons] at hfit
    have hsub : (count : Int) - (min count readable : Nat) = ((count - readable : Nat) : Int) := by
      omega
    rw [hsub]
    have hih := ih b.next 0 (count - readable) 4096 m
      (out ++ slice (flat files (a :: m)) pos (min count readable)) hm (by omega) (by omega)
      (by split at hfuel <;> simp <;> omega)
    have hzero : ((0 : Nat) : Int) = 0 := rfl
    have hdef : ((4096 : Nat) : Int) = defaultfile := rfl
    rw [hzero, hdef] at hih
    -- What is left is in the blocks behind this one.
    have hrest : slice (flat files m) 0 (count - readable) =
        slice (flat files (a :: m)) (pos + min count readable) (count - readable) := by
      refine slice_congr fun i hi => ?_
      rw [show pos + min count readable + i = 4096 + i by omega, flat_add, Nat.zero_add]
    rw [hih, List.append_assoc, hrest, ← slice_add]
    rw [show min count readable + (count - readable) = count by omega]

end

/-! ## Writing -/

section

variable {files files' : Nat → Option Fileblock}

theorem writeWalk_rest (fpos pos : Int) (a : Nat) (hpos : fpos ≤ long32 (pos + defaultfile))
    (fuel : Nat) : ∀ (j add : Nat) (rest : List Nat), Chain files j rest → rest.length < fuel →
    writeWalk files fuel j a add pos fpos = .ok (a, rest.getLastD add, pos) := by
  induction fuel with
  | zero => intro j add rest _ hfuel; omega
  | succ fuel ih =>
    intro j add rest hc hfuel
    unfold writeWalk
    by_cases hne : rest = []
    · subst hne
      rw [if_pos (chain_nil hc)]
      rfl
    rcases chain_head hc hne with ⟨b, m, rfl, hj, hb, hm, _⟩
    rw [if_neg hj, getBlock_eq hj hb, ok_bind, if_neg (by omega)]
    rw [ih b.next j m hm (by simp only [List.length_cons] at hfuel; omega), List.getLastD_cons]

theorem writeWalk_spec (bs : List Nat) (fpos : Nat) (hlen : 4096 * bs.length < 2 ^ 31)
    (hfit : fpos ≤ 4096 * bs.length) (fuel : Nat) : ∀ (a add : Nat) (pre post : List Nat),
    bs = pre ++ post → Chain files a post → post ≠ [] → 4096 * pre.length ≤ fpos →
    post.length < fuel →
    ∃ a' pos pre' post', writeWalk files fuel a a add (4096 * pre.length : Nat) fpos =
        .ok (a', post.getLastD add, (pos : Nat)) ∧ Start files bs fpos a' pos pre' post' := by
  induction fuel with
  | zero => intro a add pre post _ _ _ _ hfuel; omega
  | succ fuel ih =>
    intro a add pre post hbs hc hne hlow hfuel
    have hlens := congrArg List.length hbs
    rw [List.length_append] at hlens
    have hpost : 0 < post.length := List.length_pos_iff.mpr hne
    have hd : defaultfile = 4096 := rfl
    have hlong : long32 ((4096 * pre.length : Nat) + defaultfile) =
        (4096 * pre.length : Nat) + defaultfile := long32_eq _ (by omega) (by omega)
    by_cases hstep : ((4096 * pre.length : Nat) : Int) + defaultfile < (fpos : Int)
    · unfold writeWalk
      rcases chain_head hc hne with ⟨b, m, rfl, ha, hb, hm, _⟩
      rw [if_neg ha, getBlock_eq ha hb, ok_bind, hlong, if_pos hstep]
      have hm0 : m ≠ [] := by
        rintro rfl
        simp only [List.length_cons, List.length_nil] at hlens
        omega
      have hpre : (pre ++ [a]).length = pre.length + 1 := by simp
      simp only [List.length_cons] at hfuel
      rcases ih b.next a (pre ++ [a]) m (by simp [hbs]) hm hm0 (by omega) (by omega) with
        ⟨a', pos, pre', post', hw, hs⟩
      refine ⟨a', pos, pre', post', ?_, hs⟩
      rw [List.getLastD_cons, ← hw, hpre]
      congr 1
    · rw [writeWalk_rest _ _ a (by rw [hlong]; omega) (fuel + 1) a add post hc hfuel]
      exact ⟨a, _, pre, post, rfl, hbs, hc, hne, rfl, hlow, by omega⟩

/-- The blocks are the same, only their data is not. -/
structure SameLinks (files files' : Nat → Option Fileblock) (bs : List Nat) : Prop where
  next : ∀ x, nextOf files' x = nextOf files x
  allocated : ∀ x, files' x = none ↔ files x = none
  other : ∀ x, x ∉ bs → files' x = files x

theorem SameLinks.chain {bs l : List Nat} {a : Nat} (h : SameLinks files files' bs)
    (hc : Chain files a l) : Chain files' a l :=
  ⟨linked_congr hc.1 fun x _ => h.next x, fun x hx hn => hc.2 x hx ((h.allocated x).mp hn)⟩

theorem writeLoop_spec (buf : Nat → BitVec 8) (fuel : Nat) : ∀ (files : Nat → Option Fileblock)
    (a pos count writeable i : Nat) (bs : List Nat), Chain files a bs → pos + writeable = 4096 →
    pos + count ≤ 4096 * bs.length → count + (if writeable = 0 then 2 else 1) ≤ fuel →
    ∃ files', writeLoop buf fuel files a pos count writeable i = .ok (files', i + count) ∧
      SameLinks files files' bs ∧
      ∀ q, flat files' bs q =
        if pos ≤ q ∧ q < pos + count then buf (i + (q - pos)) else flat files bs q := by
  induction fuel with
  | zero => intro files a pos count writeable i bs _ _ _ hfuel; split at hfuel <;> omega
  | succ fuel ih =>
    intro files a pos count writeable i bs hc hpos hfit hfuel
    unfold writeLoop
    by_cases hcount : 0 < count
    swap
    · have hzero : count = 0 := by omega
      subst hzero
      refine ⟨files, rfl, ⟨fun _ => rfl, fun _ => Iff.rfl, fun _ _ => rfl⟩, fun q => ?_⟩
      rw [if_neg (by omega)]
    rw [if_pos (by exact_mod_cast hcount)]
    have hne : bs ≠ [] := by
      rintro rfl
      simp only [List.length_nil] at hfit
      omega
    rcases chain_head hc hne with ⟨b, m, rfl, ha, hb, hm, ham⟩
    rw [getBlock_eq ha hb, ok_bind]
    have hlen : (if (count : Int) < (writeable : Int) then (count : Int) else (writeable : Int)) =
        ((min count writeable : Nat) : Int) := by
      split <;> omega
    rw [hlen]
    -- The block with the bytes of this round.
    rcases hb' : copyIn b pos (min count writeable : Nat) buf i with _ | b'
    · unfold copyIn at hb'
      rw [if_neg (by simp only [defaultfile]; omega)] at hb'
      cases hb'
    have hnext : b'.next = b.next := by
      unfold copyIn at hb'
      rw [if_neg (by simp only [defaultfile]; omega)] at hb'
      rw [← Except.ok.inj hb']
    have hdata : ∀ x, b'.data x =
        if pos ≤ x ∧ x < pos + min count writeable then buf (i + (x - pos)) else b.data x := by
      intro x
      unfold copyIn at hb'
      rw [if_neg (by simp only [defaultfile]; omega)] at hb'
      rw [← Except.ok.inj hb']
      rfl
    rw [ok_bind]
    simp only [List.length_cons] at hfit
    have hsub : (count : Int) - (min count writeable : Nat) =
      ((count - writeable : Nat) : Int) := by
      omega
    have htoNat : ((min count writeable : Nat) : Int).toNat = min count writeable := rfl
    rw [hsub, hnext, htoNat]
    have hother : ∀ x, x ≠ a → Function.update files a (some b') x = files x :=
      fun x hx => Function.update_of_ne hx _ _
    have hm' : Chain (Function.update files a (some b')) b.next m :=
      chain_congr hm fun x hx => hother x fun hc => ham (hc ▸ hx)
    rcases ih (Function.update files a (some b')) b.next 0 (count - writeable) 4096
      (i + min count writeable) m hm' (by omega) (by omega)
      (by split at hfuel <;> simp <;> omega) with ⟨files', hw, hs, hf⟩
    refine ⟨files', ?_, ⟨fun x => ?_, fun x => ?_, fun x hx => ?_⟩, fun q => ?_⟩
    · have hzero : ((0 : Nat) : Int) = 0 := rfl
      have hdef : ((4096 : Nat) : Int) = defaultfile := rfl
      rw [hzero, hdef] at hw
      rw [hw]
      congr 2
      omega
    · rw [hs.next]
      by_cases hx : x = a
      · subst hx
        simp only [nextOf, Function.update_self, hb, hnext]
      · simp only [nextOf, hother x hx]
    · rw [hs.allocated]
      by_cases hx : x = a
      · subst hx
        simp [hb]
      · rw [hother x hx]
    · rw [hs.other x fun hc => hx (List.mem_cons_of_mem a hc), hother x]
      exact fun hc => hx (hc ▸ List.mem_cons_self)
    · -- This block got the bytes of this round, those behind it the others.
      have ha' : files' a = some b' := by
        rw [hs.other a ham, Function.update_self]
      by_cases hq : q < 4096
      · rw [flat_lt ha' q hq, flat_lt hb q hq, hdata]
        by_cases hin : pos ≤ q ∧ q < pos + min count writeable
        · rw [if_pos hin, if_pos (by omega)]
        · rw [if_neg hin, if_neg (by omega)]
      · rcases Nat.exists_eq_add_of_le (Nat.not_lt.mp hq) with ⟨r, rfl⟩
        rw [flat_add, flat_add, hf]
        have hfm : flat (Function.update files a (some b')) m r = flat files m r :=
          flat_congr (fun x hx => hother x fun hc => ham (hc ▸ hx)) r
        rw [hfm]
        by_cases hin : 0 ≤ r ∧ r < 0 + (count - writeable)
        · rw [if_pos hin, if_pos (by omega)]
          congr 1
          omega
        · rw [if_neg hin, if_neg (by omega)]

end

/-! ## Freeing -/

theorem freeChain_spec (fuel : Nat) : ∀ (files : Nat → Option Fileblock) (a : Nat) (l : List Nat),
    Chain files a l → l.length < fuel →
    ∃ files', freeChain fuel a files = .ok files' ∧ (∀ x ∈ l, files' x = none) ∧
      ∀ x, x ∉ l → files' x = files x := by
  induction fuel with
  | zero => intro files a l _ hfuel; omega
  | succ fuel ih =>
    intro files a l hc hfuel
    unfold freeChain
    by_cases hne : l = []
    · subst hne
      rw [if_pos (chain_nil hc)]
      exact ⟨files, rfl, fun x hx => absurd hx List.not_mem_nil, fun _ _ => rfl⟩
    rcases chain_head hc hne with ⟨b, m, rfl, ha, hb, hm, ham⟩
    rw [if_neg ha]
    simp only [hb]
    have hm' : Chain (Function.update files a none) b.next m :=
      chain_congr hm fun x hx => Function.update_of_ne (fun hxa : x = a => ham (hxa ▸ hx)) _ _
    rcases ih _ b.next m hm' (by simp only [List.length_cons] at hfuel; omega) with
      ⟨files', hf, hfree, hother⟩
    refine ⟨files', hf, fun x hx => ?_, fun x hx => ?_⟩
    · by_cases hxm : x ∈ m
      · exact hfree x hxm
      · have hxa : x = a := (List.mem_cons.mp hx).resolve_right hxm
        rw [hother x hxm, hxa, Function.update_self]
    · rw [hother x fun hc => hx (List.mem_cons_of_mem a hc)]
      exact Function.update_of_ne (fun hxa : x = a => hx (hxa ▸ List.mem_cons_self)) _ _

end Ramdisk

end MagiC
