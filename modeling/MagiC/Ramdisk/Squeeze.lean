import MagiC.Ramdisk.Code
import Mathlib.Data.List.TakeWhile

/-!
# Squeezing Names

What `tostrunc` makes of a long name, and what `sfirst` compares of it.

A dot at the end is hidden like a dot at the beginning: there is no last dot then. But the
loop over the base takes every dot that is not the last one, so it puts a comma for it. It
is dropped only if the base ends before.

## Main definitions

* `fillTosname`, `matchTosname`: The filled form of a name, and the comparison with a mask.

## Theorems

* `squeezed_iff`: The rules hold unless there is a dot at the end of the base.
-/

namespace MagiC

namespace Ramdisk

def tosWild (wildcards : Bool) (c : BitVec 8) : BitVec 8 :=
  if tosChars.contains c ∨ isalnum c ∨ wildcards ∧ (c = 0x2a ∨ c = 0x3f) then toupper c else 0x58

/-- The loop over the base, `pos` characters behind the beginning. -/
def squeezeBase (wildcards : Bool) (last : Option Nat) : Nat → Nat → Name → Name
  | 0, _, _ => []
  | _ + 1, _, [] => []
  | i + 1, pos, c :: src =>
    if last = some pos then []
    else (if c = 0x2e then 0x2c else tosWild wildcards c) ::
      squeezeBase wildcards last i (pos + 1) src

/-- The loop over the extension. -/
def squeezeExt (wildcards : Bool) : Nat → Name → Name
  | 0, _ => []
  | _ + 1, [] => []
  | i + 1, c :: src => tosWild wildcards c :: squeezeExt wildcards i src

/-- `tostrunc` as the source has it. -/
def squeeze (wildcards : Bool) (src : Name) : Name :=
  if src = dot ∨ src = dotdot then src
  else squeezeBase wildcards (lastdot src) 8 0 src ++
    match lastdot src with
    | none => []
    | some k => 0x2e :: squeezeExt wildcards 3 (src.drop (k + 1))

/-- `"        .   "` with its zero byte. -/
def blankTosname : Name := List.replicate 8 0x20 ++ 0x2e :: List.replicate 3 0x20 ++ [0]

/-- Copies characters to a place of the buffer, or nothing if they do not fit. -/
def copyTo (dest : Name) (i : Nat) : Name → Option Name
  | [] => some dest
  | c :: src => if i < dest.length then copyTo (dest.set i c) (i + 1) src else none

/-- The loop over the characters from `i` to `stop` that looks for a star. -/
def fillStar (dest : Name) (i stop : Nat) : Name :=
  match ((dest.take stop).drop i).findIdx? (· = 0x2a) with
  | none => dest
  | some k => dest.take (i + k) ++ List.replicate (stop - (i + k)) 0x3f ++ dest.drop stop

def fillTosname (src : Name) : Option Name :=
  if src = dot then some (blankTosname.set 0 0x2e)
  else if src = dotdot then some ((blankTosname.set 0 0x2e).set 1 0x2e)
  else do
    let base ← copyTo blankTosname 0 (src.takeWhile (· ≠ 0x2e))
    let dest ← copyTo base 9 (src.dropWhile (· ≠ 0x2e)).tail
    some (fillStar (fillStar dest 0 8) 9 12)

def matchTosname (toCheck sample : Name) : Bool :=
  (List.range 12).all fun i => sample[i]? = some 0x3f ∨ sample[i]? = toCheck[i]?

/-- What is before and behind the last dot. -/
def atLastDot : Name → Option (Name × Name)
  | [] => none
  | c :: src =>
    match atLastDot src with
    | some (pre, suf) => some (c :: pre, suf)
    | none => if c = 0x2e then some ([], src) else none

def comma (c : BitVec 8) : BitVec 8 := if c = 0x2e then 0x2c else tosChar c

/-- The rules in front of `tostrunc`. -/
def byRules (name : Name) : Name :=
  if name = dot ∨ name = dotdot then name
  else
    match atLastDot name with
    | none => (name.map tosChar).take 8
    | some ([], suf) => (0x2c :: suf.map tosChar).take 8
    | some (pre, []) => (pre.map comma).take 8
    | some (pre, suf) => (pre.map comma).take 8 ++ 0x2e :: (suf.map tosChar).take 3

/-- A name is squeezed by the rules, is not changed if it is squeezed again, and its filled
    form matches the mask that `sfirst` makes of it. -/
structure Squeezed (name : Name) : Prop where
  rules : tostrunc name = byRules name
  again : tostrunc (tostrunc name) = tostrunc name
  filled : ∃ f : Name, f.length = 12 ∧ 0 ∉ f ∧ fillTosname (tostrunc name) = some (f ++ [0]) ∧
    fillTosname (squeeze true (tostrunc name)) = some (f ++ [0]) ∧
    matchTosname (f ++ [0]) (f ++ [0]) = true

/-- What `tostrunc` can give. -/
inductive Short : Name → Prop
  | special {name : Name} (h : name = dot ∨ name = dotdot) : Short name
  | base {b : Name} (hb : ∀ c ∈ b, tosChar c = c) (hlen : b.length ≤ 8) : Short b
  | ext {b x : Name} (hb : ∀ c ∈ b, tosChar c = c) (hlen : b.length ≤ 8) (hne : b ≠ [])
      (hx : ∀ c ∈ x, tosChar c = c) (hxlen : x.length ≤ 3) (hxne : x ≠ []) :
      Short (b ++ 0x2e :: x)

/-! ## Characters -/

theorem tosChar_plain : ∀ c, tosChar (tosChar c) = tosChar c := by
  decide +kernel

theorem comma_plain : ∀ c, tosChar (comma c) = comma c := by
  decide +kernel

/-- A character that stays is neither a dot nor a star nor the end of the name. -/
theorem plain_ne : ∀ c, tosChar c = c → c ≠ 0x2e ∧ c ≠ 0x2a ∧ c ≠ 0 := by
  decide +kernel

theorem tosWild_plain : ∀ w c, tosChar c = c → tosWild w c = c := by
  decide +kernel

theorem tosWild_false (c : BitVec 8) : tosWild false c = tosChar c := by
  simp [tosWild, tosChar]

theorem not_dot {n : Name} (h : ∀ c ∈ n, tosChar c = c) : 0x2e ∉ n :=
  fun hmem => (plain_ne _ (h _ hmem)).1 rfl

/-! ## The last dot -/

theorem lastdot_none {src : Name} (h : 0x2e ∉ src) : lastdot src = none := by
  have hfind : src.reverse.findIdx? (· = 0x2e) = none := by
    rw [List.findIdx?_eq_none_iff]
    intro c hc
    exact decide_eq_false fun heq => h (heq ▸ List.mem_reverse.mp hc)
  rw [lastdot, hfind]

theorem lastdot_append (pre : Name) {suf : Name} (h : 0x2e ∉ suf) :
    lastdot (pre ++ 0x2e :: suf) = if suf = [] ∨ pre = [] then none else some pre.length := by
  have hfind : (pre ++ 0x2e :: suf).reverse.findIdx? (· = 0x2e) = some suf.length := by
    have hnone : suf.reverse.findIdx? (· = (0x2e : BitVec 8)) = none := by
      rw [List.findIdx?_eq_none_iff]
      intro c hc
      exact decide_eq_false fun heq => h (heq ▸ List.mem_reverse.mp hc)
    rw [List.reverse_append, List.reverse_cons, List.append_assoc, List.findIdx?_append, hnone]
    simp [List.findIdx?_cons]
  rw [lastdot, hfind]
  dsimp only
  have hlen : (pre ++ 0x2e :: suf).length = pre.length + suf.length + 1 := by
    simp only [List.length_append, List.length_cons]
    omega
  rw [hlen]
  cases suf with
  | nil => simp
  | cons c suf =>
    cases pre with
    | nil => simp
    | cons d pre => simp

theorem atLastDot_none {src : Name} (h : atLastDot src = none) : 0x2e ∉ src := by
  induction src with
  | nil => exact List.not_mem_nil
  | cons c src ih =>
    rw [atLastDot] at h
    cases hrest : atLastDot src with
    | some p => rw [hrest] at h; cases h
    | none =>
      rw [hrest] at h
      dsimp only at h
      split at h
      · cases h
      · rename_i hne
        rw [List.mem_cons]
        rintro (heq | hmem)
        · exact hne heq.symm
        · exact ih hrest hmem

theorem atLastDot_some {src pre suf : Name} (h : atLastDot src = some (pre, suf)) :
    src = pre ++ 0x2e :: suf ∧ 0x2e ∉ suf := by
  induction src generalizing pre with
  | nil => cases h
  | cons c src ih =>
    rw [atLastDot] at h
    cases hrest : atLastDot src with
    | some p =>
      rw [hrest] at h
      cases h
      rcases ih hrest with ⟨heq, hsuf⟩
      exact ⟨by rw [heq, List.cons_append], hsuf⟩
    | none =>
      rw [hrest] at h
      dsimp only at h
      split at h
      · rename_i heq
        cases h
        exact ⟨by rw [heq, List.nil_append], atLastDot_none hrest⟩
      · cases h

/-! ## The loops -/

/-- The loop over the base takes what is before the last dot, eight characters at most. -/
theorem squeezeBase_eq (w : Bool) (last : Option Nat) (i pos : Nat) (src : Name)
    (hpos : ∀ k, last = some k → pos ≤ k) :
    squeezeBase w last i pos src =
      ((match last with | none => src | some k => src.take (k - pos)).take i).map
        fun c => if c = 0x2e then 0x2c else tosWild w c := by
  induction i generalizing pos src with
  | zero => rw [squeezeBase, List.take_zero, List.map_nil]
  | succ i ih =>
    cases src with
    | nil => cases last <;> simp [squeezeBase]
    | cons c src =>
      rw [squeezeBase]
      cases last with
      | none => simp [ih (pos + 1) src (by simp)]
      | some k =>
        have hle := hpos k rfl
        split
        · rename_i heq
          simp [Option.some.inj heq]
        · rename_i hne
          have hlt : pos < k := Nat.lt_of_le_of_ne hle fun h => hne (by rw [h])
          rw [ih (pos + 1) src fun j hj => by cases hj; omega]
          have hsub : k - pos = (k - (pos + 1)) + 1 := by omega
          simp [hsub]

theorem squeezeExt_eq (w : Bool) (i : Nat) (src : Name) :
    squeezeExt w i src = (src.take i).map (tosWild w) := by
  induction i generalizing src with
  | zero => rw [squeezeExt, List.take_zero, List.map_nil]
  | succ i ih =>
    cases src with
    | nil => rfl
    | cons c src => rw [squeezeExt, ih, List.take_succ_cons, List.map_cons]

/-- Without wildcards this is `tostrunc`. -/
theorem squeeze_tostrunc (src : Name) : squeeze false src = tostrunc src := by
  rw [squeeze, tostrunc]
  split
  · rfl
  · rw [squeezeBase_eq _ _ _ _ _ fun _ _ => Nat.zero_le _]
    simp only [tosWild_false, squeezeExt_eq]
    cases lastdot src <;> simp [funext tosWild_false]

theorem tostrunc_none {src : Name} (hs : ¬ (src = dot ∨ src = dotdot))
    (h : lastdot src = none) : tostrunc src = (src.take 8).map comma := by
  rw [tostrunc, if_neg hs, h]
  rfl

theorem tostrunc_ext {pre suf : Name} (hpre : pre ≠ []) (hsuf : suf ≠ []) (h : 0x2e ∉ suf)
    (hs : ¬ (pre ++ 0x2e :: suf = dot ∨ pre ++ 0x2e :: suf = dotdot)) :
    tostrunc (pre ++ 0x2e :: suf) =
      (pre.take 8).map comma ++ 0x2e :: (suf.take 3).map tosChar := by
  rw [tostrunc, if_neg hs, lastdot_append pre h, if_neg (by simp [hpre, hsuf])]
  have hdrop : (pre ++ 0x2e :: suf).drop (pre.length + 1) = suf := by
    simp [List.drop_append]
  dsimp only
  rw [List.take_left, hdrop]
  rfl

/-! ## Squeezed names -/

/-- `tostrunc` gives what is short enough, and a dot only between base and extension. -/
theorem tostrunc_short (name : Name) : Short (tostrunc name) := by
  by_cases hs : name = dot ∨ name = dotdot
  · rw [tostrunc, if_pos hs]
    exact .special hs
  have hbase : ∀ pre : Name, (∀ c ∈ (pre.take 8).map comma, tosChar c = c) ∧
      ((pre.take 8).map comma).length ≤ 8 := by
    intro pre
    constructor
    · intro c hc
      rcases List.mem_map.mp hc with ⟨d, -, rfl⟩
      exact comma_plain d
    · rw [List.length_map, List.length_take]
      exact Nat.min_le_left 8 _
  have hhidden : lastdot name = none → Short (tostrunc name) := by
    intro h
    rw [tostrunc_none hs h]
    exact .base (hbase name).1 (hbase name).2
  cases hdot : atLastDot name with
  | none => exact hhidden (lastdot_none (atLastDot_none hdot))
  | some p =>
    rcases p with ⟨pre, suf⟩
    rcases atLastDot_some hdot with ⟨rfl, hsuf⟩
    by_cases hne : suf = [] ∨ pre = []
    · exact hhidden (by rw [lastdot_append pre hsuf, if_pos hne])
    · rw [not_or] at hne
      rw [tostrunc_ext hne.2 hne.1 hsuf hs]
      refine .ext (hbase pre).1 (hbase pre).2 (by simp [hne.2]) (fun c hc => ?_)
        (by rw [List.length_map, List.length_take]; exact Nat.min_le_left 3 _) (by simp [hne.1])
      rcases List.mem_map.mp hc with ⟨d, -, rfl⟩
      exact tosChar_plain d

theorem map_plain {w : Bool} {n : Name} (h : ∀ c ∈ n, tosChar c = c) :
    (n.map fun c => if c = 0x2e then 0x2c else tosWild w c) = n ∧ n.map (tosWild w) = n := by
  refine ⟨(List.map_congr_left fun c hc => ?_).trans (List.map_id n),
    (List.map_congr_left fun c hc => ?_).trans (List.map_id n)⟩
  · rw [if_neg (plain_ne c (h c hc)).1, tosWild_plain w c (h c hc), id]
  · rw [tosWild_plain w c (h c hc), id]

/-- A squeezed name stays, with and without wildcards. -/
theorem squeeze_short (w : Bool) {n : Name} (h : Short n) : squeeze w n = n := by
  by_cases hs : n = dot ∨ n = dotdot
  · rw [squeeze, if_pos hs]
  rw [squeeze, if_neg hs, squeezeBase_eq _ _ _ _ _ fun _ _ => Nat.zero_le _]
  cases h with
  | special hs' => exact absurd hs' hs
  | base hb hlen =>
    rw [lastdot_none (not_dot hb)]
    dsimp only
    rw [List.take_of_length_le hlen, (map_plain hb).1, List.append_nil]
  | @ext b x hb hlen hne hx hxlen hxne =>
    rw [lastdot_append b (not_dot hx), if_neg (by simp [hne, hxne])]
    have hdrop : (b ++ 0x2e :: x).drop (b.length + 1) = x := by
      simp [List.drop_append]
    dsimp only
    rw [Nat.sub_zero, List.take_left, List.take_of_length_le hlen, (map_plain hb).1, hdrop,
      squeezeExt_eq, List.take_of_length_le hxlen, (map_plain hx).2]

/-! ## The filled form -/

theorem copyTo_eq (src : Name) (dest : Name) (i : Nat) (h : i + src.length ≤ dest.length) :
    copyTo dest i src = some (dest.take i ++ src ++ dest.drop (i + src.length)) := by
  induction src generalizing dest i with
  | nil => simp [copyTo]
  | cons c src ih =>
    rw [List.length_cons] at h
    have hi : i < dest.length := by omega
    rw [copyTo, if_pos hi, ih (dest.set i c) (i + 1) (by rw [List.length_set]; omega)]
    have htake : (dest.set i c).take (i + 1) = dest.take i ++ [c] := by
      rw [List.take_add_one, List.take_set_of_le (Nat.le_refl i), List.getElem?_set_self hi,
        Option.toList_some]
    rw [htake, List.drop_set_of_lt (by omega), List.append_assoc (dest.take i), List.length_cons,
      List.singleton_append, Nat.add_right_comm, Nat.add_assoc]

theorem fillStar_none {dest : Name} (h : 0x2a ∉ dest) (i stop : Nat) :
    fillStar dest i stop = dest := by
  have hfind : ((dest.take stop).drop i).findIdx? (· = 0x2a) = none := by
    rw [List.findIdx?_eq_none_iff]
    intro c hc
    exact decide_eq_false fun heq => h (heq ▸ List.mem_of_mem_take (List.mem_of_mem_drop hc))
  rw [fillStar, hfind]

/-- Base and extension with their blanks. -/
def fill (b x : Name) : Name :=
  b ++ List.replicate (8 - b.length) 0x20 ++ 0x2e :: (x ++ List.replicate (3 - x.length) 0x20)

theorem fill_mem {b x : Name} (hb : ∀ c ∈ b, tosChar c = c) (hx : ∀ c ∈ x, tosChar c = c)
    {c : BitVec 8} (h : c ∈ fill b x) : c ≠ 0x2a ∧ c ≠ 0 := by
  simp only [fill, List.mem_append, List.mem_cons, List.mem_replicate] at h
  rcases h with (h | ⟨-, rfl⟩) | rfl | h | ⟨-, rfl⟩
  · exact (plain_ne c (hb c h)).2
  · decide
  · decide
  · exact (plain_ne c (hx c h)).2
  · decide

theorem fillTosname_fill {n b x : Name} (hs : ¬ (n = dot ∨ n = dotdot))
    (hb : ∀ c ∈ b, tosChar c = c) (hlen : b.length ≤ 8) (hx : ∀ c ∈ x, tosChar c = c)
    (hxlen : x.length ≤ 3) (htake : n.takeWhile (· ≠ 0x2e) = b)
    (htail : (n.dropWhile (· ≠ 0x2e)).tail = x) : fillTosname n = some (fill b x ++ [0]) := by
  rw [not_or] at hs
  have hstar : 0x2a ∉ fill b x ++ [0] := by
    rw [List.mem_append]
    rintro (h | h)
    · exact (fill_mem hb hx h).1 rfl
    · exact absurd h (by decide)
  have hbase : copyTo blankTosname 0 b =
      some (b ++ List.replicate (8 - b.length) 0x20 ++ 0x2e :: (List.replicate 3 0x20 ++ [0])) := by
    rw [copyTo_eq _ _ _ (by simp [blankTosname]; omega), List.take_zero, List.nil_append,
      Nat.zero_add, blankTosname, List.append_assoc (List.replicate 8 _),
      List.drop_append_of_le_length (by rwa [List.length_replicate]), List.drop_replicate,
      List.append_assoc, List.cons_append]
  have hw : (b ++ List.replicate (8 - b.length) (0x20 : BitVec 8)).length = 8 := by
    rw [List.length_append, List.length_replicate]
    omega
  have hext : copyTo (b ++ List.replicate (8 - b.length) 0x20 ++
      0x2e :: (List.replicate 3 0x20 ++ [0])) 9 x = some (fill b x ++ [0]) := by
    rw [fill]
    generalize b ++ List.replicate (8 - b.length) (0x20 : BitVec 8) = w at hw ⊢
    have hsub : 9 + x.length - 8 = x.length + 1 := by omega
    rw [copyTo_eq _ _ _ (by simp; omega), List.take_append, List.drop_append, hw, hsub,
      List.take_of_length_le (by omega), List.drop_of_length_le (by omega), List.drop_succ_cons,
      List.drop_append_of_le_length (by rwa [List.length_replicate]), List.drop_replicate]
    simp
  rw [fillTosname, if_neg hs.1, if_neg hs.2, htake, htail, hbase]
  dsimp only [Option.bind_eq_bind, Option.bind_some]
  rw [hext]
  dsimp only [Option.bind_some]
  rw [fillStar_none hstar, fillStar_none hstar]

theorem fill_length {b x : Name} (hlen : b.length ≤ 8) (hxlen : x.length ≤ 3) :
    (fill b x).length = 12 := by
  simp only [fill, List.length_append, List.length_cons, List.length_replicate]
  omega

/-- The filled form of a squeezed name fits into the buffer. -/
theorem fillTosname_short {n : Name} (h : Short n) :
    ∃ f : Name, f.length = 12 ∧ 0 ∉ f ∧ fillTosname n = some (f ++ [0]) := by
  by_cases hs : n = dot ∨ n = dotdot
  · rcases hs with rfl | rfl
    · exact ⟨(blankTosname.set 0 0x2e).take 12, by decide, by decide, by decide⟩
    · exact ⟨((blankTosname.set 0 0x2e).set 1 0x2e).take 12, by decide, by decide, by decide⟩
  have hrun : ∀ b : Name, (∀ c ∈ b, tosChar c = c) → ∀ c ∈ b, decide (c ≠ 0x2e) = true :=
    fun b hb c hc => decide_eq_true (plain_ne c (hb c hc)).1
  cases h with
  | special hs' => exact absurd hs' hs
  | base hb hlen =>
    have hnil : ∀ c ∈ ([] : Name), tosChar c = c := fun _ hc => absurd hc List.not_mem_nil
    refine ⟨fill n [], fill_length hlen (by decide), fun h => (fill_mem hb hnil h).2 rfl, ?_⟩
    refine fillTosname_fill hs hb hlen hnil (by decide) ?_ ?_
    · exact List.takeWhile_eq_self_iff.mpr (hrun n hb)
    · rw [List.dropWhile_eq_nil_iff.mpr (hrun n hb), List.tail_nil]
  | @ext b x hb hlen _ hx hxlen _ =>
    refine ⟨fill b x, fill_length hlen hxlen, fun h => (fill_mem hb hx h).2 rfl, ?_⟩
    refine fillTosname_fill hs hb hlen hx hxlen ?_ ?_
    · rw [List.takeWhile_append_of_pos (hrun b hb)]
      simp
    · rw [List.dropWhile_append_of_pos (hrun b hb)]
      simp

theorem matchTosname_self (f : Name) : matchTosname f f = true := by
  simp [matchTosname]

/-! ## The rules -/

/-- The rules hold unless there is a dot at the end of the base. -/
theorem tostrunc_byRules (name : Name) : tostrunc name = byRules name ↔
    name = dot ∨ name = dotdot ∨ ¬ (name.getLast? = some 0x2e ∧ name.length ≤ 8) := by
  by_cases hs : name = dot ∨ name = dotdot
  · rw [tostrunc, byRules, if_pos hs, if_pos hs, ← or_assoc]
    exact ⟨fun _ => .inl hs, fun _ => rfl⟩
  rw [← or_assoc, or_iff_right hs, byRules, if_neg hs]
  have hplain : ∀ n : Name, 0x2e ∉ n → n.map comma = n.map tosChar := fun n hn =>
    List.map_congr_left fun c hc => if_neg fun heq => hn (by rwa [← heq])
  cases hdot : atLastDot name with
  | none =>
    have hno := atLastDot_none hdot
    dsimp only
    rw [tostrunc_none hs (lastdot_none hno), List.map_take, hplain name hno]
    exact iff_of_true rfl fun h => hno (List.mem_of_getLast? h.1)
  | some p =>
    rcases p with ⟨pre, suf⟩
    rcases atLastDot_some hdot with ⟨rfl, hsuf⟩
    cases suf with
    | nil =>
      -- The dot is hidden, so the base is one character longer than the rules have it.
      rw [tostrunc_none hs (by rw [lastdot_append pre hsuf, if_pos (.inl rfl)])]
      have hpre : pre ≠ [] := fun h => hs (.inl (by rw [h]; rfl))
      cases pre with
      | nil => exact absurd rfl hpre
      | cons c pre =>
        dsimp only
        simp only [List.getLast?_append, List.getLast?_singleton, Option.some_or, true_and,
          List.length_append, List.length_singleton]
        constructor
        · intro h hle
          have hlen := congrArg List.length h
          simp only [List.length_map, List.length_take, List.length_append,
            List.length_singleton] at hlen
          omega
        · intro h
          rw [List.take_append_of_le_length (by omega), List.map_take]
    | cons d suf =>
      cases pre with
      | nil =>
        rw [tostrunc_none hs (by rw [lastdot_append [] hsuf, if_pos (.inr rfl)])]
        dsimp only
        rw [List.nil_append, List.map_take, List.map_cons, hplain _ hsuf]
        refine iff_of_true rfl fun h => hsuf ?_
        exact List.mem_of_getLast? ((List.getLast?_cons_cons).symm.trans h.1)
      | cons c pre =>
        rw [tostrunc_ext (List.cons_ne_nil _ _) (List.cons_ne_nil _ _) hsuf hs]
        dsimp only
        rw [List.map_take, List.map_take]
        refine iff_of_true rfl fun h => hsuf ?_
        refine List.mem_of_getLast? (Eq.trans ?_ h.1)
        rw [List.getLast?_append, List.getLast?_cons_cons, List.getLast?_cons, Option.some_or]

/-- A name is squeezed by the rules unless a dot ends it within the first eight characters. -/
theorem squeezed_iff (name : Name) : Squeezed name ↔
    name = dot ∨ name = dotdot ∨ ¬ (name.getLast? = some 0x2e ∧ name.length ≤ 8) := by
  rw [← tostrunc_byRules]
  refine ⟨Squeezed.rules, fun h => ?_⟩
  have hshort := tostrunc_short name
  rcases fillTosname_short hshort with ⟨f, hlen, hzero, hfill⟩
  refine ⟨h, by rw [← squeeze_tostrunc (tostrunc name), squeeze_short _ hshort], ?_⟩
  exact ⟨f, hlen, hzero, hfill, by rw [squeeze_short _ hshort, hfill], matchTosname_self _⟩

/-- `abc.` becomes `ABC,`. -/
theorem squeezed_comma : ¬ ∀ env name, checkName env name = true → name.length ≤ 32 →
    Squeezed name := by
  intro h
  have habc := (h ⟨.mint, false, fun _ _ => 0⟩ [0x61, 0x62, 0x63, 0x2e] (by decide)
    (by decide)).rules
  exact absurd habc (by decide)

end Ramdisk

end MagiC
