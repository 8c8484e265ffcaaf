import MagiC.Aes.Order
import MagiC.Aes.Shown

/-!
# Scrolling a Popup Menu

From the beginning of a popup menu to its end, with any scrolling in between.

The first entry that is shown is computed from the number of the entry the menu is to start
with. If that is the first entry it may come out one too small, for the number of the box
goes into the computation. When the menu is done with the box grows by a line of characters
for every entry, although it got smaller by the height of the entries.

## Main definitions

* `InBetween`, `Restored`: What is to hold while the menu is shown, and at its end.

## Theorems

* `works_iff`: When the menu is left as it was.
-/

namespace MagiC

namespace Aes

namespace Smn

open Obj

/-- The way the entries are scrolled. -/
inductive Dir where
  | up
  | down
  deriving DecidableEq

/-- There are entries that way which are not shown. -/
def Dir.Hidden (p : Popup) : Dir → Prop
  | .up => p.shead ≠ p.head
  | .down => p.stail ≠ p.tail

/-- The entries are scrolled by one. -/
def scroll (height : Nat) (p : Popup) (m : Menu) : Dir → Except Fault (Popup × Menu)
  | .up =>
    if p.currIstart = 0 then .error .outside else smnTrudchange height p m (p.currIstart - 1)
  | .down => smnTrudchange height p m (p.currIstart + 1)

section

variable {m₀ m : Menu} {root head tail height : Nat} {h r big : Word} {l : List Nat} {p : Popup}
  {istart : Int}

/-- While the menu is shown: the box has the entries that are shown, as many as there is room
    for, and an arrow at each end where there are others. -/
structure InBetween (m₀ : Menu) (height : Nat) (p : Popup) (m : Menu) (root head tail : Nat) :
    Prop where
  children : ∃ l, Kids m.objs root l ∧ InWindow p l
  inside : head ≤ p.shead ∧ p.stail ≤ tail
  count : p.stail + 1 = p.shead + min height (tail + 1 - head)
  arrows : ∀ e, m.text e = if e = p.shead ∧ p.shead ≠ head then smnUptext
    else if e = p.stail ∧ p.stail ≠ tail then smnDntext else m₀.text e

/-- At the end: all is as it was. -/
structure Restored (m₀ m : Menu) (root head tail : Nat) : Prop where
  objs : m.objs = m₀.objs
  text : m.text = m₀.text
  y : m.obY = m₀.obY
  state : ∀ e, m.obState e &&& ~~~SELECTED = m₀.obState e &&& ~~~SELECTED
  height : m.obHeight = m₀.obHeight
  others : ∀ e, e ≠ root → ¬ (head ≤ e ∧ e ≤ tail) →
    m.obState e = m₀.obState e ∧ m.obFlags e = m₀.obFlags e

/-- The menu is shown, scrolled and done with as it should be. -/
def Works (m₀ : Menu) (height : Nat) (big : Word) (root head tail : Nat) :
    List Dir → Popup → Menu → Prop
  | [], p, m => InBetween m₀ height p m root head tail ∧
      ∃ m', smnTrreset big p m = .ok m' ∧ Restored m₀ m' root head tail
  | d :: ds, p, m => InBetween m₀ height p m root head tail ∧
      (d.Hidden p → ∃ p' m', scroll height p m d = .ok (p', m') ∧
        Works m₀ height big root head tail ds p' m')

theorem link_of_lt {n : Nat} (hn : n < 0x8000) : link n = n := by
  rw [link, if_neg (by rw [NIL]; omega)]

theorem Box.obHead (b : Box m₀ root head tail h) : m₀.objs.obHead root = head := by
  have hpath := (b.kids.sibs.path b.ne_nil).1
  have hspan : span head (tail + 1) = head :: span (head + 1) (tail + 1) := by
    have := b.le
    rw [span, show tail + 1 - head = tail + 1 - (head + 1) + 1 by omega, List.range'_succ]
    rfl
  rw [hspan] at hpath
  exact hpath.1

theorem Box.obTail (b : Box m₀ root head tail h) : m₀.objs.obTail root = tail := by
  have hlast := (b.kids.sibs.path b.ne_nil).2
  have hspan : span head (tail + 1) = span head tail ++ [tail] := by
    have := b.le
    rw [span, show tail + 1 - head = tail - head + 1 by omega, List.range'_concat, Nat.one_mul,
      show head + (tail - head) = tail by omega]
    rfl
  rw [hspan, List.getLast?_concat] at hlast
  exact (Option.some.inj hlast).symm

theorem Box.items (b : Box m₀ root head tail h) :
    smnTritems m₀ root = (tail : Int) - head + 1 := by
  have htail := b.tail_lt
  have hle := b.le
  rw [smnTritems, b.obHead, b.obTail, link_of_lt htail, link_of_lt (by omega)]

theorem Box.dfltIstart (b : Box m₀ root head tail h) :
    (smnPunew m₀ root istart).dfltIstart = (max (head : Int) (min istart tail)).toNat := by
  have htail := b.tail_lt
  have hle := b.le
  show (max (link (m₀.objs.obHead root)) (min istart (link (m₀.objs.obTail root)))).toNat = _
  rw [b.obHead, b.obTail, link_of_lt htail, link_of_lt (by omega)]

theorem word_eq {x : Int} (hlo : -32768 ≤ x) (hhi : x < 32768) : word x = x := by
  rw [word, BitVec.toInt_ofInt]
  exact Int.bmod_eq_of_le (by omega) (by omega)

theorem word_ge {x : Int} (hlo : 32768 ≤ x) (hhi : x < 65536) : word x = x - 65536 := by
  rw [word, BitVec.toInt_ofInt, ← Int.sub_bmod_right]
  exact Int.bmod_eq_of_le (by omega) (by omega)

theorem quotient_iff {x : Int} {height n : Nat} (hlo : -32768 < x) (hhi : x ≤ 32768)
    (h4 : 4 ≤ height) (hheight : height < 32768) (hn : n < 32768) :
    (n : Int) = word ((word x).tdiv height + n) ↔ x.natAbs < height := by
  have hword : word x = x ∨ word x = -32768 ∧ x = 32768 := by
    rcases Int.lt_or_eq_of_le hhi with hlt | heq
    · exact Or.inl (word_eq (by omega) hlt)
    · exact Or.inr ⟨by rw [word_ge (by omega) (by omega)]; omega, heq⟩
  have habs : (word x).natAbs = x.natAbs := by
    rcases hword with heq | ⟨heq, hx⟩
    · rw [heq]
    · rw [heq, hx]
      rfl
  have hle : x.natAbs ≤ 32768 := by omega
  generalize word x = y at habs
  have hq : (y.tdiv height).natAbs = x.natAbs / height := by
    rw [Int.natAbs_tdiv, habs]
    rfl
  have hq8192 : (y.tdiv height).natAbs ≤ 8192 := by
    rw [hq]
    exact (Nat.div_le_div_left h4 (by omega)).trans (Nat.div_le_of_le_mul (by omega))
  have hzero : y.tdiv height = 0 ↔ x.natAbs < height := by
    rw [← Int.natAbs_eq_zero, hq, Nat.div_eq_zero_iff]
    omega
  rw [← hzero]
  generalize y.tdiv height = q at *
  constructor
  · intro heq
    by_cases hlt : q + n < 32768
    · rw [word_eq (by omega) hlt] at heq
      omega
    · rw [word_ge (by omega) (by omega)] at heq
      omega
  · intro heq
    rw [heq, zero_add, word_eq (by omega) (by omega)]

/-- The first entry that is shown. -/
theorem newshead_eq (b : Box m₀ root head tail h) (h4 : 4 ≤ height)
    (hmany : height < tail + 1 - head) (hr : p.root = root) (hh : p.head = head)
    (hd : head ≤ p.dfltIstart ∧ p.dfltIstart ≤ tail) (hi : p.items = (tail : Int) - head + 1) :
    newshead height p = if ((p.dfltIstart : Int) - root + 1).natAbs < height then (head : Int)
      else min ((p.dfltIstart : Int) - 1) ((tail : Int) + 1 - height) := by
  have htail := b.tail_lt
  have hroot := b.root_lt
  have hle := b.le
  have hiff := quotient_iff (x := (p.dfltIstart : Int) - root + 1) (n := head) (by omega) (by omega)
    h4 (by omega) (by omega)
  rw [newshead, hr, hh, hi]
  by_cases hsmall : ((p.dfltIstart : Int) - root + 1).natAbs < height
  · have heq := hiff.mpr hsmall
    rw [if_pos hsmall, if_neg (not_not.mpr heq), ← heq]
  · have hne := mt hiff.mp hsmall
    rw [if_neg hsmall, if_pos hne]
    congr 1
    omega

/-- The menu does not start with its first entry, or its number is close to that of the box. -/
def GoodStart (height root head : Nat) (istart : Int) : Prop :=
  (head : Int) < istart ∨ ((head : Int) - root + 1).natAbs < height

theorem Box.punew (b : Box m₀ root head tail h) (istart : Int) :
    (smnPunew m₀ root istart).root = root ∧ (smnPunew m₀ root istart).head = head ∧
      (smnPunew m₀ root istart).tail = tail ∧ (smnPunew m₀ root istart).shead = head ∧
      (smnPunew m₀ root istart).stail = tail ∧
      (smnPunew m₀ root istart).items = (tail : Int) - head + 1 ∧
      head ≤ (smnPunew m₀ root istart).dfltIstart ∧
      (smnPunew m₀ root istart).dfltIstart ≤ tail ∧
      ((smnPunew m₀ root istart).dfltIstart = head ↔ istart ≤ head ∨ tail = head) := by
  have hle := b.le
  refine ⟨rfl, b.obHead, b.obTail, b.obHead, b.obTail, b.items, ?_⟩
  rw [b.dfltIstart]
  omega

theorem newshead_inside (b : Box m₀ root head tail h) (h4 : 4 ≤ height)
    (hmany : height < tail + 1 - head) :
    (head : Int) ≤ newshead height (smnPunew m₀ root istart) ↔
      GoodStart height root head istart := by
  rcases b.punew istart with ⟨hr, hh, -, -, -, hi, hlo, hhi, hiff⟩
  rw [newshead_eq b h4 hmany hr hh ⟨hlo, hhi⟩ hi, GoodStart]
  have hle := b.le
  generalize (smnPunew m₀ root istart).dfltIstart = d at *
  by_cases hd : d = head
  · -- the first entry
    have his : istart ≤ head := by
      rcases hiff.mp hd with h | h <;> omega
    rw [hd]
    split_ifs with hsmall
    · exact ⟨fun _ => Or.inr hsmall, fun _ => Int.le_refl _⟩
    · constructor
      · intro hle'
        omega
      · intro hgood
        rcases hgood with hgood | hgood
        · omega
        · exact absurd hgood hsmall
  · have his : (head : Int) < istart := by
      by_contra hn
      exact hd (hiff.mpr (Or.inl (by omega)))
    refine ⟨fun _ => Or.inl his, fun _ => ?_⟩
    split_ifs <;> omega

theorem newshead_le (b : Box m₀ root head tail h) (istart : Int) (h4 : 4 ≤ height)
    (hmany : height < tail + 1 - head) :
    newshead height (smnPunew m₀ root istart) + height ≤ (tail : Int) + 1 ∧
      (head : Int) - 1 ≤ newshead height (smnPunew m₀ root istart) := by
  rcases b.punew istart with ⟨hr, hh, -, -, -, hi, hlo, hhi, -⟩
  rw [newshead_eq b h4 hmany hr hh ⟨hlo, hhi⟩ hi]
  split_ifs <;> omega

theorem shrink_add (r h : Word) (a c : Nat) :
    r - BitVec.ofNat 16 a * h - BitVec.ofNat 16 c * h = r - BitVec.ofNat 16 (a + c) * h := by
  rw [BitVec.ofNat_add, add_mul, sub_sub]

theorem bare_start (b : Box m₀ root head tail h) :
    Bare m₀ m₀ root head tail (span head (tail + 1)) (m₀.obHeight root) :=
  ⟨Linked.start b.kids, (Function.update_eq_self root m₀.obHeight).symm, rfl, rfl, fun _ => rfl,
    fun _ _ => rfl, fun _ _ => rfl, fun _ _ => rfl⟩

theorem choose_spec (b : Box m₀ root head tail h) (h4 : 4 ≤ height) (hr : p.root = root)
    (hh : p.head = head) (ht : p.tail = tail) (hi : p.items = (tail : Int) - head + 1) {n : Nat}
    (hlo : head ≤ n) (hhi : n + height ≤ tail + 1) :
    ∃ p' m l, choose height p m₀ n = .ok (p', m) ∧ p'.currIstart = p'.shead ∧
      Shown m₀ height p' m root head tail l
        (m₀.obHeight root - BitVec.ofNat 16 (tail + 1 - head - height) * h) ∧ InWindow p' l := by
  -- the entries before the others
  rcases shrink_loop b (bare_start b).linked (span_nodup head n) (fun x hx => by
    have := mem_span.mp hx
    exact mem_span.mpr (by omega)) (bare_start b).heights with ⟨t₁, l₁, hrun₁, hl₁, hmem₁⟩
  rw [span_length] at hrun₁
  -- the entries behind the others
  rcases shrink_loop (m := layout n tail { m₀ with
      objs := t₁
      obHeight := Function.update m₀.obHeight root
        (m₀.obHeight root - BitVec.ofNat 16 (n - head) * h) }) b hl₁
    (List.nodup_reverse.mpr (span_nodup (n + height) (tail + 1))) (fun x hx => by
      have := mem_span.mp (List.mem_reverse.mp hx)
      rw [hmem₁, mem_span, mem_span]
      omega) rfl with ⟨t₂, l₂, hrun₂, hl₂, hmem₂⟩
  rw [shrink_add, List.length_reverse, span_length,
    show n - head + (tail + 1 - (n + height)) = tail + 1 - head - height by omega] at hrun₂
  generalize hM : layout n tail { m₀ with
      objs := t₁
      obHeight := Function.update m₀.obHeight root
        (m₀.obHeight root - BitVec.ofNat 16 (n - head) * h) } = M at *
  have hwindow : Window height { p with shead := n, stail := min p.tail (n + height - 1) }
      root head tail :=
    ⟨hr, hh, ht, hlo, by show min p.tail (n + height - 1) ≤ tail; omega,
      by show min p.tail (n + height - 1) + 1 = n + height; omega, hi⟩
  have hin : ∀ x, x ∈ l₂ ↔ n ≤ x ∧ x ≤ n + height - 1 := by
    intro x
    rw [hmem₂, hmem₁, List.mem_reverse, mem_span, mem_span, mem_span]
    omega
  have hbare : ∀ f : Nat → Word, (∀ e, ¬ (head ≤ e ∧ e ≤ tail) → f e = m₀.obFlags e) →
      Bare m₀ { M with
        objs := t₂
        obHeight := Function.update m₀.obHeight root
          (m₀.obHeight root - BitVec.ofNat 16 (tail + 1 - head - height) * h)
        obFlags := f } root head tail l₂
        (m₀.obHeight root - BitVec.ofNat 16 (tail + 1 - head - height) * h) := by
    intro f hf
    rw [← hM]
    refine ⟨hl₂, rfl, rfl, rfl, fun _ => rfl, fun _ _ => rfl, hf, fun e he => ?_⟩
    exact if_neg (by omega)
  have hflags : M.obFlags = m₀.obFlags := by rw [← hM]; rfl
  rcases smnTrudinsert_spec b h4 hwindow (hbare (if p.lastob ≠ (0 : Word) then
    Function.update M.obFlags (min p.tail (n + height - 1)) LASTOB else M.obFlags) fun e he => by
      rw [hflags]
      split_ifs
      · exact Function.update_of_ne (by omega) _ _
      · rfl) with ⟨p', m', hins, hshead, hstail, hshown⟩
  refine ⟨{ p' with currIstart := n }, m', l₂, ?_, hshead.symm, ?_, fun x => ?_⟩
  · rw [choose, hr, hh, hrun₁, Outcome.ok_bind, ht, hM, hrun₂, Outcome.ok_bind]
    rw [hr, hh, ht] at hins
    simp only
    rw [hins]
    rfl
  · have w := hshown.window
    exact ⟨⟨w.root_eq, w.head_eq, w.tail_eq, w.lo, w.hi, w.size, w.items⟩, hshown.linked,
      hshown.bare, hshown.arrows⟩
  · show x ∈ l₂ ↔ p'.shead ≤ x ∧ x ≤ p'.stail
    rw [hin, hshead, hstail]
    show _ ↔ n ≤ x ∧ x ≤ min p.tail (n + height - 1)
    omega

theorem smnTrset_punew (b : Box m₀ root head tail h) :
    smnTrset height (smnPunew m₀ root istart) m₀ =
      if (tail : Int) - head + 1 ≤ height then .ok (smnPunew m₀ root istart, m₀)
      else if newshead height (smnPunew m₀ root istart) < 0 then .error .outside
      else choose height (smnPunew m₀ root istart) m₀
        (newshead height (smnPunew m₀ root istart)).toNat := by
  rw [← b.items]
  rfl

/-- The entries to be shown are chosen. -/
theorem smnTrset_spec (b : Box m₀ root head tail h) (h4 : 4 ≤ height)
    (hmany : height < tail + 1 - head) (hgood : GoodStart height root head istart) :
    ∃ p m l, smnTrset height (smnPunew m₀ root istart) m₀ = .ok (p, m) ∧
      p.currIstart = p.shead ∧
      Shown m₀ height p m root head tail l
        (m₀.obHeight root - BitVec.ofNat 16 (tail + 1 - head - height) * h) ∧ InWindow p l := by
  rcases b.punew istart with ⟨hr, hh, ht, -, -, hi, -, -, -⟩
  have hge := (newshead_inside b h4 hmany).mpr hgood
  have hle := (newshead_le b istart h4 hmany).1
  rw [smnTrset_punew b, if_neg (by omega), if_neg (by omega)]
  exact choose_spec b h4 hr hh ht hi (by omega) (by omega)

theorem tritems_ne (b : Box m₀ root head tail h) (h4 : 4 ≤ height)
    (hmany : height < tail + 1 - head) (hs : Shown m₀ height p m root head tail l r)
    (hl : InWindow p l) : p.items ≠ smnTritems m p.root := by
  have w := hs.window
  have hlo := w.lo
  have hhi := w.hi
  have hsize := w.size
  have htail := b.tail_lt
  have hne : l ≠ [] := by
    intro hnil
    have hmem := (hl p.shead).mpr ⟨Nat.le_refl _, by omega⟩
    rw [hnil] at hmem
    exact List.not_mem_nil hmem
  have hhead := (hl _).mp (hs.linked.kids.sibs.head_mem hne)
  have hlast := (hl _).mp (hs.linked.kids.sibs.mem_tail hne)
  rw [w.items, w.root_eq, smnTritems, link_of_lt (by omega), link_of_lt (by omega)]
  omega

theorem smnTrreset_spec (big : Word) (b : Box m₀ root head tail h) (h4 : 4 ≤ height)
    (hmany : height < tail + 1 - head) (hs : Shown m₀ height p m root head tail l r)
    (hl : InWindow p l) :
    ∃ m', smnTrreset big p m = .ok m' ∧ m'.objs = m₀.objs ∧ m'.text = m₀.text ∧
      m'.obY = m₀.obY ∧
      (∀ e, m'.obState e &&& ~~~SELECTED = m₀.obState e &&& ~~~SELECTED) ∧
      m'.obHeight = Function.update m₀.obHeight root
        (r - BitVec.ofNat 16 height * h + BitVec.ofNat 16 (tail + 1 - head) * big) ∧
      ∀ e, ¬ (head ≤ e ∧ e ≤ tail) →
        m'.obState e = m₀.obState e ∧ m'.obFlags e = m₀.obFlags e := by
  have w := hs.window
  have hsize := w.size
  rcases hs.bare with ⟨m₁, hdel, hb⟩
  -- those that are shown are taken out
  rcases shrink_loop b hb.linked (span_nodup p.shead (p.stail + 1)) (fun x hx => by
    have := mem_span.mp hx
    rw [hl]
    omega) hb.heights with ⟨t₁, l₁, hrun₁, hl₁, hmem₁⟩
  have hnil : l₁ = [] := by
    refine List.eq_nil_iff_forall_not_mem.mpr fun x hx => ?_
    rw [hmem₁, hl, mem_span] at hx
    omega
  rw [hnil] at hl₁
  have hhide : hide root = shrink root :=
    funext fun m => funext fun obj => hide_eq_shrink m obj
  -- and all are put back
  rcases putBack_loop big (p := p) (m := { m₁ with
      objs := t₁
      obHeight := Function.update m₀.obHeight root
        (r - BitVec.ofNat 16 (span p.shead (p.stail + 1)).length * h) }) b hl₁
    (span_nodup head (tail + 1)) (fun x hx => ⟨hx, List.not_mem_nil⟩) rfl w.root_eq w.head_eq with
    ⟨t₂, hrun₂, hl₂⟩
  rw [span_length, span_length, show p.stail + 1 - p.shead = height by omega] at hrun₂
  generalize hX : ({ m₁ with
      objs := t₂
      obHeight := Function.update m₀.obHeight root
        (r - BitVec.ofNat 16 height * h + BitVec.ofNat 16 (tail + 1 - head) * big)
      obState := fun e => if e ∈ span head (tail + 1) then m₁.obState e &&& ~~~SELECTED
        else m₁.obState e
      obFlags := fun e => if e ∈ span head (tail + 1) then NONE else m₁.obFlags e
      obY := fun e => if e ∈ span head (tail + 1) then BitVec.ofNat 16 (e - head) * h
        else m₁.obY e } : Menu) = X at hrun₂
  have hrun : smnTrreset big p m = .ok (if p.lastob ≠ (0 : Word) then
      { X with obFlags := Function.update X.obFlags tail LASTOB } else X) := by
    rw [smnTrreset, if_neg (tritems_ne b h4 hmany hs hl), hdel, Outcome.ok_bind, w.root_eq, hhide,
      hrun₁, Outcome.ok_bind, w.head_eq, w.tail_eq, span_length,
      show p.stail + 1 - p.shead = height by omega, hrun₂]
    rfl
  have hobjs : X.objs = m₀.objs := by
    rw [← hX]
    exact hl₂.restored b.kids b.ne_nil
  have htext : X.text = m₀.text := by
    rw [← hX]
    exact hb.text
  have hy : X.obY = m₀.obY := by
    rw [← hX]
    funext e
    by_cases he : e ∈ span head (tail + 1)
    · have := mem_span.mp he
      exact (if_pos he).trans (b.laid e this.1 (by omega)).symm
    · exact (if_neg he).trans (hb.yOut e fun hin => he (mem_span.mpr (by omega)))
  have hstate : ∀ e, X.obState e &&& ~~~SELECTED = m₀.obState e &&& ~~~SELECTED := by
    intro e
    rw [← hX]
    show (if e ∈ span head (tail + 1) then m₁.obState e &&& ~~~SELECTED else m₁.obState e) &&&
      ~~~SELECTED = _
    split_ifs
    · rw [clear_clear, hb.state]
    · exact hb.state e
  have hheight : X.obHeight = Function.update m₀.obHeight root
      (r - BitVec.ofNat 16 height * h + BitVec.ofNat 16 (tail + 1 - head) * big) := by
    rw [← hX]
  have hout : ∀ e, ¬ (head ≤ e ∧ e ≤ tail) →
      X.obState e = m₀.obState e ∧ X.obFlags e = m₀.obFlags e := by
    intro e he
    have hmem : e ∉ span head (tail + 1) := fun hmem => he (by have := mem_span.mp hmem; omega)
    rw [← hX]
    exact ⟨(if_neg hmem).trans (hb.stateOut e he), (if_neg hmem).trans (hb.flagsOut e he)⟩
  refine ⟨_, hrun, ?_⟩
  split_ifs
  · refine ⟨hobjs, htext, hy, hstate, hheight, fun e he => ⟨(hout e he).1, ?_⟩⟩
    have het : e ≠ tail := fun heq => he ⟨heq ▸ b.le, Nat.le_of_eq heq⟩
    exact (Function.update_of_ne het LASTOB X.obFlags).trans (hout e he).2
  · exact ⟨hobjs, htext, hy, hstate, hheight, hout⟩

theorem Shown.inBetween (hs : Shown m₀ height p m root head tail l r) (hl : InWindow p l)
    (hmany : height < tail + 1 - head) : InBetween m₀ height p m root head tail := by
  have w := hs.window
  refine ⟨⟨l, hs.linked.kids, hl⟩, ⟨w.lo, w.hi⟩, ?_, hs.arrows⟩
  rw [Nat.min_eq_left (by omega)]
  exact w.size

theorem Shown.restored (big : Word) (b : Box m₀ root head tail h) (h4 : 4 ≤ height)
    (hmany : height < tail + 1 - head)
    (hs : Shown m₀ height p m root head tail l
      (m₀.obHeight root - BitVec.ofNat 16 (tail + 1 - head - height) * h)) (hl : InWindow p l) :
    ∃ m', smnTrreset big p m = .ok m' ∧ (Restored m₀ m' root head tail ↔
      BitVec.ofNat 16 (tail + 1 - head) * big = BitVec.ofNat 16 (tail + 1 - head) * h) := by
  rcases smnTrreset_spec big b h4 hmany hs hl with
    ⟨m', hrun, hobjs, htext, hy, hstate, hheight, hout⟩
  rw [shrink_add, show tail + 1 - head - height + height = tail + 1 - head by omega] at hheight
  refine ⟨m', hrun, fun hr => ?_,
    fun heq => ⟨hobjs, htext, hy, hstate, ?_, fun e _ he => hout e he⟩⟩
  · have hroot := congrFun hr.height root
    rw [hheight, Function.update_self] at hroot
    have hsum := congrArg (· + BitVec.ofNat 16 (tail + 1 - head) * h) hroot
    rw [add_right_comm, BitVec.sub_add_cancel] at hsum
    exact add_left_cancel hsum
  · rw [hheight, heq, BitVec.sub_add_cancel, Function.update_eq_self]

theorem Shown.works (b : Box m₀ root head tail h) (h4 : 4 ≤ height)
    (hmany : height < tail + 1 - head)
    (heq : BitVec.ofNat 16 (tail + 1 - head) * big = BitVec.ofNat 16 (tail + 1 - head) * h)
    (ds : List Dir)
    (hs : Shown m₀ height p m root head tail l
      (m₀.obHeight root - BitVec.ofNat 16 (tail + 1 - head - height) * h)) (hl : InWindow p l)
    (hc : p.currIstart = p.shead) : Works m₀ height big root head tail ds p m := by
  induction ds generalizing p m l with
  | nil =>
    rcases hs.restored big b h4 hmany hl with ⟨m', hrun, hiff⟩
    exact ⟨hs.inBetween hl hmany, m', hrun, hiff.mpr heq⟩
  | cons d ds ih =>
    have w := hs.window
    have hlo := w.lo
    have hhi := w.hi
    have hsize := w.size
    refine ⟨hs.inBetween hl hmany, fun hd => ?_⟩
    cases d with
    | up =>
      have hne : p.shead ≠ p.head := hd
      rw [w.head_eq] at hne
      rcases smnTrudchange_spec b h4 hs hl (p.currIstart - 1) (by omega) (by omega)
        (by omega) with ⟨p', m', l', hrun, hshead, hcurr, hs', hl'⟩
      refine ⟨p', m', ?_, ih hs' hl' (hcurr.trans hshead.symm)⟩
      rw [scroll, if_neg (by omega)]
      exact hrun
    | down =>
      have hne : p.stail ≠ p.tail := hd
      rw [w.tail_eq] at hne
      rcases smnTrudchange_spec b h4 hs hl (p.currIstart + 1) (by omega) (by omega)
        (by omega) with ⟨p', m', l', hrun, hshead, hcurr, hs', hl'⟩
      exact ⟨p', m', hrun, ih hs' hl' (hcurr.trans hshead.symm)⟩

theorem works_small (b : Box m₀ root head tail h)
    (hfew : tail + 1 - head ≤ height) (ds : List Dir) :
    Works m₀ height big root head tail ds (smnPunew m₀ root istart) m₀ := by
  rcases b.punew istart with ⟨hr, hh, ht, hs, hl, hi, -, -, -⟩
  have hle := b.le
  have hbetween : InBetween m₀ height (smnPunew m₀ root istart) m₀ root head tail := by
    refine ⟨⟨_, b.kids, fun x => ?_⟩, ⟨Nat.le_of_eq hs.symm, Nat.le_of_eq hl⟩, ?_, fun e => ?_⟩
    · rw [mem_span, hs, hl]
      omega
    · rw [hs, hl]
      omega
    · rw [hs, hl, if_neg (fun h => h.2 rfl), if_neg (fun h => h.2 rfl)]
  cases ds with
  | nil =>
    refine ⟨hbetween, _, if_pos ?_, rfl, rfl, rfl, fun e => ?_, rfl, fun e her he => ⟨?_, rfl⟩⟩
    · rw [hr, b.items]
      exact hi
    · show (if _ then m₀.obState e &&& ~~~SELECTED else m₀.obState e) &&& ~~~SELECTED = _
      split_ifs
      · exact clear_clear _
      · rfl
    · refine if_neg fun hin => ?_
      rw [hh, ht, hr] at hin
      rcases hin with hin | hin
      · exact he hin
      · exact her hin
  | cons d ds =>
    -- nothing is hidden
    refine ⟨hbetween, fun hd => ?_⟩
    cases d with
    | up => exact absurd (hs.trans hh.symm) hd
    | down => exact absurd (hl.trans ht.symm) hd

theorem choose_shead {p' : Popup} {m' : Menu} {n : Nat}
    (hrun : choose height p m n = .ok (p', m')) : p'.shead = n := by
  rcases Outcome.ok_of_bind hrun with ⟨m₁, -, hrun⟩
  rcases Outcome.ok_of_bind hrun with ⟨m₂, -, hrun⟩
  rcases Outcome.ok_of_bind hrun with ⟨⟨p₃, m₃⟩, hins, hrun⟩
  cases hrun
  -- the arrows do not change which entries are shown
  rcases Outcome.ok_of_bind hins with ⟨⟨p₄, m₄⟩, hup, hdn⟩
  exact (insertDn_keeps hdn).1.trans (insertUp_keeps hup).1

theorem works_many (b : Box m₀ root head tail h) (h4 : 4 ≤ height)
    (hmany : height < tail + 1 - head) :
    (∃ p m, smnTrset height (smnPunew m₀ root istart) m₀ = .ok (p, m) ∧
      ∀ ds, Works m₀ height big root head tail ds p m) ↔
    GoodStart height root head istart ∧
      BitVec.ofNat 16 (tail + 1 - head) * big = BitVec.ofNat 16 (tail + 1 - head) * h := by
  have hpos := b.head_pos
  constructor
  · intro hworks
    rcases hworks with ⟨p, m, hrun, hworks⟩
    have hgood : GoodStart height root head istart := by
      by_contra hbad
      -- the object before the first entry is no entry
      have hlow := mt (newshead_inside b h4 hmany).mp hbad
      have hge := (newshead_le b istart h4 hmany).2
      rw [smnTrset_punew b, if_neg (by omega), if_neg (by omega)] at hrun
      have hshead := choose_shead hrun
      have hin := (hworks []).1.inside.1
      omega
    rcases smnTrset_spec b h4 hmany hgood with ⟨p', m', l, hrun', -, hshown, hl⟩
    rw [hrun] at hrun'
    cases hrun'
    rcases hshown.restored big b h4 hmany hl with ⟨m₂, hreset, hiff⟩
    rcases (hworks []).2 with ⟨m₃, hreset', hrestored⟩
    rw [hreset] at hreset'
    cases hreset'
    exact ⟨hgood, hiff.mp hrestored⟩
  · intro hcond
    rcases smnTrset_spec b h4 hmany hcond.1 with ⟨p, m, l, hrun, hcurr, hshown, hl⟩
    exact ⟨p, m, hrun, fun ds => hshown.works b h4 hmany hcond.2 ds hl hcurr⟩

/-- A menu is left as it was if all of its entries fit, or if it starts inside and the lines are
    as high as the entries. -/
theorem works_iff (b : Box m₀ root head tail h) (h4 : 4 ≤ height) :
    (∃ p m, smnTrset height (smnPunew m₀ root istart) m₀ = .ok (p, m) ∧
      ∀ ds, Works m₀ height big root head tail ds p m) ↔
    tail + 1 - head ≤ height ∨ (GoodStart height root head istart ∧
      BitVec.ofNat 16 (tail + 1 - head) * big = BitVec.ofNat 16 (tail + 1 - head) * h) := by
  have hle := b.le
  by_cases hmany : height < tail + 1 - head
  · rw [works_many b h4 hmany]
    exact ⟨Or.inr, fun hor => hor.resolve_left (by omega)⟩
  · refine ⟨fun _ => Or.inl (by omega), fun _ => ⟨smnPunew m₀ root istart, m₀, ?_,
      works_small b (by omega)⟩⟩
    rw [smnTrset_punew b, if_pos (by omega)]

end

/-- A menu with five entries of the height `h`. -/
def demoMenu (h : Word) : Menu where
  objs := demoTree 5 (by decide)
  obFlags _ := NONE
  obState _ := NORMAL
  obY e := BitVec.ofNat 16 (e - 1) * h
  obHeight _ := h
  text _ := [32, 32, 32]
  room _ := 4

theorem demoKids : Kids (demoTree 5 (by decide)) 0 [1, 2, 3, 4, 5] :=
  ⟨.inr ⟨by decide, ⟨rfl, rfl, rfl, rfl, rfl, rfl⟩, rfl⟩, by decide, by decide⟩

theorem demoMenu_box (h : Word) : Box (demoMenu h) 0 1 5 h where
  wellFormed := wellFormed_flat (t := demoTree 5 (by decide)) (by decide) demoKids fun c hc =>
    demoTree_leaf 5 _ c fun h0 => absurd (h0 ▸ hc) (by decide)
  reach := Reach.root
  kids := demoKids
  le := by decide
  height _ _ _ := rfl
  laid _ _ _ := rfl
  text _ _ _ := ⟨Nat.le_refl 3, Nat.le_add_left 3 124, Nat.lt_succ_self 3⟩

theorem works_iff_demo :
    ∃ p m, smnTrset 4 (smnPunew (demoMenu 16) 0 1) (demoMenu 16) = .ok (p, m) ∧
      ∀ ds, Works (demoMenu 16) 4 16 0 1 5 ds p m :=
  (works_iff (demoMenu_box 16) (by decide)).mpr (.inr ⟨.inr (by decide), rfl⟩)

/-- Entries that are higher than a line are not left as they were. -/
theorem high_entries_break : Box (demoMenu 18) 0 1 5 18 ∧
    ¬ ∃ p m, smnTrset 4 (smnPunew (demoMenu 18) 0 1) (demoMenu 18) = .ok (p, m) ∧
      ∀ ds, Works (demoMenu 18) 4 16 0 1 5 ds p m := by
  refine ⟨demoMenu_box 18, fun hworks => ?_⟩
  have heq := ((works_many (demoMenu_box 18) (by decide) (by decide)).mp hworks).2
  exact absurd heq (by decide)

end Smn

end Aes

end MagiC
