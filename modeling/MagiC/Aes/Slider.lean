import Mathlib.Algebra.Group.Nat.Defs
import Mathlib.Algebra.Order.Group.Int
import Mathlib.Data.Int.DivMod
import Mathlib.Logic.Function.Basic
import Mathlib.Tactic.Common

/-!
# Sliders of List Boxes

How the sliders of a list box show which entries are seen, and what dragging one of them
chooses.

The size of a slider is the visible part of its background, but 12 pixels at least. What is
left of the background is shared out by the number of the first visible entry, and a mouse
coordinate is turned back with one pixel less. The slider of a box with `LBOX_VERT` is upright
and the second one lies, otherwise it is the other way round.

## Main definitions

* `setSliderObj`, `lboxSetAsldr`, `lboxSetBsldr`: The sliders are set.

## Theorems

* `sliders_iff`: When a slider works.
-/

namespace MagiC

namespace Aes

namespace Lbox

def word (i : Int) : Int := Int.bmod i (2 ^ 16)

theorem word_eq {i : Int} (h : -32768 ≤ i) (h' : i ≤ 32767) : word i = i := by
  unfold word
  exact Int.bmod_eq_of_le (by omega) (by omega)

/-- The part of an object that the sliders use. -/
structure Object where
  obX : Int
  obY : Int
  obWidth : Int
  obHeight : Int
  deriving DecidableEq

/-- A field of an object, as part of a pointer to it. -/
inductive Field where
  | obX
  | obY
  | obWidth
  | obHeight

def Object.get (o : Object) : Field → Int
  | .obX => o.obX
  | .obY => o.obY
  | .obWidth => o.obWidth
  | .obHeight => o.obHeight

def Object.set (o : Object) (v : Int) : Field → Object
  | .obX => { o with obX := v }
  | .obY => { o with obY := v }
  | .obWidth => { o with obWidth := v }
  | .obHeight => { o with obHeight := v }

/-- A list box with its items. The numbers of objects are -1 if there is none. -/
structure ListBox (α : Type) where
  /-- Whether `LBOX_VERT` is set in `flags`. -/
  vert : Bool
  tree : Int → Object
  items : List α
  visibleA : Int
  back1 : Int
  slider1 : Int
  firstA : Int
  backH : Int
  sliderH : Int
  firstB : Int
  visibleB : Int
  entriesB : Int

/-- A word is written through a pointer to a field. -/
def store (tree : Int → Object) (p : Int × Field) (v : Int) : Int → Object :=
  Function.update tree p.1 ((tree p.1).set v p.2)

/-- The products are longs. -/
def setSliderObj (tree : Int → Object) (first number visible wh : Int) (obXy obWh : Int × Field) :
    Int → Object :=
  if visible < number then
    let sliderWh := word ((visible * wh).tdiv number)
    let sliderWh := if sliderWh < 12 then 12 else sliderWh
    let sliderXy := word ((word (wh - sliderWh) * first).tdiv (word (number - visible)))
    store (store tree obXy sliderXy) obWh sliderWh
  else store (store tree obXy 0) obWh wh

variable {α : Type}

def lboxCntItems (box : ListBox α) : Int := word box.items.length

/-- The position and the size only, as drawing the slider changes none of the objects. -/
def lboxSetAsldr (box : ListBox α) (first : Int) : ListBox α :=
  let number := lboxCntItems box
  let first := if word (number - box.visibleA) < first then word (number - box.visibleA) else first
  let first := if first < 0 then 0 else first
  { box with
    firstA := first
    tree :=
      if box.slider1 = -1 then box.tree
      else if box.vert then
        setSliderObj box.tree first number box.visibleA (box.tree box.back1).obHeight
          (box.slider1, .obY) (box.slider1, .obHeight)
      else
        setSliderObj box.tree first number box.visibleA (box.tree box.back1).obWidth
          (box.slider1, .obX) (box.slider1, .obWidth) }

def lboxSetBsldr (box : ListBox α) (first : Int) : ListBox α :=
  let number := box.entriesB
  let first := if word (number - box.visibleB) < first then word (number - box.visibleB) else first
  let first := if first < 0 then 0 else first
  { box with
    firstB := first
    tree :=
      if box.sliderH = -1 then box.tree
      else if box.vert then
        setSliderObj box.tree first number box.visibleB (box.tree box.backH).obWidth
          (box.sliderH, .obX) (box.sliderH, .obWidth)
      else
        -- The height is that of the other slider.
        setSliderObj box.tree first number box.visibleB (box.tree box.backH).obHeight
          (box.sliderH, .obY) (box.slider1, .obHeight) }

/-- `ob_max` in `do_slider`. -/
def obMaxA (box : ListBox α) : Int :=
  if box.vert then word ((box.tree box.back1).obHeight - (box.tree box.slider1).obHeight - 1)
  else word ((box.tree box.back1).obWidth - (box.tree box.slider1).obWidth - 1)

/-- `ob_max` in `do_slider_b`. -/
def obMaxB (box : ListBox α) : Int :=
  if box.vert then word ((box.tree box.backH).obWidth - (box.tree box.sliderH).obWidth - 1)
  else word ((box.tree box.backH).obHeight - (box.tree box.sliderH).obHeight - 1)

/-- The first entry that a coordinate stands for, none if it is divided by 0. -/
def realFirst (count visible xy obMin obMax : Int) : Option Int :=
  let xy := word (xy - obMin)
  let xy := if xy < 0 then 0 else xy
  let xy := if obMax < xy then obMax else xy
  if obMax = 0 then none else some (word ((word (count - visible) * xy).tdiv obMax))

/-- The entry that `ascroll_to` is called with. -/
def realAslider (box : ListBox α) (count xy obMin obMax : Int) : Option Int :=
  realFirst count box.visibleA xy obMin obMax

/-- The entry that `bscroll_to` is called with. -/
def realBslider (box : ListBox α) (count xy obMin obMax : Int) : Option Int :=
  realFirst count box.visibleB xy obMin obMax

/-! ## Both sliders -/

/-- One of the sliders. -/
inductive Slider where
  | a
  | b
  deriving DecidableEq

/-- The number of entries that a slider stands for. -/
def Slider.number : Slider → ListBox α → Int
  | .a, box => lboxCntItems box
  | .b, box => box.entriesB

def Slider.visible : Slider → ListBox α → Int
  | .a, box => box.visibleA
  | .b, box => box.visibleB

def Slider.first : Slider → ListBox α → Int
  | .a, box => box.firstA
  | .b, box => box.firstB

def Slider.back : Slider → ListBox α → Int
  | .a, box => box.back1
  | .b, box => box.backH

def Slider.slider : Slider → ListBox α → Int
  | .a, box => box.slider1
  | .b, box => box.sliderH

def Slider.upright : Slider → ListBox α → Bool
  | .a, box => box.vert
  | .b, box => !box.vert

def Slider.pos (s : Slider) (box : ListBox α) : Field := if s.upright box then .obY else .obX

def Slider.len (s : Slider)
    (box : ListBox α) : Field := if s.upright box then .obHeight else .obWidth

def Slider.set : Slider → ListBox α → Int → ListBox α
  | .a => lboxSetAsldr
  | .b => lboxSetBsldr

def Slider.obMax : Slider → ListBox α → Int
  | .a => obMaxA
  | .b => obMaxB

/-- A slider is dragged to a coordinate. -/
def Slider.real : Slider → ListBox α → Int → Int → Option Int
  | .a, box, xy, obMin => realAslider box (lboxCntItems box) xy obMin (obMaxA box)
  | .b, box, xy, obMin => realBslider box box.entriesB xy obMin (obMaxB box)

/-- The length of the background. -/
def Slider.wh (s : Slider) (box : ListBox α) : Int := (box.tree (s.back box)).get (s.len box)

/-- A box with this slider. -/
structure Proper (s : Slider) (box : ListBox α) : Prop where
  exist : s.slider box ≠ -1
  apart : s.slider box ≠ s.back box
  others : s = .b → box.slider1 ≠ box.sliderH ∧ box.slider1 ≠ box.backH
  items : box.items.length ≤ 32767
  number : 1 ≤ s.number box ∧ s.number box ≤ 32767
  visible : 1 ≤ s.visible box ∧ s.visible box ≤ 32767
  wh : 13 ≤ s.wh box ∧ s.wh box ≤ 32767

/-- Setting a slider shows the position. -/
structure Shows (s : Slider) (box : ListBox α) : Prop where
  stored : ∀ f, s.first (s.set box f) = max 0 (min f (s.number box - s.visible box))
  others : ∀ f o, o ≠ s.slider box → (s.set box f).tree o = box.tree o
  inside : ∀ f, 0 ≤ ((s.set box f).tree (s.slider box)).get (s.pos box) ∧
    ((s.set box f).tree (s.slider box)).get (s.pos box) +
      ((s.set box f).tree (s.slider box)).get (s.len box) ≤ s.wh box
  mono : ∀ f g, f ≤ g → ((s.set box f).tree (s.slider box)).get (s.pos box) ≤
    ((s.set box g).tree (s.slider box)).get (s.pos box)
  near : ((s.set box 0).tree (s.slider box)).get (s.pos box) = 0
  far : ((s.set box (s.number box - s.visible box)).tree (s.slider box)).get (s.pos box) +
    ((s.set box (s.number box - s.visible box)).tree (s.slider box)).get (s.len box) = s.wh box

/-- A coordinate chooses an entry of the right range. -/
structure Hits (s : Slider) (box : ListBox α) (obMin xy f : Int) : Prop where
  some : s.real box xy obMin = some f
  nonneg : 0 ≤ f
  le : f ≤ s.number box - s.visible box
  near : xy ≤ obMin → f = 0
  far : obMin + s.obMax box ≤ xy → f = s.number box - s.visible box

/-- The position follows two coordinates of the mouse. -/
def Follows (s : Slider) (box : ListBox α) (obMin xy xy' : Int) : Prop :=
  ∃ f g, Hits s box obMin xy f ∧ Hits s box obMin xy' g ∧ (xy ≤ xy' → f ≤ g)

/-- What a slider is for: it shows the position, and then the position follows the mouse. -/
def Works (s : Slider) (box : ListBox α) (obMin xy xy' : Int) : Prop :=
  Shows s box ∧
    (s.visible box < s.number box → ∀ f, Follows s (s.set box f) obMin xy xy')

/-! ## When it works -/

def sizeOf (number visible wh : Int) : Int :=
  if visible < number then max 12 (visible * wh / number) else wh

/-- The second slider of a horizontal box has its size, and the first one has the same. -/
def Sized (box : ListBox α) : Prop :=
  (box.tree box.sliderH).obHeight = sizeOf box.entriesB box.visibleB (box.tree box.backH).obHeight ∧
    (box.tree box.slider1).obHeight = sizeOf box.entriesB box.visibleB (box.tree box.backH).obHeight

/-- The distance from the background fits into a word, or what it wraps to chooses the first
    entry still. -/
def Near (n t d : Int) : Prop :=
  (-32768 ≤ d ∧ d ≤ 32767) ∨ (d < -32768 ∧ n * (d + 65536) < t)

instance (n t d : Int) : Decidable (Near n t d) := inferInstanceAs (Decidable (_ ∨ _))

/-! ## Sharing out a length -/

/-- A part of a whole, as a part of a total. -/
def share (total part whole : Int) : Int := total * part / whole

section

variable {total part more whole : Int}

theorem share_mono (ht : 0 ≤ total) (hw : 0 < whole) (h : part ≤ more) :
    share total part whole ≤ share total more whole :=
  Int.ediv_le_ediv hw (Int.mul_le_mul_of_nonneg_left h ht)

@[simp]
theorem share_zero : share total 0 whole = 0 := by simp [share]

theorem share_whole (hw : 0 < whole) : share total whole whole = total :=
  Int.mul_ediv_cancel total (by omega)

theorem share_nonneg (ht : 0 ≤ total) (hw : 0 < whole) (hp : 0 ≤ part) :
    0 ≤ share total part whole := by
  have h := share_mono ht hw hp
  rwa [share_zero] at h

theorem share_le (ht : 0 ≤ total) (hw : 0 < whole) (hp : part ≤ whole) :
    share total part whole ≤ total := by
  have h := share_mono ht hw hp
  rwa [share_whole hw] at h

theorem word_share (ht : 0 ≤ total) (ht' : total ≤ 32767) (hw : 0 < whole) (hp : 0 ≤ part)
    (hp' : part ≤ whole) : word ((total * part).tdiv whole) = share total part whole := by
  rw [Int.tdiv_eq_ediv_of_nonneg (Int.mul_nonneg ht hp)]
  have h0 := share_nonneg ht hw hp
  have h1 := share_le ht hw hp'
  unfold share at *
  exact word_eq (by omega) (by omega)

end

/-! ## What is written -/

def posOf (first number visible wh : Int) : Int :=
  if visible < number then share (wh - sizeOf number visible wh) first (number - visible) else 0

section

variable {first number visible wh : Int}

theorem sizeOf_lt (hv : 1 ≤ visible) (hw : 13 ≤ wh) (h : visible < number) :
    12 ≤ sizeOf number visible wh ∧ sizeOf number visible wh < wh := by
  have hd : visible * wh / number < wh := by
    rw [Int.ediv_lt_iff_lt_mul (by omega), Int.mul_comm]
    exact Int.mul_lt_mul_of_pos_left h (by omega)
  unfold sizeOf
  rw [if_pos h]
  omega

theorem setSliderObj_eq (tree : Int → Object) (obXy obWh : Int × Field) (hn : number ≤ 32767)
    (hv : 1 ≤ visible) (hw : 13 ≤ wh) (hw' : wh ≤ 32767) (hf : 0 ≤ first)
    (hf' : first ≤ max 0 (number - visible)) :
    setSliderObj tree first number visible wh obXy obWh =
      store (store tree obXy (posOf first number visible wh)) obWh (sizeOf number visible wh) := by
  by_cases h : visible < number
  · have hs := sizeOf_lt hv hw h
    -- The visible part, as long as it is.
    have hpart : word ((visible * wh).tdiv number) = share wh visible number := by
      rw [Int.mul_comm]
      exact word_share (by omega) hw' (by omega) (by omega) (by omega)
    have hsize : (if share wh visible number < 12 then 12 else share wh visible number) =
        sizeOf number visible wh := by
      unfold sizeOf share
      rw [if_pos h, Int.mul_comm visible]
      omega
    unfold setSliderObj posOf
    simp only [if_pos h, hpart, hsize]
    rw [word_eq (i := wh - _) (by omega) (by omega), word_eq (i := number - _) (by omega)
      (by omega),
      word_share (by omega) (by omega) (by omega) hf (by omega)]
  · unfold setSliderObj posOf sizeOf
    rw [if_neg h, if_neg h, if_neg h]

end

section

variable {s : Slider} {box : ListBox α}

theorem stored_eq (h : Proper s box) (f : Int) :
    (if (if word (s.number box - s.visible box) < f then word (s.number box - s.visible box) else f)
      < 0 then 0
      else if word (s.number box - s.visible box) < f then word (s.number box - s.visible box)
      else f) = max 0 (min f (s.number box - s.visible box)) := by
  have hn := h.number
  have hv := h.visible
  rw [word_eq (by omega) (by omega)]
  omega

theorem first_set (h : Proper s box) (f : Int) :
    s.first (s.set box f) = max 0 (min f (s.number box - s.visible box)) := by
  rw [← stored_eq h f]
  cases s <;> rfl

/-- A position and a size are written for a slider. -/
def written (s : Slider) (box : ListBox α) (p v : Int) : Int → Object :=
  store (store box.tree (s.slider box, s.pos box) p) (s.slider box, s.len box) v

/-- The routines write what they should, but for the second slider of a horizontal box. -/
def Writes (s : Slider) (box : ListBox α) : Prop :=
  ∀ f, (s.set box f).tree = written s box
    (posOf (max 0 (min f (s.number box - s.visible box))) (s.number box) (s.visible box) (s.wh box))
    (sizeOf (s.number box) (s.visible box) (s.wh box))

theorem writes_own (h : Proper s box) (hs : s = .b → box.vert = true) : Writes s box := by
  intro f
  have hv := h.visible
  have hw := h.wh
  have hex := h.exist
  refine Eq.trans ?_ (setSliderObj_eq box.tree _ _ h.number.2 hv.1 hw.1 hw.2 (by omega) (by omega))
  rw [← stored_eq h f]
  cases s with
  | a =>
    refine (if_neg (show ¬box.slider1 = -1 from hex)).trans ?_
    cases hb : box.vert <;>
      simp only [hb, Slider.number, Slider.visible, Slider.slider, Slider.pos, Slider.len,
        Slider.upright, Slider.wh, Slider.back, Object.get, if_true, if_false,
        Bool.false_eq_true] <;> rfl
  | b =>
    refine (if_neg (show ¬box.sliderH = -1 from hex)).trans ?_
    simp only [hs rfl, Slider.number, Slider.visible, Slider.slider, Slider.pos, Slider.len,
      Slider.upright, Slider.wh, Slider.back, Object.get, if_true, if_false, Bool.false_eq_true,
      Bool.not_true]
    rfl

theorem set_lying (h : Proper .b box) (hb : box.vert = false) (f : Int) :
    (lboxSetBsldr box f).tree = store (store box.tree (box.sliderH, .obY)
        (posOf (max 0 (min f (box.entriesB - box.visibleB))) box.entriesB box.visibleB
          (box.tree box.backH).obHeight)) (box.slider1, .obHeight)
      (sizeOf box.entriesB box.visibleB (box.tree box.backH).obHeight) := by
  have hv := h.visible
  have hw := h.wh
  have hex := h.exist
  simp only [Slider.slider, Slider.visible] at hex hv
  simp only [Slider.wh, Slider.back, Slider.len, Slider.upright, hb, Bool.not_false, if_true,
    Object.get] at hw
  refine Eq.trans ?_ (setSliderObj_eq box.tree _ _ h.number.2 hv.1 hw.1 hw.2 (by omega) (by omega))
  have hst := stored_eq h f
  simp only [Slider.number, Slider.visible] at hst
  rw [← hst]
  refine (if_neg hex).trans ?_
  rw [hb, if_neg Bool.false_ne_true]
  rfl

@[simp]
theorem set_upright (f : Int) : s.upright (s.set box f) = s.upright box := by cases s <;> rfl

@[simp]
theorem set_slider (f : Int) : s.slider (s.set box f) = s.slider box := by cases s <;> rfl

@[simp]
theorem set_back (f : Int) : s.back (s.set box f) = s.back box := by cases s <;> rfl

@[simp]
theorem set_number (f : Int) : s.number (s.set box f) = s.number box := by cases s <;> rfl

@[simp]
theorem set_visible (f : Int) : s.visible (s.set box f) = s.visible box := by cases s <;> rfl

theorem written_other {p v o : Int} (h : o ≠ s.slider box) : written s box p v o = box.tree o := by
  unfold written store
  rw [Function.update_of_ne h, Function.update_of_ne h]

theorem written_pos {p v : Int} : (written s box p v (s.slider box)).get (s.pos box) = p := by
  unfold written store Slider.pos Slider.len
  rw [Function.update_self, Function.update_self]
  cases s.upright box <;> rfl

theorem written_len {p v : Int} : (written s box p v (s.slider box)).get (s.len box) = v := by
  unfold written store Slider.pos Slider.len
  rw [Function.update_self]
  cases s.upright box <;> rfl

/-! ## Showing the position -/

theorem posOf_range {n v wh : Int} {g : Int} (hv : 1 ≤ v) (hw : 13 ≤ wh) (hg : 0 ≤ g)
    (hg' : g ≤ max 0 (n - v)) : 0 ≤ posOf g n v wh ∧ posOf g n v wh + sizeOf n v wh ≤ wh := by
  unfold posOf
  by_cases h : v < n
  · have hs := sizeOf_lt hv hw h
    have h0 : 0 ≤ share (wh - sizeOf n v wh) g (n - v) := share_nonneg (by omega) (by omega) hg
    have h1 : share (wh - sizeOf n v wh) g (n - v) ≤ wh - sizeOf n v wh :=
      share_le (by omega) (by omega) (by omega)
    rw [if_pos h]
    omega
  · unfold sizeOf
    rw [if_neg h, if_neg h]
    omega

theorem posOf_mono {n v wh g g' : Int} (hv : 1 ≤ v) (hw : 13 ≤ wh) (hg : g ≤ g') :
    posOf g n v wh ≤ posOf g' n v wh := by
  unfold posOf
  by_cases h : v < n
  · have hs := sizeOf_lt hv hw h
    rw [if_pos h, if_pos h]
    exact share_mono (by omega) (by omega) hg
  · rw [if_neg h, if_neg h]

theorem posOf_far {n v wh : Int} : posOf (max 0 (n - v)) n v wh + sizeOf n v wh = wh := by
  unfold posOf
  by_cases h : v < n
  · rw [if_pos h, max_eq_right (by omega), share_whole (by omega)]
    omega
  · unfold sizeOf
    rw [if_neg h, if_neg h]
    omega

theorem Writes.shows (h : Proper s box) (hw : Writes s box) : Shows s box where
  stored := first_set h
  others f o ho := by rw [hw f, written_other ho]
  inside f := by
    rw [hw f, written_pos, written_len]
    exact posOf_range h.visible.1 h.wh.1 (by omega) (by omega)
  mono f g hfg := by
    rw [hw f, hw g, written_pos, written_pos]
    exact posOf_mono h.visible.1 h.wh.1 (by omega)
  near := by
    rw [hw 0, written_pos, show max 0 (min 0 (s.number box - s.visible box)) = 0 by omega]
    unfold posOf
    rw [share_zero, ite_self]
  far := by
    rw [hw _, written_pos, written_len, min_self]
    exact posOf_far

theorem store_self {tree : Int → Object} {o v : Int} (h : (tree o).obHeight = v) :
    store tree (o, .obHeight) v = tree := by
  subst h
  exact Function.update_eq_self ..

theorem writes_lying (h : Proper .b box) (hb : box.vert = false) (hs : Sized box) :
    Writes .b box := by
  intro f
  have hap := (h.others rfl).1
  refine (set_lying h hb f).trans ?_
  refine (store_self ?_).trans ?_
  · exact (congrArg Object.obHeight (Function.update_of_ne hap _ _)).trans hs.2
  simp only [written, Slider.number, Slider.visible, Slider.wh, Slider.back, Slider.slider,
    Slider.pos, Slider.len, Slider.upright, hb, Bool.not_false, if_true, Object.get]
  refine (store_self ?_).symm
  refine Eq.trans ?_ hs.1
  unfold store
  rw [Function.update_self]
  rfl

theorem sized_of_shows (h : Proper .b box) (hb : box.vert = false) (hs : Shows .b box) :
    Sized box := by
  have hap := (h.others rfl).1
  have hfar := hs.far
  have hoth := congrArg Object.obHeight (hs.others 0 box.slider1 hap)
  simp only [Slider.set, Slider.number, Slider.visible, Slider.wh, Slider.back, Slider.slider,
    Slider.pos, Slider.len, Slider.upright, hb, Bool.not_false, if_true, set_lying h hb,
    min_self] at hfar hoth
  constructor
  · -- Behind the last position there is room for the size.
    unfold store at hfar
    simp only [Function.update_of_ne hap.symm, Function.update_self, Object.get, Object.set] at hfar
    have hp := @posOf_far box.entriesB box.visibleB (box.tree box.backH).obHeight
    omega
  · unfold store at hoth
    rw [Function.update_self] at hoth
    exact hoth.symm

theorem shows_iff (h : Proper s box) :
    Shows s box ↔ (s = .b → box.vert = false → Sized box) := by
  constructor
  · intro hs hb hv
    subst hb
    exact sized_of_shows h hv hs
  · intro hs
    refine Writes.shows h ?_
    by_cases hb : s = .b ∧ box.vert = false
    · rcases hb with ⟨rfl, hv⟩
      exact writes_lying h hv (hs rfl hv)
    · exact writes_own h fun hsb => by
        cases hv : box.vert
        · exact absurd ⟨hsb, hv⟩ hb
        · rfl

theorem Shows.writes (h : Proper s box) (hs : Shows s box) : Writes s box := by
  by_cases hb : s = .b ∧ box.vert = false
  · rcases hb with ⟨rfl, hv⟩
    exact writes_lying h hv (sized_of_shows h hv hs)
  · exact writes_own h fun hsb => by
      cases hv : box.vert
      · exact absurd ⟨hsb, hv⟩ hb
      · rfl

end

/-! ## Following the mouse -/

section

variable {n v xy obMin t : Int}

/-- A distance, cut to a range. -/
def cut (t d : Int) : Int := max 0 (min d t)

theorem realFirst_eq (hn : n ≤ 32767) (hv : 1 ≤ v) (h : v < n) (ht : 0 < t) :
    realFirst n v xy obMin t = some (share (n - v) (cut t (word (xy - obMin))) t) := by
  unfold realFirst cut
  have hc : (if t < (if word (xy - obMin) < 0 then 0 else word (xy - obMin)) then t
      else if word (xy - obMin) < 0 then 0 else word (xy - obMin)) =
      max 0 (min (word (xy - obMin)) t) := by omega
  simp only [hc]
  rw [if_neg (by omega), word_eq (i := n - v) (by omega) (by omega),
    word_share (by omega) (by omega) ht (by omega) (by omega)]

theorem word_below {d : Int} (h : -65536 ≤ d) (h' : d < -32768) : word d = d + 65536 := by
  have he : word d = word (d + 65536) := by
    unfold word
    rw [Int.bmod_def, Int.bmod_def]
    omega
  rw [he, word_eq (by omega) (by omega)]

theorem word_above {d : Int} (h : 32767 < d) (h' : d < 65536) : word d = d - 65536 := by
  have he : word d = word (d - 65536) := by
    unfold word
    rw [Int.bmod_def, Int.bmod_def]
    omega
  rw [he, word_eq (by omega) (by omega)]

theorem share_near {d : Int} (hn : 0 < n) (hd : -65536 ≤ d) (h : Near n t d) :
    share n (cut t (word d)) t = share n (cut t d) t := by
  rcases h with h | ⟨h, hl⟩
  · rw [word_eq h.1 h.2]
  · -- The wrapped distance is too short for another entry.
    rw [word_below hd h, show cut t d = 0 by unfold cut; omega, share_zero]
    unfold share
    refine Int.ediv_eq_zero_of_lt (Int.mul_nonneg (by omega) (by unfold cut; omega)) ?_
    refine lt_of_le_of_lt (Int.mul_le_mul_of_nonneg_left ?_ (by omega)) hl
    unfold cut
    omega

theorem near_of_share {d : Int} (hn : 0 < n) (ht : 0 < t) (ht' : t ≤ 32767) (hd : -65536 ≤ d)
    (hd' : d < 65536) (h0 : d ≤ 0 → share n (cut t (word d)) t = 0)
    (h1 : t ≤ d → share n (cut t (word d)) t = n) : Near n t d := by
  by_cases hlow : -32768 ≤ d
  · refine Or.inl ⟨hlow, ?_⟩
    by_contra hc
    have h := h1 (by omega)
    rw [word_above (by omega) hd', show cut t (d - 65536) = 0 by unfold cut; omega, share_zero] at h
    omega
  · refine Or.inr ⟨by omega, ?_⟩
    have h := h0 (by omega)
    rw [word_below hd (by omega)] at h
    by_contra hc
    -- Otherwise a whole entry comes out.
    have hmul : t ≤ n * cut t (d + 65536) := by
      unfold cut
      rcases le_total (d + 65536) t with hle | hle
      · rw [min_eq_left hle, max_eq_right (by omega)]
        omega
      · rw [min_eq_right hle, max_eq_right (by omega)]
        have h1 := Int.mul_le_mul_of_nonneg_right (show 1 ≤ n by omega) (show 0 ≤ t by omega)
        omega
    have hone : 1 ≤ share n (cut t (d + 65536)) t := Int.le_ediv_of_mul_le ht (by omega)
    omega

theorem realFirst_zero : realFirst n v xy obMin 0 = none := by
  unfold realFirst
  exact if_pos rfl

end

section

variable {s : Slider} {box : ListBox α} {f obMin xy xy' : Int}

theorem set_wh (h : Proper s box) (hs : Writes s box) : s.wh (s.set box f) = s.wh box := by
  unfold Slider.wh Slider.len
  rw [set_back, set_upright, hs f, written_other h.apart.symm]

theorem set_obMax (h : Proper s box) (hs : Writes s box) (hv : s.visible box < s.number box) :
    s.obMax (s.set box f) =
      s.wh box - sizeOf (s.number box) (s.visible box) (s.wh box) - 1 := by
  have hlt := sizeOf_lt h.visible.1 h.wh.1 hv
  have hw := h.wh
  have hmax : s.obMax (s.set box f) = word (s.wh (s.set box f) -
      ((s.set box f).tree (s.slider (s.set box f))).get (s.len (s.set box f)) - 1) := by
    cases s <;> cases hb : box.vert <;>
      simp [Slider.obMax, obMaxA, obMaxB, Slider.set, lboxSetAsldr, lboxSetBsldr, hb, Slider.wh,
        Slider.back, Slider.slider, Slider.len, Slider.upright, Object.get]
  have hlen : s.len (s.set box f) = s.len box := by
    unfold Slider.len
    rw [set_upright]
  rw [hmax, set_wh h hs, set_slider, hlen, hs f, written_len, word_eq (by omega) (by omega)]

theorem real_set (h : Proper s box) (hs : Writes s box) (hv : s.visible box < s.number box) :
    s.real (s.set box f) xy obMin = realFirst (s.number box) (s.visible box) xy obMin
      (s.wh box - sizeOf (s.number box) (s.visible box) (s.wh box) - 1) := by
  rw [← set_obMax h hs hv (f := f)]
  cases s <;> rfl

/-- A coordinate chooses the right entry if there is a way and it is near. -/
theorem hits_iff (h : Proper s box) (hs : Writes s box) (hv : s.visible box < s.number box)
    (hm : -32768 ≤ obMin) (hm' : obMin ≤ 32767) (hx : -32768 ≤ xy) (hx' : xy ≤ 32767) (g : Int) :
    Hits s (s.set box f) obMin xy g ↔
      sizeOf (s.number box) (s.visible box) (s.wh box) ≠ s.wh box - 1 ∧
        Near (s.number box - s.visible box)
          (s.wh box - sizeOf (s.number box) (s.visible box) (s.wh box) - 1) (xy - obMin) ∧
        g = share (s.number box - s.visible box)
          (cut (s.wh box - sizeOf (s.number box) (s.visible box) (s.wh box) - 1) (xy - obMin))
          (s.wh box - sizeOf (s.number box) (s.visible box) (s.wh box) - 1) := by
  have hlt := sizeOf_lt h.visible.1 h.wh.1 hv
  have hw := h.wh
  have hreal := @real_set _ s box f obMin xy h hs hv
  have hmax := set_obMax h hs hv (f := f)
  generalize hT : s.wh box - sizeOf (s.number box) (s.visible box) (s.wh box) - 1 = t at *
  constructor
  · intro hh
    have hne : t ≠ 0 := by
      intro hc
      rw [hc, realFirst_zero, hh.some] at hreal
      cases hreal
    rw [realFirst_eq h.number.2 h.visible.1 hv (by omega), hh.some] at hreal
    have hg := Option.some.inj hreal
    have hnear : Near (s.number box - s.visible box) t (xy - obMin) := by
      refine near_of_share (by omega) (by omega) (by omega) (by omega) (by omega) ?_ ?_
      · intro hd
        rw [← hg]
        exact hh.near (by omega)
      · intro hd
        rw [← hg, hh.far (by omega), set_number, set_visible]
    exact ⟨by omega, hnear, hg.trans (share_near (by omega) (by omega) hnear)⟩
  · rintro ⟨hne, hnear, rfl⟩
    have ht : 0 < t := by omega
    rw [realFirst_eq h.number.2 h.visible.1 hv ht, share_near (by omega) (by omega) hnear] at hreal
    refine ⟨hreal, share_nonneg (by omega) ht (by unfold cut; omega), ?_, fun hn => ?_,
      fun hf => ?_⟩
    · rw [set_number, set_visible]
      exact share_le (by omega) ht (by unfold cut; omega)
    · rw [show cut t (xy - obMin) = 0 by unfold cut; omega, share_zero]
    · rw [show cut t (xy - obMin) = t by unfold cut; omega, share_whole ht, set_number, set_visible]

/-- A slider works if its size is its own and it is not one pixel shorter than its background,
    for the coordinates near to it. -/
theorem sliders_iff (s : Slider) (box : ListBox α) (obMin xy xy' : Int) (h : Proper s box)
    (hm : -32768 ≤ obMin ∧ obMin ≤ 32767) (hx : -32768 ≤ xy ∧ xy ≤ 32767)
    (hx' : -32768 ≤ xy' ∧ xy' ≤ 32767) :
    Works s box obMin xy xy' ↔
      (s = .b → box.vert = false → Sized box) ∧
      (s.visible box < s.number box →
        sizeOf (s.number box) (s.visible box) (s.wh box) ≠ s.wh box - 1 ∧
        Near (s.number box - s.visible box)
          (s.wh box - sizeOf (s.number box) (s.visible box) (s.wh box) - 1) (xy - obMin) ∧
        Near (s.number box - s.visible box)
          (s.wh box - sizeOf (s.number box) (s.visible box) (s.wh box) - 1) (xy' - obMin)) := by
  constructor
  · rintro ⟨hs, hf⟩
    refine ⟨(shows_iff h).mp hs, fun hv => ?_⟩
    have hw := hs.writes h
    rcases hf hv 0 with ⟨f, g, hhit, hhit', _⟩
    have h1 := (hits_iff h hw hv hm.1 hm.2 hx.1 hx.2 f).mp hhit
    have h2 := (hits_iff h hw hv hm.1 hm.2 hx'.1 hx'.2 g).mp hhit'
    exact ⟨h1.1, h1.2.1, h2.2.1⟩
  · rintro ⟨hs, hn⟩
    have hsh := (shows_iff h).mpr hs
    have hw := hsh.writes h
    refine ⟨hsh, fun hv f => ?_⟩
    rcases hn hv with ⟨hne, hxy, hxy'⟩
    have hlt := sizeOf_lt h.visible.1 h.wh.1 hv
    refine ⟨_, _, (hits_iff h hw hv hm.1 hm.2 hx.1 hx.2 _).mpr ⟨hne, hxy, rfl⟩,
      (hits_iff h hw hv hm.1 hm.2 hx'.1 hx'.2 _).mpr ⟨hne, hxy', rfl⟩, fun hle => ?_⟩
    exact share_mono (by omega) (by omega) (by unfold cut; omega)

end

/-- A box with objects 1 and 2 as its slider, and 3 and 4 as the second one. -/
def sampleBox (vert : Bool) (items : List Unit) (back : Int) : ListBox Unit where
  vert := vert
  tree o := if o = 1 ∨ o = 3 then ⟨0, 0, back, back⟩ else ⟨0, 0, 20, 20⟩
  items := items
  visibleA := 1
  back1 := 1
  slider1 := 2
  firstA := 0
  backH := 3
  sliderH := 4
  firstB := 0
  visibleB := 5
  entriesB := 10

theorem sampleBox_proper (s : Slider) (vert : Bool) :
    Proper s (sampleBox vert [(), (), ()] 100) := by
  cases s <;> cases vert <;> refine ⟨?_, ?_, fun _ => ?_, ?_, ?_, ?_, ?_⟩ <;> decide

theorem sliders_iff_three :
    Works .a (sampleBox true [(), (), ()] 100) 10 20 30 ∧
      Works .b (sampleBox true [(), (), ()] 100) 10 20 30 := by
  constructor
  · exact (sliders_iff .a _ 10 20 30 (sampleBox_proper .a true) (by decide) (by decide)
      (by decide)).mpr ⟨fun hb => (by cases hb), by decide⟩
  · exact (sliders_iff .b _ 10 20 30 (sampleBox_proper .b true) (by decide) (by decide)
      (by decide)).mpr ⟨fun _ hv => (by cases hv), by decide⟩

/-- Ten entries, five of them visible, in a horizontal box: the size goes to the other slider.
    Two entries, one of them visible, on a background of 13 pixels: there is no way. -/
theorem sliders_fail :
    (Proper .b (sampleBox false [(), (), ()] 100) ∧
        ¬Works .b (sampleBox false [(), (), ()] 100) 10 20 30) ∧
      Proper .a (sampleBox true [(), ()] 13) ∧ ¬Works .a (sampleBox true [(), ()] 13) 10 20 30 := by
  refine ⟨⟨sampleBox_proper .b false, fun h => ?_⟩, ?_, fun h => ?_⟩
  · exact absurd (h.1.others 0 2 (by decide)) (by decide)
  · refine ⟨?_, ?_, fun _ => ?_, ?_, ?_, ?_, ?_⟩ <;> decide
  · rcases h.2 (by decide) 0 with ⟨f, _, hf, _⟩
    have hnone : Slider.real .a (lboxSetAsldr (sampleBox true [(), ()] 13) 0) 20 10 = none := by
      decide
    exact absurd (hf.some.symm.trans hnone) (Option.some_ne_none f)

end Lbox

end Aes

end MagiC
