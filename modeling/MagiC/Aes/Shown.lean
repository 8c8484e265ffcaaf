import MagiC.Aes.Linked

/-!
# Arrows of a Popup Menu

While a popup menu shows some of its entries, those are in the box, and the arrows are in the
place of two texts. Without the arrows the entries are as they were, but for the links.

## Main definitions

* `Bare`: The entries without the arrows.

## Theorems

* `smnTrudchange_spec`: Other entries are shown.
-/

namespace MagiC

namespace Aes

namespace Smn

open Obj

section

variable {m₀ m m' : Menu} {root head tail height : Nat} {h r : Word} {l : List Nat} {p : Popup}

/-- The entries that are shown. -/
structure Window (height : Nat) (p : Popup) (root head tail : Nat) : Prop where
  root_eq : p.root = root
  head_eq : p.head = head
  tail_eq : p.tail = tail
  lo : head ≤ p.shead
  hi : p.stail ≤ tail
  size : p.stail + 1 = p.shead + height
  items : p.items = (tail : Int) - head + 1

/-- The entries without the arrows: some of them are in the box, and the box has a height. -/
structure Bare (m₀ m : Menu) (root head tail : Nat) (l : List Nat) (r : Word) : Prop where
  linked : Linked m₀.objs m.objs root (span head (tail + 1)) l
  heights : m.obHeight = Function.update m₀.obHeight root r
  text : m.text = m₀.text
  room : m.room = m₀.room
  state : ∀ e, m.obState e &&& ~~~SELECTED = m₀.obState e &&& ~~~SELECTED
  stateOut : ∀ e, ¬ (head ≤ e ∧ e ≤ tail) → m.obState e = m₀.obState e
  flagsOut : ∀ e, ¬ (head ≤ e ∧ e ≤ tail) → m.obFlags e = m₀.obFlags e
  yOut : ∀ e, ¬ (head ≤ e ∧ e ≤ tail) → m.obY e = m₀.obY e

/-- The entries with the arrows. -/
structure Shown (m₀ : Menu) (height : Nat) (p : Popup) (m : Menu) (root head tail : Nat)
    (l : List Nat) (r : Word) : Prop where
  window : Window height p root head tail
  linked : Linked m₀.objs m.objs root (span head (tail + 1)) l
  bare : ∃ m₁, smnTruddelete p m = .ok m₁ ∧ Bare m₀ m₁ root head tail l r
  arrows : ∀ e, m.text e = if e = p.shead ∧ p.shead ≠ head then smnUptext
    else if e = p.stail ∧ p.stail ≠ tail then smnDntext else m₀.text e

theorem vstrcpy_ok {room : Nat} {s : List Byte} (hs : s.length < room) : vstrcpy room s = .ok s :=
  if_pos hs

/-- The menu when the arrow up has been put in. -/
def withUp (p : Popup) (m : Menu) : Menu :=
  if p.shead ≠ p.head then
    { m with
      obState := Function.update m.obState p.shead NORMAL
      text := Function.update m.text p.shead smnUptext }
  else m

/-- The popup when the arrow up has been put in. -/
def keepUp (p : Popup) (m : Menu) : Popup :=
  { p with
    shstate := m.obState p.shead
    shtext := if p.shead ≠ p.head then m.text p.shead else p.shtext }

theorem insertUp_eq (htext : p.shead ≠ p.head → (m.text p.shead).length < 128)
    (hroom : p.shead ≠ p.head → 3 < m.room p.shead) :
    insertUp p m = .ok (keepUp p m, withUp p m) := by
  unfold insertUp keepUp withUp
  by_cases hne : p.shead ≠ p.head
  · simp only [if_pos hne]
    rw [vstrcpy_ok (htext hne), vstrcpy_ok (show smnUptext.length < _ from hroom hne)]
    rfl
  · simp only [if_neg hne]

/-- The menu when the arrow down has been put in. -/
def withDn (p : Popup) (m : Menu) : Menu :=
  if p.stail ≠ p.tail then
    { m with
      obState := Function.update m.obState p.stail NORMAL
      obFlags := if p.lastob ≠ (0 : Word) then Function.update m.obFlags p.stail LASTOB
        else m.obFlags
      text := Function.update m.text p.stail smnDntext }
  else m

/-- The popup when the arrow down has been put in. -/
def keepDn (p : Popup) (m : Menu) : Popup :=
  { p with
    ststate := m.obState p.stail
    sttext := if p.stail ≠ p.tail then m.text p.stail else p.sttext }

theorem insertDn_eq (htext : p.stail ≠ p.tail → (m.text p.stail).length < 128)
    (hroom : p.stail ≠ p.tail → 3 < m.room p.stail) :
    insertDn p m = .ok (keepDn p m, withDn p m) := by
  unfold insertDn keepDn withDn
  by_cases hne : p.stail ≠ p.tail
  · simp only [if_pos hne]
    rw [vstrcpy_ok (htext hne), vstrcpy_ok (show smnDntext.length < _ from hroom hne)]
    rfl
  · simp only [if_neg hne]

theorem insertUp_keeps {p' : Popup} {m' : Menu} (hrun : insertUp p m = .ok (p', m')) :
    p'.shead = p.shead ∧ p'.root = p.root := by
  unfold insertUp at hrun
  dsimp only at hrun
  split_ifs at hrun with hne
  · rcases Outcome.ok_of_bind hrun with ⟨s, -, hrun⟩
    rcases Outcome.ok_of_bind hrun with ⟨u, -, hrun⟩
    cases hrun
    exact ⟨rfl, rfl⟩
  · cases hrun
    exact ⟨rfl, rfl⟩

theorem insertDn_keeps {p' : Popup} {m' : Menu} (hrun : insertDn p m = .ok (p', m')) :
    p'.shead = p.shead ∧ p'.root = p.root := by
  unfold insertDn at hrun
  dsimp only at hrun
  split_ifs at hrun with hne hlast
  · rcases Outcome.ok_of_bind hrun with ⟨s, -, hrun⟩
    rcases Outcome.ok_of_bind hrun with ⟨u, -, hrun⟩
    cases hrun
    exact ⟨rfl, rfl⟩
  · rcases Outcome.ok_of_bind hrun with ⟨s, -, hrun⟩
    rcases Outcome.ok_of_bind hrun with ⟨u, -, hrun⟩
    cases hrun
    exact ⟨rfl, rfl⟩
  · cases hrun
    exact ⟨rfl, rfl⟩

theorem deleteUp_eq (hroom : p.shead ≠ p.head → p.shtext.length < m.room p.shead) :
    deleteUp p m = .ok (if p.shead ≠ p.head then { m with
      text := Function.update m.text p.shead p.shtext
      obState := Function.update m.obState p.shead p.shstate } else m) := by
  unfold deleteUp
  by_cases hne : p.shead ≠ p.head
  · simp only [if_pos hne]
    rw [vstrcpy_ok (hroom hne)]
    rfl
  · simp only [if_neg hne]

theorem deleteDn_eq (hroom : p.stail ≠ p.tail → p.sttext.length < m.room p.stail) :
    deleteDn p m = .ok (if p.stail ≠ p.tail then { m with
      obFlags := Function.update m.obFlags p.stail NONE
      text := Function.update m.text p.stail p.sttext
      obState := Function.update m.obState p.stail p.ststate } else m) := by
  unfold deleteDn
  by_cases hne : p.stail ≠ p.tail
  · simp only [if_pos hne]
    rw [vstrcpy_ok (hroom hne)]
    rfl
  · simp only [if_neg hne]

theorem with_at {α : Type} (f : Nat → α) (a b : α) (hne : p.stail ≠ p.shead) (e : Nat) :
    (if p.stail ≠ p.tail then Function.update
      (if p.shead ≠ p.head then Function.update f p.shead a else f) p.stail b
      else if p.shead ≠ p.head then Function.update f p.shead a else f) e =
    if e = p.shead ∧ p.shead ≠ p.head then a else if e = p.stail ∧ p.stail ≠ p.tail then b
      else f e := by
  by_cases hs : p.shead ≠ p.head <;> by_cases ht : p.stail ≠ p.tail <;>
    by_cases hes : e = p.shead <;> by_cases het : e = p.stail <;>
    simp_all [Function.update]

theorem without_at {α : Type} (f g : Nat → α) (a b : α) (hne : p.stail ≠ p.shead)
    (hg : ∀ e, g e = if e = p.shead ∧ p.shead ≠ p.head then a
      else if e = p.stail ∧ p.stail ≠ p.tail then b else f e) :
    (if p.stail ≠ p.tail then Function.update
      (if p.shead ≠ p.head then Function.update g p.shead (f p.shead) else g) p.stail (f p.stail)
      else if p.shead ≠ p.head then Function.update g p.shead (f p.shead) else g) = f := by
  funext e
  by_cases hs : p.shead ≠ p.head <;> by_cases ht : p.stail ≠ p.tail <;>
    by_cases hes : e = p.shead <;> by_cases het : e = p.stail <;>
    simp_all [Function.update]

/-- The arrows have been put in. -/
structure Arrowed (p : Popup) (m : Menu) (p' : Popup) (m' : Menu) : Prop where
  shead : p'.shead = p.shead
  stail : p'.stail = p.stail
  head : p'.head = p.head
  tail : p'.tail = p.tail
  shtext : p.shead ≠ p.head → p'.shtext = m.text p.shead
  sttext : p.stail ≠ p.tail → p'.sttext = m.text p.stail
  shstate : p'.shstate = m.obState p.shead
  ststate : p'.ststate = m.obState p.stail
  text : ∀ e, m'.text e = if e = p.shead ∧ p.shead ≠ p.head then smnUptext
    else if e = p.stail ∧ p.stail ≠ p.tail then smnDntext else m.text e
  state : ∀ e, m'.obState e = if e = p.shead ∧ p.shead ≠ p.head then NORMAL
    else if e = p.stail ∧ p.stail ≠ p.tail then NORMAL else m.obState e
  objs : m'.objs = m.objs
  height : m'.obHeight = m.obHeight
  y : m'.obY = m.obY
  room : m'.room = m.room
  flags : ∀ e, e ≠ p.stail → m'.obFlags e = m.obFlags e

theorem smnTrudinsert_arrowed (hne : p.stail ≠ p.shead)
    (hs : 3 < m.room p.shead ∧ (m.text p.shead).length < 128)
    (ht : 3 < m.room p.stail ∧ (m.text p.stail).length < 128) :
    ∃ p' m', smnTrudinsert p m = .ok (p', m') ∧ Arrowed p m p' m' ∧ p'.root = p.root ∧
      p'.items = p.items := by
  have hstail : (withUp p m).text p.stail = m.text p.stail ∧
      (withUp p m).obState p.stail = m.obState p.stail ∧ (withUp p m).room = m.room := by
    unfold withUp
    split_ifs
    · exact ⟨Function.update_of_ne hne _ _, Function.update_of_ne hne _ _, rfl⟩
    · exact ⟨rfl, rfl, rfl⟩
  rcases hstail with ⟨htext, hstate, hroom⟩
  have hup : insertUp p m = .ok (keepUp p m, withUp p m) :=
    insertUp_eq (fun _ => hs.2) fun _ => hs.1
  have hdn : insertDn (keepUp p m) (withUp p m) =
      .ok (keepDn (keepUp p m) (withUp p m), withDn (keepUp p m) (withUp p m)) := by
    refine insertDn_eq (fun _ => ?_) fun _ => ?_
    · show ((withUp p m).text p.stail).length < 128
      rw [htext]
      exact ht.2
    · show 3 < (withUp p m).room p.stail
      rw [hroom]
      exact ht.1
  have hrun : smnTrudinsert p m =
      .ok (keepDn (keepUp p m) (withUp p m), withDn (keepUp p m) (withUp p m)) := by
    rw [smnTrudinsert, hup, Outcome.ok_bind]
    exact hdn
  refine ⟨_, _, hrun, ?_, rfl, rfl⟩
  refine ⟨rfl, rfl, rfl, rfl, fun h => if_pos h, fun h => (if_pos h).trans htext, rfl, hstate,
    fun e => ?_, fun e => ?_, ?_, ?_, ?_, ?_, fun e he => ?_⟩
  · rw [← with_at m.text smnUptext smnDntext hne e]
    unfold withDn withUp keepUp
    split_ifs <;> rfl
  · rw [← with_at m.obState NORMAL NORMAL hne e]
    unfold withDn withUp keepUp
    split_ifs <;> rfl
  · unfold withDn withUp
    split_ifs <;> rfl
  · unfold withDn withUp
    split_ifs <;> rfl
  · unfold withDn withUp
    split_ifs <;> rfl
  · unfold withDn withUp
    split_ifs <;> rfl
  · unfold withDn withUp
    split_ifs <;> first | rfl | exact Function.update_of_ne he _ _

theorem smnTruddelete_arrowed {p' : Popup} (ha : Arrowed p m p' m') (hne : p.stail ≠ p.shead)
    (hs : (m.text p.shead).length < m.room p.shead)
    (ht : (m.text p.stail).length < m.room p.stail) :
    ∃ f, smnTruddelete p' m' = .ok { m with obFlags := f } ∧
      ∀ e, e ≠ p.stail → f e = m.obFlags e := by
  have hup := deleteUp_eq (p := p') (m := m') (by
    rw [ha.shead, ha.head]
    intro h
    rw [ha.shtext h, ha.room]
    exact hs)
  rw [smnTruddelete, hup, Outcome.ok_bind]
  generalize hM : (if p'.shead ≠ p'.head then { m' with
    text := Function.update m'.text p'.shead p'.shtext
    obState := Function.update m'.obState p'.shead p'.shstate } else m') = M
  have hroom : M.room = m.room := by
    rw [← hM, ← ha.room]
    split_ifs <;> rfl
  have htext : M.text = if p.shead ≠ p.head then Function.update m'.text p.shead (m.text p.shead)
      else m'.text := by
    rw [← hM, ha.shead, ha.head]
    split_ifs with h
    · rw [ha.shtext h]
    · rfl
  have hstate : M.obState = if p.shead ≠ p.head then
      Function.update m'.obState p.shead (m.obState p.shead) else m'.obState := by
    rw [← hM, ha.shead, ha.head, ha.shstate]
    split_ifs <;> rfl
  have hrest : M.objs = m.objs ∧ M.obHeight = m.obHeight ∧ M.obY = m.obY ∧
      M.obFlags = m'.obFlags := by
    rw [← hM, ← ha.objs, ← ha.height, ← ha.y]
    split_ifs <;> exact ⟨rfl, rfl, rfl, rfl⟩
  rcases hrest with ⟨hobjs, hheight, hy, hflags⟩
  have hdn := deleteDn_eq (p := p') (m := M) (by
    rw [ha.stail, ha.tail, hroom]
    intro h
    rw [ha.sttext h]
    exact ht)
  rw [hdn, ha.stail, ha.tail, ha.ststate]
  refine ⟨if p.stail ≠ p.tail then Function.update m'.obFlags p.stail NONE else m'.obFlags, ?_, ?_⟩
  · have hback := without_at m.text m'.text smnUptext smnDntext hne ha.text
    have hback' := without_at m.obState m'.obState NORMAL NORMAL hne ha.state
    rw [← htext] at hback
    rw [← hstate] at hback'
    congr 1
    split_ifs at hback hback' ⊢ with h
    · rw [ha.sttext h]
      exact Menu.ext hobjs (by rw [hflags]) hback' hy hheight hback hroom
    · exact Menu.ext hobjs hflags hback' hy hheight hback hroom
  · intro e he
    split_ifs
    · rw [Function.update_of_ne he, ha.flags e he]
    · exact ha.flags e he

/-- The arrows are put in, and can be taken out again. -/
theorem smnTrudinsert_spec (b : Box m₀ root head tail h) (h4 : 4 ≤ height)
    (w : Window height p root head tail) (hb : Bare m₀ m root head tail l r) :
    ∃ p' m', smnTrudinsert p m = .ok (p', m') ∧ p'.shead = p.shead ∧ p'.stail = p.stail ∧
      Shown m₀ height p' m' root head tail l r := by
  have hlo := w.lo
  have hhi := w.hi
  have hsize := w.size
  -- the two ends are different entries, and both texts fit
  have hne : p.stail ≠ p.shead := by omega
  rcases b.text p.shead hlo (by omega) with ⟨hs3, hs127, hsroom⟩
  rcases b.text p.stail (by omega) hhi with ⟨ht3, ht127, htroom⟩
  rw [← hb.text, ← hb.room] at hsroom htroom
  rw [← hb.text] at hs3 hs127 ht3 ht127
  rcases smnTrudinsert_arrowed (m := m) hne ⟨by omega, by omega⟩ ⟨by omega, by omega⟩ with
    ⟨p', m', hrun, ha, hroot, hitems⟩
  rcases smnTruddelete_arrowed ha hne hsroom htroom with ⟨f, hdel, hf⟩
  refine ⟨p', m', hrun, ha.shead, ha.stail, ?_, ?_, ⟨_, hdel, ?_⟩, fun e => ?_⟩
  · exact ⟨hroot.trans w.root_eq, ha.head.trans w.head_eq, ha.tail.trans w.tail_eq,
      by rw [ha.shead]; exact hlo, by rw [ha.stail]; exact hhi,
      by rw [ha.shead, ha.stail]; exact hsize, hitems.trans w.items⟩
  · rw [ha.objs]
    exact hb.linked
  · exact ⟨hb.linked, hb.heights, hb.text, hb.room, hb.state, hb.stateOut,
      fun e he => (hf e (by omega)).trans (hb.flagsOut e he), hb.yOut⟩
  · rw [ha.text e, ha.shead, ha.stail, w.head_eq, w.tail_eq, hb.text]

/-- The entries in the box are those that are shown. -/
def InWindow (p : Popup) (l : List Nat) : Prop := ∀ x, x ∈ l ↔ p.shead ≤ x ∧ x ≤ p.stail

theorem Bare.relinked {t : Objs} {l' : List Nat} (hb : Bare m₀ m root head tail l r)
    (hl : Linked m₀.objs t root (span head (tail + 1)) l') :
    Bare m₀ { m with objs := t } root head tail l' r :=
  ⟨hl, hb.heights, hb.text, hb.room, hb.state, hb.stateOut, hb.flagsOut, hb.yOut⟩

/-- Other entries come into the box. -/
theorem shift_spec (b : Box m₀ root head tail h) (w : Window height p root head tail)
    (hb : Bare m₀ m root head tail l r) (hl : InWindow p l) (w0c w04 : Nat) (hw : head ≤ w0c)
    (hw' : w04 + 1 = w0c + height) (hw04 : w04 ≤ tail) (hnear : w0c ≤ p.stail + 1) :
    ∃ m' l', shift p m w0c w04 = .ok m' ∧ Bare m₀ m' root head tail l' r ∧
      ∀ x, x ∈ l' ↔ w0c ≤ x ∧ x ≤ w04 := by
  have hhi := w.hi
  have hsize := w.size
  unfold shift
  rw [w.root_eq]
  by_cases hup : w0c < p.shead
  · -- entries come in before the others, and the last ones go
    rw [if_pos hup]
    rcases relink_loop b hb.linked (span_nodup w0c p.shead) (fun x hx => by
      have := mem_span.mp hx
      refine ⟨mem_span.mpr (by omega), fun hxl => ?_⟩
      have := (hl x).mp hxl
      omega) with ⟨t₁, hrun, hl₁⟩
    rcases unlink_loop (m := { m with objs := t₁ }) b hl₁ (span_nodup (w04 + 1) (p.stail + 1))
      (fun x hx => by
        have := mem_span.mp hx
        rw [List.mem_append, hl, mem_span]
        omega) with ⟨t₂, l₂, hrun₂, hl₂, hmem⟩
    refine ⟨_, l₂, ?_, hb.relinked hl₂, fun x => ?_⟩
    · rw [hrun, Outcome.ok_bind, hrun₂]
    · rw [hmem, List.mem_append, hl, mem_span, mem_span]
      omega
  · rw [if_neg hup]
    rcases unlink_loop b hb.linked (span_nodup p.shead w0c) (fun x hx => by
      have := mem_span.mp hx
      rw [hl]
      omega) with ⟨t₁, l₁, hrun, hl₁, hmem⟩
    rcases relink_loop (m := { m with objs := t₁ }) b hl₁ (span_nodup (p.stail + 1) (w04 + 1))
      (fun x hx => by
        have := mem_span.mp hx
        rw [hmem, hl, mem_span, mem_span]
        omega) with ⟨t₂, hrun₂, hl₂⟩
    refine ⟨_, _, ?_, hb.relinked hl₂, fun x => ?_⟩
    · rw [hrun, Outcome.ok_bind, hrun₂]
    · rw [List.mem_append, hmem, hl, mem_span, mem_span]
      omega

theorem clear_clear (v : Word) : v &&& ~~~SELECTED &&& ~~~SELECTED = v &&& ~~~SELECTED := by
  rw [BitVec.and_assoc, BitVec.and_self]

theorem clean_bare (w : Window height p root head tail) (h4 : 4 ≤ height)
    (hb : Bare m₀ m root head tail l r) : Bare m₀ (clean p m) root head tail l r := by
  have hlo := w.lo
  have hhi := w.hi
  have hsize := w.size
  have hout : ∀ e, ¬ (head ≤ e ∧ e ≤ tail) → ¬ (p.shead ≤ e ∧ e ≤ p.stail) := by
    intro e he
    omega
  refine ⟨hb.linked, hb.heights, hb.text, hb.room, fun e => ?_, fun e he => ?_, fun e he => ?_,
    fun e he => ?_⟩
  · show (if p.shead ≤ e ∧ e ≤ p.stail then m.obState e &&& ~~~SELECTED else m.obState e) &&&
      ~~~SELECTED = _
    split_ifs
    · rw [clear_clear, hb.state]
    · exact hb.state e
  · exact (if_neg (hout e he)).trans (hb.stateOut e he)
  · have hstail : ¬ (e = p.stail ∧ p.lastob ≠ (0 : Word)) := by
      intro heq
      omega
    exact (if_neg hstail).trans ((if_neg (hout e he)).trans (hb.flagsOut e he))
  · exact (if_neg (hout e he)).trans (hb.yOut e he)

theorem smnTrudchange_spec (b : Box m₀ root head tail h) (h4 : 4 ≤ height)
    (hs : Shown m₀ height p m root head tail l r) (hl : InWindow p l) (w0c : Nat)
    (hw : head ≤ w0c) (hw' : w0c + height ≤ tail + 1) (hnear : w0c ≤ p.stail + 1) :
    ∃ p' m' l', smnTrudchange height p m w0c = .ok (p', m') ∧ p'.shead = w0c ∧
      p'.currIstart = w0c ∧ Shown m₀ height p' m' root head tail l' r ∧ InWindow p' l' := by
  have w := hs.window
  rcases hs.bare with ⟨m₁, hdel, hb⟩
  rcases shift_spec b w hb hl w0c (w0c + height - 1) hw (by omega) (by omega) hnear with
    ⟨m₂, l', hshift, hb₂, hl'⟩
  have w' : Window height { p with shead := w0c, stail := w0c + height - 1 } root head tail :=
    ⟨w.root_eq, w.head_eq, w.tail_eq, hw, show w0c + height - 1 ≤ tail by omega,
      show w0c + height - 1 + 1 = w0c + height by omega, w.items⟩
  rcases smnTrudinsert_spec b h4 w' (clean_bare w' h4 hb₂) with
    ⟨p', m', hins, hshead, hstail, hshown⟩
  refine ⟨{ p' with currIstart := w0c }, m', l', ?_, hshead, rfl, ?_, fun x => ?_⟩
  · rw [smnTrudchange, hdel, Outcome.ok_bind, hshift, Outcome.ok_bind]
    simp only
    rw [hins]
    rfl
  · have hw'' := hshown.window
    exact ⟨⟨hw''.root_eq, hw''.head_eq, hw''.tail_eq, hw''.lo, hw''.hi, hw''.size, hw''.items⟩,
      hshown.linked, hshown.bare, hshown.arrows⟩
  · show x ∈ l' ↔ p'.shead ≤ x ∧ x ≤ p'.stail
    rw [hl', hshead, hstail]

end

end Smn

end Aes

end MagiC
