import MagiC.Lib.Chain

/-!
# Singly Linked Lists

The elements that hang on a link and end at a null element.

`Linked` is a path to the null element that does not meet it before. The link a
list hangs on determines the list, and the elements of a list are different, so
a list has one link that leads to a given element: the head, or the one of the
element before it. Storing there what the element itself links to takes it out
of the list.

## Main definitions

* `Linked`: The elements that hang on a link.

## Theorems

* `linked_next_inj`: An element is behind one other at most.
-/

namespace MagiC

namespace Chains

section

variable {α : Type} {next next' : α → α} {null a : α} {l m : List α}

/-- The elements `l` hang on `a`. -/
def Linked (next : α → α) (null a : α) (l : List α) : Prop :=
  Path next a l null ∧ null ∉ l

theorem linked_nil (next : α → α) (null : α) : Linked next null null [] :=
  ⟨rfl, List.not_mem_nil⟩

theorem linked_cons (x : α) :
    Linked next null a (x :: l) ↔ a = x ∧ x ≠ null ∧ Linked next null (next x) l := by
  constructor
  · intro h
    have hnull := not_or.mp (mt List.mem_cons.mpr h.2)
    exact ⟨h.1.1, Ne.symm hnull.1, h.1.2, hnull.2⟩
  · intro h
    exact ⟨⟨h.1, h.2.2.1⟩, mt List.mem_cons.mp (not_or.mpr ⟨h.2.1.symm, h.2.2.2⟩)⟩

theorem linked_nodup (h : Linked next null a l) : l.Nodup :=
  path_nodup next a null l h.1 h.2

theorem linked_null (h : Linked next null null l) : l = [] := by
  cases l with
  | nil => rfl
  | cons x xs => exact absurd ((linked_cons x).mp h).1.symm ((linked_cons x).mp h).2.1

theorem linked_head (h : Linked next null a l) (ha : a ≠ null) :
    ∃ m, l = a :: m ∧ Linked next null (next a) m := by
  cases l with
  | nil => exact absurd h.1 ha
  | cons x xs =>
    have hx := (linked_cons x).mp h
    exact ⟨xs, by rw [hx.1], hx.1 ▸ hx.2.2⟩

/-- Links of other elements do not matter. -/
theorem linked_congr (h : Linked next null a l) (hn : ∀ x ∈ l, next' x = next x) :
    Linked next' null a l :=
  ⟨path_congr next next' a null l hn h.1, h.2⟩

theorem linked_unique (hl : Linked next null a l) (hm : Linked next null a m) : l = m :=
  path_unique next a null l m hl.1 hm.1 hl.2 hm.2

theorem linked_push (x : α) (h : Linked next null a l) (hx : x ≠ null) (hxl : next' x = a)
    (hn : ∀ y ∈ l, next' y = next y) : Linked next' null x (x :: l) := by
  refine (linked_cons x).mpr ⟨rfl, hx, ?_⟩
  rw [hxl]
  exact linked_congr h hn

theorem listed_congr {P Q : α → Prop} (h : ∃ l, Linked next null a l ∧ ∀ x, x ∈ l ↔ P x)
    (hn : ∀ x, P x → next' x = next x) (hQ : ∀ x, P x ↔ Q x) :
    ∃ l, Linked next' null a l ∧ ∀ x, x ∈ l ↔ Q x := by
  rcases h with ⟨l, hl, hmem⟩
  exact ⟨l, linked_congr hl fun x hx => hn x ((hmem x).mp hx), fun x => (hmem x).trans (hQ x)⟩

theorem listed_push {P Q : α → Prop} (y : α) (h : ∃ l, Linked next null a l ∧ ∀ x, x ∈ l ↔ P x)
    (hy : y ≠ null) (hya : next' y = a) (hn : ∀ x, P x → next' x = next x)
    (hQ : ∀ x, Q x ↔ x = y ∨ P x) : ∃ l, Linked next' null y l ∧ ∀ x, x ∈ l ↔ Q x := by
  rcases h with ⟨l, hl, hmem⟩
  refine ⟨y :: l, linked_push y hl hy hya fun x hx => hn x ((hmem x).mp hx), fun x => ?_⟩
  rw [List.mem_cons, hmem, hQ]

theorem linked_drop (x : α) (h : Linked next null a (x :: l)) (hn : ∀ y ∈ l, next' y = next y) :
    Linked next' null (next x) l :=
  linked_congr ((linked_cons x).mp h).2.2 hn

theorem linked_cut (p x : α) (h : Linked next null a (l ++ p :: x :: m))
    (hp : next' p = next x) (hn : ∀ y ∈ l ++ m, next' y = next y) :
    Linked next' null a (l ++ p :: m) := by
  have hnull := h.2
  simp only [List.mem_append, List.mem_cons, not_or] at hnull
  refine ⟨?_, ?_⟩
  · -- The elements up to the predecessor, then those behind the one taken out.
    rcases (path_append next a null l (p :: x :: m)).mp h.1 with ⟨c, hl, rfl, _, hm⟩
    refine (path_append next' a null l _).mpr ⟨c, ?_, rfl, ?_⟩
    · exact path_congr next next' a c l (fun y hy => hn y (List.mem_append_left _ hy)) hl
    · rw [hp]
      exact path_congr next next' _ null m (fun y hy => hn y (List.mem_append_right _ hy)) hm
  · simp only [List.mem_append, List.mem_cons, not_or]
    exact ⟨hnull.1, hnull.2.1, hnull.2.2.2⟩

theorem mem_without (x : α) (hnd : (l ++ x :: m).Nodup) (y : α) :
    y ∈ l ++ m ↔ y ∈ l ++ x :: m ∧ y ≠ x := by
  have hx := (List.nodup_cons.mp (List.nodup_middle.mp hnd)).1
  simp only [List.mem_append, List.mem_cons] at hx ⊢
  refine ⟨fun hy => ⟨by tauto, ?_⟩, fun hy => by tauto⟩
  rintro rfl
  exact hx hy

/-- What hung on the element taken out hangs on the one before it. -/
theorem linked_unhook (p x : α) (h : Linked next null a (l ++ p :: x :: m))
    (hp : next' p = next x) (hn : ∀ y, y ≠ p → next' y = next y) :
    Linked next' null a (l ++ p :: m) := by
  have hnd := List.nodup_cons.mp (List.nodup_middle.mp (linked_nodup h))
  refine linked_cut p x h hp fun y hy => hn y ?_
  rintro rfl
  refine hnd.1 ?_
  simp only [List.mem_append, List.mem_cons] at hy ⊢
  tauto

theorem linked_last (x : α) (h : Linked next null a (l ++ [x])) : next x = null := by
  rcases (path_append next a null l [x]).mp h.1 with ⟨c, _, _, hx⟩
  exact hx

theorem linked_chop (p x : α) (h : Linked next null a (l ++ [p, x])) (hp : next' p = null)
    (hn : ∀ y ∈ l, next' y = next y) : Linked next' null a (l ++ [p]) := by
  have hx : next x = null := linked_last x (l := l ++ [p]) (by simpa using h)
  refine linked_cut p x h (hp.trans hx.symm) fun y hy => hn y ?_
  simpa using hy

theorem linked_snoc (x y : α) (h : Linked next null a (l ++ [x])) (hy : y ≠ null)
    (hx : next' x = y) (hlast : next' y = null) (hn : ∀ z ∈ l, next' z = next z) :
    Linked next' null a (l ++ [x, y]) := by
  have hnull := h.2
  simp only [List.mem_append, List.mem_singleton, not_or] at hnull
  rcases (path_append next a null l [x]).mp h.1 with ⟨c, hl, rfl, _⟩
  refine ⟨(path_append next' a null l [c, y]).mpr ⟨c, ?_, rfl, hx, hlast⟩, ?_⟩
  · exact path_congr next next' a c l hn hl
  · simp only [List.mem_append, List.mem_cons, List.not_mem_nil, or_false, not_or]
    exact ⟨hnull.1, hnull.2, hy.symm⟩

theorem linked_behind (x : α) (h : Linked next null a l) (hx : x ∈ l) :
    ∃ u v, l = u ++ x :: v ∧ Linked next null (next x) v := by
  rcases List.append_of_mem hx with ⟨u, v, rfl⟩
  rcases (path_append next a null u (x :: v)).mp h.1 with ⟨c, _, rfl, hv⟩
  exact ⟨u, v, rfl, hv, fun hmem => h.2 (List.mem_append_right _ (List.mem_cons_of_mem _ hmem))⟩

theorem linked_next_ne_head (x : α) (h : Linked next null a l) (hx : x ∈ l) : next x ≠ a := by
  intro hxa
  rcases linked_behind x h hx with ⟨u, v, huv, hv⟩
  -- The list would be one of its own tails.
  have hlen := congrArg List.length (huv.symm.trans (linked_unique h (hxa ▸ hv)))
  simp only [List.length_append, List.length_cons] at hlen
  omega

theorem linked_next_inj (x y : α) (h : Linked next null a l) (hx : x ∈ l) (hy : y ∈ l)
    (hxy : next x = next y) (hnull : next x ≠ null) : x = y := by
  induction l generalizing a with
  | nil => exact absurd hx List.not_mem_nil
  | cons b m ih =>
    have hb := ((linked_cons b).mp h).2.2
    rcases List.mem_cons.mp hx with rfl | hxm
    · rcases List.mem_cons.mp hy with rfl | hym
      · rfl
      · exact absurd hxy.symm (linked_next_ne_head y hb hym)
    · rcases List.mem_cons.mp hy with rfl | hym
      · exact absurd hxy (linked_next_ne_head x hb hxm)
      · exact ih hb hxm hym

end

end Chains

end MagiC
