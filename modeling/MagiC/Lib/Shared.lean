import MagiC.Lib.Slist

/-!
# Lists That Share a Link

Several singly linked lists of the same elements, of which an element can be on
one at a time.

The link of an element is in a cell, and so is the head of each list, so a list
is changed in the same way at its head and behind an element. The walks look
for the cell to be changed: the one that holds the null element at the end, or
the one that holds the element to be taken out. They have no bound of their own
and carry a fuel argument.

## Main definitions

* `push`: Hang an element in front.

## Theorems

* `lists_nodup`: No element is on a list twice.
-/

namespace MagiC

namespace Chains

/-- The head of a list or the link of an element. -/
inductive Cell (ι α : Type) where
  | head (i : ι)
  | elem (a : α)
  deriving DecidableEq

section

variable {ι α : Type} [DecidableEq ι] [DecidableEq α]

/-- The cell at the end of the list that starts in a cell. -/
def findEnd (next : Cell ι α → α) (null : α) : Nat → Cell ι α → Option (Cell ι α)
  | 0, _ => none
  | fuel + 1, p => if next p = null then some p else findEnd next null fuel (.elem (next p))

/-- The cell that holds an element, or nothing if the list ends before. -/
def findRef (next : Cell ι α → α) (null x : α) : Nat → Cell ι α → Option (Option (Cell ι α))
  | 0, _ => none
  | fuel + 1, p =>
    if next p = null then some none
    else if next p = x then some (some p)
    else findRef next null x fuel (.elem (next p))

/-- Hang an element behind the last one. -/
def toLast (fuel : Nat) (next : Cell ι α → α) (null : α) (i : ι) (a : α) :
    Option (Cell ι α → α) :=
  (findEnd next null fuel (.head i)).map fun p =>
    Function.update (Function.update next (.elem a) null) p a

/-- Take an element out, and say whether it was there. -/
def unlink (fuel : Nat) (next : Cell ι α → α) (null : α) (i : ι) (a : α) :
    Option ((Cell ι α → α) × Bool) :=
  (findRef next null a fuel (.head i)).map fun r =>
    match r with
    | none => (next, false)
    | some p => (Function.update next p (next (.elem a)), true)

/-- Hang an element in front. -/
def push (next : Cell ι α → α) (i : ι) (a : α) : Cell ι α → α :=
  Function.update (Function.update next (.elem a) (next (.head i))) (.head i) a

/-- The elements that hang on a cell. -/
def On (next : Cell ι α → α) (null : α) (p : Cell ι α) (l : List α) : Prop :=
  Linked (fun a => next (.elem a)) null (next p) l

/-- The last cell of a list that starts in a cell. -/
def endCell : Cell ι α → List α → Cell ι α
  | p, [] => p
  | _, x :: l => endCell (.elem x) l

/-- What hangs on each head. No element is on two lists. -/
structure Lists (next : Cell ι α → α) (null : α) (L : ι → List α) : Prop where
  on : ∀ i, On next null (.head i) (L i)
  disjoint : ∀ i j a, a ∈ L i → a ∈ L j → i = j

variable {next next' : Cell ι α → α} {null : α} {p : Cell ι α} {l : List α} {L : ι → List α}

omit [DecidableEq ι] [DecidableEq α] in
theorem on_cons (x : α) :
    On next null p (x :: l) ↔ next p = x ∧ x ≠ null ∧ On next null (.elem x) l :=
  linked_cons x

omit [DecidableEq ι] [DecidableEq α] in
theorem on_nil : On next null p [] ↔ next p = null :=
  ⟨fun h => h.1, fun h => ⟨h, List.not_mem_nil⟩⟩

omit [DecidableEq ι] [DecidableEq α] in
theorem on_congr (h : On next null p l) (hp : next' p = next p)
    (hl : ∀ x ∈ l, next' (.elem x) = next (.elem x)) : On next' null p l := by
  rw [On, hp]
  exact linked_congr h hl

omit [DecidableEq ι] [DecidableEq α] in
theorem endCell_cases (p : Cell ι α) (l : List α) :
    endCell p l = p ∧ l = [] ∨ ∃ x ∈ l, endCell p l = .elem x := by
  induction l generalizing p with
  | nil => exact .inl ⟨rfl, rfl⟩
  | cons x l ih =>
    rcases ih (.elem x) with ⟨h, _⟩ | ⟨y, hy, h⟩
    · exact .inr ⟨x, List.mem_cons_self, h⟩
    · exact .inr ⟨y, List.mem_cons_of_mem _ hy, h⟩

omit [DecidableEq ι] [DecidableEq α] in
theorem endCell_concat (p : Cell ι α) (l : List α) (x : α) : endCell p (l ++ [x]) = .elem x := by
  induction l generalizing p with
  | nil => rfl
  | cons y l ih => exact ih (.elem y)

omit [DecidableEq ι] in
theorem findEnd_spec (fuel : Nat) (h : On next null p l) (hfuel : l.length < fuel) :
    findEnd next null fuel p = some (endCell p l) := by
  induction l generalizing p fuel with
  | nil =>
    rcases Nat.exists_eq_succ_of_ne_zero (Nat.ne_of_gt hfuel) with ⟨f, rfl⟩
    exact if_pos (on_nil.mp h)
  | cons x l ih =>
    have hx := (on_cons x).mp h
    rcases Nat.exists_eq_succ_of_ne_zero (Nat.ne_of_gt (Nat.zero_lt_of_lt hfuel)) with ⟨f, rfl⟩
    rw [findEnd, hx.1, if_neg hx.2.1]
    exact ih f hx.2.2 (Nat.lt_of_succ_lt_succ hfuel)

omit [DecidableEq ι] in
theorem findRef_spec (fuel : Nat) (a : α) (u v : List α) (h : On next null p (u ++ a :: v))
    (ha : a ∉ u) (hfuel : u.length < fuel) :
    findRef next null a fuel p = some (some (endCell p u)) := by
  induction u generalizing p fuel with
  | nil =>
    have hx := (on_cons a).mp h
    rcases Nat.exists_eq_succ_of_ne_zero (Nat.ne_of_gt hfuel) with ⟨f, rfl⟩
    rw [findRef, hx.1, if_neg hx.2.1, if_pos rfl]
    rfl
  | cons x u ih =>
    have hx := (on_cons x).mp h
    have hxa : x ≠ a := fun e => ha (e ▸ List.mem_cons_self)
    rcases Nat.exists_eq_succ_of_ne_zero (Nat.ne_of_gt (Nat.zero_lt_of_lt hfuel)) with ⟨f, rfl⟩
    rw [findRef, hx.1, if_neg hx.2.1, if_neg hxa]
    exact ih f hx.2.2 (fun e => ha (List.mem_cons_of_mem _ e)) (Nat.lt_of_succ_lt_succ hfuel)

omit [DecidableEq ι] in
theorem findRef_none (fuel : Nat) (a : α) (h : On next null p l) (ha : a ∉ l)
    (hfuel : l.length < fuel) : findRef next null a fuel p = some none := by
  induction l generalizing p fuel with
  | nil =>
    rcases Nat.exists_eq_succ_of_ne_zero (Nat.ne_of_gt hfuel) with ⟨f, rfl⟩
    exact if_pos (on_nil.mp h)
  | cons x l ih =>
    have hx := (on_cons x).mp h
    have hxa : x ≠ a := fun e => ha (e ▸ List.mem_cons_self)
    rcases Nat.exists_eq_succ_of_ne_zero (Nat.ne_of_gt (Nat.zero_lt_of_lt hfuel)) with ⟨f, rfl⟩
    rw [findRef, hx.1, if_neg hx.2.1, if_neg hxa]
    exact ih f hx.2.2 (fun e => ha (List.mem_cons_of_mem _ e)) (Nat.lt_of_succ_lt_succ hfuel)

omit [DecidableEq ι] [DecidableEq α] in
theorem on_relink (m : List α) (h : On next null p l) (hp : ∀ x ∈ l, p ≠ .elem x)
    (hm : On next' null (endCell p l) m) (hn : ∀ q, q ≠ endCell p l → q = p ∨
      (∃ x ∈ l, q = .elem x) →
      next' q = next q) : On next' null p (l ++ m) := by
  induction l generalizing p with
  | nil => exact hm
  | cons x l ih =>
    have hx := (on_cons x).mp h
    have hnd := List.nodup_cons.mp (linked_nodup h)
    have hxl : ∀ y ∈ l, (Cell.elem x : Cell ι α) ≠ .elem y := fun y hy e =>
      hnd.1 (Cell.elem.inj e ▸ hy)
    refine (on_cons x).mpr ⟨?_, hx.2.1, ih hx.2.2 hxl hm fun q hq hql => hn q hq ?_⟩
    · rw [hn p ?_ (.inl rfl)]
      · exact hx.1
      · -- The last cell is the link of an element, and the list does not start in one of those.
        rcases endCell_cases (.elem x) l with ⟨he, _⟩ | ⟨y, hy, he⟩
        · exact fun e => hp x List.mem_cons_self (e.trans he)
        · exact fun e => hp y (List.mem_cons_of_mem _ hy) (e.trans he)
    · rcases hql with rfl | ⟨y, hy, rfl⟩
      · exact .inr ⟨x, List.mem_cons_self, rfl⟩
      · exact .inr ⟨y, List.mem_cons_of_mem _ hy, rfl⟩

omit [DecidableEq ι] [DecidableEq α] in
theorem lists_nodup (h : Lists next null L) (i : ι) : (L i).Nodup := linked_nodup (h.on i)

omit [DecidableEq ι] [DecidableEq α] in
theorem lists_other (h : Lists next null L) (i j : ι) (hij : j ≠ i)
    (hn : ∀ q : Cell ι α, q ≠ .head i → (∀ x, x ∉ L j → q ≠ .elem x) → next' q = next q) :
    On next' null (.head j) (L j) := by
  refine on_congr (h.on j) (hn _ (fun e => hij (Cell.head.inj e)) fun _ _ e => by cases e) ?_
  intro x hx
  refine hn _ (fun e => by cases e) fun y hy e => ?_
  exact hy (Cell.elem.inj e ▸ hx)

omit [DecidableEq ι] [DecidableEq α] in
theorem on_behind (u v : List α) (h : On next null p (u ++ v)) : On next null (endCell p u) v := by
  induction u generalizing p with
  | nil => exact h
  | cons x u ih => exact ih ((on_cons x).mp h).2.2

theorem on_insert (a : α) (u v : List α) (h : On next null p (u ++ v)) (ha : a ∉ u ++ v)
    (hnull : a ≠ null) (hp : p ≠ .elem a) (hpl : ∀ x ∈ u ++ v, p ≠ .elem x) :
    On (Function.update (Function.update next (endCell p u) a) (.elem a) (next (endCell p u)))
      null p (u ++ a :: v) := by
  induction u generalizing p with
  | nil =>
    refine (on_cons a).mpr ⟨?_, hnull, ?_⟩
    · rw [Function.update_of_ne hp]
      exact Function.update_self _ _ _
    · rw [On, Function.update_self]
      refine linked_congr h fun y hy => ?_
      have hya : (Cell.elem y : Cell ι α) ≠ .elem a := fun e => ha (Cell.elem.inj e ▸ hy)
      rw [Function.update_of_ne hya]
      exact Function.update_of_ne (Ne.symm (hpl y hy)) _ _
  | cons x u ih =>
    have hx := (on_cons x).mp h
    have hxl : ∀ y ∈ u ++ v, (Cell.elem x : Cell ι α) ≠ .elem y := fun y hy e =>
      (List.nodup_cons.mp (linked_nodup h)).1 (Cell.elem.inj e ▸ hy)
    have hxa : (Cell.elem x : Cell ι α) ≠ .elem a := fun e =>
      ha (Cell.elem.inj e ▸ List.mem_cons_self)
    refine (on_cons x).mpr ⟨?_, hx.2.1,
      ih hx.2.2 (fun e => ha (List.mem_cons_of_mem _ e)) hxa hxl⟩
    rw [Function.update_of_ne hp, Function.update_of_ne]
    · exact hx.1
    · rcases endCell_cases (.elem x) u with ⟨he, _⟩ | ⟨y, hy, he⟩
      · exact fun e => hpl x List.mem_cons_self (e.trans he)
      · exact fun e => hpl y (List.mem_cons_of_mem _ (List.mem_append_left _ hy)) (e.trans he)

/-- A new element between two parts of a list. -/
theorem lists_insert (i : ι) (a : α) (u v : List α) (h : Lists next null L)
    (hl : L i = u ++ v) (ha : ∀ j, a ∉ L j) (hnull : a ≠ null) :
    Lists (Function.update (Function.update next (endCell (.head i) u) a) (.elem a)
      (next (endCell (.head i) u))) null (Function.update L i (u ++ a :: v)) := by
  refine ⟨fun j => ?_, fun j k x hj hk => ?_⟩
  · by_cases hji : j = i
    · subst hji
      rw [Function.update_self]
      exact on_insert a u v (hl ▸ h.on j) (hl ▸ ha j) hnull (fun e => by cases e)
        fun _ _ e => by cases e
    · rw [Function.update_of_ne hji]
      refine lists_other h i j hji fun q hq hql => ?_
      rw [Function.update_of_ne (hql a (ha j)), Function.update_of_ne]
      rcases endCell_cases (.head i) u with ⟨he, _⟩ | ⟨y, hy, he⟩
      · rwa [he]
      · rw [he]
        refine hql y fun hyj => hji (h.disjoint j i y hyj ?_)
        rw [hl]
        exact List.mem_append_left _ hy
  · have hmem : ∀ j, x ∈ Function.update L i (u ++ a :: v) j → x ∈ L j ∨ x = a ∧ j = i := by
      intro j hxj
      by_cases hji : j = i
      · subst hji
        rw [Function.update_self, List.mem_append, List.mem_cons] at hxj
        rw [hl, List.mem_append]
        rcases hxj with hxu | rfl | hxv
        · exact .inl (.inl hxu)
        · exact .inr ⟨rfl, rfl⟩
        · exact .inl (.inr hxv)
      · rw [Function.update_of_ne hji] at hxj
        exact .inl hxj
    rcases hmem j hj with hxj | ⟨hxa, hji⟩
    · rcases hmem k hk with hxk | ⟨hxa, _⟩
      · exact h.disjoint j k x hxj hxk
      · exact absurd (hxa ▸ hxj) (ha j)
    · rcases hmem k hk with hxk | ⟨_, hki⟩
      · exact absurd (hxa ▸ hxk) (ha k)
      · exact hji.trans hki.symm

theorem lists_toLast (fuel : Nat) (i : ι) (a : α) (h : Lists next null L) (ha : ∀ j, a ∉ L j)
    (hnull : a ≠ null) (hfuel : (L i).length < fuel) :
    ∃ next', toLast fuel next null i a = some next' ∧
      Lists next' null (Function.update L i (L i ++ [a])) := by
  have hend := findEnd_spec fuel (h.on i) hfuel
  have hlast : next (endCell (.head i) (L i)) = null := by
    have hon := h.on i
    rw [← List.append_nil (L i)] at hon
    exact on_nil.mp (on_behind (L i) [] hon)
  have hne : endCell (.head i) (L i) ≠ .elem a := by
    rcases endCell_cases (.head i) (L i) with ⟨he, _⟩ | ⟨y, hy, he⟩
    · rw [he]
      exact fun e => by cases e
    · rw [he]
      exact fun e => ha i (Cell.elem.inj e ▸ hy)
  have hins := lists_insert i a (L i) [] h (List.append_nil _).symm ha hnull
  rw [hlast, Function.update_comm hne] at hins
  exact ⟨_, by rw [toLast, hend]; rfl, hins⟩

theorem on_cut (a : α) (u v : List α) (h : On next null p (u ++ a :: v))
    (hp : ∀ x ∈ u, p ≠ .elem x) (hv : ∀ y ∈ v, (Cell.elem y : Cell ι α) ≠ endCell p u) :
    On (Function.update next (endCell p u) (next (.elem a))) null p (u ++ v) := by
  have hnd := List.nodup_append.mp (linked_nodup h)
  have hu : On (Function.update next (endCell p u) (next (.elem a))) null (endCell p u) v := by
    rw [On, Function.update_self]
    exact linked_congr ((on_cons a).mp (on_behind u (a :: v) h)).2.2
      fun y hy => Function.update_of_ne (hv y hy) _ _
  induction u generalizing p with
  | nil => exact hu
  | cons x u ih =>
    have hpx := (on_cons x).mp h
    have hxu := List.nodup_cons.mp hnd.1
    have hnd' := List.nodup_append.mp (linked_nodup hpx.2.2)
    refine (on_cons x).mpr ⟨?_, hpx.2.1, ih hpx.2.2
      (fun y hy e => hxu.1 (Cell.elem.inj e ▸ hy)) hv hnd' hu⟩
    rw [Function.update_of_ne]
    · exact hpx.1
    · rcases endCell_cases (.elem x) u with ⟨he, _⟩ | ⟨y, hy, he⟩
      · exact fun e => hp x List.mem_cons_self (e.trans he)
      · exact fun e => hp y (List.mem_cons_of_mem _ hy) (e.trans he)

theorem lists_unlink (fuel : Nat) (i : ι) (a : α) (h : Lists next null L) (ha : a ∈ L i)
    (hfuel : (L i).length < fuel) :
    ∃ next', unlink fuel next null i a = some (next', true) ∧
      Lists next' null (Function.update L i ((L i).erase a)) := by
  rcases List.append_of_mem ha with ⟨u, v, huv⟩
  have hnd := List.nodup_append.mp (huv ▸ lists_nodup h i)
  have hu : a ∉ u := fun e => hnd.2.2 a e a List.mem_cons_self rfl
  have herase : (L i).erase a = u ++ v := by
    rw [huv, List.erase_append_right _ hu, List.erase_cons_head]
  have hlen := congrArg List.length huv
  rw [List.length_append, List.length_cons] at hlen
  have href := findRef_spec fuel a u v (huv ▸ h.on i) hu (by omega)
  refine ⟨Function.update next (endCell (.head i) u) (next (.elem a)),
    by rw [unlink, href]; rfl, fun j => ?_, fun j k x hj hk => ?_⟩
  · by_cases hji : j = i
    · rw [hji, Function.update_self, herase]
      refine on_cut a u v (huv ▸ h.on i) (fun _ _ e => by cases e) fun y hy e => ?_
      rcases endCell_cases (.head i) u with ⟨he, _⟩ | ⟨x, hx, he⟩
      · rw [he] at e
        cases e
      · rw [he] at e
        exact hnd.2.2 x hx y (List.mem_cons_of_mem _ hy) (Cell.elem.inj e).symm
    · rw [Function.update_of_ne hji]
      refine lists_other h i j hji fun q hq hql => Function.update_of_ne ?_ _ _
      rcases endCell_cases (.head i) u with ⟨he, _⟩ | ⟨y, hy, he⟩
      · rwa [he]
      · rw [he]
        refine hql y fun hyj => hji (h.disjoint j i y hyj ?_)
        rw [huv]
        exact List.mem_append_left _ hy
  · have hmem : ∀ j, x ∈ Function.update L i ((L i).erase a) j → x ∈ L j := by
      intro j hxj
      by_cases hji : j = i
      · subst hji
        rw [Function.update_self] at hxj
        exact List.mem_of_mem_erase hxj
      · rwa [Function.update_of_ne hji] at hxj
    exact h.disjoint j k x (hmem j hj) (hmem k hk)

theorem unlink_absent (fuel : Nat) (i : ι) (a : α) (h : Lists next null L) (ha : a ∉ L i)
    (hfuel : (L i).length < fuel) : unlink fuel next null i a = some (next, false) := by
  rw [unlink, findRef_none fuel a (h.on i) ha hfuel]
  rfl

theorem lists_push (i : ι) (a : α) (h : Lists next null L) (ha : ∀ j, a ∉ L j) (hnull : a ≠ null) :
    Lists (push next i a) null (Function.update L i (a :: L i)) := by
  rw [push, Function.update_comm (by simp)]
  exact lists_insert i a [] (L i) h rfl ha hnull

theorem lists_take (i : ι) (a : α) (u v : List α) (h : Lists next null L)
    (hl : L i = u ++ a :: v) :
    Lists (Function.update next (endCell (.head i) u) (next (.elem a))) null
      (Function.update L i (u ++ v)) := by
  have hnd := List.nodup_append.mp (hl ▸ lists_nodup h i)
  have hu : a ∉ u := fun e => hnd.2.2 a e a List.mem_cons_self rfl
  have herase : (L i).erase a = u ++ v := by
    rw [hl, List.erase_append_right _ hu, List.erase_cons_head]
  have hmem : a ∈ L i := by
    rw [hl]
    exact List.mem_append_right _ List.mem_cons_self
  have hlen := congrArg List.length hl
  rw [List.length_append, List.length_cons] at hlen
  rcases lists_unlink ((L i).length + 1) i a h hmem (Nat.lt_succ_self _) with ⟨next', hrun, hlists⟩
  rw [unlink, findRef_spec _ a u v (hl ▸ h.on i) hu (by omega)] at hrun
  cases hrun
  rwa [herase] at hlists

theorem lists_pop (i : ι) (a : α) (l : List α) (h : Lists next null L) (hl : L i = a :: l) :
    Lists (Function.update next (.head i) (next (.elem a))) null (Function.update L i l) :=
  lists_take i a [] l h hl

theorem lists_spill (i j : ι) (hij : i ≠ j) (h : Lists next null L) (hne : L i ≠ []) :
    Lists (Function.update (Function.update (Function.update next (endCell (.head i) (L i))
      (next (.head j))) (.head j) (next (.head i))) (.head i) null) null
      (Function.update (Function.update L j (L i ++ L j)) i []) := by
  rcases endCell_cases (Cell.head i : Cell ι α) (L i) with ⟨_, he⟩ | ⟨y, hy, he⟩
  · exact absurd he hne
  rw [he]
  have hyj : ∀ k, k ≠ i → y ∉ L k := fun k hk hyk => hk (h.disjoint k i y hyk hy)
  refine ⟨fun k => ?_, fun k m x hk hm => ?_⟩
  · by_cases hki : k = i
    · subst hki
      rw [Function.update_self]
      exact on_nil.mpr (Function.update_self _ _ _)
    rw [Function.update_of_ne hki]
    by_cases hkj : k = j
    · subst hkj
      rw [Function.update_self]
      -- First the elements are joined, then they get the other head.
      have hon : On (Function.update next (.elem y) (next (.head k))) null (.head i)
          (L i ++ L k) := by
        refine on_relink (L k) (h.on i) (fun _ _ e => by cases e) ?_ fun q hq _ => ?_
        · rw [he, On, Function.update_self]
          refine linked_congr (h.on k) fun x hx => Function.update_of_ne ?_ _ _
          exact fun e => hyj k hki (Cell.elem.inj e ▸ hx)
        · rw [he] at hq
          exact Function.update_of_ne hq _ _
      rw [On, Function.update_of_ne (by simp)] at hon
      rw [On, Function.update_of_ne (fun e => hki (Cell.head.inj e)), Function.update_self]
      refine linked_congr hon fun x _ => ?_
      rw [Function.update_of_ne (by simp), Function.update_of_ne (by simp)]
    · rw [Function.update_of_ne hkj]
      refine on_congr (h.on k) ?_ fun x hx => ?_
      · rw [Function.update_of_ne (fun e => hki (Cell.head.inj e)),
          Function.update_of_ne (fun e => hkj (Cell.head.inj e)), Function.update_of_ne (by simp)]
      · rw [Function.update_of_ne (by simp), Function.update_of_ne (by simp),
          Function.update_of_ne]
        exact fun e => hyj k hki (Cell.elem.inj e ▸ hx)
  · have hmem : ∀ k, x ∈ Function.update (Function.update L j (L i ++ L j)) i [] k →
        k ≠ i ∧ (x ∈ L k ∨ k = j ∧ x ∈ L i) := by
      intro k hxk
      by_cases hki : k = i
      · rw [hki, Function.update_self] at hxk
        cases hxk
      · rw [Function.update_of_ne hki] at hxk
        by_cases hkj : k = j
        · subst hkj
          rw [Function.update_self, List.mem_append] at hxk
          exact ⟨hki, hxk.symm.imp_right fun e => ⟨rfl, e⟩⟩
        · rw [Function.update_of_ne hkj] at hxk
          exact ⟨hki, .inl hxk⟩
    rcases hmem k hk with ⟨hki, hxk | ⟨hkj, hxi⟩⟩
    · rcases hmem m hm with ⟨_, hxm | ⟨_, hxi⟩⟩
      · exact h.disjoint k m x hxk hxm
      · exact absurd (h.disjoint k i x hxk hxi) hki
    · rcases hmem m hm with ⟨hmi, hxm | ⟨hmj, _⟩⟩
      · exact absurd (h.disjoint m i x hxm hxi) hmi
      · exact hkj.trans hmj.symm

end

end Chains

end MagiC
