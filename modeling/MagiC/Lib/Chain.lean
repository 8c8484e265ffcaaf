import Mathlib.Data.List.Nodup
import Mathlib.Logic.Function.Basic
import Mathlib.Tactic.Common

/-!
# Chains

Elements linked by a successor function, in one direction.

`Path` says which elements lie between one element and another. The successor
function determines it (`path_unique`), so a chain that ends cannot visit an
element twice (`path_nodup`). The links of elements outside of a path do not
matter, and changing the link of its last element moves its end: that is how a
chain is cut and how it is made longer.

`Ends` only says that following the links leads to a stop. It survives every
change of a link to an element that leads to a stop as well, so it holds of
elements that belong to no chain any more.

## Main definitions

* `Path`: The elements from one element up to another.

## Theorems

* `ends_mono`: Changing links to elements that lead to a stop.
-/

namespace MagiC

namespace Chains

section

variable {α : Type}

/-- The elements `l` lead from `a` to `b`. -/
def Path (next : α → α) : α → List α → α → Prop
  | a, [], b => a = b
  | a, x :: xs, b => a = x ∧ Path next (next x) xs b

theorem path_append (next : α → α) (a b : α) (l m : List α) :
    Path next a (l ++ m) b ↔ ∃ c, Path next a l c ∧ Path next c m b := by
  induction l generalizing a with
  | nil =>
    simp only [List.nil_append, Path]
    exact ⟨fun h => ⟨a, rfl, h⟩, fun ⟨c, hc, h⟩ => hc ▸ h⟩
  | cons x xs ih =>
    simp only [List.cons_append, Path, ih]
    constructor
    · rintro ⟨ha, c, hxs, hm⟩
      exact ⟨c, ⟨ha, hxs⟩, hm⟩
    · rintro ⟨c, ⟨ha, hxs⟩, hm⟩
      exact ⟨ha, c, hxs, hm⟩

/-- Links outside of the path do not matter. -/
theorem path_congr (next next' : α → α) (a b : α) (l : List α) (h : ∀ x ∈ l, next' x = next x)
    (hl : Path next a l b) : Path next' a l b := by
  induction l generalizing a with
  | nil => exact hl
  | cons x xs ih =>
    rcases hl with ⟨ha, hxs⟩
    refine ⟨ha, ?_⟩
    rw [h x List.mem_cons_self]
    exact ih (next x) (fun y hy => h y (List.mem_cons_of_mem _ hy)) hxs

theorem path_relink (next next' : α → α) (a b x : α) (l : List α)
    (h : ∀ y ∈ l, next' y = next y) (hl : Path next a (l ++ [x]) b) :
    Path next' a (l ++ [x]) (next' x) := by
  rcases (path_append next a b l [x]).mp hl with ⟨c, hlc, rfl, _⟩
  exact (path_append next' a _ l [c]).mpr ⟨c, path_congr next next' a c l h hlc, rfl, rfl⟩

/-- The successor function determines the path to an element that is not on it. -/
theorem path_unique (next : α → α) (a b : α) (l m : List α) (hl : Path next a l b)
    (hm : Path next a m b) (hbl : b ∉ l) (hbm : b ∉ m) : l = m := by
  induction l generalizing a m with
  | nil =>
    cases m with
    | nil => rfl
    | cons y ys =>
      have hab : a = b := hl
      exact absurd (hm.1.symm.trans hab ▸ List.mem_cons_self) hbm
  | cons x xs ih =>
    rcases hl with ⟨rfl, hxs⟩
    cases m with
    | nil =>
      have hab : a = b := hm
      exact absurd (hab ▸ List.mem_cons_self) hbl
    | cons y ys =>
      rcases hm with ⟨rfl, hys⟩
      rw [ih (next a) ys hxs hys (fun h => hbl (List.mem_cons_of_mem _ h))
        (fun h => hbm (List.mem_cons_of_mem _ h))]

theorem path_next (next : α → α) (a b : α) (l : List α) (hl : Path next a l b) :
    ∀ x ∈ l, next x ∈ l ∨ next x = b := by
  induction l generalizing a with
  | nil => exact fun x hx => absurd hx List.not_mem_nil
  | cons y ys ih =>
    rcases hl with ⟨_, hys⟩
    intro x hx
    rcases List.mem_cons.mp hx with rfl | hx
    · cases ys with
      | nil => exact .inr hys
      | cons z zs => exact .inl (hys.1 ▸ List.mem_cons_of_mem _ List.mem_cons_self)
    · rcases ih (next y) hys x hx with hmem | hb
      · exact .inl (List.mem_cons_of_mem _ hmem)
      · exact .inr hb

theorem path_last (next : α → α) (a b x : α) (l : List α) (hl : Path next a l b) (hb : b ∉ l)
    (hx : x ∈ l) (hxb : next x = b) : ∃ m, l = m ++ [x] := by
  rcases List.append_of_mem hx with ⟨u, v, rfl⟩
  rcases (path_append next a b u (x :: v)).mp hl with ⟨c, _, rfl, hv⟩
  have hbv : b ∉ v := fun h => hb (List.mem_append_right _ (List.mem_cons_of_mem _ h))
  have hnil : v = [] := path_unique next (next c) b v [] hv hxb hbv List.not_mem_nil
  exact ⟨u, by rw [hnil]⟩

/-- A path that ends visits no element twice. -/
theorem path_nodup (next : α → α) (a b : α) (l : List α) (hl : Path next a l b) (hb : b ∉ l) :
    l.Nodup := by
  induction l generalizing a with
  | nil => exact List.nodup_nil
  | cons x xs ih =>
    rcases hl with ⟨rfl, hxs⟩
    have hbxs : b ∉ xs := fun h => hb (List.mem_cons_of_mem _ h)
    refine List.nodup_cons.mpr ⟨fun hmem => ?_, ih (next a) hxs hbxs⟩
    -- The rest behind the second visit would be as long as the one behind the first.
    rcases List.append_of_mem hmem with ⟨u, v, rfl⟩
    rcases (path_append next (next a) b u (a :: v)).mp hxs with ⟨c, _, rfl, hv⟩
    have hsame := path_unique next (next c) b v (u ++ c :: v) hv hxs
      (fun h => hbxs (List.mem_append_right _ (List.mem_cons_of_mem _ h))) hbxs
    have hlen := congrArg List.length hsame
    rw [List.length_append, List.length_cons] at hlen
    omega

/-- Following the links leads to a stop. -/
inductive Ends (next : α → α) (ok stop : α → Prop) : α → Prop where
  | stop (a : α) : stop a → Ends next ok stop a
  | link (a : α) : ok a → Ends next ok stop (next a) → Ends next ok stop a

/-- Links are changed, and where they lead now they lead to a stop. -/
theorem ends_mono (next next' : α → α) (ok stop : α → Prop)
    (h : ∀ a, ok a → next' a = next a ∨ Ends next' ok stop (next' a)) (a : α)
    (ha : Ends next ok stop a) : Ends next' ok stop a := by
  induction ha with
  | stop a hstop => exact Ends.stop a hstop
  | link a hok _ ih =>
    refine Ends.link a hok ?_
    rcases h a hok with heq | hends
    · rw [heq]
      exact ih
    · exact hends

theorem ends_of_path (next : α → α) (ok stop : α → Prop) (a b : α) (l : List α)
    (hl : Path next a l b) (hok : ∀ x ∈ l, ok x) (hb : stop b) :
    Ends next ok stop a ∧ ∀ x ∈ l, Ends next ok stop x := by
  induction l generalizing a with
  | nil =>
    have hab : a = b := hl
    exact ⟨hab ▸ Ends.stop b hb, fun x hx => absurd hx List.not_mem_nil⟩
  | cons x xs ih =>
    rcases hl with ⟨rfl, hxs⟩
    rcases ih (next a) hxs fun y hy => hok y (List.mem_cons_of_mem _ hy) with ⟨hn, hall⟩
    have ha : Ends next ok stop a := Ends.link a (hok a List.mem_cons_self) hn
    exact ⟨ha, List.forall_mem_cons.mpr ⟨ha, hall⟩⟩

end

end Chains

end MagiC
