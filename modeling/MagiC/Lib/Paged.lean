import Mathlib.Tactic.Common
import Mathlib.Data.List.Basic

/-!
# Arrays Made of Pages

An array that is a list of pages of one size.

A page is a function of the offset, of which only the offsets below the size
count. Element `q` of the array is in page `q / n` at offset `q % n`. Whoever
walks along the list only needs to know what is at the front: the first page,
and the array that the other pages are.

## Main definitions

* `slice`: Some elements in a row.

## Theorems

* `overwrite_get`: The elements after writing.
-/

namespace MagiC

namespace Paged

section

variable {β : Type} [Inhabited β] (n : Nat) (p : Nat → β) (ps qs : List (Nat → β)) (q : Nat)

def get : β :=
  match ps[q / n]? with
  | some p => p (q % n)
  | none => default

theorem get_cons_lt (h : q < n) : get n (p :: ps) q = p q := by
  unfold get
  rw [Nat.div_eq_of_lt h, Nat.mod_eq_of_lt h]
  rfl

theorem get_cons_add (hn : 0 < n) : get n (p :: ps) (n + q) = get n ps q := by
  unfold get
  rw [Nat.add_div_left q hn, Nat.add_mod_left, List.getElem?_cons_succ]

/-- More pages at the end do not matter. -/
theorem get_append (h : q < n * ps.length) : get n (ps ++ qs) q = get n ps q := by
  unfold get
  rw [List.getElem?_append_left (Nat.div_lt_of_lt_mul h)]

end

section

variable {β : Type}

/-- Elements in a row. -/
def slice (f : Nat → β) (a len : Nat) : List β := (List.range len).map fun i => f (a + i)

theorem slice_length (f : Nat → β) (a len : Nat) : (slice f a len).length = len := by
  unfold slice
  rw [List.length_map, List.length_range]

theorem slice_get (f : Nat → β) (a len i : Nat) (h : i < len) :
    (slice f a len)[i]? = some (f (a + i)) := by
  unfold slice
  rw [List.getElem?_map, List.getElem?_range h]
  rfl

/-- A row of elements in two parts. -/
theorem slice_add (f : Nat → β) (a k l : Nat) :
    slice f a (k + l) = slice f a k ++ slice f (a + k) l := by
  unfold slice
  rw [List.range_add, List.map_append, List.map_map]
  congr 1
  refine List.map_congr_left fun i _ => ?_
  show f (a + (k + i)) = f (a + k + i)
  rw [Nat.add_assoc]

theorem slice_congr {f g : Nat → β} {a b len : Nat} (h : ∀ i < len, f (a + i) = g (b + i)) :
    slice f a len = slice g b len :=
  List.map_congr_left fun i hi => h i (List.mem_range.mp hi)

/-- Other elements from a position on, which may be up to the end. -/
def overwrite (l : List β) (a : Nat) (w : List β) : List β := l.take a ++ w ++ l.drop (a + w.length)

theorem overwrite_length (l w : List β) (a : Nat) (h : a ≤ l.length) :
    (overwrite l a w).length = max l.length (a + w.length) := by
  unfold overwrite
  simp only [List.length_append, List.length_take, List.length_drop]
  omega

theorem overwrite_get (l w : List β) (a q : Nat) (h : a ≤ l.length) :
    (overwrite l a w)[q]? = if a ≤ q ∧ q < a + w.length then w[q - a]? else l[q]? := by
  have hlen : (l.take a).length = a := by
    rw [List.length_take]
    omega
  unfold overwrite
  rw [List.append_assoc, List.getElem?_append, hlen]
  by_cases hq : q < a
  · rw [if_pos hq, if_neg (by omega), List.getElem?_take, if_pos hq]
  · rw [if_neg hq, List.getElem?_append]
    by_cases hw : q - a < w.length
    · rw [if_pos hw, if_pos (by omega)]
    · rw [if_neg hw, if_neg (by omega), List.getElem?_drop]
      congr 1
      omega

end

end Paged

end MagiC
