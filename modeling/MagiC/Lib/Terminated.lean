import Mathlib.Logic.Function.Basic
import Mathlib.Data.List.GetD
import Mathlib.Data.List.InsertIdx

/-!
# Terminated Strings

A string in memory ends with the first zero. What is behind that does not belong to it, so
memory holds a string if it agrees with it up to its end.

The memory is a function, and a string is looked for in a bounded part of it.

## Main definitions

* `strlen`, `cstr`: The length of the string in memory, and the string.

## Theorems

* `Holds.congr`: What is behind the string does not count.
-/

namespace MagiC

namespace Terminated

variable {α : Type} [Zero α] [DecidableEq α]

def strlen (bound : Nat) (m : Int → α) : Nat :=
  (List.range bound).findIdx fun i : Nat => decide (m i = 0)

/-- The string. -/
def cstr (bound : Nat) (m : Int → α) : List α :=
  (List.range (strlen bound m)).map fun i : Nat => m i

/-- The memory holds the string. -/
structure Holds (m : Int → α) (t : List α) : Prop where
  eq : ∀ i : Nat, i ≤ t.length → m i = t.getD i 0
  nonzero : 0 ∉ t

section

variable {m m' : Int → α} {t u : List α} {bound p : Nat} {b : α}

omit [DecidableEq α] in
theorem Holds.char (h : Holds m t) {i : Nat} (hi : i < t.length) : m i = t[i] := by
  rw [h.eq i (Nat.le_of_lt hi), List.getD_eq_getElem _ _ hi]

omit [DecidableEq α] in
theorem Holds.nul (h : Holds m t) : m t.length = 0 := by
  rw [h.eq _ (Nat.le_refl _), List.getD_eq_default _ _ (Nat.le_refl _)]

omit [DecidableEq α] in
theorem Holds.ne_zero (h : Holds m t) {i : Nat} (hi : i < t.length) : m i ≠ 0 := by
  rw [h.char hi]
  exact fun hz => h.nonzero (hz ▸ List.getElem_mem hi)

omit [DecidableEq α] in
theorem Holds.zero_iff (h : Holds m t) {i : Nat} (hi : i ≤ t.length) : m i = 0 ↔ i = t.length := by
  constructor
  · intro hz
    by_contra hne
    exact h.ne_zero (Nat.lt_of_le_of_ne hi hne) hz
  · intro heq
    rw [heq]
    exact h.nul

theorem Holds.strlen (h : Holds m t) (hb : t.length < bound) : strlen bound m = t.length := by
  unfold Terminated.strlen
  rw [List.findIdx_eq (by rw [List.length_range]; exact hb)]
  constructor
  · rw [List.getElem_range]
    exact decide_eq_true h.nul
  · intro j hj
    rw [List.getElem_range]
    exact decide_eq_false (h.ne_zero hj)

theorem Holds.cstr (h : Holds m t) (hb : t.length < bound) : cstr bound m = t := by
  unfold Terminated.cstr
  rw [h.strlen hb]
  apply List.ext_getElem
  · rw [List.length_map, List.length_range]
  · intro i _ hi
    rw [List.getElem_map, List.getElem_range]
    exact h.char hi

theorem holds_cstr (hlt : Terminated.strlen bound m < bound) :
    Holds m (Terminated.cstr bound m) := by
  have hlen : (Terminated.cstr bound m).length = Terminated.strlen bound m := by
    rw [Terminated.cstr, List.length_map, List.length_range]
  have hchar : ∀ i, (hi : i < (Terminated.cstr bound m).length) →
      (Terminated.cstr bound m)[i] = m i := by
    intro i hi
    simp only [Terminated.cstr, List.getElem_map, List.getElem_range]
  have hrange : (List.range bound).findIdx (fun i : Nat => decide (m i = 0)) <
    (List.range bound).length := by
    rw [List.length_range]
    exact hlt
  refine ⟨fun i hi => ?_, fun hz => ?_⟩
  · rcases Nat.lt_or_ge i (Terminated.cstr bound m).length with hlt' | hge
    · rw [List.getD_eq_getElem _ _ hlt', hchar i hlt']
    · rw [List.getD_eq_default _ _ hge]
      have hend := List.findIdx_getElem (w := hrange)
      rw [List.getElem_range] at hend
      have heq : i = Terminated.strlen bound m := by omega
      rw [heq]
      exact of_decide_eq_true hend
  · rcases List.mem_iff_getElem.mp hz with ⟨i, hi, hzero⟩
    rw [hchar i hi] at hzero
    rw [hlen] at hi
    have hne := List.not_of_lt_findIdx hi
    rw [List.getElem_range] at hne
    exact of_decide_eq_false hne hzero

omit [DecidableEq α] in
/-- What is behind the string does not count. -/
theorem Holds.congr (h : Holds m t) (heq : ∀ i : Nat, i ≤ t.length → m' i = m i) : Holds m' t :=
  ⟨fun i hi => by rw [heq i hi, h.eq i hi], h.nonzero⟩

omit [DecidableEq α] in
theorem Holds.cut (h : Holds m t) (hp : p ≤ t.length) :
    Holds (Function.update m p 0) (t.take p) := by
  have hlen : (t.take p).length = p := by
    rw [List.length_take, Nat.min_eq_left hp]
  refine ⟨fun i hi => ?_, fun hz => h.nonzero (List.mem_of_mem_take hz)⟩
  rw [hlen] at hi
  rcases Nat.lt_or_ge i p with hlt | hge
  · have hne : (i : Int) ≠ p := by omega
    rw [Function.update_of_ne hne, h.char (Nat.lt_of_lt_of_le hlt hp),
      List.getD_eq_getElem _ _ (by omega), List.getElem_take]
  · have heq : i = p := by omega
    rw [heq, Function.update_self, List.getD_eq_default _ _ (by omega)]

omit [DecidableEq α] in
theorem Holds.put (h : Holds m t) (hp : p < t.length) (hb : b ≠ 0) :
    Holds (Function.update m p b) (t.set p b) := by
  refine ⟨fun i hi => ?_, fun hz => ?_⟩
  · rw [List.length_set] at hi
    by_cases hip : i = p
    · rw [hip, Function.update_self, List.getD_eq_getElem _ _ (by rwa [List.length_set]),
        List.getElem_set_self]
    · have hne : (i : Int) ≠ p := by omega
      rw [Function.update_of_ne hne, h.eq i hi, List.getD_eq_getElem?_getD,
        List.getD_eq_getElem?_getD, List.getElem?_set_ne (Ne.symm hip)]
  · rcases List.mem_or_eq_of_mem_set hz with hmem | heq
    · exact h.nonzero hmem
    · exact hb heq.symm

omit [DecidableEq α] in
/-- A character has been put in. What is behind it has moved. -/
theorem Holds.insert (h : Holds m t) (hp : p ≤ t.length) (hb : b ≠ 0)
    (hlo : ∀ i : Nat, i < p → m' i = m i) (hat : m' p = b)
    (hhi : ∀ i : Nat, p ≤ i → i ≤ t.length → m' (i + 1 : Nat) = m i) :
    Holds m' (t.insertIdx p b) := by
  refine ⟨fun i hi => ?_, fun hz => ?_⟩
  · rw [List.length_insertIdx_of_le_length hp] at hi
    rw [List.getD_eq_getElem?_getD, List.getElem?_insertIdx]
    split
    · rename_i hlt
      rw [hlo i hlt, h.eq i (by omega), List.getD_eq_getElem?_getD]
    · split
      · rename_i heq
        rw [heq, hat, if_pos hp]
        rfl
      · obtain ⟨j, rfl⟩ : ∃ j, i = j + 1 := ⟨i - 1, by omega⟩
        rw [hhi j (by omega) (by omega), h.eq j (by omega), List.getD_eq_getElem?_getD]
        rfl
  · rcases List.eq_or_mem_of_mem_insertIdx hz with heq | hmem
    · exact hb heq.symm
    · exact h.nonzero hmem

omit [DecidableEq α] in
/-- A character has been taken out. What is behind it has moved. -/
theorem Holds.erase (h : Holds m t) (hp : p < t.length)
    (hlo : ∀ i : Nat, i < p → m' i = m i)
    (hhi : ∀ i : Nat, p ≤ i → i < t.length → m' i = m (i + 1 : Nat)) :
    Holds m' (t.eraseIdx p) := by
  refine ⟨fun i hi => ?_, fun hz => h.nonzero (List.mem_of_mem_eraseIdx hz)⟩
  rw [List.length_eraseIdx_of_lt hp] at hi
  rw [List.getD_eq_getElem?_getD, List.getElem?_eraseIdx]
  split
  · rename_i hlt
    rw [hlo i hlt, h.eq i (by omega), List.getD_eq_getElem?_getD]
  · rw [hhi i (by omega) (by omega), h.eq (i + 1) (by omega), List.getD_eq_getElem?_getD]

omit [DecidableEq α] in
/-- The string has been cut off, and filled up with a character. -/
theorem Holds.pad {q : Nat} (h : Holds m t) (hp : p ≤ t.length) (hq : p ≤ q) (hb : b ≠ 0)
    (hlo : ∀ i : Nat, i < p → m' i = m i) (hat : ∀ i : Nat, p ≤ i → i < q → m' i = b)
    (hend : m' q = 0) : Holds m' (t.take p ++ List.replicate (q - p) b) := by
  have hlen : (t.take p).length = p := by
    rw [List.length_take, Nat.min_eq_left hp]
  refine ⟨fun i hi => ?_, fun hz => ?_⟩
  · rw [List.length_append, List.length_replicate, hlen] at hi
    rw [List.getD_eq_getElem?_getD]
    rcases Nat.lt_or_ge i p with hlt | hge
    · rw [List.getElem?_append_left (by omega), List.getElem?_take_of_lt hlt, hlo i hlt,
        h.eq i (by omega), List.getD_eq_getElem?_getD]
    · rw [List.getElem?_append_right (by omega), hlen, List.getElem?_replicate]
      split
      · rw [hat i hge (by omega)]
        rfl
      · have heq : i = q := by omega
        rw [heq, hend]
        rfl
  · rcases List.mem_append.mp hz with hmem | hmem
    · exact h.nonzero (List.mem_of_mem_take hmem)
    · exact hb (List.eq_of_mem_replicate hmem).symm

end

end Terminated

end MagiC
