import Mathlib.Tactic.Common
import Mathlib.Data.List.Infix

/-!
# Lists of Strings in Memory

Items that lie in memory one behind the other, and a list of strings among them: each string
is followed by a zero, and the list by one more.

No string of such a list is empty, or the list would end there.

## Main definitions

* `Strings`: Strings that are not empty and hold no zero.

## Theorems

* `Lies.congr`, `Lies.move`: Memory that is the same, or has been moved.
-/

namespace MagiC

namespace Laid

variable {α : Type}

/-- Items lie in memory from an address on. -/
def Lies (m : Nat → α) : Nat → List α → Prop
  | _, [] => True
  | a, c :: l => m a = c ∧ Lies m (a + 1) l

section

variable {m m' : Nat → α} {a b : Nat} {l l' : List α}

theorem lies_append : Lies m a (l ++ l') ↔ Lies m a l ∧ Lies m (a + l.length) l' := by
  induction l generalizing a with
  | nil => exact ⟨fun h => ⟨trivial, h⟩, And.right⟩
  | cons c l ih =>
    rw [List.cons_append, List.length_cons, Nat.add_comm l.length, ← Nat.add_assoc]
    exact Iff.trans (and_congr_right fun _ => ih) and_assoc.symm

/-- Memory that has been moved. -/
theorem Lies.move (h : Lies m a l) (heq : ∀ i < l.length, m' (b + i) = m (a + i)) :
    Lies m' b l := by
  induction l generalizing a b with
  | nil => trivial
  | cons c l ih =>
    refine ⟨(heq 0 (Nat.zero_lt_succ _)).trans h.1, ih h.2 fun i hi => ?_⟩
    rw [Nat.add_right_comm, Nat.add_right_comm a]
    exact heq (i + 1) (Nat.succ_lt_succ hi)

theorem Lies.congr (h : Lies m a l) (heq : ∀ i, a ≤ i → i < a + l.length → m' i = m i) :
    Lies m' a l :=
  h.move fun i hi => heq (a + i) (Nat.le_add_right a i) (Nat.add_lt_add_left hi a)

theorem Lies.get (h : Lies m a l) {i : Nat} (hi : i < l.length) : some (m (a + i)) = l[i]? := by
  induction l generalizing a i with
  | nil => exact absurd hi (Nat.not_lt_zero i)
  | cons c l ih =>
    cases i with
    | zero => exact congrArg some h.1
    | succ i =>
      rw [List.getElem?_cons_succ, ← ih h.2 (Nat.lt_of_succ_lt_succ hi), Nat.add_assoc,
        Nat.add_comm 1]

end

section

variable [Zero α] {m : Nat → α} {a b : Nat} {s : List α} {L : List (List α)}

/-- Strings, each with a zero behind it. -/
def body (L : List (List α)) : List α := L.flatMap (· ++ [0])

/-- Strings, and the zero behind them. -/
def encode (L : List (List α)) : List α := body L ++ [0]

/-- Strings that are not empty and hold no zero. -/
def Strings (L : List (List α)) : Prop := ∀ s ∈ L, s ≠ [] ∧ 0 ∉ s

/-- Two zeros in a row. -/
def Pair (m : Nat → α) (a : Nat) : Prop := m a = 0 ∧ m (a + 1) = 0

theorem body_cons : body (s :: L) = s ++ 0 :: body L := by
  unfold body
  rw [List.flatMap_cons, List.append_assoc]
  rfl

theorem body_append {L' : List (List α)} : body (L ++ L') = body L ++ body L' :=
  List.flatMap_append

theorem encode_cons : encode (s :: L) = s ++ 0 :: encode L := by
  unfold encode
  rw [body_cons, List.append_assoc]
  rfl

theorem encode_append {L' : List (List α)} : encode (L ++ L') = body L ++ encode L' := by
  unfold encode
  rw [body_append, List.append_assoc]

theorem encode_length : (encode L).length = (body L).length + 1 := List.length_append

theorem length_encode_cons : (encode (s :: L)).length = s.length + 1 + (encode L).length := by
  rw [encode_cons, List.length_append, List.length_cons]
  omega

theorem Strings.tail (h : Strings (s :: L)) : Strings L :=
  fun t ht => h t (List.mem_cons_of_mem s ht)

theorem Strings.head (h : Strings (s :: L)) : s ≠ [] ∧ 0 ∉ s := h s List.mem_cons_self

theorem Strings.right {L' : List (List α)} (h : Strings (L ++ L')) : Strings L' :=
  fun t ht => h t (List.mem_append_right L ht)

/-- What is behind the zero of a string: the first character of the next one, or the zero at
the end. -/
theorem Strings.next (h : Strings L) (hl : Lies m a (encode L)) : m a = 0 ↔ L = [] := by
  cases L with
  | nil => exact iff_of_true hl.1 rfl
  | cons s L =>
    obtain ⟨hne, h0⟩ := h.head
    obtain ⟨c, s, rfl⟩ := List.exists_cons_of_ne_nil hne
    rw [encode_cons] at hl
    refine iff_of_false (fun hz => h0 ?_) (List.cons_ne_nil _ _)
    rw [← hz, hl.1]
    exact List.mem_cons_self

theorem lies_string_unique {t : List α} (hs : Lies m a (s ++ [0])) (ht : Lies m a (t ++ [0]))
    (h0 : 0 ∉ s) (h0' : 0 ∉ t) : s = t := by
  induction s generalizing a t with
  | nil =>
    cases t with
    | nil => rfl
    | cons d t => exact absurd (hs.1.symm.trans ht.1 ▸ List.mem_cons_self) h0'
  | cons c s ih =>
    cases t with
    | nil => exact absurd (ht.1.symm.trans hs.1 ▸ List.mem_cons_self) h0
    | cons d t =>
      rw [hs.1.symm.trans ht.1, ih hs.2 ht.2 (fun h => h0 (List.mem_cons_of_mem c h))
        fun h => h0' (List.mem_cons_of_mem d h)]

theorem lies_nul (hl : Lies m a (encode (s :: L))) :
    Lies m a (s ++ [0]) ∧ m (a + s.length) = 0 ∧ Lies m (a + s.length + 1) (encode L) := by
  rw [encode_cons, lies_append] at hl
  exact ⟨lies_append.mpr ⟨hl.1, hl.2.1, trivial⟩, hl.2.1, hl.2.2⟩

theorem encode_unique {L' : List (List α)} (hL : Strings L) (hL' : Strings L')
    (hl : Lies m a (encode L)) (hl' : Lies m a (encode L')) : L = L' := by
  induction L generalizing a L' with
  | nil => exact ((hL'.next hl').mp ((hL.next hl).mpr rfl)).symm
  | cons s L ih =>
    cases L' with
    | nil => exact absurd ((hL.next hl).mp ((hL'.next hl').mpr rfl)) (List.cons_ne_nil s L)
    | cons t L' =>
      obtain ⟨hs, _, hrest⟩ := lies_nul hl
      obtain ⟨ht, _, hrest'⟩ := lies_nul hl'
      obtain rfl := lies_string_unique hs ht hL.head.2 hL'.head.2
      rw [ih hL.tail hL'.tail hrest hrest']

end

end Laid

end MagiC
