import MagiC.Lib.Slist
import MagiC.Ramdisk.Code

/-!
# Entries and Blocks

What the entries of a table and the blocks of a file are.

An entry is written by `put`, which leaves the others alone. The blocks of a
file are a list, and they stay one when other blocks are written.

## Main definitions

* `Live`: An entry that is used, behind `.` and `..`.

## Theorems

* `chain_congr`: Other blocks do not matter.
-/

namespace MagiC

namespace Ramdisk

open Chains

/-! ## Entries -/

def entry (s : Ram) (t i : Nat) : Option Dirent := (s.tables t).bind fun es => es[i]?

def size (s : Ram) (t : Nat) : Option Nat := (s.tables t).map List.length

def put (s : Ram) (t i : Nat) (e : Dirent) : Ram :=
  { s with tables := Function.update s.tables t ((s.tables t).map fun es => es.set i e) }

/-- An entry that is used, behind `.` and `..`. -/
def Live (s : Ram) (t i : Nat) (e : Dirent) : Prop :=
  entry s t i = some e ∧ 2 ≤ i ∧ e.faddr ≠ .null

section

variable {s : Ram} {t u i j : Nat} {d e f : Dirent}

theorem entry_put (h : entry s t i = some d) :
    entry (put s t i e) u j = if u = t ∧ j = i then some e else entry s u j := by
  unfold entry put at *
  by_cases hu : u = t
  · subst hu
    cases hs : s.tables u with
    | none => simp [hs] at h
    | some es =>
      have hi : i < es.length := by
        simp only [hs, Option.bind_some] at h
        exact (List.getElem?_eq_some_iff.mp h).1
      by_cases hj : j = i
      · subst hj
        simp [hi]
      · have hij : i ≠ j := fun hc => hj hc.symm
        simp [hj, hij]
  · simp [hu]

theorem size_of_entry (h : entry s t i = some e) : ∃ n, size s t = some n ∧ i < n := by
  unfold entry at h
  unfold size
  cases hs : s.tables t with
  | none => simp [hs] at h
  | some es =>
    simp only [hs, Option.bind_some] at h
    exact ⟨es.length, rfl, (List.getElem?_eq_some_iff.mp h).1⟩

theorem put_put : put (put s t i e) t i f = put s t i f := by
  unfold put
  congr 1
  funext u
  by_cases hu : u = t
  · subst hu
    cases hs : s.tables u <;> simp
  · simp [hu]

theorem getEntry_slot (h : entry s t i = some e) : getEntry s (.slot t i) = .ok e := by
  unfold entry at h
  cases hs : s.tables t with
  | none => simp [hs] at h
  | some es =>
    simp only [hs, Option.bind_some] at h
    simp only [getEntry, hs, h]

theorem setEntry_slot (h : entry s t i = some d) :
    setEntry s (.slot t i) e = .ok (put s t i e) := by
  rcases size_of_entry h with ⟨n, hn, hi⟩
  unfold size at hn
  cases hs : s.tables t with
  | none => simp [hs] at hn
  | some es =>
    simp only [hs, Option.map_some, Option.some.injEq] at hn
    simp only [setEntry, put, hs, hn, hi, if_true, Option.map_some]

end

/-! ## Blocks -/

/-- The link of a file block. -/
def nextOf (files : Nat → Option Fileblock) (a : Nat) : Nat :=
  match files a with
  | none => 0
  | some b => b.next

/-- The blocks of a file. -/
def Chain (files : Nat → Option Fileblock) (a : Nat) (l : List Nat) : Prop :=
  Linked (nextOf files) 0 a l ∧ ∀ x ∈ l, files x ≠ none

theorem chain_congr {files files' : Nat → Option Fileblock} {a : Nat} {l : List Nat}
    (h : Chain files a l) (hx : ∀ x ∈ l, files' x = files x) : Chain files' a l := by
  refine ⟨linked_congr h.1 fun x hm => ?_, fun x hm => ?_⟩
  · unfold nextOf
    rw [hx x hm]
  · rw [hx x hm]
    exact h.2 x hm

end Ramdisk

end MagiC
