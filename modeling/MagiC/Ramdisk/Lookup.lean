import MagiC.Lib.Outcome
import MagiC.Ramdisk.Tree

/-!
# Looking for Entries

What a descriptor stands for, and the descriptors that `findfd` finds.

A pointer to an entry denotes the root or a live entry, otherwise a descriptor
with it is of no use.

## Main definitions

* `Denotes`: The entry that a pointer is to.

## Theorems

* `findfd_spec`: What `findfd` finds.
-/

namespace MagiC

namespace Ramdisk

open Outcome

/-! ## Pointers to entries -/

/-- The entry that a pointer is to. -/
def Denotes (s : Ram) (p : Entry) (d : Dirent) : Prop :=
  match p with
  | .root => s.rootDe = d
  | .slot t i => Live s t i d

/-- The entry of a descriptor. -/
def Opened (s : Ram) (dd : Nat) (p : Entry) (d : Dirent) : Prop :=
  (s.fd dd).file = some p ∧ Denotes s p d

/-- Another entry where a pointer is to. -/
def putAt (s : Ram) (p : Entry) (e : Dirent) : Ram :=
  match p with
  | .root => { s with rootDe := e }
  | .slot t i => put s t i e

section

variable {s : Ram} {p : Entry} {d e : Dirent} {dd : Nat}

theorem getEntry_eq (h : Denotes s p d) : getEntry s p = .ok d := by
  cases p with
  | root => exact congrArg Except.ok h
  | slot t i => exact getEntry_slot h.1

theorem setEntry_eq (h : Denotes s p d) : setEntry s p e = .ok (putAt s p e) := by
  cases p with
  | root => rfl
  | slot t i => exact setEntry_slot h.1

theorem fileOf_eq (h : Opened s dd p d) : fileOf s dd = .ok p := by
  simp only [fileOf, h.1]

theorem ddEntry_eq (h : Opened s dd p d) : ddEntry s dd = .ok d := by
  simp only [ddEntry, fileOf_eq h, ok_bind, getEntry_eq h.2]

end

/-! ## findfd -/

/-- What `findfd` returns: a descriptor with the entry, or one that was free. -/
theorem findfd_spec (s : Ram) (q : Option Entry) :
    ∃ fd, (findfd s q).2 = { s with fd := fd } ∧ (∀ k, (s.fd k).file ≠ none → fd k = s.fd k) ∧
      (∀ i, (findfd s q).1 = some i → i < maxFd ∧
        (q ≠ none ∧ (s.fd i).file = q ∧ fd = s.fd ∨
          (s.fd i).file = none ∧ fd i = clearedFd ∧ (q ≠ none → ∀ j < maxFd, (s.fd j).file ≠ q))) ∧
      ((findfd s q).1 = none → fd = s.fd) := by
  unfold findfd
  cases h1 : (if q = none then none
    else (List.range maxFd).find? fun i => decide ((s.fd i).file = q)) with
  | some i =>
    dsimp only
    by_cases hq : q = none
    · rw [if_pos hq] at h1
      cases h1
    rw [if_neg hq] at h1
    have hi := List.find?_some h1
    refine ⟨s.fd, rfl, fun _ _ => rfl, fun k hk => ?_, fun hc => (by cases hc)⟩
    have hik : i = k := Option.some.inj hk
    subst hik
    exact ⟨List.mem_range.mp (List.mem_of_find?_eq_some h1), Or.inl ⟨hq, of_decide_eq_true hi, rfl⟩⟩
  | none =>
    dsimp only
    cases h2 : (List.range maxFd).find? fun i => decide ((s.fd i).file = none) with
    | none => exact ⟨s.fd, rfl, fun _ _ => rfl, fun k hk => (by cases hk), fun _ => rfl⟩
    | some i =>
      have hdec := List.find?_some h2
      have hi : (s.fd i).file = none := of_decide_eq_true hdec
      refine ⟨Function.update s.fd i clearedFd, rfl, fun k hk => ?_, fun k hk => ?_,
        fun hc => (by cases hc)⟩
      · rw [Function.update_of_ne]
        exact fun hki => hk (hki ▸ hi)
      · have hik : i = k := Option.some.inj hk
        subst hik
        refine ⟨List.mem_range.mp (List.mem_of_find?_eq_some h2), Or.inr ⟨hi, ?_, ?_⟩⟩
        · exact Function.update_self ..
        · intro hq j hj hfile
          rw [if_neg hq, List.find?_eq_none] at h1
          exact h1 j (List.mem_range.mpr hj) (decide_eq_true hfile)

end Ramdisk

end MagiC
