import Mathlib.Data.Set.Lattice
import MagiC.Lib.Memory

/-!
# Patches

Memory that is changed in many places, none of which touches another.

The places are counted from a base, so that they can be compared as numbers. A
loop that changes one place after another, and looks at nothing but the place it
is about to change and at what no place contains, does the same as writing all
of its patches, and afterwards every place holds what was written to it.

## Main definitions

* `patch`: All of the patches are written.

## Theorems

* `sweep`: A loop over places that are apart writes all of their patches, or fails.
-/

namespace MagiC

namespace Memory

/-- Bytes for a place. -/
structure Patch (α : Type) where
  place : Nat
  bytes : List α

section

variable {w : Nat} {α : Type} {b : BitVec w} {m m' m₀ : BitVec w → α} {j : Nat}
  {p q : Patch α} {l : List (Patch α)}

/-- A byte of the place. -/
def Patch.Covers (p : Patch α) (j : Nat) : Prop :=
  p.place ≤ j ∧ j < p.place + p.bytes.length

/-- All of the patches are written. -/
def patch (b : BitVec w) (m : BitVec w → α) (l : List (Patch α)) : BitVec w → α :=
  l.foldl (fun m p => write m (b + BitVec.ofNat w p.place) p.bytes) m

@[simp] theorem patch_nil : patch b m [] = m := rfl

@[simp]
theorem patch_cons : patch b m (p :: l) =
    patch b (write m (b + BitVec.ofNat w p.place) p.bytes) l := rfl

theorem patch_append (l k : List (Patch α)) : patch b m (l ++ k) = patch b (patch b m l) k :=
  List.foldl_append

theorem toNat_sub_place {i k : Nat} (h : i ≤ k) (hk : k < 2 ^ w) :
    (b + BitVec.ofNat w k - (b + BitVec.ofNat w i)).toNat = k - i := by
  rw [add_sub_add_left_eq_sub, BitVec.toNat_sub, BitVec.toNat_ofNat, BitVec.toNat_ofNat,
    Nat.mod_eq_of_lt hk, Nat.mod_eq_of_lt (Nat.lt_of_le_of_lt h hk),
    show 2 ^ w - i + k = k - i + 2 ^ w by omega, Nat.add_mod_right, Nat.mod_eq_of_lt (by omega)]

theorem write_place_in (h : p.Covers j) (hj : j < 2 ^ w) :
    some (write m (b + BitVec.ofNat w p.place) p.bytes (b + BitVec.ofNat w j)) =
      p.bytes[j - p.place]? := by
  have hin : (b + BitVec.ofNat w j - (b + BitVec.ofNat w p.place)).toNat < p.bytes.length := by
    rcases h with ⟨hle, hlt⟩
    rw [toNat_sub_place hle hj]
    omega
  rw [write_in hin, toNat_sub_place h.1 hj]

theorem write_place_out (hp : ∀ i, p.Covers i → i < 2 ^ w) (hj : j < 2 ^ w)
    (h : ¬ p.Covers j) :
    write m (b + BitVec.ofNat w p.place) p.bytes (b + BitVec.ofNat w j) =
      m (b + BitVec.ofNat w j) := by
  rcases Nat.eq_zero_or_pos p.bytes.length with h0 | h0
  · exact write_out (by omega)
  have hlast : p.place + p.bytes.length - 1 < 2 ^ w := hp _ ⟨by omega, by omega⟩
  refine write_out ?_
  by_cases hle : p.place ≤ j
  · rw [toNat_sub_place hle hj]
    have : ¬ j < p.place + p.bytes.length := fun hlt => h ⟨hle, hlt⟩
    omega
  · -- the distance goes once around
    rw [add_sub_add_left_eq_sub, BitVec.toNat_sub, BitVec.toNat_ofNat, BitVec.toNat_ofNat,
      Nat.mod_eq_of_lt hj, Nat.mod_eq_of_lt (show p.place < 2 ^ w by omega),
      Nat.mod_eq_of_lt (by omega)]
    omega

/-- What no patch covers is left. -/
theorem patch_out (hl : ∀ p ∈ l, ∀ i, p.Covers i → i < 2 ^ w) (hj : j < 2 ^ w)
    (h : ∀ p ∈ l, ¬ p.Covers j) :
    patch b m l (b + BitVec.ofNat w j) = m (b + BitVec.ofNat w j) := by
  induction l generalizing m with
  | nil => rfl
  | cons p l ih =>
    rw [patch_cons, ih (fun q hq => hl q (List.mem_cons_of_mem p hq))
      (fun q hq => h q (List.mem_cons_of_mem p hq))]
    exact write_place_out (hl p List.mem_cons_self) hj (h p List.mem_cons_self)

theorem patch_in (hl : ∀ p ∈ l, ∀ i, p.Covers i → i < 2 ^ w) (hp : p ∈ l) (hj : p.Covers j)
    (h : ∀ q ∈ l, q = p ∨ ¬ q.Covers j) :
    some (patch b m l (b + BitVec.ofNat w j)) = p.bytes[j - p.place]? := by
  have hlt : j < 2 ^ w := hl p hp j hj
  induction l generalizing m with
  | nil => exact absurd hp List.not_mem_nil
  | cons q l ih =>
    have hl' : ∀ p ∈ l, ∀ i, p.Covers i → i < 2 ^ w :=
      fun r hr => hl r (List.mem_cons_of_mem q hr)
    have h' : ∀ r ∈ l, r = p ∨ ¬ r.Covers j := fun r hr => h r (List.mem_cons_of_mem q hr)
    rw [patch_cons]
    by_cases hmem : p ∈ l
    · exact ih hl' hmem h'
    · -- it was the first one, and the others leave it alone
      rcases List.mem_cons.mp hp with rfl | hmem'
      · have hrest : ∀ r ∈ l, ¬ r.Covers j := by
          intro r hr
          rcases h' r hr with rfl | hr'
          · exact absurd hr hmem
          · exact hr'
        rw [patch_out hl' hlt hrest]
        exact write_place_in hj hlt
      · exact absurd hmem' hmem

/-- Two memories are the same on a set of places. -/
def Agree (b : BitVec w) (s : Set Nat) (m m' : BitVec w → α) : Prop :=
  ∀ j ∈ s, m (b + BitVec.ofNat w j) = m' (b + BitVec.ofNat w j)

theorem Agree.mono {s t : Set Nat} (h : Agree b s m m') (hs : t ⊆ s) : Agree b t m m' :=
  fun j hj => h j (hs hj)

/-- Places that no patch covers stay the same. -/
theorem Agree.patch {s : Set Nat} (h : Agree b s m m₀)
    (hl : ∀ p ∈ l, ∀ i, p.Covers i → i < 2 ^ w) (hs : ∀ j ∈ s, j < 2 ^ w)
    (hout : ∀ j ∈ s, ∀ p ∈ l, ¬ p.Covers j) : Agree b s (patch b m l) m₀ :=
  fun j hj => (patch_out hl (hs j hj) (hout j hj)).trans (h j hj)

end

section

variable {w : Nat} {α ι : Type} {b : BitVec w} {m m₀ : BitVec w → α}
  {body : (BitVec w → α) → ι → Option (BitVec w → α)} {fix : ι → List (Patch α)}
  {own : ι → Set Nat} {common : Set Nat} {l : List ι}

theorem sub_first (common : Set Nat) {i : ι} :
    common ∪ own i ⊆ common ∪ ⋃ k ∈ i :: l, own k :=
  Set.union_subset_union_right common
    (Set.subset_biUnion_of_mem (show i ∈ {k | k ∈ i :: l} from List.mem_cons_self))

theorem sub_rest (common : Set Nat) {i : ι} :
    common ∪ ⋃ k ∈ l, own k ⊆ common ∪ ⋃ k ∈ i :: l, own k :=
  Set.union_subset_union_right common
    (Set.biUnion_subset_biUnion_left fun _ hk => List.mem_cons_of_mem i hk)

theorem agree_rest {i : ι}
    (hown : ∀ k ∈ i :: l, ∀ p ∈ fix k, ∀ j, p.Covers j → j ∈ own k)
    (hlt : ∀ j ∈ common ∪ ⋃ k ∈ i :: l, own k, j < 2 ^ w)
    (hapart : (i :: l).Pairwise fun i k => ∀ j ∈ own k, j ∉ own i)
    (hcommon : ∀ k ∈ i :: l, ∀ j ∈ common, j ∉ own k)
    (hm : Agree b (common ∪ ⋃ k ∈ i :: l, own k) m m₀) :
    Agree b (common ∪ ⋃ k ∈ l, own k) (patch b m (fix i)) m₀ := by
  refine (hm.mono (sub_rest common)).patch ?_ (fun j hj => hlt j (sub_rest common hj)) ?_
  · intro p hp j hj
    exact hlt j (sub_first common (Or.inr (hown i List.mem_cons_self p hp j hj)))
  · intro j hj p hp hcov
    have hji := hown i List.mem_cons_self p hp j hcov
    rcases hj with hj | hj
    · exact hcommon i List.mem_cons_self j hj hji
    · rcases Set.mem_iUnion₂.mp hj with ⟨k, hk, hjk⟩
      exact (List.pairwise_cons.mp hapart).1 k hk j hjk hji

/-- A loop over places that are apart writes all of their patches, or fails if one of its turns
    does. -/
theorem sweep (own : ι → Set Nat) (common : Set Nat) (fix : ι → List (Patch α)) (bad : ι → Prop)
    (hbody : ∀ i ∈ l, ¬ bad i → ∀ m, Agree b (common ∪ own i) m m₀ →
      body m i = some (patch b m (fix i)))
    (hbad : ∀ i ∈ l, bad i → ∀ m, Agree b (common ∪ own i) m m₀ → body m i = none)
    (hown : ∀ i ∈ l, ∀ p ∈ fix i, ∀ j, p.Covers j → j ∈ own i)
    (hlt : ∀ j ∈ common ∪ ⋃ i ∈ l, own i, j < 2 ^ w)
    (hapart : l.Pairwise fun i k => ∀ j ∈ own k, j ∉ own i)
    (hcommon : ∀ i ∈ l, ∀ j ∈ common, j ∉ own i)
    (hm : Agree b (common ∪ ⋃ i ∈ l, own i) m m₀) :
    ((∀ i ∈ l, ¬ bad i) → l.foldlM body m = some (patch b m (l.flatMap fix))) ∧
      ((∃ i ∈ l, bad i) → l.foldlM body m = none) := by
  induction l generalizing m with
  | nil => exact ⟨fun _ => rfl, fun ⟨_, hi, _⟩ => absurd hi List.not_mem_nil⟩
  | cons i l ih =>
    have hfirst : Agree b (common ∪ own i) m m₀ := hm.mono (sub_first common)
    rw [List.foldlM_cons]
    by_cases hi : bad i
    · rw [hbad i List.mem_cons_self hi m hfirst]
      exact ⟨fun hall => absurd hi (hall i List.mem_cons_self), fun _ => rfl⟩
    rw [hbody i List.mem_cons_self hi m hfirst, List.flatMap_cons, patch_append]
    have hrest := ih (fun k hk => hbody k (List.mem_cons_of_mem i hk))
      (fun k hk => hbad k (List.mem_cons_of_mem i hk))
      (fun k hk => hown k (List.mem_cons_of_mem i hk)) (fun j hj => hlt j (sub_rest common hj))
      (List.pairwise_cons.mp hapart).2 (fun k hk => hcommon k (List.mem_cons_of_mem i hk))
      (agree_rest hown hlt hapart hcommon hm)
    refine ⟨fun hall => hrest.1 fun k hk => hall k (List.mem_cons_of_mem i hk), ?_⟩
    rintro ⟨k, hk, hkb⟩
    rcases List.mem_cons.mp hk with rfl | hk
    · exact absurd hkb hi
    · exact hrest.2 ⟨k, hk, hkb⟩

end

end Memory

end MagiC
