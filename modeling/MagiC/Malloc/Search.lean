import MagiC.Malloc.Splice

/-!
# Searching a RAM List

What the three walks over an MCB chain find. Each follows the chain from the
first MCB to the one with `KROM`, so on a list the memory holds it looks at
exactly the blocks of the list, in order, and the fuel it needs is their
number. A region has room for that many headers, so the fuel the callers pass
is enough, which is what `span_length` says.

## Main definitions

* `Fits`: A free block of at least a given size.

## Theorems

* `mavlLoop_spec`: The largest free block.
-/

namespace MagiC

namespace Malloc

/-- A block that can be handed out for `amount` bytes. -/
def Fits (amount : Nat) (b : Block) : Prop := b.owner = 0 ∧ amount ≤ b.len

/-- The largest free block of a list, or `best` when none is larger. -/
def largest : Nat → List Block → Nat
  | best, [] => best
  | best, b :: bs => largest (if b.owner = 0 ∧ best < b.len then b.len else best) bs

theorem span_length (a fin : Nat) (bs : List Block) (h : Span a bs fin) :
    a + 16 * bs.length ≤ fin := by
  induction bs generalizing a with
  | nil => exact le_of_eq h
  | cons b bs ih =>
    rcases h with ⟨rfl, hrest⟩
    have := ih b.fin hrest
    unfold Block.fin mcbData at this
    rw [List.length_cons]
    omega

theorem span_length_le (a fin : Nat) (bs : List Block) (h : Span a bs fin) :
    bs.length ≤ fin - a := by
  have := span_length a fin bs h
  omega

/-- The first fit: the walk ends without a block when none fits, and else at
    the first that does. -/
theorem malLoop_spec (m : Mem) (amount : Nat) : ∀ (bs : List Block) (fuel p a fin : Nat),
    Linked m p bs → Span a bs fin → Marked bs → bs.length ≤ fuel →
    (malLoop m amount fuel a = some none ∧ ∀ b ∈ bs, ¬ Fits amount b) ∨
      ∃ pre b post, bs = pre ++ [b] ++ post ∧ malLoop m amount fuel a = some (some b.adr) ∧
        Fits amount b ∧ ∀ c ∈ pre, ¬ Fits amount c := by
  intro bs
  induction bs with
  | nil => intro _ _ _ _ _ _ hm; exact absurd hm id
  | cons b bs ih =>
    rintro fuel p a fin ⟨⟨h0, h1, h2, _⟩, hrest⟩ ⟨rfl, hspan⟩ hm hf
    rw [List.length_cons] at hf
    obtain ⟨fuel, rfl⟩ : ∃ k, fuel = k + 1 := ⟨fuel - 1, by omega⟩
    unfold malLoop
    rw [h0, h1, h2]
    by_cases hfit : b.owner = 0 ∧ amount ≤ b.len
    · rw [if_pos hfit]
      exact Or.inr ⟨[], b, bs, rfl, rfl, hfit, fun c hc => absurd hc List.not_mem_nil⟩
    · rw [if_neg hfit]
      rcases (marked_cons_iff b bs).mp hm with ⟨rfl, hk⟩ | ⟨_, ha, hm'⟩
      · rw [if_pos hk]
        refine Or.inl ⟨rfl, fun c hc => ?_⟩
        rw [List.mem_singleton] at hc
        rw [hc]
        exact hfit
      · rw [if_neg (by rw [ha]; exact andr_ne_krom), if_pos ha]
        rcases ih fuel b.adr b.fin fin hrest hspan hm' (by omega) with
          ⟨heq, hno⟩ | ⟨pre, c, post, rfl, heq, hc, hno⟩
        · exact Or.inl ⟨heq, List.forall_mem_cons.mpr ⟨hfit, hno⟩⟩
        · exact Or.inr ⟨b :: pre, c, post, rfl, heq, hc, List.forall_mem_cons.mpr ⟨hfit, hno⟩⟩

theorem mllLoop_spec (m : Mem) (amount : Nat) : ∀ (bs : List Block) (fuel best p a fin : Nat),
    Linked m p bs → Span a bs fin → Marked bs → bs.length ≤ fuel →
    (mllLoop m amount fuel best a = some best ∧ ∀ b ∈ bs, ¬ Fits amount b) ∨
      ∃ pre b post, bs = pre ++ [b] ++ post ∧ mllLoop m amount fuel best a = some b.adr ∧
        Fits amount b ∧ ∀ c ∈ post, ¬ Fits amount c := by
  intro bs
  induction bs with
  | nil => intro _ _ _ _ _ _ _ hm; exact absurd hm id
  | cons b bs ih =>
    rintro fuel best p a fin ⟨⟨h0, h1, h2, _⟩, hrest⟩ ⟨rfl, hspan⟩ hm hf
    rw [List.length_cons] at hf
    obtain ⟨fuel, rfl⟩ : ∃ k, fuel = k + 1 := ⟨fuel - 1, by omega⟩
    unfold mllLoop
    simp only [h0, h1, h2]
    rcases (marked_cons_iff b bs).mp hm with ⟨rfl, hk⟩ | ⟨_, ha, hm'⟩
    · rw [if_pos hk]
      by_cases hfit : b.owner = 0 ∧ amount ≤ b.len
      · rw [if_pos hfit]
        exact Or.inr ⟨[], b, [], rfl, rfl, hfit, fun c hc => absurd hc List.not_mem_nil⟩
      · rw [if_neg hfit]
        refine Or.inl ⟨rfl, fun c hc => ?_⟩
        rw [List.mem_singleton] at hc
        rw [hc]
        exact hfit
    · rw [if_neg (by rw [ha]; exact andr_ne_krom), if_pos ha]
      rcases ih fuel (if b.owner = 0 ∧ amount ≤ b.len then b.adr else best) b.adr b.fin fin
        hrest hspan hm' (by omega) with ⟨heq, hno⟩ | ⟨pre, c, post, rfl, heq, hc, hno⟩
      · by_cases hfit : b.owner = 0 ∧ amount ≤ b.len
        · rw [if_pos hfit] at heq ⊢
          exact Or.inr ⟨[], b, bs, rfl, heq, hfit, hno⟩
        · rw [if_neg hfit] at heq ⊢
          exact Or.inl ⟨heq, List.forall_mem_cons.mpr ⟨hfit, hno⟩⟩
      · exact Or.inr ⟨b :: pre, c, post, rfl, heq, hc, hno⟩

theorem mavlLoop_spec (m : Mem) : ∀ (bs : List Block) (fuel best p a fin : Nat),
    Linked m p bs → Span a bs fin → Marked bs → bs.length ≤ fuel →
    mavlLoop m fuel best a = some (largest best bs) := by
  intro bs
  induction bs with
  | nil => intro _ _ _ _ _ _ _ hm; exact absurd hm id
  | cons b bs ih =>
    rintro fuel best p a fin ⟨⟨h0, h1, h2, _⟩, hrest⟩ ⟨rfl, hspan⟩ hm hf
    rw [List.length_cons] at hf
    obtain ⟨fuel, rfl⟩ : ∃ k, fuel = k + 1 := ⟨fuel - 1, by omega⟩
    unfold mavlLoop
    simp only [h0, h1, h2]
    rcases (marked_cons_iff b bs).mp hm with ⟨rfl, hk⟩ | ⟨_, ha, hm'⟩
    · rw [if_neg (by rw [hk]; exact andr_ne_krom.symm), if_pos hk]
      rfl
    · rw [if_pos ha]
      exact ih fuel _ b.adr b.fin fin hrest hspan hm' (by omega)

end Malloc

end MagiC
