import Mathlib.Algebra.Group.Int.Defs
import Mathlib.Algebra.Group.Nat.Defs
import Mathlib.Data.List.Chain
import Mathlib.Tactic.Common

/-!
# Memory Control Blocks

The memory the allocator works on and the abstract list it is meant to hold.

Every block of a RAM list starts with a sixteen byte header, the MCB: a magic
number, the net length, the owner and the back link. The blocks lie one behind
the other, so the forward link is implicit: the next MCB follows the data. The
memory is a function from addresses to longwords, which is all the allocator
ever reads or writes, and every access goes to a header field.

`Block` is one MCB read as a record, together with the address it lies at.
`Linked` says that a list of blocks is what the memory holds, back links
included. Nothing else mentions memory, so the operations are checked against
the memory once and everything else is about lists.

`RamList` is the invariant of one list. A memory holds at most one such list
from a given start (`same_blocks`).

## Main definitions

* `Coalesced`: No two neighbouring blocks are free.

## Theorems

* `span_append`: A tiling splits at any block.
-/

namespace MagiC

namespace Malloc

/-- Memory by longwords. -/
abbrev Mem := Nat → Nat

def Mem.put (m : Mem) (a v : Nat) : Mem := fun i => if i = a then v else m i

@[simp] theorem put_self (m : Mem) (a v : Nat) : m.put a v a = v := by
  simp only [Mem.put, if_true]

theorem put_other (m : Mem) (a v i : Nat) (h : i ≠ a) : m.put a v i = m i := by
  simp only [Mem.put, if_neg h]

theorem put_comm (m : Mem) (a b v w : Nat) (h : a ≠ b) :
    (m.put a v).put b w = (m.put b w).put a v := by
  funext i
  unfold Mem.put
  split_ifs <;> omega

theorem put_put (m : Mem) (a v w : Nat) : (m.put a v).put a w = m.put a w := by
  funext i
  simp only [Mem.put]
  split_ifs <;> rfl

/-- The magic of every MCB but the last. -/
def ANDR : Nat := 0x414E4452

/-- The magic of the last MCB. -/
def KROM : Nat := 0x4B524F4D

theorem andr_ne_krom : ANDR ≠ KROM := by decide

/-- Size of an MCB, which is also the offset of the data behind it. -/
def mcbData : Nat := 16

def mcbLen : Nat := 4

def mcbOwner : Nat := 8

def mcbPrev : Nat := 12

/-- One MCB and its address. The owner is zero for a free block, a small
    reference count for a shared one, and a process otherwise. -/
structure Block where
  adr : Nat
  magic : Nat
  len : Nat
  owner : Nat
  deriving DecidableEq, Repr

/-- The address behind the block. -/
def Block.fin (b : Block) : Nat := b.adr + mcbData + b.len

/-- The memory holds this MCB, with the given back link. -/
def McbAt (m : Mem) (b : Block) (prev : Nat) : Prop :=
  m b.adr = b.magic ∧ m (b.adr + mcbLen) = b.len ∧ m (b.adr + mcbOwner) = b.owner ∧
    m (b.adr + mcbPrev) = prev

/-- The memory holds these blocks, the first one with back link `prev` and
    every other one with the address of the block before it. -/
def Linked (m : Mem) : Nat → List Block → Prop
  | _, [] => True
  | prev, b :: bs => McbAt m b prev ∧ Linked m b.adr bs

/-- The back link a block behind `bs` has. -/
def prevOf : Nat → List Block → Nat
  | prev, [] => prev
  | _, b :: bs => prevOf b.adr bs

/-- The blocks lie one behind the other from `a` to `fin`. -/
def Span : Nat → List Block → Nat → Prop
  | a, [], fin => a = fin
  | a, b :: bs, fin => b.adr = a ∧ Span b.fin bs fin

/-- Only the last block carries `KROM`, and there is a last block. -/
def Marked : List Block → Prop
  | [] => False
  | [b] => b.magic = KROM
  | b :: c :: bs => b.magic = ANDR ∧ Marked (c :: bs)

/-- No two neighbouring blocks are free. -/
def Coalesced (bs : List Block) : Prop :=
  bs.IsChain (fun b c => b.owner ≠ 0 ∨ c.owner ≠ 0)

/-- All net lengths are multiples of four. -/
def LongSized (bs : List Block) : Prop := ∀ b ∈ bs, 4 ∣ b.len

/-- A list of blocks that tiles a region, up to coalescing. -/
structure Tiled (a fin : Nat) (bs : List Block) : Prop where
  span : Span a bs fin
  marked : Marked bs
  sized : LongSized bs

/-- The invariant of one RAM list: the memory from `a` to `fin` is tiled by
    linked blocks of which no two free ones are neighbours. -/
structure RamList (m : Mem) (a fin : Nat) (bs : List Block) : Prop where
  linked : Linked m 0 bs
  tiled : Tiled a fin bs
  coalesced : Coalesced bs

theorem linked_append (m : Mem) (prev : Nat) (xs ys : List Block) :
    Linked m prev (xs ++ ys) ↔ Linked m prev xs ∧ Linked m (prevOf prev xs) ys := by
  induction xs generalizing prev with
  | nil => simp only [List.nil_append, Linked, prevOf, true_and]
  | cons b bs ih =>
    simp only [List.cons_append, Linked, prevOf, ih b.adr, and_assoc]

theorem prevOf_append (prev : Nat) (xs ys : List Block) :
    prevOf prev (xs ++ ys) = prevOf (prevOf prev xs) ys := by
  induction xs generalizing prev with
  | nil => rfl
  | cons b bs ih => simp only [List.cons_append, prevOf, ih b.adr]

/-- Linking depends on the header words only. -/
theorem linked_congr (m m' : Mem) (prev : Nat) (bs : List Block)
    (h : ∀ b ∈ bs, ∀ k, k < mcbData → m' (b.adr + k) = m (b.adr + k)) :
    Linked m prev bs → Linked m' prev bs := by
  induction bs generalizing prev with
  | nil => intro _; trivial
  | cons b bs ih =>
    rintro ⟨⟨h0, h1, h2, h3⟩, hrest⟩
    have hb := h b List.mem_cons_self
    refine ⟨⟨?_, ?_, ?_, ?_⟩, ih b.adr (fun c hc => h c (List.mem_cons_of_mem _ hc)) hrest⟩
    · rw [← h0]
      exact hb 0 (by decide)
    · rw [← h1]
      exact hb mcbLen (by decide)
    · rw [← h2]
      exact hb mcbOwner (by decide)
    · rw [← h3]
      exact hb mcbPrev (by decide)

theorem span_append (a fin : Nat) (xs ys : List Block) :
    Span a (xs ++ ys) fin ↔ ∃ mid, Span a xs mid ∧ Span mid ys fin := by
  induction xs generalizing a with
  | nil => simp only [List.nil_append, Span, exists_eq_left']
  | cons b bs ih =>
    simp only [List.cons_append, Span, ih b.fin, and_assoc, exists_and_left]

theorem span_le (a fin : Nat) (bs : List Block) (h : Span a bs fin) : a ≤ fin := by
  induction bs generalizing a with
  | nil => exact le_of_eq h
  | cons b bs ih =>
    rcases h with ⟨rfl, hrest⟩
    have := ih b.fin hrest
    unfold Block.fin mcbData at this
    omega

theorem span_mem (a fin : Nat) (bs : List Block) (h : Span a bs fin) (b : Block) (hb : b ∈ bs) :
    a ≤ b.adr ∧ b.fin ≤ fin := by
  induction bs generalizing a with
  | nil => exact absurd hb List.not_mem_nil
  | cons c cs ih =>
    rcases h with ⟨rfl, hrest⟩
    have hle := span_le _ _ _ hrest
    rcases List.mem_cons.mp hb with rfl | hin
    · exact ⟨le_refl _, hle⟩
    · have := ih c.fin hrest hin
      have hc : c.adr ≤ c.fin := by unfold Block.fin mcbData; omega
      exact ⟨le_trans hc this.1, this.2⟩

theorem span_before (a fin : Nat) (xs ys : List Block) (h : Span a (xs ++ ys) fin)
    (x y : Block) (hx : x ∈ xs) (hy : y ∈ ys) : x.fin ≤ y.adr := by
  rcases (span_append a fin xs ys).mp h with ⟨mid, h1, h2⟩
  exact le_trans (span_mem _ _ _ h1 x hx).2 (span_mem _ _ _ h2 y hy).1

theorem span_once (a fin : Nat) (pre post : List Block) (b : Block)
    (h : Span a (pre ++ [b] ++ post) fin) : b ∉ pre ++ post := by
  have hlt : b.adr < b.fin := by
    unfold Block.fin mcbData
    omega
  intro hb
  rcases List.mem_append.mp hb with hb | hb
  · have := span_before a fin pre ([b] ++ post) (by rw [← List.append_assoc]; exact h) b b hb
      (by simp)
    omega
  · have := span_before a fin (pre ++ [b]) post h b b (by simp) hb
    omega

theorem span_at (a fin : Nat) (xs ys : List Block) (b : Block)
    (h : Span a (xs ++ b :: ys) fin) : Span a xs b.adr ∧ Span b.fin ys fin := by
  rcases (span_append a fin xs (b :: ys)).mp h with ⟨mid, h1, rfl, h2⟩
  exact ⟨h1, h2⟩

theorem marked_append (xs ys : List Block) (hy : ys ≠ []) :
    Marked (xs ++ ys) ↔ (∀ x ∈ xs, x.magic = ANDR) ∧ Marked ys := by
  induction xs with
  | nil => simp only [List.nil_append, List.not_mem_nil, false_implies, implies_true, true_and]
  | cons b bs ih =>
    have hne : bs ++ ys ≠ [] := by
      intro hc
      exact hy (List.append_eq_nil_iff.mp hc).2
    rcases hbs : bs ++ ys with _ | ⟨c, cs⟩
    · exact absurd hbs hne
    · simp only [List.cons_append, hbs, Marked, List.forall_mem_cons, and_assoc]
      rw [← hbs, ih]

theorem marked_cons_iff (b : Block) (bs : List Block) :
    Marked (b :: bs) ↔ (bs = [] ∧ b.magic = KROM) ∨ (bs ≠ [] ∧ b.magic = ANDR ∧ Marked bs) := by
  cases bs with
  | nil => simp only [Marked, true_and, ne_eq, not_true_eq_false, false_and, or_false]
  | cons c cs => simp only [Marked, reduceCtorEq, false_and, ne_eq, not_false_eq_true, true_and,
      false_or]

/-- Memory determines the list that starts at an address: two tilings from
    the same start whose headers the memory holds are the same list. The back
    links play no part. -/
theorem same_blocks (m : Mem) (a fin fin' : Nat) (bs cs : List Block)
    (hb : ∀ b ∈ bs, m b.adr = b.magic ∧ m (b.adr + mcbLen) = b.len ∧
      m (b.adr + mcbOwner) = b.owner)
    (hc : ∀ c ∈ cs, m c.adr = c.magic ∧ m (c.adr + mcbLen) = c.len ∧
      m (c.adr + mcbOwner) = c.owner)
    (hbs : Span a bs fin) (hcs : Span a cs fin') (hbm : Marked bs) (hcm : Marked cs) :
    bs = cs := by
  induction bs generalizing a cs with
  | nil => exact absurd hbm id
  | cons b bs ih =>
    cases cs with
    | nil => exact absurd hcm id
    | cons c cs =>
      rcases hbs with ⟨hba, hbrest⟩
      rcases hcs with ⟨hca, hcrest⟩
      have hadr : b.adr = c.adr := hba.trans hca.symm
      have hb0 := hb b List.mem_cons_self
      have hc0 := hc c List.mem_cons_self
      -- The header at the common address fixes every field.
      have hbc : b = c := by
        cases b
        cases c
        simp only at hadr hb0 hc0
        subst hadr
        simp only [Block.mk.injEq, true_and]
        exact ⟨hb0.1.symm.trans hc0.1, hb0.2.1.symm.trans hc0.2.1,
          hb0.2.2.symm.trans hc0.2.2⟩
      subst hbc
      rcases (marked_cons_iff _ _).mp hbm with ⟨rfl, hk⟩ | ⟨hne, ha, hbm'⟩
      · rcases (marked_cons_iff _ _).mp hcm with ⟨rfl, _⟩ | ⟨_, ha', _⟩
        · rfl
        · exact absurd (ha'.symm.trans hk) andr_ne_krom
      · rcases (marked_cons_iff _ _).mp hcm with ⟨_, hk⟩ | ⟨_, _, hcm'⟩
        · exact absurd (ha.symm.trans hk) andr_ne_krom
        · rw [ih b.fin cs (fun x hx => hb x (List.mem_cons_of_mem _ hx))
            (fun x hx => hc x (List.mem_cons_of_mem _ hx)) hbrest hcrest hbm' hcm']

theorem linked_fields (m : Mem) (prev : Nat) (bs : List Block) (h : Linked m prev bs)
    (b : Block) (hb : b ∈ bs) :
    m b.adr = b.magic ∧ m (b.adr + mcbLen) = b.len ∧ m (b.adr + mcbOwner) = b.owner := by
  induction bs generalizing prev with
  | nil => exact absurd hb List.not_mem_nil
  | cons c cs ih =>
    rcases h with ⟨⟨h0, h1, h2, _⟩, hrest⟩
    rcases List.mem_cons.mp hb with rfl | hin
    · exact ⟨h0, h1, h2⟩
    · exact ih c.adr hrest hin

end Malloc

end MagiC
