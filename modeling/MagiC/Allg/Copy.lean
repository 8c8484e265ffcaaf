import Mathlib.Algebra.Group.Int.Defs
import Mathlib.Algebra.Group.Nat.Defs
import Mathlib.Logic.Function.Basic
import Mathlib.Tactic.Common

/-!
# Copying Memory

The two copy loops the file systems and device drivers use.

`ncopy_from` copies between two memories. It moves longwords when the length
and both addresses are even and bytes otherwise, and counts in words. What it
does is stated once for the byte loop, and the longword loop is shown to be
that loop, four bytes at a time.

`vmemcpy` moves inside one memory and picks the direction by comparing the
addresses, so an overlap is no harm.

## Main definitions

* `ncopyFrom`: `ncopy_from`.

## Theorems

* `window_append`: A window splits anywhere.
-/

namespace MagiC

namespace Copy

/-- The `n` bytes from `a` on. -/
def window {α : Type} (m : Nat → α) (a n : Nat) : List α := (List.range n).map (fun i => m (a + i))

@[simp] theorem window_length {α : Type} (m : Nat → α) (a n : Nat) :
    (window m a n).length = n := by
  simp only [window, List.length_map, List.length_range]

theorem window_append {α : Type} (m : Nat → α) (a n k : Nat) :
    window m a (n + k) = window m a n ++ window m (a + n) k := by
  simp only [window, List.range_add, List.map_append, List.map_map, Function.comp_def,
    Nat.add_assoc]

theorem window_congr {α : Type} (m m' : Nat → α) (a a' n : Nat)
    (h : ∀ i, i < n → m (a + i) = m' (a' + i)) : window m a n = window m' a' n := by
  refine List.map_congr_left (fun i hi => h i (List.mem_range.mp hi))

/-- Copy `n` bytes from `a0` of one memory to `a1` of another, upwards. -/
def moveBytes {α : Type} (src : Nat → α) : Nat → Nat → Nat → (Nat → α) → Nat → α
  | 0, _, _, dst => dst
  | n + 1, a0, a1, dst => moveBytes src n (a0 + 1) (a1 + 1) (Function.update dst a1 (src a0))

/-- `ncf_long_loop`: copy `n` longwords. -/
def longLoop {α : Type} (src : Nat → α) : Nat → Nat → Nat → (Nat → α) → Nat → α
  | 0, _, _, dst => dst
  | n + 1, a0, a1, dst => longLoop src n (a0 + 4) (a1 + 4) (moveBytes src 4 a0 a1 dst)

/-- An arithmetic shift of a word by two. -/
def asrTwo (n : Nat) : Nat :=
  if n % 2 ^ 16 < 2 ^ 15 then n % 2 ^ 16 / 4 else n % 2 ^ 16 / 4 + 3 * 2 ^ 14

/-- `ncopy_from`: copy `n` bytes, where `odd` says that one of the two
    addresses is odd. -/
def ncopyFrom {α : Type} (odd : Bool) (src : Nat → α) (n a0 a1 : Nat) (dst : Nat → α) : Nat → α :=
  if n % 2 = 1 ∨ odd then moveBytes src (n % 2 ^ 16) a0 a1 dst
  else
    let longs := asrTwo n
    let dst := longLoop src longs a0 a1 dst
    if n % 4 = 0 then dst else moveBytes src 2 (a0 + 4 * longs) (a1 + 4 * longs) dst

/-- `mcp_loop1`: move `n` bytes upwards inside one memory. -/
def moveUp {α : Type} : Nat → Nat → Nat → (Nat → α) → Nat → α
  | 0, _, _, m => m
  | n + 1, dst, src, m => moveUp n (dst + 1) (src + 1) (Function.update m dst (m src))

/-- `mcp_loop2`: move `n` bytes downwards inside one memory, the addresses
    being those behind the last byte. -/
def moveDown {α : Type} : Nat → Nat → Nat → (Nat → α) → Nat → α
  | 0, _, _, m => m
  | n + 1, dst, src, m => moveDown n (dst - 1) (src - 1) (Function.update m (dst - 1) (m (src - 1)))

/-- `vmemcpy`: move `n` bytes inside one memory. -/
def vmemcpy {α : Type} (dst src n : Nat) (m : Nat → α) : Nat → α :=
  if src < dst then moveDown n (dst + n) (src + n) m else moveUp n dst src m

theorem moveBytes_apply {α : Type} (src : Nat → α) (n a0 a1 : Nat) (dst : Nat → α) (i : Nat) :
    moveBytes src n a0 a1 dst i = if a1 ≤ i ∧ i < a1 + n then src (a0 + (i - a1)) else dst i := by
  induction n generalizing a0 a1 dst with
  | zero => rw [if_neg (by omega)]; rfl
  | succ k ih =>
    unfold moveBytes
    rw [ih]
    by_cases hin : a1 + 1 ≤ i ∧ i < a1 + 1 + k
    · rw [if_pos hin, if_pos (by omega)]
      congr 1
      omega
    · rw [if_neg hin]
      by_cases heq : i = a1
      · rw [if_pos (by omega), heq, Function.update_self, Nat.sub_self, Nat.add_zero]
      · rw [if_neg (by omega), Function.update_of_ne heq]

theorem moveBytes_add {α : Type} (src : Nat → α) (n k a0 a1 : Nat) (dst : Nat → α) :
    moveBytes src (n + k) a0 a1 dst
      = moveBytes src k (a0 + n) (a1 + n) (moveBytes src n a0 a1 dst) := by
  funext i
  simp only [moveBytes_apply]
  by_cases h1 : a1 + n ≤ i ∧ i < a1 + n + k
  · rw [if_pos h1, if_pos (by omega)]
    congr 1
    omega
  · rw [if_neg h1]
    by_cases h2 : a1 ≤ i ∧ i < a1 + n
    · rw [if_pos h2, if_pos (by omega)]
    · rw [if_neg h2, if_neg (by omega)]

theorem longLoop_eq {α : Type} (src : Nat → α) (n a0 a1 : Nat) (dst : Nat → α) :
    longLoop src n a0 a1 dst = moveBytes src (4 * n) a0 a1 dst := by
  induction n generalizing a0 a1 dst with
  | zero => rfl
  | succ k ih =>
    rw [show 4 * (k + 1) = 4 + 4 * k by omega, moveBytes_add, ← ih]
    rfl

/-- `ncopy_from` is the byte loop for every length a signed word holds. -/
theorem ncopyFrom_eq {α : Type} (odd : Bool) (src : Nat → α) (n a0 a1 : Nat) (dst : Nat → α)
    (hn : n < 2 ^ 15) : ncopyFrom odd src n a0 a1 dst = moveBytes src n a0 a1 dst := by
  unfold ncopyFrom
  by_cases hodd : n % 2 = 1 ∨ odd
  · rw [if_pos hodd, Nat.mod_eq_of_lt (by omega)]
  · have hlongs : asrTwo n = n / 4 := by
      unfold asrTwo
      rw [Nat.mod_eq_of_lt (by omega), if_pos hn]
    rw [if_neg hodd]
    simp only [hlongs, longLoop_eq]
    by_cases h4 : n % 4 = 0
    · rw [if_pos h4, show 4 * (n / 4) = n by omega]
    · -- An even length that is no multiple of four leaves one word.
      rw [if_neg h4, ← moveBytes_add, show 4 * (n / 4) + 2 = n by omega]

theorem ncopyFrom_apply {α : Type} (odd : Bool) (src : Nat → α) (n a0 a1 : Nat) (dst : Nat → α)
    (hn : n < 2 ^ 15) (i : Nat) :
    ncopyFrom odd src n a0 a1 dst i
      = if a1 ≤ i ∧ i < a1 + n then src (a0 + (i - a1)) else dst i := by
  rw [ncopyFrom_eq odd src n a0 a1 dst hn, moveBytes_apply]

/-- What was copied is what the source held. -/
theorem ncopyFrom_window {α : Type} (odd : Bool) (src : Nat → α) (n a0 a1 : Nat) (dst : Nat → α)
    (hn : n < 2 ^ 15) : window (ncopyFrom odd src n a0 a1 dst) a1 n = window src a0 n := by
  refine window_congr _ _ _ _ _ (fun i hi => ?_)
  rw [ncopyFrom_apply odd src n a0 a1 dst hn, if_pos (by omega), Nat.add_sub_cancel_left]

theorem ncopyFrom_before {α : Type} (odd : Bool) (src : Nat → α) (n a0 a1 : Nat) (dst : Nat → α)
    (hn : n < 2 ^ 15) (a k : Nat) (h : a + k ≤ a1) :
    window (ncopyFrom odd src n a0 a1 dst) a k = window dst a k := by
  refine window_congr _ _ _ _ _ (fun i hi => ?_)
  rw [ncopyFrom_apply odd src n a0 a1 dst hn, if_neg (by omega)]

theorem moveUp_apply {α : Type} (n dst src : Nat) (m : Nat → α) (h : dst ≤ src) (i : Nat) :
    moveUp n dst src m i = if dst ≤ i ∧ i < dst + n then m (src + (i - dst)) else m i := by
  induction n generalizing dst src m with
  | zero => rw [if_neg (by omega)]; rfl
  | succ k ih =>
    unfold moveUp
    rw [ih (dst + 1) (src + 1) _ (by omega)]
    by_cases hin : dst + 1 ≤ i ∧ i < dst + 1 + k
    · rw [if_pos hin, if_pos (by omega), Function.update_of_ne (by omega)]
      congr 1
      omega
    · rw [if_neg hin]
      by_cases heq : i = dst
      · rw [if_pos (by omega), heq, Function.update_self, Nat.sub_self, Nat.add_zero]
      · rw [if_neg (by omega), Function.update_of_ne heq]

theorem moveDown_apply {α : Type} (n dst src : Nat) (m : Nat → α) (h : src ≤ dst) (i : Nat) :
    moveDown n (dst + n) (src + n) m i
      = if dst ≤ i ∧ i < dst + n then m (src + (i - dst)) else m i := by
  induction n generalizing m with
  | zero =>
    rw [if_neg (by omega)]
    rfl
  | succ k ih =>
    unfold moveDown
    rw [← Nat.add_assoc, ← Nat.add_assoc, Nat.add_sub_cancel, Nat.add_sub_cancel, ih]
    by_cases hin : dst ≤ i ∧ i < dst + k
    · rw [if_pos hin, if_pos (by omega), Function.update_of_ne (by omega)]
    · rw [if_neg hin]
      by_cases heq : i = dst + k
      · rw [if_pos (by omega), heq, Function.update_self, Nat.add_sub_cancel_left]
      · rw [if_neg (by omega), Function.update_of_ne heq]

/-- What is moved, and what stays. -/
theorem vmemcpy_apply {α : Type} (dst src n : Nat) (m : Nat → α) (i : Nat) :
    vmemcpy dst src n m i = if dst ≤ i ∧ i < dst + n then m (src + (i - dst)) else m i := by
  unfold vmemcpy
  by_cases h : src < dst
  · rw [if_pos h, moveDown_apply n dst src m (Nat.le_of_lt h)]
  · rw [if_neg h, moveUp_apply n dst src m (Nat.le_of_not_lt h)]

theorem vmemcpy_window {α : Type} (dst src n : Nat) (m : Nat → α) :
    window (vmemcpy dst src n m) dst n = window m src n := by
  refine window_congr _ _ _ _ _ (fun i hi => ?_)
  rw [vmemcpy_apply, if_pos (by omega), Nat.add_sub_cancel_left]

end Copy

end MagiC
