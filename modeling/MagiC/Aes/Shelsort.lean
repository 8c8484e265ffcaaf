import MagiC.Lib.Gapsort
import MagiC.Lib.Memory
import MagiC.Lib.Outcome

/-!
# Sorting an Array

`shelsort` sorts an array in memory. It works with pointers: the element tried goes down by a
gap, and the loop ends when it comes to be below the array.

An address is an unsigned number. If the array is nearer to the beginning of memory than the
first gap is wide, an element below the array has an address at the end of memory, which is
not below the array, and so the loop goes on there. Besides, the length of the array in bytes
is kept in a number with a sign, and an array for which it is negative is not sorted at all.
All other arrays are sorted.

Elements are exchanged byte by byte, or as a longword if they are longwords at even
addresses.

## Main definitions

* `Sorts`: The routine sorts an array.

## Theorems

* `shelsort_iff`: Which arrays are sorted.
-/

namespace MagiC

namespace Aes

namespace Shel

open Memory Gapsort

abbrev Byte := BitVec 8

abbrev Long := BitVec 32

abbrev Mem := Long → Byte

/-- What keeps the routine from returning. -/
inductive Fault where
  /-- Memory outside of the array has been accessed. -/
  | outside
  /-- The routine goes on for ever. -/
  | endless
  deriving DecidableEq

/-- Where an array is. The numbers of the elements and of their bytes are positive long numbers,
    and the array has an end in memory. -/
structure Place where
  base : Long
  count : Nat
  size : Nat
  size_pos : 0 < size
  size_lt : size < 2 ^ 31
  count_lt : count < 2 ^ 31
  fits : base.toNat + count * size < 2 ^ 32

def Place.Has (p : Place) (a : Long) : Prop :=
  p.base.toNat ≤ a.toNat ∧ a.toNat < p.base.toNat + p.count * p.size

instance (p : Place) (a : Long) : Decidable (p.Has a) := inferInstanceAs (Decidable (_ ∧ _))

def rd (p : Place) (m : Mem) (a : Long) : Except Fault Byte :=
  if p.Has a then .ok (m a) else .error .outside

def wr (p : Place) (m : Mem) (a : Long) (c : Byte) : Except Fault Mem :=
  if p.Has a then .ok (Function.update m a c) else .error .outside

def rdLong (p : Place) (m : Mem) (a : Long) : Except Fault Long :=
  if p.Has a ∧ p.Has (a + 3) then .ok (getLong m a) else .error .outside

def wrLong (p : Place) (m : Mem) (a v : Long) : Except Fault Mem :=
  if p.Has a ∧ p.Has (a + 3) then .ok (setLong m a v) else .error .outside

def longxchg (p : Place) (m : Mem) (s1 s2 : Long) : Except Fault Mem := do
  let tmp ← rdLong p m s1
  let v ← rdLong p m s2
  let m ← wrLong p m s1 v
  wrLong p m s2 tmp

def memxchg (p : Place) : Nat → Mem → Long → Long → Except Fault Mem
  | 0, m, _, _ => .ok m
  | count + 1, m, s1, s2 => do
    let c ← rd p m s1
    let d ← rd p m s2
    let m ← wr p m s1 d
    let m ← wr p m s2 c
    memxchg p count m (s1 + 1) (s2 + 1)

def xchg (p : Place) (m : Mem) (s1 s2 : Long) : Except Fault Mem :=
  if p.base &&& 1 = 0 ∧ p.size = 4 then longxchg p m s1 s2 else memxchg p p.size m s1 s2

/-- The bytes that are compared. -/
def block (p : Place) (m : Mem) : Nat → Long → Except Fault (List Byte)
  | 0, _ => .ok []
  | n + 1, a => do
    let c ← rd p m a
    let l ← block p m n (a + 1)
    return c :: l

/-- The element at `j + k` is exchanged with those before it. -/
def whileLoop (p : Place) (compar : List Byte → List Byte → Int) (k : Long) :
    Nat → Long → Mem → Except Fault Mem
  | 0, _, _ => .error .endless
  | n + 1, j, m =>
    if p.base ≤ j then do
      let a ← block p m p.size j
      let b ← block p m p.size (j + k)
      if 0 < compar a b then do
        let m ← xchg p m j (j + k)
        whileLoop p compar k n (j - k) m
      else return m
    else .ok m

/-- The elements are taken one after the other. The loop of `shelsort` for one gap. -/
def forLoop (p : Place) (compar : List Byte → List Byte → Int) (f : Nat) (count k : Long) :
    Nat → Long → Mem → Except Fault Mem
  | 0, _, _ => .error .endless
  | n + 1, i, m =>
    if i.slt count then do
      let j := p.base + i - k
      let m ← whileLoop p compar k f j m
      forLoop p compar f count k n (i + BitVec.ofNat 32 p.size) m
    else .ok m

/-- The gaps are halved. -/
def k2Loop (p : Place) (compar : List Byte → List Byte → Int) (f : Nat) (count : Long) :
    Nat → Long → Mem → Except Fault Mem
  | 0, _, _ => .error .endless
  | n + 1, k2, m =>
    if (0 : Long).slt k2 then do
      let k := k2 * BitVec.ofNat 32 p.size
      let m ← forLoop p compar f count k f k m
      k2Loop p compar f count n (k2.sshiftRight 1) m
    else .ok m

def shelsort (p : Place) (compar : List Byte → List Byte → Int) (f : Nat) (m : Mem) :
    Except Fault Mem :=
  let k2 := BitVec.ofNat 32 (p.count / 2)
  let count := BitVec.ofNat 32 p.count * BitVec.ofNat 32 p.size
  k2Loop p compar f count f k2 m

def Place.adr (p : Place) (o : Nat) : Long := p.base + BitVec.ofNat 32 o

def elem (p : Place) (m : Mem) (r : Nat) : List Byte :=
  (List.range p.size).map fun i => m (p.adr (r * p.size + i))

def elems (p : Place) (m : Mem) : List (List Byte) := (List.range p.count).map (elem p m)

def Greater (compar : List Byte → List Byte → Int) (x y : List Byte) : Prop := 0 < compar x y

instance (compar : List Byte → List Byte → Int) : DecidableRel (Greater compar) :=
  fun x y => inferInstanceAs (Decidable (0 < compar x y))

/-- The comparison is a total preorder on the elements. -/
def Preorders (p : Place) (compar : List Byte → List Byte → Int) (m : Mem) : Prop :=
  Ordered (Greater compar) fun x => x ∈ elems p m

/-- The array has the same elements in order, and no other memory has changed. -/
structure Sorted (p : Place) (compar : List Byte → List Byte → Int) (m m' : Mem) : Prop where
  perm : (elems p m').Perm (elems p m)
  order : ∀ r, r + 1 < p.count → compar (elem p m' r) (elem p m' (r + 1)) ≤ 0
  outside : ∀ a, ¬ p.Has a → m' a = m a

/-- The routine returns, and the array has been sorted. -/
def Sorts (p : Place) (compar : List Byte → List Byte → Int) (m : Mem) : Prop :=
  ∃ m', (∃ n, ∀ f, n ≤ f → shelsort p compar f m = .ok m') ∧ Sorted p compar m m'

/-- The length of the array has a positive sign, and the first gap is not wider than what is in
    front of the array. -/
def Place.Clear (p : Place) : Prop :=
  p.count * p.size < 2 ^ 31 ∧ p.count / 2 * p.size ≤ p.base.toNat

section

variable {p : Place} {m m' : Mem} {r s o o' : Nat}

theorem adr_toNat (ho : o ≤ p.count * p.size) : (p.adr o).toNat = p.base.toNat + o := by
  have hfits := p.fits
  rw [Place.adr, BitVec.toNat_add, BitVec.toNat_ofNat]
  omega

theorem adr_has (ho : o < p.count * p.size) : p.Has (p.adr o) := by
  rw [Place.Has, adr_toNat (Nat.le_of_lt ho)]
  omega

theorem adr_inj (ho : o < p.count * p.size) (ho' : o' < p.count * p.size)
    (h : p.adr o = p.adr o') : o = o' := by
  have heq := congrArg BitVec.toNat h
  rw [adr_toNat (Nat.le_of_lt ho), adr_toNat (Nat.le_of_lt ho')] at heq
  omega

theorem adr_add (o n : Nat) : p.adr o + BitVec.ofNat 32 n = p.adr (o + n) := by
  rw [Place.adr, Place.adr, BitVec.add_assoc, BitVec.ofNat_add]

theorem adr_one (o : Nat) : p.adr o + 1 = p.adr (o + 1) := adr_add o 1

theorem index_lt {i : Nat} (hr : r < p.count) (hi : i < p.size) :
    r * p.size + i < p.count * p.size := by
  have hle := Nat.mul_le_mul_right p.size (Nat.succ_le_of_lt hr)
  rw [Nat.succ_mul] at hle
  omega

/-- Two stretches of the array have been exchanged. -/
structure Swapped (p : Place) (m m' : Mem) (o o' n : Nat) : Prop where
  low : ∀ i < n, m' (p.adr (o + i)) = m (p.adr (o' + i))
  high : ∀ i < n, m' (p.adr (o' + i)) = m (p.adr (o + i))
  rest : ∀ a, (∀ i < n, a ≠ p.adr (o + i) ∧ a ≠ p.adr (o' + i)) → m' a = m a

theorem memxchg_spec (n : Nat) (ho : o + n ≤ o') (ho' : o' + n ≤ p.count * p.size) :
    ∃ m', memxchg p n m (p.adr o) (p.adr o') = .ok m' ∧ Swapped p m m' o o' n := by
  induction n generalizing m o o' with
  | zero => exact ⟨m, rfl, fun i hi => absurd hi (Nat.not_lt_zero i),
      fun i hi => absurd hi (Nat.not_lt_zero i), fun _ _ => rfl⟩
  | succ n ih =>
    have h1 := adr_has (p := p) (o := o) (by omega)
    have h2 := adr_has (p := p) (o := o') (by omega)
    have hne : p.adr o ≠ p.adr o' := fun heq =>
      absurd (adr_inj (by omega) (by omega) heq) (by omega)
    rcases @ih (Function.update (Function.update m (p.adr o) (m (p.adr o'))) (p.adr o')
      (m (p.adr o))) (o + 1) (o' + 1) (by omega) (by omega) with ⟨m', hrun, hsw⟩
    -- the bytes that follow have not been changed by the first exchange
    have hold : ∀ k, (k < p.count * p.size) → k ≠ o → k ≠ o' → Function.update (Function.update m
        (p.adr o) (m (p.adr o'))) (p.adr o') (m (p.adr o)) (p.adr k) = m (p.adr k) := by
      intro k hk hko hko'
      rw [Function.update_of_ne fun heq => hko' (adr_inj hk (by omega) heq),
        Function.update_of_ne fun heq => hko (adr_inj hk (by omega) heq)]
    have hfirst : ∀ k, (k = o ∨ k = o') → m' (p.adr k) = Function.update (Function.update m
        (p.adr o) (m (p.adr o'))) (p.adr o') (m (p.adr o)) (p.adr k) := by
      intro k hk
      refine hsw.rest _ fun i hi => ⟨fun heq => ?_, fun heq => ?_⟩
      · have := adr_inj (p := p) (by omega) (by omega) heq
        omega
      · have := adr_inj (p := p) (by omega) (by omega) heq
        omega
    refine ⟨m', ?_, fun i hi => ?_, fun i hi => ?_, fun a ha => ?_⟩
    · rw [memxchg, rd, if_pos h1, Outcome.ok_bind, rd, if_pos h2, Outcome.ok_bind, wr, if_pos h1,
        Outcome.ok_bind, wr, if_pos h2, Outcome.ok_bind, adr_one, adr_one]
      exact hrun
    · rcases i with - | i
      · rw [Nat.add_zero, Nat.add_zero, hfirst o (.inl rfl), Function.update_of_ne hne,
          Function.update_self]
      · rw [Nat.add_comm i 1, ← Nat.add_assoc, ← Nat.add_assoc, hsw.low i (by omega),
          hold _ (by omega) (by omega) (by omega)]
    · rcases i with - | i
      · rw [Nat.add_zero, Nat.add_zero, hfirst o' (.inr rfl), Function.update_self]
      · rw [Nat.add_comm i 1, ← Nat.add_assoc, ← Nat.add_assoc, hsw.high i (by omega),
          hold _ (by omega) (by omega) (by omega)]
    · have h0 : a ≠ p.adr o ∧ a ≠ p.adr o' := ha 0 (Nat.zero_lt_succ n)
      rw [hsw.rest a fun i hi => ?_, Function.update_of_ne h0.2, Function.update_of_ne h0.1]
      rw [Nat.add_right_comm, Nat.add_right_comm o']
      exact ha (i + 1) (Nat.succ_lt_succ hi)

theorem setLong_in {v : Long} {i : Nat} (hi : i < 4) :
    setLong m (p.adr o) v (p.adr (o + i)) = (longBytes v).getD i 0 := by
  have hsub : (p.adr (o + i) - p.adr o).toNat = i := by
    rw [← adr_add]
    exact toNat_add_sub (by omega)
  have hin := write_in (m := m) (a := p.adr o) (i := p.adr (o + i)) (l := longBytes v)
    (by rwa [hsub])
  rw [hsub] at hin
  rw [setLong, List.getD_eq_getElem?_getD, ← hin]
  rfl

theorem setLong_rest {v a : Long} (h : ∀ i < 4, a ≠ p.adr (o + i)) :
    setLong m (p.adr o) v a = m a := by
  refine setLong_out ?_
  by_contra hlt
  refine h (a - p.adr o).toNat (Nat.lt_of_not_le hlt) ?_
  rw [← adr_add, BitVec.ofNat_toNat, BitVec.setWidth_eq, BitVec.add_comm, BitVec.sub_add_cancel]

theorem longBytes_adr {i : Nat} (hi : i < 4) :
    (longBytes (getLong m (p.adr o))).getD i 0 = m (p.adr (o + i)) := by
  rw [longBytes_getLong, show (1 : Long) = BitVec.ofNat 32 1 from rfl,
    show (2 : Long) = BitVec.ofNat 32 2 from rfl, show (3 : Long) = BitVec.ofNat 32 3 from rfl,
    adr_add, adr_add, adr_add]
  rcases i with - | - | - | - | i
  · rfl
  · rfl
  · rfl
  · rfl
  · omega

theorem longxchg_spec (ho : o + 4 ≤ o') (ho' : o' + 4 ≤ p.count * p.size) :
    ∃ m', longxchg p m (p.adr o) (p.adr o') = .ok m' ∧ Swapped p m m' o o' 4 := by
  have hlow : p.Has (p.adr o) ∧ p.Has (p.adr o + 3) :=
    ⟨adr_has (by omega), adr_add (p := p) o 3 ▸ adr_has (by omega)⟩
  have hhigh : p.Has (p.adr o') ∧ p.Has (p.adr o' + 3) :=
    ⟨adr_has (by omega), adr_add (p := p) o' 3 ▸ adr_has (by omega)⟩
  rw [longxchg, rdLong, if_pos hlow, Outcome.ok_bind, rdLong, if_pos hhigh, Outcome.ok_bind, wrLong,
    if_pos hlow, Outcome.ok_bind, wrLong, if_pos hhigh]
  refine ⟨_, rfl, fun i hi => ?_, fun i hi => ?_, fun a ha => ?_⟩
  · rw [setLong_rest fun j hj heq => ?_, setLong_in hi, longBytes_adr hi]
    have := adr_inj (p := p) (by omega) (by omega) heq
    omega
  · rw [setLong_in hi, longBytes_adr hi]
  · rw [setLong_rest fun i hi => (ha i hi).2, setLong_rest fun i hi => (ha i hi).1]

/-- Two elements are exchanged, and nothing else is written. -/
theorem xchg_spec (hrs : r < s) (hs : s < p.count) :
    ∃ m', xchg p m (p.adr (r * p.size)) (p.adr (s * p.size)) = .ok m' ∧
      (∀ q < p.count, elem p m' q = swap (elem p m) r s q) ∧ ∀ a, ¬ p.Has a → m' a = m a := by
  have hlow : r * p.size + p.size ≤ s * p.size := by
    rw [← Nat.succ_mul]
    exact Nat.mul_le_mul_right _ hrs
  have hhigh : s * p.size + p.size ≤ p.count * p.size := by
    rw [← Nat.succ_mul]
    exact Nat.mul_le_mul_right _ hs
  have hex : ∃ m', xchg p m (p.adr (r * p.size)) (p.adr (s * p.size)) = .ok m' ∧
      Swapped p m m' (r * p.size) (s * p.size) p.size := by
    rw [xchg]
    split
    · rename_i h4
      have hlong : ∃ m', longxchg p m (p.adr (r * p.size)) (p.adr (s * p.size)) = .ok m' ∧
          Swapped p m m' (r * p.size) (s * p.size) 4 := longxchg_spec (by omega) (by omega)
      rcases hlong with ⟨m', hrun, hsw⟩
      exact ⟨m', hrun, h4.2.symm ▸ hsw⟩
    · exact memxchg_spec p.size hlow hhigh
  rcases hex with ⟨m', hrun, hsw⟩
  refine ⟨m', hrun, fun q hq => List.map_congr_left fun i hi => ?_,
    fun a ha => hsw.rest a fun i hi =>
    ⟨fun heq => ha (heq ▸ adr_has (by omega)), fun heq => ha (heq ▸ adr_has (by omega))⟩⟩
  have hi := List.mem_range.mp hi
  by_cases hqr : q = r
  · rw [hqr, Equiv.swap_apply_left]
    exact hsw.low i hi
  · by_cases hqs : q = s
    · rw [hqs, Equiv.swap_apply_right]
      exact hsw.high i hi
    · rw [Equiv.swap_apply_of_ne_of_ne hqr hqs]
      -- another element has no byte of the two
      have apart : ∀ t, t < p.count → q ≠ t → ∀ j < p.size, q * p.size + i ≠ t * p.size + j := by
        intro t ht hne j hj heq
        have hdiv := congrArg (· / p.size) heq
        simp only [Nat.mul_comm _ p.size, Nat.mul_add_div p.size_pos, Nat.div_eq_of_lt hi,
          Nat.div_eq_of_lt hj] at hdiv
        exact hne hdiv
      refine hsw.rest _ fun j hj => ⟨fun heq => ?_, fun heq => ?_⟩
      · exact apart r (Nat.lt_trans hrs hs) hqr j hj
          (adr_inj (index_lt hq hi) (index_lt (Nat.lt_trans hrs hs) hj) heq)
      · exact apart s hs hqs j hj (adr_inj (index_lt hq hi) (index_lt hs hj) heq)

theorem block_spec (n : Nat) (ho : o + n ≤ p.count * p.size) :
    block p m n (p.adr o) = .ok ((List.range n).map fun i => m (p.adr (o + i))) := by
  induction n generalizing o with
  | zero => rfl
  | succ n ih =>
    rw [block, rd, if_pos (adr_has (by omega)), Outcome.ok_bind, adr_one, ih (by omega),
      Outcome.ok_bind, List.range_succ_eq_map, List.map_cons, List.map_map]
    refine congrArg (fun l => Except.ok (m (p.adr o) :: l)) (List.map_congr_left fun i _ => ?_)
    rw [Function.comp_apply, Nat.succ_eq_add_one, Nat.add_right_comm, Nat.add_assoc]

theorem block_elem (hr : r < p.count) : block p m p.size (p.adr (r * p.size)) = .ok (elem p m r) :=
  block_spec p.size (by
    rw [← Nat.succ_mul]
    exact Nat.mul_le_mul_right _ hr)

theorem block_outside {n : Nat} {a : Long} (hn : 0 < n) (h : ¬ p.Has a) :
    block p m n a = .error .outside := by
  rcases Nat.exists_eq_add_of_le' hn with ⟨n, rfl⟩
  rw [block, rd, if_neg h]
  rfl

/-- The array has certain elements, and the rest of memory is as it was. -/
structure Rep (p : Place) (m₀ m : Mem) (a : Nat → List Byte) : Prop where
  elem : ∀ r < p.count, elem p m r = a r
  outside : ∀ x, ¬ p.Has x → m x = m₀ x

theorem adr_sub (h : o' ≤ o) : p.adr o - BitVec.ofNat 32 o' = p.adr (o - o') := by
  rcases Nat.exists_eq_add_of_le' h with ⟨d, rfl⟩
  rw [Nat.add_sub_cancel, ← adr_add, BitVec.add_sub_cancel]

theorem Rep.xchg {m₀ : Mem} {a : Nat → List Byte} (h : Rep p m₀ m a) (hrs : r < s)
    (hs : s < p.count) : ∃ m', xchg p m (p.adr (r * p.size)) (p.adr (s * p.size)) = .ok m' ∧
      Rep p m₀ m' (swap a r s) := by
  rcases xchg_spec (m := m) hrs hs with ⟨m', hrun, helem, hout⟩
  refine ⟨m', hrun, fun q hq => ?_, fun x hx => (hout x hx).trans (h.outside x hx)⟩
  have hlt : Equiv.swap r s q < p.count := by
    by_cases hqr : q = r
    · rwa [hqr, Equiv.swap_apply_left]
    · by_cases hqs : q = s
      · rw [hqs, Equiv.swap_apply_right]
        exact Nat.lt_trans hrs hs
      · rwa [Equiv.swap_apply_of_ne_of_ne hqr hqs]
  exact (helem q hq).trans (h.elem _ hlt)

theorem base_le_adr (ho : o ≤ p.count * p.size) : p.base ≤ p.adr o := by
  rw [BitVec.le_def, adr_toNat ho]
  exact Nat.le_add_right _ _

section

variable {m₀ : Mem} {a : Nat → List Byte} {g : Nat}

/-- The inner loop takes an element down. -/
theorem whileLoop_spec (compar : List Byte → List Byte → Int) (hg : 0 < g)
    (hbase : g * p.size ≤ p.base.toNat) (n : Nat) (hn : r < n)
    (hr : r + g < p.count) (h : Rep p m₀ m a) : ∃ m', (∀ f, n ≤ f →
      whileLoop p compar (BitVec.ofNat 32 (g * p.size)) (f + 1) (p.adr (r * p.size)) m = .ok m') ∧
      Rep p m₀ m' (sink (Greater compar) g n a r) := by
  induction n generalizing m a r with
  | zero => exact absurd hn (Nat.not_lt_zero r)
  | succ n ih =>
    have hle : r * p.size ≤ p.count * p.size := Nat.mul_le_mul_right _ (by omega)
    have hnext : p.adr (r * p.size) + BitVec.ofNat 32 (g * p.size) = p.adr
        ((r + g) * p.size) := by
      rw [adr_add, Nat.add_mul]
    have hstep : ∀ f, whileLoop p compar (BitVec.ofNat 32 (g * p.size)) (f + 1)
        (p.adr (r * p.size)) m = if 0 < compar (a r) (a (r + g)) then
          xchg p m (p.adr (r * p.size)) (p.adr ((r + g) * p.size)) >>= fun m =>
            whileLoop p compar (BitVec.ofNat 32 (g * p.size)) f
              (p.adr (r * p.size) - BitVec.ofNat 32 (g * p.size)) m
        else .ok m := by
      intro f
      rw [whileLoop, if_pos (base_le_adr hle), hnext, block_elem (by omega), Outcome.ok_bind,
        block_elem hr, Outcome.ok_bind, h.elem r (by omega), h.elem (r + g) hr]
      rfl
    rw [sink]
    by_cases hgt : 0 < compar (a r) (a (r + g))
    · rcases h.xchg (by omega : r < r + g) hr with ⟨m₁, hrun, hrep⟩
      rw [if_pos (show Greater compar (a r) (a (r + g)) from hgt)]
      by_cases hgr : g ≤ r
      · -- there is an element one gap before
        rw [if_pos hgr]
        rcases ih (r := r - g) (by omega) (by omega) hrep with ⟨m', hloop, hrep'⟩
        refine ⟨m', fun f hf => ?_, hrep'⟩
        rcases Nat.exists_eq_add_of_le' (Nat.le_trans (Nat.le_add_left 1 n) hf) with ⟨f, rfl⟩
        rw [hstep, if_pos hgt, hrun, Outcome.ok_bind, adr_sub (Nat.mul_le_mul_right _ hgr),
          ← Nat.sub_mul]
        exact hloop f (by omega)
      · -- the pointer comes to be below the array, and not below the beginning of memory
        rw [if_neg hgr]
        refine ⟨m₁, fun f hf => ?_, hrep⟩
        rcases Nat.exists_eq_add_of_le' (Nat.le_trans (Nat.le_add_left 1 n) hf) with ⟨f, rfl⟩
        have hlt : r * p.size < g * p.size := Nat.mul_lt_mul_of_pos_right (by omega) p.size_pos
        have hbelow : ¬ p.base ≤ p.adr (r * p.size) - BitVec.ofNat 32 (g * p.size) := by
          rw [BitVec.le_def, BitVec.toNat_sub, adr_toNat hle, BitVec.toNat_ofNat]
          omega
        rw [hstep, if_pos hgt, hrun, Outcome.ok_bind, whileLoop, if_neg hbelow]
    · rw [if_neg (show ¬ Greater compar (a r) (a (r + g)) from hgt)]
      refine ⟨m, fun f _ => ?_, h⟩
      rw [hstep, if_neg hgt]

theorem ofNat_slt {x y : Nat} (hx : x < 2 ^ 31) (hy : y < 2 ^ 31) :
    (BitVec.ofNat 32 x).slt (BitVec.ofNat 32 y) = true ↔ x < y := by
  rw [BitVec.slt_iff_toInt_lt, BitVec.toInt_eq_toNat_bmod, BitVec.toInt_eq_toNat_bmod,
    BitVec.toNat_ofNat, BitVec.toNat_ofNat, Nat.mod_eq_of_lt (by omega), Nat.mod_eq_of_lt
      (by omega),
    Int.bmod_eq_of_le (by omega) (by omega), Int.bmod_eq_of_le (by omega) (by omega)]
  exact Int.ofNat_lt

theorem ofNat_half {x : Nat} (hx : x < 2 ^ 31) :
    (BitVec.ofNat 32 x).sshiftRight 1 = BitVec.ofNat 32 (x / 2) := by
  have hmsb : (BitVec.ofNat 32 x).msb = false := by
    rw [BitVec.msb_eq_false_iff_two_mul_lt, BitVec.toNat_ofNat, Nat.mod_eq_of_lt (by omega)]
    omega
  apply BitVec.eq_of_toNat_eq
  rw [BitVec.sshiftRight_eq_of_msb_false hmsb, BitVec.toNat_ushiftRight, BitVec.toNat_ofNat,
    BitVec.toNat_ofNat, Nat.shiftRight_eq_div_pow, Nat.mod_eq_of_lt (by omega),
    Nat.mod_eq_of_lt (by omega)]

theorem forLoop_spec (compar : List Byte → List Byte → Int) (hg : 0 < g)
    (hbase : g * p.size ≤ p.base.toNat)
    (hlen : p.count * p.size < 2 ^ 31) (s : Nat) (hs : r + s + g = p.count) (h : Rep p m₀ m a) :
    ∃ m', (∀ f n, p.count ≤ f → s ≤ n → forLoop p compar (f + 1)
      (BitVec.ofNat 32 (p.count * p.size)) (BitVec.ofNat 32 (g * p.size)) (n + 1)
      (BitVec.ofNat 32 ((r + g) * p.size)) m = .ok m') ∧
      Rep p m₀ m' (pass (Greater compar) g s r a) := by
  induction s generalizing m a r with
  | zero =>
    refine ⟨m, fun f n _ _ => ?_, h⟩
    have hall : r + g = p.count := by omega
    rw [forLoop, hall, if_neg (mt (ofNat_slt hlen hlen).mp (Nat.lt_irrefl _))]
  | succ s ih =>
    have hin : (r + g) * p.size < p.count * p.size :=
      Nat.mul_lt_mul_of_pos_right (by omega) p.size_pos
    have hj : p.base + BitVec.ofNat 32 ((r + g) * p.size) - BitVec.ofNat 32 (g * p.size) =
        p.adr (r * p.size) := by
      rw [Nat.add_mul]
      exact (adr_sub (Nat.le_add_left _ _)).trans (congrArg p.adr (Nat.add_sub_cancel _ _))
    have hi : BitVec.ofNat 32 ((r + g) * p.size) + BitVec.ofNat 32 p.size =
        BitVec.ofNat 32 ((r + 1 + g) * p.size) := by
      rw [← BitVec.ofNat_add, ← Nat.succ_mul, Nat.add_right_comm]
    rcases whileLoop_spec compar hg hbase (r + 1) (Nat.lt_succ_self r) (by omega) h with
      ⟨m₁, hwhile, hrep⟩
    rcases ih (r := r + 1) (by omega) hrep with ⟨m', hfor, hrep'⟩
    refine ⟨m', fun f n hf hn => ?_, hrep'⟩
    rcases Nat.exists_eq_add_of_le' (Nat.le_trans (Nat.le_add_left 1 s) hn) with ⟨n, rfl⟩
    rw [forLoop, if_pos ((ofNat_slt (by omega) hlen).mpr hin)]
    dsimp only
    rw [hj, hwhile f (by omega), Outcome.ok_bind, hi]
    exact hfor f n hf (by omega)

theorem k2Loop_spec (compar : List Byte → List Byte → Int) (hbase : g * p.size ≤ p.base.toNat)
    (hlen : p.count * p.size < 2 ^ 31)
    (hgc : g ≤ p.count) (n : Nat) (hn : g < 2 ^ n) (h : Rep p m₀ m a) :
    ∃ m', (∀ f i, p.count ≤ f → n ≤ i → k2Loop p compar (f + 1)
      (BitVec.ofNat 32 (p.count * p.size)) (i + 1) (BitVec.ofNat 32 g) m = .ok m') ∧
      Rep p m₀ m' (gapSort (Greater compar) p.count n g a) := by
  induction n generalizing m a g with
  | zero =>
    have h0 : g = 0 := Nat.lt_one_iff.mp hn
    refine ⟨m, fun f i _ _ => ?_, h⟩
    rw [k2Loop, h0]
    rfl
  | succ n ih =>
    have hsmall : g < 2 ^ 31 := Nat.lt_of_le_of_lt hgc p.count_lt
    rw [gapSort]
    by_cases hg : g = 0
    · refine ⟨m, fun f i _ _ => ?_, by rwa [if_pos hg]⟩
      rw [k2Loop, hg]
      rfl
    · have hpos := Nat.pos_of_ne_zero hg
      rw [if_neg hg]
      rcases forLoop_spec compar (r := 0) hpos hbase hlen (p.count - g) (by omega) h with
        ⟨m₁, hfor, hrep⟩
      have hhalf : (g / 2) * p.size ≤ g * p.size := Nat.mul_le_mul_right _ (Nat.div_le_self g 2)
      rcases ih (g := g / 2) (Nat.le_trans hhalf hbase) (by omega)
        (by rw [Nat.pow_succ] at hn; omega)
        hrep with ⟨m', hrun, hrep'⟩
      have hshift : (BitVec.ofNat 32 g).sshiftRight 1 = BitVec.ofNat 32 (g / 2) :=
        ofNat_half hsmall
      refine ⟨m', fun f i hf hi => ?_, hrep'⟩
      rcases Nat.exists_eq_add_of_le' (Nat.le_trans (Nat.le_add_left 1 n) hi) with ⟨i, rfl⟩
      have hlt : (0 : Long).slt (BitVec.ofNat 32 g) = true :=
        (ofNat_slt (x := 0) (by omega) hsmall).mpr hpos
      rw [Nat.zero_add] at hfor
      rw [k2Loop, if_pos hlt]
      dsimp only
      rw [← BitVec.ofNat_mul, hfor f f hf (by omega), Outcome.ok_bind, hshift]
      exact hrun f i hf (by omega)

theorem sorts_of_clear {compar : List Byte → List Byte → Int} (hc : p.Clear)
    (hpre : Preorders p compar m) : Sorts p compar m := by
  rcases hc with ⟨hlen, hbase⟩
  have hcount := p.count_lt
  have hhalf : p.count / 2 < 2 ^ 31 := Nat.lt_of_le_of_lt (Nat.div_le_self _ _) hcount
  have hrep : Rep p m m (elem p m) := ⟨fun _ _ => rfl, fun _ _ => rfl⟩
  rcases k2Loop_spec compar hbase hlen (Nat.div_le_self _ _) 31 hhalf hrep with
    ⟨m', hrun, hrep'⟩
  have hshuf : Shuffled p.count (elem p m) (gapSort (Greater compar) p.count 31 (p.count / 2)
    (elem p m)) := gapSort_shuffled 31 (Nat.div_le_self p.count 2)
  refine ⟨m', ⟨p.count + 32, fun f hf => ?_⟩, ?_, fun r hr => ?_, hrep'.outside⟩
  · rcases Nat.exists_eq_add_of_le' (Nat.le_trans (Nat.le_add_left 1 (p.count + 31)) hf) with ⟨f,
      rfl⟩
    rw [shelsort, ← BitVec.ofNat_mul]
    exact hrun f f (by omega) (by omega)
  · rw [elems, List.map_congr_left fun r hr => hrep'.elem r (List.mem_range.mp hr)]
    exact hshuf.perm
  · have hmem : ∀ q < p.count, elem p m q ∈ elems p m := fun q hq =>
      List.mem_map_of_mem (List.mem_range.mpr hq)
    rw [hrep'.elem r (by omega), hrep'.elem (r + 1) hr]
    exact Int.not_lt.mp (gapSort_ascending hpre 31 (by omega) (by omega) hhalf hmem r (r + 1)
      (Nat.lt_succ_self r) hr)

def byFirst (x y : List Byte) : Int := ((x.headD 0).toNat : Int) - (y.headD 0).toNat

/-- Only the first element is greater than the others. -/
def oneFirst (p : Place) : Mem := Function.update (fun _ => 0) p.base 1

theorem byFirst_preorders (m : Mem) : Preorders p byFirst m := by
  refine ⟨fun x y _ _ => ?_, fun x y z _ _ _ => ?_⟩
  · simp only [Greater, byFirst]
    omega
  · simp only [Greater, byFirst]
    omega

theorem elem_head (m : Mem) (r : Nat) : (elem p m r).headD 0 = m (p.adr (r * p.size)) := by
  rcases Nat.exists_eq_add_of_le' p.size_pos with ⟨n, hn⟩
  rw [elem, hn, List.range_succ_eq_map, List.map_cons, List.headD_cons, Nat.add_zero]

theorem oneFirst_greater (hr : 0 < r) (hrc : r < p.count) :
    0 < byFirst (elem p (oneFirst p) 0) (elem p (oneFirst p) r) := by
  have hbase : p.adr (0 * p.size) = p.base := by
    rw [Nat.zero_mul, Place.adr]
    exact BitVec.add_zero _
  have hlt : r * p.size < p.count * p.size := Nat.mul_lt_mul_of_pos_right hrc p.size_pos
  have hne : p.adr (r * p.size) ≠ p.base := by
    intro heq
    have := congrArg BitVec.toNat heq
    rw [adr_toNat (Nat.le_of_lt hlt)] at this
    have := Nat.mul_pos hr p.size_pos
    omega
  rw [byFirst, elem_head, elem_head, hbase, oneFirst, Function.update_self,
    Function.update_of_ne hne]
  decide

theorem whileLoop_wraps (hg : 0 < g) (hgc : g < p.count) (hbase : p.base.toNat < g * p.size)
    (hlen : g * p.size + p.base.toNat + p.count * p.size ≤ 2 ^ 32) (f : Nat) :
    whileLoop p byFirst (BitVec.ofNat 32 (g * p.size)) f p.base (oneFirst p) = .error .endless ∨
      whileLoop p byFirst (BitVec.ofNat 32 (g * p.size)) f p.base (oneFirst p) =
        .error .outside := by
  have h0 : p.base = p.adr (0 * p.size) := by
    rw [Nat.zero_mul, Place.adr]
    exact (BitVec.add_zero _).symm
  rcases f with - | f
  · exact .inl rfl
  · have hrep : Rep p (oneFirst p) (oneFirst p) (elem p (oneFirst p)) :=
      ⟨fun _ _ => rfl, fun _ _ => rfl⟩
    rcases hrep.xchg hg hgc with ⟨m₁, hrun, -⟩
    have hgr := oneFirst_greater hg hgc
    have hnext : p.base + BitVec.ofNat 32 (g * p.size) = p.adr (g * p.size) := rfl
    have hpos := p.size_pos
    rw [whileLoop, if_pos (BitVec.le_refl _), hnext, block_elem hgc]
    rw [← h0] at hrun
    have hfirst : block p (oneFirst p) p.size p.base = .ok (elem p (oneFirst p) 0) := by
      rw [h0]
      exact block_elem (Nat.lt_trans hg hgc)
    rw [hfirst, Outcome.ok_bind, Outcome.ok_bind, if_pos hgr, hrun, Outcome.ok_bind]
    have hwrap : (p.base - BitVec.ofNat 32 (g * p.size)).toNat =
        2 ^ 32 + p.base.toNat - g * p.size := by
      rw [BitVec.toNat_sub, BitVec.toNat_ofNat]
      omega
    rcases f with - | f
    · exact .inl rfl
    · have hle : p.base ≤ p.base - BitVec.ofNat 32 (g * p.size) := by
        rw [BitVec.le_def, hwrap]
        omega
      have hout : ¬ p.Has (p.base - BitVec.ofNat 32 (g * p.size)) := by
        rw [Place.Has, hwrap]
        omega
      refine .inr ?_
      rw [whileLoop, if_pos hle, block_outside hpos hout]
      rfl

theorem half_le (p : Place) : 2 * (p.count / 2 * p.size) ≤ p.count * p.size := by
  rw [← Nat.mul_assoc]
  exact Nat.mul_le_mul_right _ (Nat.mul_div_le p.count 2)

theorem not_sorts_low (hlen : p.count * p.size < 2 ^ 31)
    (hbase : p.base.toNat < p.count / 2 * p.size) : ¬ Sorts p byFirst (oneFirst p) := by
  rintro ⟨m', ⟨n, hrun⟩, -⟩
  have hg : 0 < p.count / 2 := by
    by_contra h0
    rw [Nat.eq_zero_of_not_pos h0, Nat.zero_mul] at hbase
    exact Nat.not_lt_zero _ hbase
  have hgc : p.count / 2 < p.count := by omega
  have hin : p.count / 2 * p.size < p.count * p.size := Nat.mul_lt_mul_of_pos_right hgc p.size_pos
  have hlt : (0 : Long).slt (BitVec.ofNat 32 (p.count / 2)) = true :=
    (ofNat_slt (x := 0) (by omega) (Nat.lt_trans hgc p.count_lt)).mpr hg
  have hj : p.base + BitVec.ofNat 32 (p.count / 2 * p.size) - BitVec.ofNat 32
    (p.count / 2 * p.size) =
      p.base := BitVec.add_sub_cancel _ _
  have hret := hrun (n + 1) (Nat.le_succ n)
  have hhalf := half_le p
  rw [shelsort, ← BitVec.ofNat_mul, k2Loop, if_pos hlt] at hret
  dsimp only at hret
  rw [← BitVec.ofNat_mul, forLoop, if_pos ((ofNat_slt (by omega) hlen).mpr hin)] at hret
  dsimp only at hret
  rw [hj] at hret
  rcases whileLoop_wraps hg hgc hbase (by omega) (n + 1) with hend | hout
  · rw [hend] at hret
    exact absurd hret (by simp [bind, Except.bind])
  · rw [hout] at hret
    exact absurd hret (by simp [bind, Except.bind])

theorem k2Loop_long (compar : List Byte → List Byte → Int) (hlen : 2 ^ 31 ≤ p.count * p.size)
    (hg : g * p.size < 2 ^ 31) (hgc : g < 2 ^ 31) (f n : Nat)
    (h : k2Loop p compar f (BitVec.ofNat 32 (p.count * p.size)) n (BitVec.ofNat 32 g) m = .ok m') :
    m' = m := by
  have hneg : ∀ i, i < 2 ^ 31 →
      ¬ (BitVec.ofNat 32 i).slt (BitVec.ofNat 32 (p.count * p.size)) = true := by
    intro i hi
    have hfits := p.fits
    rw [BitVec.slt_iff_toInt_lt, BitVec.toInt_eq_toNat_bmod, BitVec.toInt_eq_toNat_bmod,
      BitVec.toNat_ofNat, BitVec.toNat_ofNat, Nat.mod_eq_of_lt (by omega),
      Nat.mod_eq_of_lt (by omega), Int.bmod, Int.bmod]
    omega
  induction n generalizing g with
  | zero => exact absurd h (by simp [k2Loop])
  | succ n ih =>
    have hhalf : (g / 2) * p.size ≤ g * p.size := Nat.mul_le_mul_right _ (Nat.div_le_self g 2)
    rw [k2Loop] at h
    split at h
    · dsimp only at h
      rcases f with - | f
      · exact absurd h (by simp [forLoop, bind, Except.bind])
      · rw [← BitVec.ofNat_mul, forLoop, if_neg (hneg _ hg), Outcome.ok_bind, ofNat_half hgc] at h
        exact ih (by omega) (by omega) h
    · injection h with h
      exact h.symm

theorem not_sorts_long (hlen : 2 ^ 31 ≤ p.count * p.size) : ¬ Sorts p byFirst (oneFirst p) := by
  rintro ⟨m', ⟨n, hrun⟩, hsort⟩
  have hfits := p.fits
  have htwo : 1 < p.count := by
    by_contra hle
    have := Nat.mul_le_mul_right p.size (Nat.le_of_not_lt hle)
    have := p.size_lt
    omega
  have hret := hrun n (Nat.le_refl n)
  have hhalf := half_le p
  rw [shelsort, ← BitVec.ofNat_mul] at hret
  have hsame := k2Loop_long byFirst hlen (by omega)
    (Nat.lt_of_le_of_lt (Nat.div_le_self _ _) p.count_lt) n n hret
  have horder := hsort.order 0 htwo
  rw [hsame] at horder
  exact absurd (oneFirst_greater Nat.zero_lt_one htwo) (Int.not_lt.mpr horder)

theorem clear_of_sorts (h : Sorts p byFirst (oneFirst p)) : p.Clear := by
  by_contra hnot
  by_cases hlen : p.count * p.size < 2 ^ 31
  · exact not_sorts_low hlen (Nat.lt_of_not_le fun hle => hnot ⟨hlen, hle⟩) h
  · exact not_sorts_long (Nat.le_of_not_lt hlen) h

end

end

/-- Every array at a place is sorted just if its length has a positive sign and the first gap is
    not wider than what is in front of the array. -/
theorem shelsort_iff (p : Place) :
    (∀ compar m, Preorders p compar m → Sorts p compar m) ↔ p.Clear :=
  ⟨fun h => clear_of_sorts (h byFirst (oneFirst p) (byFirst_preorders _)),
    fun hc _ _ hpre => sorts_of_clear hc hpre⟩

/-- An array of longwords, of which the first half is longer than what is in front of it. -/
def lowPlace : Place :=
  ⟨0x40000, 200000, 4, by decide, by decide, by decide, by decide⟩

theorem shelsort_low : ∃ compar m, Preorders lowPlace compar m ∧ ¬ Sorts lowPlace compar m :=
  ⟨byFirst, oneFirst lowPlace, byFirst_preorders _, fun h => absurd (clear_of_sorts h).2
    (by decide)⟩

end Shel

end Aes

end MagiC
