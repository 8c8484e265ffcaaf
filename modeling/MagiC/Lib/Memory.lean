import Mathlib.Data.BitVec
import Mathlib.Tactic.Common

/-!
# Byte Memory

A memory is a function from addresses to bytes. The addresses of a machine go
round: the byte behind the last one is the first one. Words are two bytes and
longwords four, the most significant one first.

## Main definitions

* `Apart`: Two stretches of memory have no address in common.

## Theorems

* `getLong_setLong`, `getLong_intact`: What a longword is after another one was stored.
-/

namespace MagiC

namespace Memory

variable {w : Nat}

section

variable {α : Type} {m : BitVec w → α} {a i : BitVec w} {n : Nat} {l : List α} {v : α}

def write (m : BitVec w → α) (a : BitVec w) (l : List α) (i : BitVec w) : α :=
  (l[(i - a).toNat]?).getD (m i)

def fill (m : BitVec w → α) (a : BitVec w) (n : Nat) (v : α) (i : BitVec w) : α :=
  if (i - a).toNat < n then v else m i

theorem write_out (h : l.length ≤ (i - a).toNat) : write m a l i = m i := by
  unfold write
  rw [List.getElem?_eq_none h]
  rfl

theorem write_in (h : (i - a).toNat < l.length) : some (write m a l i) = l[(i - a).toNat]? := by
  unfold write
  rw [List.getElem?_eq_getElem h]
  rfl

theorem write_same (h : ∀ n < l.length, some (m (a + BitVec.ofNat w n)) = l[n]?) :
    write m a l = m := by
  funext i
  by_cases hi : (i - a).toNat < l.length
  · have hsome := h _ hi
    rw [BitVec.ofNat_toNat, BitVec.setWidth_eq, add_sub_cancel] at hsome
    rw [write, ← hsome]
    rfl
  · exact write_out (Nat.le_of_not_lt hi)

@[simp] theorem write_nil : write m a [] = m := funext fun _ => write_out (Nat.zero_le _)

theorem fill_in (h : (i - a).toNat < n) : fill m a n v i = v := if_pos h

theorem fill_out (h : n ≤ (i - a).toNat) : fill m a n v i = m i := if_neg (Nat.not_lt.mpr h)

end

section

variable {m m' : BitVec w → BitVec 8} {a b i : BitVec w} {v : BitVec 32}

def getWord (m : BitVec w → BitVec 8) (a : BitVec w) : BitVec 16 := m a ++ m (a + 1)

def wordBytes (v : BitVec 16) : List (BitVec 8) := [v.extractLsb' 8 8, v.extractLsb' 0 8]

def setWord (m : BitVec w → BitVec 8) (a : BitVec w) (v : BitVec 16) : BitVec w → BitVec 8 :=
  write m a (wordBytes v)

def getLong (m : BitVec w → BitVec 8) (a : BitVec w) : BitVec 32 :=
  m a ++ m (a + 1) ++ m (a + 2) ++ m (a + 3)

def longBytes (v : BitVec 32) : List (BitVec 8) :=
  [v.extractLsb' 24 8, v.extractLsb' 16 8, v.extractLsb' 8 8, v.extractLsb' 0 8]

def setLong (m : BitVec w → BitVec 8) (a : BitVec w) (v : BitVec 32) : BitVec w → BitVec 8 :=
  write m a (longBytes v)

def addLong (m : BitVec w → BitVec 8) (a : BitVec w) (v : BitVec 32) : BitVec w → BitVec 8 :=
  setLong m a (getLong m a + v)

@[simp] theorem longBytes_length : (longBytes v).length = 4 := rfl

@[simp] theorem wordBytes_length (v : BitVec 16) : (wordBytes v).length = 2 := rfl

theorem wordBytes_append (v : BitVec 16) : v.extractLsb' 8 8 ++ v.extractLsb' 0 8 = v := by
  ext i hi
  simp only [BitVec.getElem_append, BitVec.getElem_extractLsb']
  rw [← BitVec.getLsbD_eq_getElem]
  split_ifs <;> (congr 1; omega)

/-- What the bytes of a word are, the word is. -/
theorem getWord_of_bytes {v : BitVec 16}
    (h : ∀ n < 2, some (m (a + BitVec.ofNat w n)) = (wordBytes v)[n]?) : getWord m a = v := by
  have h0 : m (a + BitVec.ofNat w 0) = _ := Option.some.inj (h 0 (by omega))
  have h1 : m (a + 1) = _ := Option.some.inj (h 1 (by omega))
  rw [BitVec.add_zero] at h0
  unfold getWord
  rw [h0, h1]
  exact wordBytes_append v

theorem getLong_congr (h : ∀ n < 4, m (a + BitVec.ofNat w n) = m' (b + BitVec.ofNat w n)) :
    getLong m a = getLong m' b := by
  have h0 := h 0 (by omega)
  have h1 : m (a + 1) = m' (b + 1) := h 1 (by omega)
  have h2 : m (a + 2) = m' (b + 2) := h 2 (by omega)
  have h3 : m (a + 3) = m' (b + 3) := h 3 (by omega)
  rw [BitVec.add_zero, BitVec.add_zero] at h0
  unfold getLong
  rw [h0, h1, h2, h3]

theorem longBytes_append :
    v.extractLsb' 24 8 ++ v.extractLsb' 16 8 ++ v.extractLsb' 8 8 ++ v.extractLsb' 0 8 = v := by
  ext i hi
  simp only [BitVec.getElem_append, BitVec.getElem_extractLsb']
  rw [← BitVec.getLsbD_eq_getElem]
  split_ifs <;> (congr 1; omega)

theorem longBytes_getLong :
    longBytes (getLong m a) = [m a, m (a + 1), m (a + 2), m (a + 3)] := by
  unfold longBytes getLong
  simp only [List.cons.injEq, and_true]
  refine ⟨?_, ?_, ?_, ?_⟩ <;>
  · ext i hi
    simp only [BitVec.getElem_extractLsb', BitVec.getLsbD_append]
    rw [← BitVec.getLsbD_eq_getElem]
    grind

theorem setLong_out (h : 4 ≤ (i - a).toNat) : setLong m a v i = m i := write_out h

theorem addLong_out (h : 4 ≤ (i - a).toNat) : addLong m a v i = m i := write_out h

/-- What the bytes of a longword are, the longword is. -/
theorem getLong_of_bytes
    (h : ∀ n < 4, some (m (a + BitVec.ofNat w n)) = (longBytes v)[n]?) : getLong m a = v := by
  have h0 : m (a + BitVec.ofNat w 0) = _ := Option.some.inj (h 0 (by omega))
  have h1 : m (a + 1) = _ := Option.some.inj (h 1 (by omega))
  have h2 : m (a + 2) = _ := Option.some.inj (h 2 (by omega))
  have h3 : m (a + 3) = _ := Option.some.inj (h 3 (by omega))
  rw [BitVec.add_zero] at h0
  unfold getLong
  rw [h0, h1, h2, h3]
  exact longBytes_append

theorem toNat_add_ofNat {k n : Nat} (h : a.toNat + k < n) (hn : n ≤ 2 ^ w) :
    (a + BitVec.ofNat w k).toNat = a.toNat + k := by
  rw [BitVec.toNat_add, BitVec.toNat_ofNat, Nat.add_mod_mod, Nat.mod_eq_of_lt (by omega)]

theorem addLong_congr {n : Nat} (h : ∀ i : BitVec w, i.toNat < n → m i = m' i)
    (ha : a.toNat + 4 ≤ n) (hn : n ≤ 2 ^ w) (hi : i.toNat < n) :
    addLong m a v i = addLong m' a v i := by
  have hlong : getLong m a = getLong m' a :=
    getLong_congr fun k hk => h _ (by rw [toNat_add_ofNat (n := n) (by omega) hn]; omega)
  unfold addLong setLong write
  rw [hlong, h i hi]

theorem addLong_shift (c : BitVec w) :
    (fun i => addLong m (c + a) v (c + i)) = addLong (fun i => m (c + i)) a v := by
  have hlong : getLong m (c + a) = getLong (fun i => m (c + i)) a := by
    unfold getLong
    simp only [BitVec.add_assoc]
  funext i
  unfold addLong setLong write
  rw [hlong, add_sub_add_left_eq_sub]

/-- Two stretches of memory have no address in common. -/
def Apart (a : BitVec w) (n : Nat) (b : BitVec w) (k : Nat) : Prop :=
  ∀ i, (i - a).toNat < n → k ≤ (i - b).toNat

/-- A stretch of memory is the same in two memories. -/
def Intact (m m' : BitVec w → BitVec 8) (a : BitVec w) (n : Nat) : Prop :=
  ∀ i, (i - a).toNat < n → m' i = m i

theorem Apart.symm {n k : Nat} (h : Apart a n b k) : Apart b k a n := by
  intro i hb
  by_contra ha
  have := h i (by omega)
  omega

theorem Apart.mono {a' b' : BitVec w} {n n' k k' : Nat} (h : Apart a n b k)
    (ha : ∀ i, (i - a').toNat < n' → (i - a).toNat < n)
    (hb : ∀ i, (i - b').toNat < k' → (i - b).toNat < k) : Apart a' n' b' k' := by
  intro i hi
  by_contra hlt
  have hfar := h i (ha i hi)
  have hnear := hb i (by omega)
  omega

theorem Intact.refl (n : Nat) : Intact m m a n := fun _ _ => rfl

theorem Intact.trans {m'' : BitVec w → BitVec 8} {n : Nat} (h : Intact m m' a n)
    (h' : Intact m' m'' a n) : Intact m m'' a n := fun i hi => (h' i hi).trans (h i hi)

theorem Intact.mono {n k : Nat} (h : Intact m m' a n)
    (hb : ∀ i, (i - b).toNat < k → (i - a).toNat < n) : Intact m m' b k :=
  fun i hi => h i (hb i hi)

theorem intact_setLong {n : Nat} (h : Apart b n a 4) : Intact m (setLong m a v) b n :=
  fun i hi => setLong_out (h i hi)

theorem toNat_add_sub {n : Nat} (hn : n < 2 ^ w) : (a + BitVec.ofNat w n - a).toNat = n := by
  rw [add_sub_cancel_left, BitVec.toNat_ofNat, Nat.mod_eq_of_lt hn]

theorem getLong_intact (h : Intact m m' a 4) (hw : 4 ≤ 2 ^ w) : getLong m' a = getLong m a :=
  getLong_congr fun n hn => h _ (by rwa [toNat_add_sub (by omega)])

theorem getLong_setLong (hw : 4 ≤ 2 ^ w) : getLong (setLong m a v) a = v := by
  refine getLong_of_bytes fun n hn => ?_
  have hsub : (a + BitVec.ofNat w n - a).toNat = n := toNat_add_sub (by omega)
  refine (write_in ?_).trans ?_
  · rw [hsub]
    exact hn
  · rw [hsub]

/-- Longwords that are apart may be stored in any order. -/
theorem setLong_comm {u : BitVec 32} (h : Apart a 4 b 4) :
    setLong (setLong m a v) b u = setLong (setLong m b u) a v := by
  funext i
  by_cases ha : (i - a).toNat < 4
  · -- the address is in the first one, so it is not in the other one
    have hval : ∀ m' : BitVec w → BitVec 8,
        some (setLong m' a v i) = (longBytes v)[(i - a).toNat]? :=
      fun m' => write_in ha
    rw [setLong_out (h i ha)]
    exact Option.some.inj ((hval m).trans (hval (setLong m b u)).symm)
  · rw [setLong_out (m := setLong m b u) (by omega)]
    by_cases hb : (i - b).toNat < 4
    · have hval : ∀ m' : BitVec w → BitVec 8,
          some (setLong m' b u i) = (longBytes u)[(i - b).toNat]? := fun m' => write_in hb
      exact Option.some.inj ((hval (setLong m a v)).trans (hval m).symm)
    · rw [setLong_out (by omega), setLong_out (by omega), setLong_out (by omega)]

end

end Memory

end MagiC
