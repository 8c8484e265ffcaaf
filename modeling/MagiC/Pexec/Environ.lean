import MagiC.Allg.Copy
import MagiC.Lib.Laid
import Mathlib.Data.UInt

/-!
# The Environment

`env_end`, `env_get`, `env_clr` and `env_set` of `magidos.s`, on the memory an environment
lies in: strings one behind the other, each with its zero, and a zero at the end.

Strings are removed by moving up what is behind them. That is a loop which moves a string
before it looks whether there is one. When the last string is removed there is none, and the
loop looks at the byte behind the environment. If that is not zero, it moves what lies there
until it finds two zeros, and writes behind the end of the environment unless this comes to
an end within the length of the string.

`env_get` searches for a name by a length that is a word, and takes the value from the
first equals sign of the string.

## Main definitions

* `Found`: The string that is found is the right one, and so is the equals sign.

## Theorems

* `env_refines_iff`: When the routines do what they are for.
-/

namespace MagiC

namespace Pexec

namespace Environ

open Copy Laid

abbrev Mem := Nat → UInt8

def EQ : UInt8 := 0x3d

/-- The address behind the zero of a string. -/
def skip : (fuel : Nat) → Mem → Nat → Option Nat
  | 0, _, _ => none
  | fuel + 1, m, a => if m a = 0 then some (a + 1) else skip fuel m (a + 1)

/-- `env_end`: the address behind the environment. -/
def envEnd : (fuel : Nat) → Mem → Nat → Option Nat
  | 0, _, _ => none
  | fuel + 1, m, a =>
    if m a ≠ 0 then envEnd fuel m (a + 1)
    else if m (a + 1) ≠ 0 then envEnd fuel m (a + 1)
    else some (a + 2)

/-- `strncmp` with a string that is in memory, when it finds no difference. -/
def strncmp (m : Mem) : Nat → Nat → List UInt8 → Bool
  | _, 0, _ => true
  | a, n + 1, s =>
    if m a = s.headD 0 then n = 0 ∨ m a = 0 ∨ strncmp m (a + 1) n s.tail else false

/-- `getenv_4`: the address behind the equals sign. -/
def getenv4 : (fuel : Nat) → Mem → Nat → Option (Option Nat)
  | 0, _, _ => none
  | fuel + 1, m, a =>
    if m a = 0 then some none
    else if m a = EQ then some (some (a + 1))
    else getenv4 fuel m (a + 1)

/-- `env_get`: the variable and its value. The length of the name is a word. -/
def envGet : (fuel : Nat) → Mem → Nat → List UInt8 → Option (Option (Nat × Nat))
  | 0, _, _, _ => none
  | fuel + 1, m, a, var =>
    if m a = 0 then some none
    else if strncmp m a (var.length % 2 ^ 16) var then
      (getenv4 fuel m a).map fun value => value.map fun v => (a, v)
    else (skip fuel m a).bind fun b => envGet fuel m b var

/-- `envset_10`: strings are moved, and a zero is stored behind them. -/
def envset10 : (fuel : Nat) → Mem → Nat → Nat → Option Mem
  | 0, _, _, _ => none
  | fuel + 1, m, a0, a1 =>
    let c := m a0
    let m := Function.update m a1 c
    if c ≠ 0 then envset10 fuel m (a0 + 1) (a1 + 1)
    else if m (a0 + 1) ≠ 0 then envset10 fuel m (a0 + 1) (a1 + 1)
    else some (Function.update m (a1 + 1) 0)

def envClr (fuel : Nat) (m : Mem) (env : Nat) (s : List UInt8) : Option Mem :=
  (envGet fuel m env s).bind fun found =>
    found.elim (some m) fun v => (skip fuel m v.1).bind fun a0 => envset10 fuel m a0 v.1

/-- A string is stored with its zero. -/
def strcpy (m : Mem) (a : Nat) : List UInt8 → Mem
  | [] => Function.update m a 0
  | c :: s => strcpy (Function.update m a c) (a + 1) s

def envSet (fuel : Nat) (m : Mem) (env : Nat) (var val : List UInt8) : Option Mem :=
  let d2 := var.length + val.length + 1
  (envEnd fuel m env).map fun a0 =>
    let m := vmemcpy (env + d2) env (a0 - env) m
    let m := strcpy m env var
    strcpy m (env + var.length) val

/-- The first string that begins with a name, and its address. -/
def firstWith (pre : List UInt8) : Nat → List (List UInt8) → Option (Nat × List UInt8)
  | _, [] => none
  | a, s :: L => if pre <+: s then some (a, s) else firstWith pre (a + s.length + 1) L

/-- With enough time a routine comes to its end, and something is known about the result. -/
def Ends {α : Type} (f : Nat → Option α) (P : α → Prop) : Prop :=
  ∃ n, ∀ fuel, n ≤ fuel → ∃ r, f fuel = some r ∧ P r

/-- Memory outside of a stretch has not been changed. -/
def Outside (m m' : Mem) (a n : Nat) : Prop := ∀ i, i < a ∨ a + n ≤ i → m' i = m i

/-- The routines on an environment do what they are for: the value of the first string that
begins with the name is found, a string is inserted in front, the first string with the name
is removed, and memory outside of the longer environment is not touched. -/
structure Refines (m : Mem) (env : Nat) (L : List (List UInt8)) (name val : List UInt8) :
    Prop where
  get : Ends (fun fuel => envGet fuel m env name) fun r =>
    r.map Prod.snd = (firstWith name env L).map fun p => p.1 + name.length
  set : Ends (fun fuel => envSet fuel m env name val) fun m' =>
    Strings ((name ++ val) :: L) ∧ Lies m' env (encode ((name ++ val) :: L)) ∧
      Outside m m' env (encode ((name ++ val) :: L)).length
  clr : Ends (fun fuel => envClr fuel m env name) fun m' =>
    (L.eraseP (name <+: ·) ≠ [] → Lies m' env (encode (L.eraseP (name <+: ·)))) ∧
      Outside m m' env (encode L).length

/-- The first string that agrees with the name as far as it is compared begins with the
name, and the name has no equals sign but its last character; or that string has none, and
there is no string with the name. -/
def Found (L : List (List UInt8)) (name : List UInt8) : Prop :=
  ∀ A s B, L = A ++ s :: B → (∀ t ∈ A, ¬ name.take (name.length % 2 ^ 16) <+: t) →
    name.take (name.length % 2 ^ 16) <+: s →
    name <+: s ∧ EQ ∉ name.dropLast ∨ EQ ∉ s ∧ ∀ t ∈ L, ¬ name <+: t

/-- What is behind an environment comes to an end within a length. -/
def TailOk (m : Mem) (a n : Nat) : Prop := m a = 0 ∨ ∃ j < n, Pair m (a + j)

/-- If the first string with the name is the last one of the environment, what is behind the
environment comes to an end within the length of the string. -/
def LastOk (m : Mem) (env : Nat) (L : List (List UInt8)) (name : List UInt8) : Prop :=
  ∀ A s, L = A ++ [s] → (∀ t ∈ A, ¬ name <+: t) → name <+: s →
    TailOk m (env + (encode L).length) s.length

section

variable {m m' : Mem} {a b a0 a1 fuel n i : Nat} {s name val var : List UInt8}
  {L A B : List (List UInt8)}

theorem skip_spec (hl : Lies m a (s ++ [0])) (h0 : 0 ∉ s) (hf : s.length < fuel) :
    skip fuel m a = some (a + s.length + 1) := by
  induction s generalizing a fuel with
  | nil =>
    obtain ⟨fuel, rfl⟩ := Nat.exists_eq_succ_of_ne_zero (Nat.ne_zero_of_lt hf)
    exact if_pos hl.1
  | cons c s ih =>
    obtain ⟨fuel, rfl⟩ := Nat.exists_eq_succ_of_ne_zero (Nat.ne_zero_of_lt hf)
    rw [List.length_cons] at hf ⊢
    have hc : m a ≠ 0 := by
      rw [hl.1]
      exact fun h => h0 (h ▸ List.mem_cons_self)
    rw [skip, if_neg hc, ih hl.2 (fun h => h0 (List.mem_cons_of_mem c h)) (by omega)]
    congr 1
    omega

theorem strncmp_spec (hl : Lies m a (s ++ [0])) (h0 : 0 ∉ var) (hn : n ≤ var.length) :
    strncmp m a n var = true ↔ var.take n <+: s := by
  induction n generalizing a s var with
  | zero => exact iff_of_true rfl (List.take_zero ▸ List.nil_prefix)
  | succ n ih =>
    obtain ⟨c, var, rfl⟩ := List.exists_cons_of_length_pos (Nat.lt_of_lt_of_le (Nat.succ_pos n) hn)
    have hc : c ≠ 0 := fun h => h0 (h ▸ List.mem_cons_self)
    rw [strncmp, List.headD_cons, List.tail_cons, List.take_succ_cons]
    cases s with
    | nil =>
      have hne : m a ≠ c := by
        rw [hl.1]
        exact hc.symm
      rw [if_neg hne]
      exact iff_of_false Bool.false_ne_true fun h => by
        have := List.IsPrefix.length_le h
        simp at this
    | cons d s =>
      rw [show m a = d from hl.1, List.cons_prefix_cons]
      by_cases hd : d = c
      · subst hd
        have hih := ih hl.2 (fun h => h0 (List.mem_cons_of_mem d h)) (Nat.le_of_succ_le_succ hn)
        rw [if_pos rfl]
        -- the last character that is compared ends the comparison
        by_cases hn0 : n = 0
        · subst hn0
          exact iff_of_true (by simp) ⟨rfl, List.take_zero ▸ List.nil_prefix⟩
        · simp [hn0, hc, hih]
      · rw [if_neg hd]
        exact iff_of_false Bool.false_ne_true fun h => hd h.1.symm

/-- The address behind the first equals sign of a string. -/
def valueOf (a : Nat) (s : List UInt8) : Option Nat :=
  if EQ ∈ s then some (a + s.idxOf EQ + 1) else none

theorem getenv4_spec (hl : Lies m a (s ++ [0])) (h0 : 0 ∉ s) (hf : s.length < fuel) :
    getenv4 fuel m a = some (valueOf a s) := by
  induction s generalizing a fuel with
  | nil =>
    obtain ⟨fuel, rfl⟩ := Nat.exists_eq_succ_of_ne_zero (Nat.ne_zero_of_lt hf)
    exact if_pos hl.1
  | cons c s ih =>
    obtain ⟨fuel, rfl⟩ := Nat.exists_eq_succ_of_ne_zero (Nat.ne_zero_of_lt hf)
    rw [List.length_cons] at hf
    have hc : c ≠ 0 := fun h => h0 (h ▸ List.mem_cons_self)
    rw [getenv4, show m a = c from hl.1, if_neg hc]
    unfold valueOf
    by_cases heq : c = EQ
    · subst heq
      rw [if_pos rfl, if_pos List.mem_cons_self, List.idxOf_cons_self, Nat.add_zero]
    · rw [if_neg heq, ih hl.2 (fun h => h0 (List.mem_cons_of_mem c h)) (by omega)]
      unfold valueOf
      by_cases hs : EQ ∈ s
      · rw [if_pos hs, if_pos (List.mem_cons_of_mem c hs), List.idxOf_cons_ne s heq]
        congr 2
        omega
      · rw [if_neg hs, if_neg]
        rintro (_ | ⟨_, h⟩)
        · exact heq rfl
        · exact hs h

theorem envEnd_string {f : Nat} (hl : Lies m a (s ++ [0])) (h0 : 0 ∉ s) :
    envEnd (s.length + f) m a = envEnd f m (a + s.length) := by
  induction s generalizing a with
  | nil => rw [List.length_nil, Nat.zero_add, Nat.add_zero]
  | cons c s ih =>
    have hc : m a ≠ 0 := by
      rw [hl.1]
      exact fun h => h0 (h ▸ List.mem_cons_self)
    rw [List.length_cons, Nat.add_right_comm, envEnd, if_pos hc,
      ih hl.2 fun h => h0 (List.mem_cons_of_mem c h), Nat.add_assoc, Nat.add_comm 1]

/-- The end of an environment. -/
theorem envEnd_spec (hne : L ≠ []) (hL : Strings L) (hl : Lies m a (encode L))
    (hf : (encode L).length ≤ fuel) : envEnd fuel m a = some (a + (encode L).length) := by
  induction L generalizing a fuel with
  | nil => exact absurd rfl hne
  | cons s L ih =>
    obtain ⟨hs, hz, hrest⟩ := lies_nul hl
    rw [length_encode_cons] at hf ⊢
    obtain ⟨f, rfl⟩ : ∃ f, fuel = s.length + (f + 1) := ⟨fuel - s.length - 1, by omega⟩
    rw [envEnd_string hs hL.head.2, envEnd, if_neg (not_not_intro hz)]
    by_cases hnil : L = []
    · subst hnil
      rw [if_neg (not_not_intro hrest.1)]
      rfl
    · rw [if_pos fun h => hnil ((hL.tail.next hrest).mp h), ih hnil hL.tail hrest (by omega)]
      congr 1
      omega

theorem envGet_spec (hL : Strings L) (hl : Lies m a (encode L)) (h0 : 0 ∉ var)
    (hf : (encode L).length ≤ fuel) :
    envGet fuel m a var = some ((firstWith (var.take (var.length % 2 ^ 16)) a L).bind fun p =>
      (valueOf p.1 p.2).map fun v => (p.1, v)) := by
  induction L generalizing a fuel with
  | nil =>
    obtain ⟨fuel, rfl⟩ := Nat.exists_eq_succ_of_ne_zero (Nat.ne_zero_of_lt hf)
    exact if_pos hl.1
  | cons s L ih =>
    obtain ⟨hs, hz, hrest⟩ := lies_nul hl
    have hpos := encode_length (L := L)
    rw [length_encode_cons] at hf
    obtain ⟨fuel, rfl⟩ : ∃ f, fuel = f + 1 := ⟨fuel - 1, by omega⟩
    have hc : m a ≠ 0 := fun h => List.cons_ne_nil s L ((hL.next hl).mp h)
    have hcmp := strncmp_spec (n := var.length % 2 ^ 16) hs h0 (Nat.mod_le _ _)
    rw [envGet, if_neg hc, firstWith]
    by_cases hp : var.take (var.length % 2 ^ 16) <+: s
    · rw [if_pos (hcmp.mpr hp), if_pos hp, getenv4_spec hs hL.head.2 (by omega)]
      rfl
    · rw [if_neg fun h => hp (hcmp.mp h), if_neg hp, skip_spec hs hL.head.2 (by omega)]
      exact ih hL.tail hrest (by omega)

theorem firstWith_eq (hA : ∀ t ∈ A, ¬ name <+: t) (hs : name <+: s) :
    firstWith name a (A ++ s :: B) = some (a + (body A).length, s) := by
  induction A generalizing a with
  | nil => exact if_pos hs
  | cons t A ih =>
    rw [List.cons_append, firstWith, if_neg (hA t List.mem_cons_self),
      ih fun u hu => hA u (List.mem_cons_of_mem t hu), body_cons, List.length_append,
      List.length_cons]
    congr 2
    omega

theorem firstWith_none (hA : ∀ t ∈ L, ¬ name <+: t) : firstWith name a L = none := by
  induction L generalizing a with
  | nil => rfl
  | cons t L ih =>
    rw [firstWith, if_neg (hA t List.mem_cons_self)]
    exact ih fun u hu => hA u (List.mem_cons_of_mem t hu)

theorem first_or_none (name : List UInt8) (L : List (List UInt8)) :
    (∀ t ∈ L, ¬ name <+: t) ∨
      ∃ A s B, L = A ++ s :: B ∧ (∀ t ∈ A, ¬ name <+: t) ∧ name <+: s := by
  induction L with
  | nil => exact Or.inl fun t ht => by cases ht
  | cons s L ih =>
    by_cases hs : name <+: s
    · exact Or.inr ⟨[], s, L, rfl, fun t ht => (by cases ht), hs⟩
    · rcases ih with h | ⟨A, t, B, rfl, hA, ht⟩
      · refine Or.inl fun t ht => ?_
        rcases List.mem_cons.mp ht with rfl | ht
        · exact hs
        · exact h t ht
      · refine Or.inr ⟨s :: A, t, B, rfl, fun u hu => ?_, ht⟩
        rcases List.mem_cons.mp hu with rfl | hu
        · exact hs
        · exact hA u hu

theorem envEnd_congr (h : ∀ i, a ≤ i → m' i = m i) : envEnd fuel m' a = envEnd fuel m a := by
  induction fuel generalizing a with
  | zero => rfl
  | succ fuel ih =>
    rw [envEnd, envEnd, h a (Nat.le_refl a), h (a + 1) (Nat.le_succ a),
      ih fun i hi => h i (by omega)]

theorem envEnd_some (h : envEnd fuel m a = some b) :
    a + 2 ≤ b ∧ Pair m (b - 2) ∧ ∀ i, a ≤ i → i < b - 2 → ¬ Pair m i := by
  induction fuel generalizing a with
  | zero => cases h
  | succ fuel ih =>
    have hstep : ¬ Pair m a → envEnd fuel m (a + 1) = some b →
        a + 2 ≤ b ∧ Pair m (b - 2) ∧ ∀ i, a ≤ i → i < b - 2 → ¬ Pair m i := by
      intro hpair h
      obtain ⟨hle, hp, hmin⟩ := ih h
      refine ⟨by omega, hp, fun i hi hib => ?_⟩
      rcases Nat.lt_or_ge a i with hlt | hge
      · exact hmin i hlt hib
      · rwa [Nat.le_antisymm hge hi]
    rw [envEnd] at h
    by_cases hc : m a = 0
    · rw [if_neg (not_not_intro hc)] at h
      by_cases hd : m (a + 1) = 0
      · rw [if_neg (not_not_intro hd)] at h
        cases h
        exact ⟨Nat.le_refl _, ⟨hc, hd⟩, fun i hi hib => by omega⟩
      · rw [if_pos hd] at h
        exact hstep (fun hp => hd hp.2) h
    · rw [if_pos hc] at h
      exact hstep (fun hp => hc hp.1) h

theorem envEnd_ends (hp : Pair m i) (hi : a ≤ i) (hf : i < a + fuel) :
    ∃ b, envEnd fuel m a = some b ∧ b ≤ i + 2 := by
  induction fuel generalizing a with
  | zero => omega
  | succ fuel ih =>
    rw [envEnd]
    by_cases hc : m a = 0
    · rw [if_neg (not_not_intro hc)]
      by_cases hd : m (a + 1) = 0
      · rw [if_neg (not_not_intro hd)]
        exact ⟨a + 2, rfl, by omega⟩
      · rw [if_pos hd]
        have hne : a ≠ i := fun h => hd (h ▸ hp.2)
        exact ih (by omega) (by omega)
    · rw [if_pos hc]
      have hne : a ≠ i := fun h => hc (h ▸ hp.1)
      exact ih (by omega) (by omega)

theorem envset10_eq (h : a1 < a0) :
    envset10 fuel m a0 a1 = (envEnd fuel m a0).map fun b =>
      Function.update (moveUp (b - 1 - a0) a1 a0 m) (a1 + (b - 1 - a0)) 0 := by
  induction fuel generalizing m a0 a1 with
  | zero => rfl
  | succ fuel ih =>
    have hstep : envset10 fuel (Function.update m a1 (m a0)) (a0 + 1) (a1 + 1) =
        (envEnd fuel m (a0 + 1)).map fun b =>
          Function.update (moveUp (b - 1 - a0) a1 a0 m) (a1 + (b - 1 - a0)) 0 := by
      have hcongr : envEnd fuel (Function.update m a1 (m a0)) (a0 + 1) = envEnd fuel m (a0 + 1) :=
        envEnd_congr fun i hi => Function.update_of_ne (by omega) _ m
      rw [ih (by omega), hcongr]
      refine Option.map_congr fun b hb => ?_
      have hle := (envEnd_some hb).1
      obtain ⟨k, rfl⟩ : ∃ k, b = a0 + 3 + k := ⟨b - (a0 + 3), by omega⟩
      rw [show a0 + 3 + k - 1 - (a0 + 1) = k + 1 by omega,
        show a0 + 3 + k - 1 - a0 = k + 1 + 1 by omega, Nat.add_right_comm a1 1]
      rfl
    have hnext : Function.update m a1 (m a0) (a0 + 1) = m (a0 + 1) :=
      Function.update_of_ne (by omega) _ m
    rw [envset10, envEnd, hnext]
    by_cases hc : m a0 = 0
    · rw [if_neg (not_not_intro hc), if_neg (not_not_intro hc)]
      by_cases hd : m (a0 + 1) = 0
      · rw [if_neg (not_not_intro hd), if_neg (not_not_intro hd), Option.map_some,
          show a0 + 2 - 1 - a0 = 1 by omega]
        rfl
      · rw [if_pos hd, if_pos hd, hstep]
    · rw [if_pos hc, if_pos hc, hstep]

theorem strcpy_out (h : i < a ∨ a + s.length < i) : strcpy m a s i = m i := by
  induction s generalizing m a with
  | nil => exact Function.update_of_ne (by simp only [List.length_nil] at h; omega) _ m
  | cons c s ih =>
    rw [List.length_cons] at h
    rw [strcpy, ih (by omega), Function.update_of_ne (by omega)]

theorem strcpy_lies : Lies (strcpy m a s) a (s ++ [0]) := by
  induction s generalizing m a with
  | nil => exact ⟨Function.update_self a 0 m, trivial⟩
  | cons c s ih =>
    refine ⟨?_, ih⟩
    rw [strcpy, strcpy_out (Or.inl (Nat.lt_succ_self a)), Function.update_self]

theorem envSet_spec (name val : List UInt8) (hne : L ≠ []) (hL : Strings L)
    (hl : Lies m a (encode L)) (hf : (encode L).length ≤ fuel) :
    ∃ m', envSet fuel m a name val = some m' ∧ Lies m' a (encode ((name ++ val) :: L)) ∧
      Outside m m' a (encode ((name ++ val) :: L)).length := by
  refine ⟨_, congrArg (Option.map _) (envEnd_spec hne hL hl hf), ?_, fun i hi => ?_⟩
  · rw [encode_cons, List.append_assoc, lies_append, lies_append]
    have hnm := strcpy_lies (m := vmemcpy (a + (name.length + val.length + 1)) a
      (a + (encode L).length - a) m) (a := a) (s := name)
    have hval := strcpy_lies (m := strcpy (vmemcpy (a + (name.length + val.length + 1)) a
      (a + (encode L).length - a) m) a name) (a := a + name.length) (s := val)
    refine ⟨?_, (lies_append.mp hval).1, (lies_append.mp hval).2.1, ?_⟩
    · -- the zero of the name is where the value begins
      refine (lies_append.mp hnm).1.congr fun i hi hlt => ?_
      exact strcpy_out (Or.inl hlt)
    · refine hl.move fun i hi => ?_
      simp only
      rw [strcpy_out (by omega), strcpy_out (by omega), vmemcpy_apply, if_pos (by omega)]
      congr 1
      omega
  · rw [length_encode_cons, List.length_append] at hi
    simp only
    rw [strcpy_out (by omega), strcpy_out (by omega), vmemcpy_apply, if_neg (by omega)]

theorem first_unique {P : List UInt8 → Prop} {A' B' : List (List UInt8)} {s' : List UInt8}
    (h : A ++ s :: B = A' ++ s' :: B') (hA : ∀ t ∈ A, ¬ P t) (hs : P s) (hA' : ∀ t ∈ A', ¬ P t)
    (hs' : P s') : A = A' ∧ s = s' ∧ B = B' := by
  rcases List.append_eq_append_iff.mp h with ⟨c, rfl, hc⟩ | ⟨c, rfl, hc⟩
  · cases c with
    | nil =>
      rw [List.nil_append] at hc
      injection hc with h1 h2
      exact ⟨(List.append_nil A).symm, h1, h2⟩
    | cons x c =>
      injection hc with h1 _
      exact absurd hs (h1 ▸ hA' x (List.mem_append_right A List.mem_cons_self))
  · cases c with
    | nil =>
      rw [List.nil_append] at hc
      injection hc with h1 h2
      exact ⟨List.append_nil A', h1.symm, h2.symm⟩
    | cons x c =>
      injection hc with h1 _
      exact absurd hs' (h1 ▸ hA x (List.mem_append_right A' List.mem_cons_self))

theorem valueOf_prefix (hname : name.getLast? = some EQ) (hs : name <+: s) :
    ∃ v, valueOf a s = some v ∧ (v = a + name.length ↔ EQ ∉ name.dropLast) := by
  obtain ⟨nm, rfl⟩ := List.getLast?_eq_some_iff.mp hname
  obtain ⟨w, rfl⟩ := hs
  have hmem : EQ ∈ nm ++ [EQ] ++ w :=
    List.mem_append_left w (List.mem_append_right nm List.mem_cons_self)
  refine ⟨_, if_pos hmem, ?_⟩
  rw [List.dropLast_concat, List.length_append, List.append_assoc]
  by_cases hin : EQ ∈ nm
  · rw [List.idxOf_append_of_mem hin]
    have hlt := List.idxOf_lt_length_of_mem hin
    exact iff_of_false (fun h => by simp only [List.length_singleton] at h; omega)
      fun h => h hin
  · rw [List.idxOf_append_of_notMem hin, List.singleton_append, List.idxOf_cons_self]
    exact iff_of_true (by simp only [List.length_singleton]; omega) hin

theorem prefix_take {k : Nat} (h : ¬ name.take k <+: s) : ¬ name <+: s :=
  fun hp => h ((List.take_prefix k name).trans hp)

theorem get_iff (hname : name.getLast? = some EQ) :
    (((firstWith (name.take (name.length % 2 ^ 16)) a L).bind fun p =>
      (valueOf p.1 p.2).map fun v => (p.1, v)).map Prod.snd =
        (firstWith name a L).map fun p => p.1 + name.length) ↔ Found L name := by
  rcases first_or_none (name.take (name.length % 2 ^ 16)) L with h | ⟨A, s, B, rfl, hA, hs⟩
  · rw [firstWith_none h, firstWith_none fun t ht => prefix_take (h t ht)]
    refine iff_of_true rfl fun A s B hL _ hs => absurd hs (h s ?_)
    rw [hL]
    exact List.mem_append_right A List.mem_cons_self
  · have hfound : Found (A ++ s :: B) name ↔ name <+: s ∧ EQ ∉ name.dropLast ∨
        EQ ∉ s ∧ ∀ t ∈ A ++ s :: B, ¬ name <+: t := by
      refine ⟨fun h => h A s B rfl hA hs, fun h A' s' B' hL hA' hs' => ?_⟩
      obtain ⟨_, rfl, _⟩ := first_unique hL hA hs hA' hs'
      exact h
    have hcode : ((valueOf (a + (body A).length) s).map fun v => (a + (body A).length, v)).map
        Prod.snd = valueOf (a + (body A).length) s := by
      rw [Option.map_map]
      exact Option.map_id'
    rw [firstWith_eq hA hs, Option.bind_some, hcode, hfound]
    by_cases hn : name <+: s
    · obtain ⟨v, hv, hveq⟩ := valueOf_prefix (a := a + (body A).length) hname hn
      rw [firstWith_eq (fun t ht => prefix_take (hA t ht)) hn, hv, Option.map_some,
        Option.some_inj, hveq]
      constructor
      · exact fun h => Or.inl ⟨hn, h⟩
      · rintro (h | h)
        · exact h.2
        · exact absurd hn (h.2 s (List.mem_append_right A List.mem_cons_self))
    · rw [or_iff_right fun h => hn h.1]
      rcases first_or_none name (A ++ s :: B) with hnone | ⟨A', s', B', hL, hA', hs'⟩
      · rw [firstWith_none hnone, and_iff_left hnone]
        unfold valueOf
        by_cases hs : EQ ∈ s
        · rw [if_pos hs]
          exact iff_of_false (fun h => by cases h) fun h => h hs
        · rw [if_neg hs]
          exact iff_of_true rfl hs
      · -- the string with the name is behind the one that is found
        have hmem : s' ∈ A ++ s :: B := by
          rw [hL]
          exact List.mem_append_right A' List.mem_cons_self
        refine iff_of_false (fun h => ?_) fun h => h.2 s' hmem hs'
        rw [hL, firstWith_eq hA' hs'] at h
        unfold valueOf at h
        by_cases heq : EQ ∈ s
        · rw [if_pos heq, Option.map_some, Option.some_inj] at h
          have hidx := List.idxOf_lt_length_of_mem heq
          have hlong : (body A).length + s.length + 1 ≤ (body A').length := by
            rcases List.append_eq_append_iff.mp hL with ⟨c, rfl, hc⟩ | ⟨c, rfl, hc⟩
            · cases c with
              | nil =>
                injection hc with h1 _
                exact absurd hs' (h1 ▸ hn)
              | cons x c =>
                injection hc with h1 _
                subst h1
                rw [body_append, body_cons, List.length_append, List.length_append,
                  List.length_cons]
                omega
            · cases c with
              | nil =>
                injection hc with h1 _
                exact absurd hs' (h1 ▸ hn)
              | cons x c =>
                injection hc with h1 _
                exact absurd hs' (prefix_take
                  (hA s' (h1 ▸ List.mem_append_right A' List.mem_cons_self)))
          omega
        · rw [if_neg heq] at h
          cases h

theorem found_first (h : Found L name) (hL : L = A ++ s :: B) (hA : ∀ t ∈ A, ¬ name <+: t)
    (hs : name <+: s) : ∀ t ∈ A, ¬ name.take (name.length % 2 ^ 16) <+: t := by
  subst hL
  rcases first_or_none (name.take (name.length % 2 ^ 16)) (A ++ s :: B) with
    hnone | ⟨A', s', B', hL', hA', hs'⟩
  · exact fun t ht => hnone t (List.mem_append_left _ ht)
  · rcases h A' s' B' hL' hA' hs' with hn | hn
    · obtain ⟨rfl, _, _⟩ := first_unique hL' hA hs (fun t ht => prefix_take (hA' t ht)) hn.1
      exact hA'
    · exact absurd hs (hn.2 s (List.mem_append_right A List.mem_cons_self))

theorem cleared_apply (h : a1 < a0) :
    Function.update (moveUp n a1 a0 m) (a1 + n) 0 i =
      if a1 ≤ i ∧ i < a1 + n then m (a0 + (i - a1)) else if i = a1 + n then 0 else m i := by
  by_cases heq : i = a1 + n
  · rw [if_neg (by omega), if_pos heq, heq, Function.update_self]
  · rw [if_neg heq, Function.update_of_ne heq, moveUp_apply n a1 a0 m (Nat.le_of_lt h)]

theorem envClr_eq (hL : Strings (A ++ s :: B)) (hl : Lies m a (encode (A ++ s :: B)))
    (h0 : 0 ∉ name) (hA : ∀ t ∈ A, ¬ name.take (name.length % 2 ^ 16) <+: t)
    (hs : name.take (name.length % 2 ^ 16) <+: s) (heq : EQ ∈ s)
    (hf : (encode (A ++ s :: B)).length ≤ fuel) :
    envClr fuel m a name = (envEnd fuel m (a + (body A).length + s.length + 1)).map fun b =>
      Function.update
        (moveUp (b - 1 - (a + (body A).length + s.length + 1)) (a + (body A).length)
          (a + (body A).length + s.length + 1) m)
        (a + (body A).length + (b - 1 - (a + (body A).length + s.length + 1))) 0 := by
  have hget := envGet_spec hL hl h0 hf
  rw [firstWith_eq hA hs, Option.bind_some] at hget
  unfold valueOf at hget
  rw [if_pos heq, Option.map_some] at hget
  rw [encode_append, lies_append] at hl
  have hstr := (lies_nul hl.2).1
  rw [encode_append, List.length_append, length_encode_cons] at hf
  unfold envClr
  rw [hget, Option.bind_some, Option.elim_some, skip_spec hstr hL.right.head.2 (by omega),
    Option.bind_some, envset10_eq (by omega)]

theorem envClr_spec (hL : Strings (A ++ s :: B)) (hl : Lies m a (encode (A ++ s :: B)))
    (h0 : 0 ∉ name) (hA : ∀ t ∈ A, ¬ name.take (name.length % 2 ^ 16) <+: t)
    (hs : name.take (name.length % 2 ^ 16) <+: s) (heq : EQ ∈ s) (hB : B ≠ [])
    (hf : (encode (A ++ s :: B)).length ≤ fuel) :
    ∃ m', envClr fuel m a name = some m' ∧ Lies m' a (encode (A ++ B)) ∧
      Outside m m' a (encode (A ++ s :: B)).length := by
  have hclr := envClr_eq hL hl h0 hA hs heq hf
  rw [encode_append, lies_append] at hl
  have hrest := (lies_nul hl.2).2.2
  rw [encode_append, List.length_append, length_encode_cons] at hf
  rw [envEnd_spec hB hL.right.tail hrest (by omega), Option.map_some] at hclr
  refine ⟨_, hclr, ?_, fun i hi => ?_⟩
  · have hpos := encode_length (L := B)
    have hlast := hrest.get (i := (encode B).length - 1) (by omega)
    rw [encode_append, lies_append]
    constructor
    · refine hl.1.congr fun i hi hlt => ?_
      rw [cleared_apply (by omega), if_neg (by omega), if_neg (by omega)]
    · refine hrest.move fun i hi => ?_
      rw [cleared_apply (by omega)]
      by_cases hend : i = (encode B).length - 1
      · -- the zero at the end is stored again
        have hnul : (encode B)[(encode B).length - 1]? = some 0 := by
          unfold encode
          rw [List.length_append, List.length_singleton, Nat.add_sub_cancel,
            List.getElem?_append_right (Nat.le_refl _), Nat.sub_self]
          rfl
        rw [if_neg (by omega), if_pos (by omega), hend]
        exact (Option.some_inj.mp (hlast.trans hnul)).symm
      · rw [if_pos (by omega), Nat.add_sub_cancel_left]
  · rw [encode_append, List.length_append, length_encode_cons] at hi
    have hpos := encode_length (L := B)
    rw [cleared_apply (by omega), if_neg (by omega), if_neg (by omega)]

/-- The last string is removed, and what is behind the environment is not touched, if and
only if it comes to an end soon. -/
theorem envClr_last (hL : Strings (A ++ [s])) (hl : Lies m a (encode (A ++ [s])))
    (h0 : 0 ∉ name) (hA : ∀ t ∈ A, ¬ name.take (name.length % 2 ^ 16) <+: t)
    (hs : name.take (name.length % 2 ^ 16) <+: s) (heq : EQ ∈ s)
    (hf : (encode (A ++ [s])).length ≤ fuel) :
    (∃ m', envClr fuel m a name = some m' ∧ (A ≠ [] → Lies m' a (encode A)) ∧
      Outside m m' a (encode (A ++ [s])).length) ↔
        TailOk m (a + (encode (A ++ [s])).length) s.length := by
  have hclr := envClr_eq hL hl h0 hA hs heq hf
  rw [encode_append, lies_append] at hl
  obtain ⟨_, _, hz, _⟩ := lies_nul hl.2
  have hlen : (encode (A ++ [s])).length = (body A).length + s.length + 2 := by
    rw [encode_append, List.length_append, length_encode_cons]
    rfl
  rw [hlen] at hf ⊢
  rw [hclr]
  -- `f` is the address behind the environment
  obtain ⟨f, hfa⟩ : ∃ f, f = a + ((body A).length + s.length + 2) := ⟨_, rfl⟩
  rw [← hfa]
  constructor
  · rintro ⟨m', hm, _, hout⟩
    obtain ⟨b, hb, rfl⟩ := Option.map_eq_some_iff.mp hm
    obtain ⟨hle, hpair, hmin⟩ := envEnd_some hb
    by_contra hno
    unfold TailOk at hno
    push Not at hno
    have hne : b - 2 ≠ a + (body A).length + s.length + 1 := by
      intro h
      rw [h] at hpair
      rw [show f = a + (body A).length + s.length + 1 + 1 by omega] at hno
      exact hno.1 hpair.2
    obtain ⟨j, hj⟩ : ∃ j, b - 2 = f + j := ⟨b - 2 - f, by omega⟩
    have hjs : s.length ≤ j := by
      by_contra hlt
      exact hno.2 j (by omega) (hj ▸ hpair)
    -- the zero that is stored was there already, and so was the one in front of it
    have hzero := hout (f + (j - s.length)) (by omega)
    rw [cleared_apply (by omega), if_neg (by omega), if_pos (by omega)] at hzero
    rcases Nat.eq_or_lt_of_le hjs with rfl | hlt
    · rw [Nat.sub_self, Nat.add_zero] at hzero
      exact hno.1 hzero.symm
    · have hfront := hout (f + (j - s.length) - 1) (by omega)
      rw [cleared_apply (by omega), if_pos (by omega),
        show a + (body A).length + s.length + 1 + (f + (j - s.length) - 1 - (a + (body A).length)) =
          b - 2 by omega, hpair.1] at hfront
      refine hmin (f + (j - s.length) - 1) (by omega) (by omega) ⟨hfront.symm, ?_⟩
      rw [Nat.sub_add_cancel (by omega)]
      exact hzero.symm
  · intro htail
    obtain ⟨b, hb, hbf⟩ : ∃ b, envEnd fuel m (a + (body A).length + s.length + 1) = some b ∧
        b ≤ f + s.length + 1 := by
      rcases htail with h | ⟨j, hj, hp⟩
      · have hpair : Pair m (a + (body A).length + s.length + 1) := by
          refine ⟨hz, ?_⟩
          rw [show a + (body A).length + s.length + 1 + 1 = f by omega]
          exact h
        obtain ⟨b, hb, hle⟩ : ∃ b, envEnd fuel m (a + (body A).length + s.length + 1) = some b ∧
            b ≤ a + (body A).length + s.length + 1 + 2 :=
          envEnd_ends hpair (Nat.le_refl _) (by omega)
        exact ⟨b, hb, by omega⟩
      · obtain ⟨b, hb, hle⟩ : ∃ b, envEnd fuel m (a + (body A).length + s.length + 1) = some b ∧
            b ≤ f + j + 2 := envEnd_ends hp (by omega) (by omega)
        exact ⟨b, hb, by omega⟩
    have hle := (envEnd_some hb).1
    rw [hb, Option.map_some]
    refine ⟨_, rfl, fun _ => ?_, fun i hi => ?_⟩
    · unfold encode
      rw [lies_append]
      refine ⟨hl.1.congr fun i hi hlt => ?_, ?_, trivial⟩
      · rw [cleared_apply (by omega), if_neg (by omega), if_neg (by omega)]
      · rw [cleared_apply (by omega), if_pos (by omega), Nat.sub_self]
        exact hz
    · rw [cleared_apply (by omega), if_neg (by omega), if_neg (by omega)]

theorem eraseP_first (hA : ∀ t ∈ A, ¬ name <+: t) (hs : name <+: s) :
    (A ++ s :: B).eraseP (name <+: ·) = A ++ B := by
  rw [List.eraseP_append_right _ fun t ht => by simpa using hA t ht,
    List.eraseP_cons_of_pos (by simpa using hs)]

theorem eq_mem_of_name (hname : name.getLast? = some EQ) (hs : name <+: s) : EQ ∈ s :=
  hs.subset (List.mem_of_getLast? hname)

theorem clr_iff (hL : Strings L) (hl : Lies m a (encode L)) (h0 : 0 ∉ name)
    (hname : name.getLast? = some EQ) (hfound : Found L name) :
    (Ends (fun fuel => envClr fuel m a name) fun m' =>
      (L.eraseP (name <+: ·) ≠ [] → Lies m' a (encode (L.eraseP (name <+: ·)))) ∧
        Outside m m' a (encode L).length) ↔ LastOk m a L name := by
  constructor
  · rintro ⟨n, hends⟩ A s rfl hA hs
    obtain ⟨m', hm, hlies, hout⟩ := hends (max n (encode (A ++ [s])).length) (Nat.le_max_left _ _)
    rw [eraseP_first hA hs, List.append_nil] at hlies
    exact (envClr_last hL hl h0 (found_first hfound rfl hA hs)
      ((List.take_prefix _ name).trans hs) (eq_mem_of_name hname hs) (Nat.le_max_right _ _)).mp
        ⟨m', hm, hlies, hout⟩
  · intro hlast
    refine ⟨(encode L).length, fun fuel hf => ?_⟩
    rcases first_or_none name L with hnone | ⟨A, s, B, rfl, hA, hs⟩
    · have hget := (get_iff (a := a) hname).mpr hfound
      rw [firstWith_none hnone] at hget
      have hclr := envGet_spec hL hl h0 hf
      rw [Option.map_eq_none_iff.mp hget] at hclr
      have hsame : L.eraseP (name <+: ·) = L :=
        List.eraseP_of_forall_not fun t ht => by simpa using hnone t ht
      refine ⟨m, ?_, fun _ => by rwa [hsame], fun _ _ => rfl⟩
      unfold envClr
      simp only
      rw [hclr]
      rfl
    · have hpre := found_first hfound rfl hA hs
      have hs' := (List.take_prefix (name.length % 2 ^ 16) name).trans hs
      have heq := eq_mem_of_name hname hs
      rw [eraseP_first hA hs]
      by_cases hB : B = []
      · subst hB
        rw [List.append_nil]
        exact (envClr_last hL hl h0 hpre hs' heq hf).mpr (hlast A s rfl hA hs)
      · obtain ⟨m', hm, hlies, hout⟩ := envClr_spec hL hl h0 hpre hs' heq hB hf
        exact ⟨m', hm, fun _ => hlies, hout⟩

end

/-- The routines do what they are for if and only if the right string is found, and what is
behind the environment comes to an end soon when its last string is removed. -/
theorem env_refines_iff (m : Mem) (env : Nat) (L : List (List UInt8)) (name val : List UInt8)
    (hne : L ≠ []) (hL : Strings L) (hl : Lies m env (encode L)) (h0 : 0 ∉ name)
    (hname : name.getLast? = some EQ) (hval : 0 ∉ val) :
    Refines m env L name val ↔ Found L name ∧ LastOk m env L name := by
  constructor
  · rintro ⟨⟨n, hget⟩, _, hclr⟩
    have hf : (encode L).length ≤ max n (encode L).length := Nat.le_max_right _ _
    obtain ⟨r, hr, hval⟩ := hget _ (Nat.le_max_left n (encode L).length)
    simp only at hr
    rw [envGet_spec hL hl h0 hf] at hr
    rw [← Option.some_inj.mp hr] at hval
    have hfound := (get_iff hname).mp hval
    exact ⟨hfound, (clr_iff hL hl h0 hname hfound).mp hclr⟩
  · rintro ⟨hfound, hlast⟩
    refine ⟨⟨(encode L).length, fun fuel hf => ?_⟩, ⟨(encode L).length, fun fuel hf => ?_⟩,
      (clr_iff hL hl h0 hname hfound).mpr hlast⟩
    · exact ⟨_, envGet_spec hL hl h0 hf, (get_iff hname).mpr hfound⟩
    · obtain ⟨m', hm, hlies, hout⟩ := envSet_spec name val hne hL hl hf
      refine ⟨m', hm, fun s hs => ?_, hlies, hout⟩
      rcases List.mem_cons.mp hs with rfl | hs
      · have hn : name ≠ [] := by
          rintro rfl
          cases hname
        refine ⟨List.append_ne_nil_of_left_ne_nil hn val, fun hz => ?_⟩
        rcases List.mem_append.mp hz with h | h
        · exact h0 h
        · exact hval h
      · exact hL s hs

/-- The environment `A=` at address 1, with two bytes behind it. -/
def oneVariable (x y : UInt8) : Mem := fun i => [0, 0x41, EQ, 0, 0, x, y].getD i 0

theorem oneVariable_lies (x y : UInt8) :
    Lies (oneVariable x y) 1 (encode [[0x41, EQ]]) := ⟨rfl, rfl, rfl, rfl, trivial⟩

theorem oneVariable_strings : Strings [[0x41, EQ]] := by
  intro s hs
  rw [List.mem_singleton] at hs
  subst hs
  exact ⟨by decide, by decide⟩

theorem oneVariable_found : Found [[0x41, EQ]] [0x41, EQ] := by
  intro A s B hL _ _
  have hs : s ∈ [[0x41, EQ]] := by
    rw [hL]
    exact List.mem_append_right A List.mem_cons_self
  rw [List.mem_singleton] at hs
  subst hs
  exact Or.inl ⟨by decide, by decide⟩

/-- The variables `A=` and `B=`, and zeros behind them. -/
def twoVariables : Mem := fun i => [0, 0x41, EQ, 0, 0x42, EQ].getD i 0

def ab : List (List UInt8) := [[0x41, EQ], [0x42, EQ]]

theorem twoVariables_lies : Lies twoVariables 1 (encode ab) :=
  ⟨rfl, rfl, rfl, rfl, rfl, rfl, rfl, trivial⟩

theorem ab_strings : Strings ab := by
  intro s hs
  rcases List.mem_pair.mp hs with rfl | rfl
  · exact ⟨by decide, by decide⟩
  · exact ⟨by decide, by decide⟩

/-- The second variable is found, set and removed. -/
theorem env_refines_iff_two : Refines twoVariables 1 ab [0x42, EQ] [0x31] := by
  refine (env_refines_iff twoVariables 1 ab [0x42, EQ] [0x31] (List.cons_ne_nil _ _) ab_strings
    twoVariables_lies (by decide) rfl (by decide)).mpr ⟨?_, fun _ _ _ _ _ => Or.inl rfl⟩
  intro A s B hL _ hpre
  have hs : s ∈ ab := by
    rw [hL]
    exact List.mem_append_right A List.mem_cons_self
  rcases List.mem_pair.mp hs with rfl | rfl
  · exact absurd hpre (by decide)
  · exact Or.inl ⟨by decide, by decide⟩

/-- The only variable is removed. The byte behind the environment is not zero, and is
overwritten. -/
theorem env_clr_spills :
    ((envClr 9 (oneVariable 0x42 0x43) 1 [0x41, EQ]).map fun m => m 5) = some 0 ∧
    oneVariable 0x42 0x43 5 = 0x42 ∧
    ¬ Refines (oneVariable 0x42 0x43) 1 [[0x41, EQ]] [0x41, EQ] [] := by
  refine ⟨by decide, rfl, fun h => ?_⟩
  have hlast := (clr_iff oneVariable_strings (oneVariable_lies 0x42 0x43) (by decide) rfl
    oneVariable_found).mp h.clr
  rcases hlast [] [0x41, EQ] rfl (fun t ht => (by cases ht)) (List.prefix_refl _) with
    hz | ⟨j, hj, hp⟩
  · revert hz
    decide
  · have hj2 : j < 2 := hj
    rcases Nat.lt_or_ge j 1 with h0 | h1
    · obtain rfl : j = 0 := by omega
      revert hp
      unfold Pair
      decide
    · obtain rfl : j = 1 := by omega
      revert hp
      unfold Pair
      decide

end Environ

end Pexec

end MagiC
