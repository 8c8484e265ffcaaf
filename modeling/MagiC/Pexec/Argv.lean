import MagiC.Pexec.Environ
import Mathlib.Data.List.TakeWhile

/-!
# The Command Line in the Environment

`cmd2arglen` and `cmd2argv` of `magidos.s`: a command line is put behind the environment as
the variable `ARGV`, word by word.

The words are separated by spaces, by tabs behind a separator, and by the ends of lines.
Behind a separator spaces and tabs are skipped, but the end of a line is not. There it ends
a word of length zero, and since a string of length zero is the end of an environment, the
words behind it are lost.

The memory the command line is in is one of its own, with its first byte at address 0.

## Main definitions

* `Argued`: The environment ends with the arguments.

## Theorems

* `cmd2argv_iff`: When the routines do what they are for.
-/

namespace MagiC

namespace Pexec

namespace Environ

open Copy Laid

def SP : UInt8 := 0x20

def TAB : UInt8 := 9

/-- The ends of a line. -/
def CR : UInt8 := 0x0d

def LF : UInt8 := 0x0a

/-- `argv_s`. -/
def ARGV : List UInt8 := [0x41, 0x52, 0x47, 0x56, EQ]

def cmd2arglen (fuel : Nat) (cl : Mem) (arg0 : List UInt8) : Option Nat :=
  if cl 0 = 0x7f then some 0
  else if cl 0 = 0xff then (skip fuel cl 1).map fun b => b - 1 - 1 + arg0.length + 8
  else if cl 0 = 0xfe then (envEnd fuel cl 1).map fun b => b - 1
  else some 0

/-- `c2v_nxt2` and `c2v_cloop`: the words of a line are stored. With `nxt` spaces and tabs
are skipped first. -/
def c2vLoop (cl : Mem) : (fuel : Nat) → (nxt : Bool) → Mem → Nat → Nat → Option Mem
  | 0, _, _, _, _ => none
  | fuel + 1, nxt, m, a5, a6 =>
    if nxt ∧ (cl a5 = SP ∨ cl a5 = TAB) then c2vLoop cl fuel nxt m (a5 + 1) a6
    else if cl a5 = 0 then some (Function.update (Function.update m a6 0) (a6 + 1) 0)
    else if cl a5 = SP ∨ cl a5 = CR ∨ cl a5 = LF then
      c2vLoop cl fuel true (Function.update m a6 0) (a5 + 1) (a6 + 1)
    else c2vLoop cl fuel false (Function.update m a6 (cl a5)) (a5 + 1) (a6 + 1)

/-- `c2v_cploop`: strings are copied, and a zero is stored behind them. -/
def c2vCploop (cl : Mem) : (fuel : Nat) → Mem → Nat → Nat → Option Mem
  | 0, _, _, _ => none
  | fuel + 1, m, a5, a6 =>
    let m := Function.update m a6 (cl a5)
    if cl a5 ≠ 0 then c2vCploop cl fuel m (a5 + 1) (a6 + 1)
    else if cl (a5 + 1) ≠ 0 then c2vCploop cl fuel m (a5 + 1) (a6 + 1)
    else some (Function.update m (a6 + 1) 0)

/-- Where `ARGV` begins, or the second zero at the end of the environment. -/
def argvPlace (fuel : Nat) (m : Mem) (env : Nat) : Option Nat :=
  (envGet fuel m env ARGV).bind fun found =>
    found.elim ((envEnd fuel m env).map fun b => b - 1) fun v => some v.1

def cmd2argv (fuel : Nat) (cl m : Mem) (env : Nat) (arg0 : List UInt8) : Option Mem :=
  if cl 0 = 0x7f then some m
  else (argvPlace fuel m env).bind fun a6 =>
    let m := Function.update m a6 0
    if cl 0 = 0xff then
      let m := strcpy m a6 ARGV
      let m := strcpy m (a6 + 6) arg0
      c2vLoop cl fuel true m 1 (a6 + 6 + arg0.length + 1)
    else if cl 0 = 0xfe then c2vCploop cl fuel m 1 a6
    else some m

/-- A character that ends a word. -/
def IsSep (c : UInt8) : Prop := c = SP ∨ c = CR ∨ c = LF

instance (c : UInt8) : Decidable (IsSep c) := inferInstanceAs (Decidable (_ ∨ _ ∨ _))

/-- The words of a line behind the beginning of one. A tab in front of a word belongs to the
separator. -/
def wordsFrom (w : List UInt8) : List UInt8 → List (List UInt8)
  | [] => if w = [] then [] else [w]
  | c :: t =>
    if IsSep c then if w = [] then wordsFrom [] t else w :: wordsFrom [] t
    else if w = [] ∧ c = TAB then wordsFrom [] t
    else wordsFrom (w ++ [c]) t

def words (t : List UInt8) : List (List UInt8) := wordsFrom [] t

/-- A word: it does not begin with a tab. -/
structure Word (w : List UInt8) : Prop where
  ne : w ≠ []
  chars : ∀ c ∈ w, ¬ IsSep c
  head : w.head? ≠ some TAB

/-- A separator, with tabs in it but not in front. -/
structure Gap (g : List UInt8) : Prop where
  chars : ∀ c ∈ g, IsSep c ∨ c = TAB
  head : ∃ c ∈ g.head?, IsSep c

/-- A line is a sequence of words with separators between them, in front and behind. -/
inductive Line : List UInt8 → List (List UInt8) → Prop
  | nil : Line [] []
  | word {w} (hw : Word w) : Line w [w]
  | front {g t ws} (hg : ∀ c ∈ g, IsSep c ∨ c = TAB) (ht : Line t ws) : Line (g ++ t) ws
  | cons {w g t ws} (hw : Word w) (hg : Gap g) (ht : Line t ws) : Line (w ++ (g ++ t)) (w :: ws)

/-- Whether the next character comes behind a separator, if the one before this did. -/
def behind (b : Bool) (c : UInt8) : Bool := IsSep c ∨ b = true ∧ c = TAB

/-- No word is behind the end of a line that comes behind a separator. -/
def KeptFrom (b : Bool) (t : List UInt8) : Prop :=
  ∀ u c v, t = u ++ c :: v → c = CR ∨ c = LF → u.foldl behind b = true → words v = []

/-- No word is behind the end of a line that comes behind a separator, or that the line
begins with. -/
def Kept (t : List UInt8) : Prop := KeptFrom true t

/-- What is stored for a line. -/
def emit : (nxt : Bool) → List UInt8 → List UInt8
  | _, [] => [0, 0]
  | nxt, c :: t =>
    if nxt ∧ (c = SP ∨ c = TAB) then emit nxt t
    else if IsSep c then 0 :: emit true t
    else c :: emit false t

/-- The memory of a command line: a line ends with a zero, and a list of strings with two. -/
structure Cmdline (cl : Mem) : Prop where
  line : cl 0 = 0xff → ∃ t, 0 ∉ t ∧ Lies cl 1 (t ++ [0])
  argv : cl 0 = 0xfe → ∃ i, 1 ≤ i ∧ Pair cl i

/-- The environment grows by the estimate at most, and nothing else is changed. -/
def Fits (m : Mem) (env : Nat) (L : List (List UInt8)) (cl : Mem) (arg0 : List UInt8) : Prop :=
  Ends (fun fuel => (cmd2arglen fuel cl arg0).bind fun n =>
    (cmd2argv fuel cl m env arg0).map fun m' => (n, m')) fun r =>
      Outside m r.2 env ((encode L).length + r.1) ∧
      Ends (fun fuel => envEnd fuel r.2 env) fun b => b ≤ env + ((encode L).length + r.1)

/-- The strings in front of a previous variable. -/
def beforeArgv (L : List (List UInt8)) : List (List UInt8) := L.takeWhile (¬ ARGV <+: ·)

/-- The environment that `env_end` sees ends with the arguments, in place of what was behind
a previous variable. -/
def Argued (m : Mem) (env : Nat) (L : List (List UInt8)) (cl : Mem) (arg0 : List UInt8)
    (ws : List (List UInt8)) : Prop :=
  Ends (fun fuel => cmd2argv fuel cl m env arg0) fun m' =>
    Lies m' env (encode (beforeArgv L ++ ARGV :: arg0 :: ws)) ∧
    Ends (fun fuel => envEnd fuel m' env) fun b =>
      b = env + (encode (beforeArgv L ++ ARGV :: arg0 :: ws)).length

section

variable {cl m m' : Mem} {a a5 a6 env fuel i : Nat} {b nxt : Bool} {c : UInt8}
  {w t u v arg0 : List UInt8} {L : List (List UInt8)}

theorem wordsFrom_append (hc : IsSep c) :
    wordsFrom w (u ++ c :: v) = wordsFrom w u ++ wordsFrom [] v := by
  induction u generalizing w with
  | nil =>
    rw [List.nil_append, wordsFrom, wordsFrom, if_pos hc]
    by_cases hw : w = []
    · rw [if_pos hw, if_pos hw, List.nil_append]
    · rw [if_neg hw, if_neg hw, List.singleton_append]
  | cons d u ih =>
    rw [List.cons_append, wordsFrom, wordsFrom, ih, ih]
    by_cases hd : IsSep d
    · rw [if_pos hd, if_pos hd]
      by_cases hw : w = []
      · rw [if_pos hw, if_pos hw]
      · rw [if_neg hw, if_neg hw, List.cons_append]
    · rw [if_neg hd, if_neg hd]
      by_cases hw : w = [] ∧ d = TAB
      · rw [if_pos hw, if_pos hw]
      · rw [if_neg hw, if_neg hw]

theorem wordsFrom_gap {g : List UInt8} (hg : ∀ c ∈ g, IsSep c ∨ c = TAB) :
    wordsFrom [] (g ++ t) = wordsFrom [] t := by
  induction g with
  | nil => rfl
  | cons c g ih =>
    have ih' := ih fun d hd => hg d (List.mem_cons_of_mem c hd)
    rw [List.cons_append, wordsFrom, ih']
    by_cases hc : IsSep c
    · rw [if_pos hc, if_pos rfl]
    · rw [if_neg hc, if_pos ⟨rfl, (hg c List.mem_cons_self).resolve_left hc⟩]

theorem wordsFrom_chars (hv : ∀ c ∈ v, ¬ IsSep c) (hw : w ≠ []) :
    wordsFrom w (v ++ t) = wordsFrom (w ++ v) t := by
  induction v generalizing w with
  | nil => rw [List.nil_append, List.append_nil]
  | cons c v ih =>
    rw [List.cons_append, wordsFrom, if_neg (hv c List.mem_cons_self), if_neg fun h => hw h.1,
      ih (fun d hd => hv d (List.mem_cons_of_mem c hd))
        (List.append_ne_nil_of_left_ne_nil hw [c]), List.append_assoc, List.singleton_append]

theorem wordsFrom_word (hw : Word w) : wordsFrom [] (w ++ t) = wordsFrom w t := by
  obtain ⟨c, w', rfl⟩ := List.exists_cons_of_ne_nil hw.ne
  have htab : ¬ (([] : List UInt8) = [] ∧ c = TAB) := fun h => hw.head (congrArg some h.2)
  rw [List.cons_append, wordsFrom, if_neg (hw.chars c List.mem_cons_self), if_neg htab,
    List.nil_append, wordsFrom_chars (fun d hd => hw.chars d (List.mem_cons_of_mem c hd))
      (List.cons_ne_nil c []), List.singleton_append]

/-- The words of a line are the ones it is made of. -/
theorem words_line {ws : List (List UInt8)} (h : Line t ws) : words t = ws := by
  unfold words
  induction h with
  | nil => rfl
  | word hw =>
    have hword := wordsFrom_word (t := []) hw
    rw [List.append_nil] at hword
    rw [hword, wordsFrom, if_neg hw.ne]
  | front hg _ ih => rw [wordsFrom_gap hg, ih]
  | cons hw hg _ ih =>
    obtain ⟨c, hc, hsep⟩ := hg.head
    obtain ⟨g', rfl⟩ := List.head?_eq_some_iff.mp hc
    rw [wordsFrom_word hw, List.cons_append, wordsFrom, if_pos hsep, if_neg hw.ne,
      wordsFrom_gap fun d hd => hg.chars d (List.mem_cons_of_mem c hd), ih]

theorem wordsFrom_strings (hw : 0 ∉ w) (ht : 0 ∉ t) : Strings (wordsFrom w t) := by
  induction t generalizing w with
  | nil =>
    intro s hs
    rw [wordsFrom] at hs
    by_cases h : w = []
    · rw [if_pos h] at hs
      cases hs
    · rw [if_neg h, List.mem_singleton] at hs
      exact hs ▸ ⟨h, hw⟩
  | cons c t ih =>
    have ht' : 0 ∉ t := fun h => ht (List.mem_cons_of_mem c h)
    have hnil : (0 : UInt8) ∉ ([] : List UInt8) := fun h => by cases h
    rw [wordsFrom]
    by_cases hc : IsSep c
    · rw [if_pos hc]
      by_cases h : w = []
      · rw [if_pos h]
        exact ih hnil ht'
      · rw [if_neg h]
        intro s hs
        rcases List.mem_cons.mp hs with rfl | hs
        · exact ⟨h, hw⟩
        · exact ih hnil ht' s hs
    · rw [if_neg hc]
      by_cases h : w = [] ∧ c = TAB
      · rw [if_pos h]
        exact ih hnil ht'
      · rw [if_neg h]
        refine ih (fun h0 => ?_) ht'
        rcases List.mem_append.mp h0 with h1 | h1
        · exact hw h1
        · rw [List.mem_singleton] at h1
          exact ht (h1 ▸ List.mem_cons_self)

theorem keptFrom_cons : KeptFrom b (c :: t) ↔
    (c = CR ∨ c = LF → b = true → words t = []) ∧ KeptFrom (behind b c) t := by
  constructor
  · intro h
    exact ⟨fun hc hb => h [] c t rfl hc hb,
      fun u d v ht hd hu => h (c :: u) d v (congrArg (c :: ·) ht) hd hu⟩
  · rintro ⟨hc, ht⟩ u d v heq hd hu
    cases u with
    | nil =>
      injection heq with h1 h2
      subst h1 h2
      exact hc hd hu
    | cons e u =>
      injection heq with h1 h2
      subst h1
      exact ht u d v h2 hd hu

theorem keptFrom_of_words (h : words t = []) : KeptFrom b t := by
  intro u c v ht hc _
  have happ := wordsFrom_append (w := []) (u := u) (v := v) (c := c) (Or.inr hc)
  rw [← ht, show wordsFrom [] t = [] from h] at happ
  exact (List.append_eq_nil_iff.mp happ.symm).2

theorem keptFrom_nil : KeptFrom b [] := by
  intro u c v h
  cases u <;> cases h

/-- The words in front of the first empty one are stored, with the zero that ends the
environment there. They are all the words if none is lost. -/
theorem emit_words (hb : b = true ↔ w = []) :
    ∃ ws ws' rest, wordsFrom w t = ws ++ ws' ∧ w ++ emit b t = encode ws ++ rest ∧
      (ws' = [] ↔ KeptFrom b t) := by
  induction t generalizing b w with
  | nil =>
    have hkept : ([] : List (List UInt8)) = [] ↔ KeptFrom b [] := iff_of_true rfl keptFrom_nil
    by_cases hw : w = []
    · exact ⟨[], [], [0], if_pos hw, by rw [hw]; rfl, hkept⟩
    · exact ⟨[w], [], [], if_neg hw, by rw [encode_cons, List.append_nil]; rfl, hkept⟩
  | cons c t ih =>
    have hnext : ∀ {d : Bool} {x : List UInt8}, (d = true ↔ x = []) → behind b c = d →
        (c = CR ∨ c = LF → b = true → words t = []) →
        ∃ ws ws' rest, wordsFrom x t = ws ++ ws' ∧ x ++ emit d t = encode ws ++ rest ∧
          (ws' = [] ↔ KeptFrom b (c :: t)) := by
      intro d x hd hbc hc
      obtain ⟨ws, ws', rest, h1, h2, h3⟩ := ih hd
      refine ⟨ws, ws', rest, h1, h2, h3.trans ?_⟩
      rw [keptFrom_cons, hbc, and_iff_right hc]
    rw [wordsFrom, emit]
    have htrue : (true = true ↔ ([] : List UInt8) = []) := iff_of_true rfl rfl
    by_cases hsep : IsSep c
    · have hbeh : behind b c = true := by simp [behind, hsep]
      rw [if_pos hsep]
      by_cases hw : w = []
      · have hbt : b = true := hb.mpr hw
        subst hw hbt
        rw [if_pos rfl]
        by_cases hsp : c = SP
        · -- a space behind a separator is skipped
          rw [if_pos ⟨rfl, Or.inl hsp⟩]
          subst hsp
          exact hnext htrue hbeh fun h => absurd h (by decide)
        · -- the end of a line behind a separator is an empty word
          have hnot : ¬ (true = true ∧ (c = SP ∨ c = TAB)) := by
            rintro ⟨_, h | h⟩
            · exact hsp h
            · subst h
              revert hsep
              decide
          have hend : c = CR ∨ c = LF := or_iff_not_imp_left.mp hsep hsp
          rw [if_neg hnot, if_pos hsep]
          refine ⟨[], wordsFrom [] t, emit true t, rfl, rfl, ?_⟩
          rw [keptFrom_cons, hbeh]
          exact ⟨fun h => ⟨fun _ _ => h, keptFrom_of_words h⟩, fun h => h.1 hend rfl⟩
      · have hbf : b = false := Bool.eq_false_iff.mpr fun h => hw (hb.mp h)
        subst hbf
        obtain ⟨ws, ws', rest, h1, h2, h3⟩ := hnext htrue hbeh fun _ h => by cases h
        rw [if_neg hw, if_neg fun h => Bool.false_ne_true h.1, if_pos hsep]
        refine ⟨w :: ws, ws', rest, by rw [h1, List.cons_append], ?_, h3⟩
        rw [encode_cons, List.append_assoc, List.cons_append, ← h2, List.nil_append]
    · have hcr : ¬ (c = CR ∨ c = LF) := fun h => hsep (Or.inr h)
      rw [if_neg hsep]
      by_cases htab : w = [] ∧ c = TAB
      · have hbt : b = true := hb.mpr htab.1
        subst hbt
        have hbeh : behind true c = true := by simp [behind, htab.2]
        rw [if_pos htab, if_pos ⟨rfl, Or.inr htab.2⟩, htab.1]
        exact hnext htrue hbeh fun h => absurd h hcr
      · have hskip : ¬ (b = true ∧ (c = SP ∨ c = TAB)) := by
          rintro ⟨h, hsp | ht⟩
          · exact hsep (Or.inl hsp)
          · exact htab ⟨hb.mp h, ht⟩
        have hbeh : behind b c = false := by
          rw [Bool.eq_false_iff]
          intro h
          rcases of_decide_eq_true h with h | h
          · exact hsep h
          · exact htab ⟨hb.mp h.1, h.2⟩
        have hfalse : (false = true ↔ w ++ [c] = []) :=
          iff_of_false Bool.false_ne_true
            (List.append_ne_nil_of_right_ne_nil w (List.cons_ne_nil _ _))
        obtain ⟨ws, ws', rest, h1, h2, h3⟩ := hnext hfalse hbeh fun h => absurd h hcr
        rw [if_neg htab, if_neg hskip, if_neg hsep]
        refine ⟨ws, ws', rest, h1, ?_, h3⟩
        rw [← h2, List.append_assoc, List.singleton_append]

theorem emit_length (nxt : Bool) (t : List UInt8) : (emit nxt t).length ≤ t.length + 2 := by
  induction t generalizing nxt with
  | nil => exact Nat.le_refl 2
  | cons c t ih =>
    rw [emit, List.length_cons]
    split
    · exact Nat.le_trans (ih nxt) (Nat.le_add_right _ 1)
    · split
      · exact Nat.succ_le_succ (ih true)
      · exact Nat.succ_le_succ (ih false)

theorem emit_end (nxt : Bool) (t : List UInt8) : ∃ front, emit nxt t = front ++ [0, 0] := by
  induction t generalizing nxt with
  | nil => exact ⟨[], rfl⟩
  | cons c t ih =>
    rw [emit]
    split
    · exact ih nxt
    · split
      · obtain ⟨front, h⟩ := ih true
        exact ⟨0 :: front, congrArg (0 :: ·) h⟩
      · obtain ⟨front, h⟩ := ih false
        exact ⟨c :: front, congrArg (c :: ·) h⟩

theorem c2vLoop_spec (nxt : Bool) (m : Mem) (a6 : Nat) (hl : Lies cl a5 (t ++ [0]))
    (h0 : 0 ∉ t) (hf : t.length < fuel) :
    ∃ m', c2vLoop cl fuel nxt m a5 a6 = some m' ∧ Lies m' a6 (emit nxt t) ∧
      Outside m m' a6 (emit nxt t).length := by
  induction t generalizing nxt m a5 a6 fuel with
  | nil =>
    obtain ⟨fuel, rfl⟩ := Nat.exists_eq_succ_of_ne_zero (Nat.ne_zero_of_lt hf)
    have hz : cl a5 = 0 := hl.1
    have hno : ¬ (nxt = true ∧ (cl a5 = SP ∨ cl a5 = TAB)) := by
      rw [hz]
      rintro ⟨_, h⟩
      revert h
      decide
    rw [c2vLoop, if_neg hno, if_pos hz]
    refine ⟨_, rfl, ⟨?_, Function.update_self _ _ _, trivial⟩, fun i hi => ?_⟩
    · rw [Function.update_of_ne (by omega), Function.update_self]
    · rw [show (emit nxt []).length = 2 from rfl] at hi
      rw [Function.update_of_ne (by omega), Function.update_of_ne (by omega)]
  | cons c t ih =>
    obtain ⟨fuel, rfl⟩ := Nat.exists_eq_succ_of_ne_zero (Nat.ne_zero_of_lt hf)
    rw [List.length_cons] at hf
    have hc : cl a5 = c := hl.1
    have hc0 : c ≠ 0 := fun h => h0 (h ▸ List.mem_cons_self)
    have ht : 0 ∉ t := fun h => h0 (List.mem_cons_of_mem c h)
    -- a byte is stored, and then the rest behind it
    have hstore : ∀ (x : UInt8) (nxt : Bool), ∃ m',
        c2vLoop cl fuel nxt (Function.update m a6 x) (a5 + 1) (a6 + 1) = some m' ∧
          Lies m' a6 (x :: emit nxt t) ∧ Outside m m' a6 (x :: emit nxt t).length := by
      intro x nxt
      obtain ⟨m', h1, h2, h3⟩ := ih nxt (Function.update m a6 x) (a6 + 1)
        hl.2 ht (Nat.lt_of_succ_lt_succ hf)
      refine ⟨m', h1, ⟨?_, h2⟩, fun i hi => ?_⟩
      · rw [h3 a6 (Or.inl (Nat.lt_succ_self a6)), Function.update_self]
      · rw [List.length_cons] at hi
        rw [h3 i (by omega), Function.update_of_ne (by omega)]
    rw [c2vLoop, emit, hc, if_neg hc0]
    by_cases hskip : nxt = true ∧ (c = SP ∨ c = TAB)
    · rw [if_pos hskip, if_pos hskip]
      exact ih nxt m a6 hl.2 ht (Nat.lt_of_succ_lt_succ hf)
    · rw [if_neg hskip, if_neg hskip]
      by_cases hsep : IsSep c
      · have hsep' : c = SP ∨ c = CR ∨ c = LF := hsep
        rw [if_pos hsep', if_pos hsep]
        exact hstore 0 true
      · have hsep' : ¬ (c = SP ∨ c = CR ∨ c = LF) := hsep
        rw [if_neg hsep', if_neg hsep]
        exact hstore c false

theorem c2vCploop_eq : c2vCploop cl fuel m a5 a6 = (envEnd fuel cl a5).map fun b =>
    Function.update (moveBytes cl (b - 1 - a5) a5 a6 m) (a6 + (b - 1 - a5)) 0 := by
  induction fuel generalizing m a5 a6 with
  | zero => rfl
  | succ fuel ih =>
    have hstep : c2vCploop cl fuel (Function.update m a6 (cl a5)) (a5 + 1) (a6 + 1) =
        (envEnd fuel cl (a5 + 1)).map fun b =>
          Function.update (moveBytes cl (b - 1 - a5) a5 a6 m) (a6 + (b - 1 - a5)) 0 := by
      rw [ih]
      refine Option.map_congr fun b hb => ?_
      have hle := (envEnd_some hb).1
      obtain ⟨k, rfl⟩ : ∃ k, b = a5 + 3 + k := ⟨b - (a5 + 3), by omega⟩
      rw [show a5 + 3 + k - 1 - (a5 + 1) = k + 1 by omega,
        show a5 + 3 + k - 1 - a5 = k + 1 + 1 by omega, Nat.add_right_comm a6 1]
      rfl
    rw [c2vCploop, envEnd]
    by_cases hc : cl a5 = 0
    · rw [if_neg (not_not_intro hc), if_neg (not_not_intro hc)]
      by_cases hd : cl (a5 + 1) = 0
      · rw [if_neg (not_not_intro hd), if_neg (not_not_intro hd), Option.map_some,
          show a5 + 2 - 1 - a5 = 1 by omega]
        rfl
      · rw [if_pos hd, if_pos hd, hstep]
    · rw [if_pos hc, if_pos hc, hstep]

theorem argv_take : ARGV.take (ARGV.length % 2 ^ 16) = ARGV := by decide

theorem beforeArgv_body (L : List (List UInt8)) :
    (body (beforeArgv L)).length ≤ (body L).length := by
  obtain ⟨B, hB⟩ := List.takeWhile_prefix (l := L) fun s => decide (¬ ARGV <+: s)
  have h : body L = body (beforeArgv L) ++ body B := by
    rw [← body_append]
    exact congrArg body hB.symm
  rw [h, List.length_append]
  exact Nat.le_add_right _ _

theorem beforeArgv_lies (hl : Lies m env (encode L)) : Lies m env (body (beforeArgv L)) := by
  obtain ⟨B, hB⟩ := List.takeWhile_prefix (l := L) fun s => decide (¬ ARGV <+: s)
  have h : encode L = body (beforeArgv L) ++ encode B := by
    rw [← encode_append]
    exact congrArg encode hB.symm
  exact (lies_append.mp (h ▸ hl)).1

theorem argvPlace_spec (hne : L ≠ []) (hL : Strings L) (hl : Lies m env (encode L))
    (hf : (encode L).length ≤ fuel) :
    argvPlace fuel m env = some (env + (body (beforeArgv L)).length) := by
  have h0 : 0 ∉ ARGV := by decide
  have hget := envGet_spec hL hl h0 hf
  rw [argv_take] at hget
  unfold argvPlace beforeArgv
  rcases first_or_none ARGV L with hnone | ⟨A, s, B, rfl, hA, hs⟩
  · rw [firstWith_none hnone] at hget
    have hall : L.takeWhile (¬ ARGV <+: ·) = L :=
      List.takeWhile_eq_self_iff.mpr fun t ht => by simpa using hnone t ht
    rw [hget, envEnd_spec hne hL hl hf, hall, encode_length]
    rfl
  · have hend : ARGV.getLast? = some EQ := rfl
    obtain ⟨v, hv, _⟩ := valueOf_prefix (a := env + (body A).length) hend hs
    rw [firstWith_eq hA hs, Option.bind_some, hv] at hget
    have hall : (A ++ s :: B).takeWhile (¬ ARGV <+: ·) = A := by
      rw [List.takeWhile_append_of_pos fun t ht => by simpa using hA t ht,
        List.takeWhile_cons_of_neg (by simpa using hs), List.append_nil]
    rw [hget, hall]
    rfl

theorem cmd2argv_line (arg0 : List UInt8) (hne : L ≠ []) (hL : Strings L)
    (hl : Lies m env (encode L))
    (hcl : Lies cl 0 (0xff :: (t ++ [0]))) (h0 : 0 ∉ t) (hf : (encode L).length ≤ fuel)
    (ht : t.length < fuel) :
    ∃ m', cmd2argv fuel cl m env arg0 = some m' ∧
      Lies m' (env + (body (beforeArgv L)).length) (body [ARGV, arg0] ++ emit true t) ∧
      Outside m m' (env + (body (beforeArgv L)).length)
        (arg0.length + 7 + (emit true t).length) := by
  have hff : cl 0 = 0xff := hcl.1
  have h7f : ¬ (0xff : UInt8) = 0x7f := by decide
  obtain ⟨a6, ha6⟩ : ∃ a6, env + (body (beforeArgv L)).length = a6 := ⟨_, rfl⟩
  have hplace := argvPlace_spec hne hL hl hf
  rw [ha6] at hplace ⊢
  have hargv := strcpy_lies (m := Function.update m a6 0) (a := a6) (s := ARGV)
  have hargv0 := strcpy_lies (m := strcpy (Function.update m a6 0) a6 ARGV) (a := a6 + 6)
    (s := arg0)
  obtain ⟨m', hm, hlies, hout⟩ := c2vLoop_spec true
    (strcpy (strcpy (Function.update m a6 0) a6 ARGV) (a6 + 6) arg0)
    (a6 + 6 + arg0.length + 1) hcl.2 h0 ht
  have h5 : ARGV.length = 5 := rfl
  refine ⟨m', ?_, ?_, fun i hi => ?_⟩
  · unfold cmd2argv
    rw [hff, if_neg h7f, hplace, Option.bind_some, if_pos rfl]
    exact hm
  · rw [body_cons, body_cons, List.append_assoc, List.cons_append, List.append_assoc,
      List.cons_append]
    rw [show ARGV ++ 0 :: (arg0 ++ 0 :: (body [] ++ emit true t)) =
      (ARGV ++ [0]) ++ ((arg0 ++ [0]) ++ emit true t) by simp [body]]
    refine lies_append.mpr ⟨hargv.congr fun i hi hlt => ?_,
      lies_append.mpr ⟨hargv0.congr fun i hi hlt => ?_, ?_⟩⟩
    · rw [List.length_append, h5, List.length_singleton] at hlt
      rw [hout i (Or.inl (by omega)), strcpy_out (Or.inl (by omega))]
    · rw [List.length_append, List.length_singleton] at hlt
      exact hout i (Or.inl (by omega))
    · have hlen : (arg0 ++ [0]).length = arg0.length + 1 := List.length_append
      have h6 : (ARGV ++ [0]).length = 6 := rfl
      rw [hlen, h6, ← Nat.add_assoc]
      exact hlies
  · rw [hout i (by omega), strcpy_out (by omega), strcpy_out (by omega),
      Function.update_of_ne (by omega)]

/-- The environment ends with the arguments if and only if no word is lost. -/
theorem cmd2argv_argued (hne : L ≠ []) (hL : Strings L) (hl : Lies m env (encode L))
    (harg : arg0 ≠ []) (harg0 : 0 ∉ arg0) (hcl : Lies cl 0 (0xff :: (t ++ [0]))) (h0 : 0 ∉ t) :
    Argued m env L cl arg0 (words t) ↔ Kept t := by
  have hnil : (0 : UInt8) ∉ ([] : List UInt8) := fun h => by cases h
  obtain ⟨ws, ws', rest, hwords, hemit, hkept⟩ :=
    emit_words (b := true) (w := []) (t := t) (iff_of_true rfl rfl)
  have hstr : Strings (words t) := wordsFrom_strings hnil h0
  have hall : ∀ xs, Strings xs → Strings (beforeArgv L ++ ARGV :: arg0 :: xs) := by
    intro xs hxs s hs
    rcases List.mem_append.mp hs with h | h
    · exact hL s (List.takeWhile_subset _ h)
    · rcases List.mem_cons.mp h with rfl | h
      · exact ⟨by decide, by decide⟩
      · rcases List.mem_cons.mp h with rfl | h
        · exact ⟨harg, harg0⟩
        · exact hxs s h
  have hws : Strings ws := fun s hs => hstr s (by
    unfold words
    rw [hwords]
    exact List.mem_append_left ws' hs)
  have hrun : ∀ fuel, (encode L).length ≤ fuel → t.length < fuel →
      ∃ m', cmd2argv fuel cl m env arg0 = some m' ∧
        Lies m' env (encode (beforeArgv L ++ ARGV :: arg0 :: ws)) := by
    intro fuel hf ht
    obtain ⟨m', hm, hlies, hout⟩ := cmd2argv_line arg0 hne hL hl hcl h0 hf ht
    refine ⟨m', hm, ?_⟩
    rw [List.nil_append] at hemit
    rw [hemit, ← List.append_assoc, ← encode_append, lies_append] at hlies
    rw [encode_append, lies_append]
    exact ⟨(beforeArgv_lies hl).congr fun i hi hlt => hout i (Or.inl hlt), hlies.1⟩
  constructor
  · rintro ⟨n, hends⟩
    obtain ⟨m', hm, hlies⟩ := hrun (max n ((encode L).length + t.length + 1)) (by omega) (by omega)
    obtain ⟨m'', hm'', hlies'', _⟩ := hends (max n ((encode L).length + t.length + 1)) (by omega)
    obtain rfl := Option.some_inj.mp (hm.symm.trans hm'')
    have heq := encode_unique (hall ws hws) (hall _ hstr) hlies hlies''
    have hsame : ws = ws ++ ws' := by
      have h1 := List.append_cancel_left heq
      injection h1 with _ h2
      injection h2 with _ h3
      exact h3.trans hwords
    exact hkept.mp (List.append_cancel_left (hsame.symm.trans (List.append_nil ws).symm))
  · intro hk
    have hws' := hkept.mpr hk
    rw [hws', List.append_nil] at hwords
    have hsame : words t = ws := hwords
    rw [hsame]
    refine ⟨(encode L).length + t.length + 1, fun fuel hf => ?_⟩
    obtain ⟨m', hm, hlies⟩ := hrun fuel (by omega) (by omega)
    refine ⟨m', hm, hlies, (encode (beforeArgv L ++ ARGV :: arg0 :: ws)).length, fun f hf => ?_⟩
    exact ⟨_, envEnd_spec (List.append_ne_nil_of_right_ne_nil _ (List.cons_ne_nil _ _))
      (hall ws hws) hlies hf, rfl⟩

theorem encode_pair (hne : L ≠ []) (hL : Strings L) (hl : Lies m env (encode L)) :
    2 ≤ (encode L).length ∧ Pair m (env + (encode L).length - 2) := by
  obtain ⟨hle, hp, _⟩ := envEnd_some (envEnd_spec hne hL hl (Nat.le_refl _))
  exact ⟨by omega, hp⟩

theorem ends_pair {n : Nat} (hp : Pair m i) (hi : env ≤ i) (hn : i + 2 ≤ n) :
    Ends (fun fuel => envEnd fuel m env) fun b => b ≤ n := by
  refine ⟨i + 1, fun fuel hf => ?_⟩
  have hfuel : i < env + fuel := by omega
  obtain ⟨b, hb, hle⟩ := envEnd_ends hp hi hfuel
  exact ⟨b, hb, by omega⟩

theorem cmd2argv_fits (hne : L ≠ []) (hL : Strings L) (hl : Lies m env (encode L))
    (hcl : Cmdline cl) : Fits m env L cl arg0 := by
  obtain ⟨htwo, hpair⟩ := encode_pair hne hL hl
  have hbody := beforeArgv_body L
  have henc := encode_length (L := L)
  have hffe : ¬ (0xfe : UInt8) = 0xff := by decide
  have h7ff : ¬ (0xff : UInt8) = 0x7f := by decide
  have h7fe : ¬ (0xfe : UInt8) = 0x7f := by decide
  by_cases h7f : cl 0 = 0x7f
  · -- the environment has the arguments already
    refine ⟨0, fun fuel _ => ⟨(0, m), ?_, fun _ _ => rfl, ends_pair hpair (by omega) (by omega)⟩⟩
    unfold cmd2arglen cmd2argv
    simp only
    rw [if_pos h7f, if_pos h7f]
    rfl
  by_cases hff : cl 0 = 0xff
  · obtain ⟨t, h0, ht⟩ := hcl.line hff
    obtain ⟨front, hfront⟩ := emit_end true t
    have hlong := emit_length true t
    refine ⟨(encode L).length + t.length + 1, fun fuel hf => ?_⟩
    have hfL : (encode L).length ≤ fuel := by omega
    obtain ⟨m', hm, hlies, hout⟩ := cmd2argv_line arg0 hne hL hl ⟨hff, ht⟩ h0 hfL (by omega)
    refine ⟨(t.length + arg0.length + 8, m'), ?_, fun i hi => hout i ?_, ?_⟩
    · unfold cmd2arglen
      simp only
      rw [hff, if_neg h7ff, if_pos rfl, skip_spec ht h0 (by omega), Option.map_some,
        Option.bind_some, hm, Option.map_some, show 1 + t.length + 1 - 1 - 1 = t.length by omega]
    · simp only at hi
      omega
    · rw [hfront, List.length_append] at hlong
      rw [hfront, ← List.append_assoc, lies_append] at hlies
      have hzeros : Pair m' (env + (body (beforeArgv L)).length +
          (body [ARGV, arg0] ++ front).length) := ⟨hlies.2.1, hlies.2.2.1⟩
      have hargs : (body [ARGV, arg0]).length = arg0.length + 7 := by
        rw [body_cons, body_cons, List.length_append, List.length_cons, List.length_append,
          List.length_cons]
        simp only [body, List.flatMap_nil, List.length_nil]
        have h5 : ARGV.length = 5 := rfl
        omega
      have h2 : ([0, 0] : List UInt8).length = 2 := rfl
      refine ends_pair hzeros (by omega) ?_
      rw [List.length_append, hargs]
      simp only
      omega
  by_cases hfe : cl 0 = 0xfe
  · obtain ⟨j, hj, hp⟩ := hcl.argv hfe
    refine ⟨(encode L).length + j + 1, fun fuel hf => ?_⟩
    have hfuel : j < 1 + fuel := by omega
    obtain ⟨b, hb, hbj⟩ := envEnd_ends hp hj hfuel
    obtain ⟨hle, hbp, _⟩ := envEnd_some hb
    refine ⟨(b - 1, Function.update (moveBytes cl (b - 1 - 1) 1
      (env + (body (beforeArgv L)).length) (Function.update m (env + (body (beforeArgv L)).length)
        0)) (env + (body (beforeArgv L)).length + (b - 1 - 1)) 0), ?_, fun i hi => ?_, ?_⟩
    · unfold cmd2arglen cmd2argv
      simp only
      rw [hfe, if_neg h7fe, if_neg hffe, if_pos rfl, if_neg h7fe, hb, Option.map_some,
        Option.bind_some, argvPlace_spec hne hL hl (by omega), Option.bind_some, if_neg hffe,
        if_pos rfl, c2vCploop_eq, hb]
      rfl
    · simp only at hi ⊢
      rw [Function.update_of_ne (by omega), moveBytes_apply, if_neg (by omega),
        Function.update_of_ne (by omega)]
    · -- the last byte that is copied is a zero, and one more is stored
      refine ends_pair (i := env + (body (beforeArgv L)).length + (b - 3)) ⟨?_, ?_⟩ (by omega) ?_
      · simp only
        rw [Function.update_of_ne (by omega), moveBytes_apply, if_pos (by omega),
          show 1 + (env + (body (beforeArgv L)).length + (b - 3) -
            (env + (body (beforeArgv L)).length)) = b - 2 by omega]
        exact hbp.1
      · simp only
        rw [show env + (body (beforeArgv L)).length + (b - 3) + 1 =
          env + (body (beforeArgv L)).length + (b - 1 - 1) by omega, Function.update_self]
      · simp only
        omega
  · -- a previous variable is cut off, and nothing is put in its place
    refine ⟨(encode L).length, fun fuel hf => ⟨(0, Function.update m
      (env + (body (beforeArgv L)).length) 0), ?_, fun i hi => ?_, ?_⟩⟩
    · unfold cmd2arglen cmd2argv
      simp only
      rw [if_neg h7f, if_neg hff, if_neg hfe, if_neg h7f, Option.bind_some,
        argvPlace_spec hne hL hl hf, Option.bind_some, if_neg hff, if_neg hfe]
      rfl
    · simp only at hi ⊢
      exact Function.update_of_ne (by omega) _ m
    · have hzero : ∀ i, m i = 0 →
          Function.update m (env + (body (beforeArgv L)).length) 0 i = 0 := by
        intro i hi
        by_cases h : i = env + (body (beforeArgv L)).length
        · rw [h, Function.update_self]
        · rw [Function.update_of_ne h, hi]
      refine ends_pair (i := env + (encode L).length - 2) ⟨hzero _ hpair.1, hzero _ hpair.2⟩
        (by omega) ?_
      simp only
      omega

end

/-- The environment grows by the estimate at most, and for a line it ends with the
arguments if and only if no word of the line is lost. -/
theorem cmd2argv_iff (m cl : Mem) (env : Nat) (L : List (List UInt8)) (arg0 : List UInt8)
    (hne : L ≠ []) (hL : Strings L) (hl : Lies m env (encode L)) (harg : arg0 ≠ [])
    (harg0 : 0 ∉ arg0) (hcl : Cmdline cl) :
    (Fits m env L cl arg0 ∧ ∀ t, 0 ∉ t → Lies cl 0 (0xff :: (t ++ [0])) →
      Argued m env L cl arg0 (words t)) ↔
    ∀ t, 0 ∉ t → Lies cl 0 (0xff :: (t ++ [0])) → Kept t := by
  constructor
  · rintro ⟨_, h⟩ t h0 ht
    exact (cmd2argv_argued hne hL hl harg harg0 ht h0).mp (h t h0 ht)
  · intro h
    exact ⟨cmd2argv_fits hne hL hl hcl, fun t h0 ht =>
      (cmd2argv_argued hne hL hl harg harg0 ht h0).mpr (h t h0 ht)⟩

/-- A command line. -/
def lineOf (t : List UInt8) : Mem := fun i => (0xff :: t).getD i 0

/-- Two words, and the variables `A=` and `B=`. -/
theorem cmd2argv_iff_words :
    Fits twoVariables 1 ab (lineOf [0x61, SP, 0x62]) [0x70] ∧
    ∀ t, 0 ∉ t → Lies (lineOf [0x61, SP, 0x62]) 0 (0xff :: (t ++ [0])) →
      Argued twoVariables 1 ab (lineOf [0x61, SP, 0x62]) [0x70] (words t) := by
  have hline : Lies (lineOf [0x61, SP, 0x62]) 1 ([0x61, SP, 0x62] ++ [0]) :=
    ⟨rfl, rfl, rfl, rfl, trivial⟩
  have h0 : (0 : UInt8) ∉ [0x61, SP, 0x62] := by decide
  refine (cmd2argv_iff twoVariables (lineOf [0x61, SP, 0x62]) 1 ab [0x70]
    (List.cons_ne_nil _ _) ab_strings twoVariables_lies (List.cons_ne_nil _ _)
    (by decide) ⟨fun _ => ⟨[0x61, SP, 0x62], h0, hline⟩, fun h => ?_⟩).mpr fun t ht hl => ?_
  · exact absurd h (by decide)
  · obtain rfl := lies_string_unique hl.2 hline ht h0
    intro u c v heq hc _
    have hmem : c ∈ [0x61, SP, 0x62] := heq ▸ List.mem_append_right u List.mem_cons_self
    have hno : ∀ c ∈ [0x61, SP, 0x62], ¬ (c = CR ∨ c = LF) := by simp [SP, CR, LF]
    exact absurd hc (hno c hmem)

/-- The second word is behind the end of a line that has two characters, and is lost. -/
theorem cmd2argv_loses :
    words [0x61, CR, LF, 0x62] = [[0x61], [0x62]] ∧
    ((cmd2argv 20 (lineOf [0x61, CR, LF, 0x62]) (oneVariable 0 0) 1 [0x70]).bind fun m' =>
      envEnd 20 m' 1) = some (1 + (encode [[0x41, EQ], ARGV, [0x70], [0x61]]).length) ∧
    ¬ Argued (oneVariable 0 0) 1 [[0x41, EQ]] (lineOf [0x61, CR, LF, 0x62]) [0x70]
      [[0x61], [0x62]] := by
  refine ⟨by decide, by decide, fun h => ?_⟩
  have hkept := (cmd2argv_argued (t := [0x61, CR, LF, 0x62]) (List.cons_ne_nil _ _)
    oneVariable_strings (oneVariable_lies 0 0) (List.cons_ne_nil _ _) (by decide)
    ⟨rfl, rfl, rfl, rfl, rfl, rfl, trivial⟩ (by decide)).mp h
  have hlost := hkept [0x61, CR] LF [0x62] rfl (Or.inr rfl) (by decide)
  revert hlost
  decide

end Environ

end Pexec

end MagiC
