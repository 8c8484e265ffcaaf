import MagiC.Vfat.Conv83
import MagiC.Vfat.Gap

/-!
# Short Names with a Number

Why no other file of a directory has the short name that `vf_ffree` yields.

The code does not look for the names themselves. It marks the number of each name that could be an
alias of the new one, and takes the first number without a mark. So the alias with a number must be
a name that marks this number (`aliasScan_alias`). The scan compares the names up to a tilde with a
number behind it.

It does not hold for a name whose first eight characters are blank, and these are the names
that begin with a point. Then the tilde comes first in the alias, but the scan skips all
entries with another first character than the new name. So two such files with the same
extension get the same alias (`same_alias`).

## Main definitions

* `BaseFree`: Nothing takes the short name itself.

## Theorems

* `alias_unique_iff`: The names for which that holds in all directories.
-/

namespace MagiC

namespace Vfat

/-! ### The characters of the alias -/

/-- The digits of a number, at most `n` of them. -/
def decimal : Nat → Nat → List UInt8
  | 0, _ => []
  | n + 1, number =>
    if number = 0 then [] else decimal n (number / 10) ++ [UInt8.ofNat (number % 10 + 0x30)]

theorem setChar_name (dir : Entry) (s : Nat) (c : UInt8) :
    (dir.setChar s c).name = dir.name.set s c := by
  cases s with
  | zero => rfl
  | succ s => rfl

theorem putNumber_name (n number s : Nat) (dir : Entry) (hs : s < dir.name.length)
    (hfit : (decimal n number).length ≤ s) :
    (putNumber dir s n number).name = dir.name.take (s - (decimal n number).length)
      ++ 0x7e :: decimal n number ++ dir.name.drop (s + 1) := by
  have htilde : ∀ (d : Entry) (k : Nat), k < d.name.length →
      (d.setChar k 0x7e).name = d.name.take (k - 0) ++ [0x7e] ++ d.name.drop (k + 1) := by
    intro d k hk
    rw [setChar_name, List.set_eq_take_append_cons_drop, if_pos hk, List.append_assoc]
    rfl
  induction n generalizing number s dir with
  | zero => exact htilde dir s hs
  | succ n ih =>
    rw [putNumber]
    by_cases h0 : number = 0
    · rw [if_pos h0, decimal, if_pos h0]
      exact htilde dir s hs
    · -- The last digit, and in front of it the number without this digit.
      rw [if_neg h0]
      rw [decimal, if_neg h0, List.length_append, List.length_singleton] at hfit ⊢
      have hset := setChar_name dir s (UInt8.ofNat (number % 10 + 0x30))
      rw [ih (number / 10) (s - 1) _ (by rw [hset, List.length_set]; omega) (by omega), hset,
        show s - 1 + 1 = s by omega, List.take_set_of_le (by omega),
        List.drop_set, if_neg (by omega), Nat.sub_self,
        show s - 1 - (decimal n (number / 10)).length = s - ((decimal n (number / 10)).length + 1)
          by omega, List.drop_eq_getElem_cons hs, List.set_cons_zero]
      simp only [List.append_assoc, List.cons_append, List.nil_append]

theorem decimal_length (number : Nat) (h0 : 0 < number) (hlt : number < 1600) :
    (decimal 4 number).length = aliasLen number - 1 := by
  unfold aliasLen
  by_cases h3 : 999 < number
  · rw [if_pos h3, decimal, if_neg (by omega), decimal, if_neg (by omega), decimal,
      if_neg (by omega), decimal, if_neg (by omega), decimal]
    rfl
  rw [if_neg h3]
  by_cases h2 : 99 < number
  · rw [if_pos h2, decimal, if_neg (by omega), decimal, if_neg (by omega), decimal,
      if_neg (by omega), decimal, if_pos (by omega)]
    rfl
  rw [if_neg h2]
  by_cases h1 : 9 < number
  · rw [if_pos h1, decimal, if_neg (by omega), decimal, if_neg (by omega), decimal,
      if_pos (by omega)]
    rfl
  · rw [if_neg h1, decimal, if_neg (by omega), decimal, if_pos (by omega)]
    rfl

/-! ### Reading the number -/

theorem int16_of_lt (n : Int) (h0 : 0 ≤ n) (h : n < 2 ^ 15) : int16 n = n := by
  unfold int16
  exact Int.bmod_eq_of_le (by omega) (by omega)

theorem aliasDigits_decimal (n number : Nat) (us : List UInt8) (hlt : number < 10 ^ n)
    (h15 : number < 2 ^ 15) :
    aliasDigits 0 (decimal n number ++ us) = aliasDigits number us := by
  induction n generalizing number us with
  | zero =>
    rw [show number = 0 by omega]
    rfl
  | succ n ih =>
    rw [decimal]
    by_cases h0 : number = 0
    · rw [if_pos h0, h0]
      rfl
    · rw [if_neg h0, List.append_assoc, ih (number / 10) _ (by omega) (by omega),
        List.singleton_append, aliasDigits]
      have hdigit : (UInt8.ofNat (number % 10 + 0x30)).toNat = number % 10 + 0x30 := by
        rw [UInt8.toNat_ofNat']
        omega
      rw [if_neg (fun hc => by rw [hc] at hdigit; simp only [UInt8.reduceToNat] at hdigit; omega),
        if_neg (by
          rw [UInt8.lt_iff_toNat_lt, UInt8.lt_iff_toNat_lt, hdigit]
          simp only [UInt8.reduceToNat]
          omega), hdigit, int16_of_lt ((number / 10 : Nat) * 10) (by omega) (by omega),
        int16_of_lt _ (by omega) (by omega)]
      congr 1
      omega

theorem aliasDigits_blanks (number : Int) (n : Nat) :
    aliasDigits number (List.replicate n 0x20) = some number := by
  cases n with
  | zero => rfl
  | succ n => rfl

theorem aliasDigits_tilde (number : Int) (q us : List UInt8) (hq : ∀ c ∈ q, c ≠ 0x20) :
    aliasDigits number (q ++ 0x7e :: us) = none := by
  induction q generalizing number with
  | nil => rfl
  | cons c q ih =>
    rw [List.cons_append, aliasDigits, if_neg (hq c List.mem_cons_self)]
    by_cases hdigit : c < 0x30 ∨ 0x39 < c
    · rw [if_pos hdigit]
    · rw [if_neg hdigit]
      exact ih _ fun d hd => hq d (List.mem_cons_of_mem c hd)

theorem aliasLoop_tilde (p x us : List UInt8) (number : Int) (hp : ∀ c ∈ p, c ≠ 0x20)
    (hus : aliasNumber us = some number) :
    aliasLoop (p ++ x) (p ++ 0x7e :: us) = some number := by
  induction p with
  | nil =>
    rw [List.nil_append, List.nil_append, aliasLoop, if_pos rfl, hus]
  | cons c p ih =>
    have hrest : ∀ d ∈ p, d ≠ 0x20 := fun d hd => hp d (List.mem_cons_of_mem c hd)
    -- A tilde before has no number behind it.
    have hnone : (if c = 0x7e then aliasNumber (p ++ 0x7e :: us) else none) = none := by
      unfold aliasNumber
      rw [aliasDigits_tilde 0 p us hrest]
      exact ite_self _
    rw [List.cons_append, List.cons_append, aliasLoop, hnone, List.head?_cons,
      if_neg (fun h => h rfl)]
    exact ih hrest

/-! ### The alias marks its number -/

theorem lastChar_spec (name : List UInt8) (n s : Nat) (h : lastChar name n = some s) :
    s ≤ n ∧ name.getD s 0 ≠ 0x20 ∧ ∀ i, s < i → i ≤ n → name.getD i 0 = 0x20 := by
  induction n with
  | zero =>
    rw [lastChar] at h
    by_cases hblank : name.getD 0 0 = 0x20
    · rw [if_pos hblank] at h
      simp only [reduceCtorEq] at h
    · rw [if_neg hblank, Option.some.injEq] at h
      rw [← h]
      exact ⟨Nat.le_refl 0, hblank, fun i hi hle => by omega⟩
  | succ n ih =>
    rw [lastChar] at h
    by_cases hblank : name.getD (n + 1) 0 = 0x20
    · rw [if_pos hblank] at h
      rcases ih h with ⟨hle, hs, hall⟩
      refine ⟨by omega, hs, fun i hi hin => ?_⟩
      rcases Nat.lt_or_eq_of_le hin with hlt | rfl
      · exact hall i hi (by omega)
      · exact hblank
    · rw [if_neg hblank, Option.some.injEq] at h
      rw [← h]
      exact ⟨Nat.le_refl _, hblank, fun i hi hle => by omega⟩

theorem lastChar_some (name : List UInt8) (n : Nat) (h : name.getD 0 0 ≠ 0x20) :
    ∃ s, lastChar name n = some s := by
  induction n with
  | zero => exact ⟨0, by rw [lastChar, if_neg h]⟩
  | succ n ih =>
    rw [lastChar]
    by_cases hblank : name.getD (n + 1) 0 = 0x20
    · rw [if_pos hblank]
      exact ih
    · rw [if_neg hblank]
      exact ⟨n + 1, rfl⟩

theorem name_length (dir : Entry) : dir.name.length = 11 := by
  rw [Entry.name, List.length_cons, dir.name1_length]

theorem alias_name (before : UInt8) (newdir dir : Entry) (number : Nat) (h0 : 0 < number)
    (hlt : number < 1600) (hpad : Padded newdir.name) (hhead : newdir.head ≠ 0x20)
    (h : aliasNameOn before newdir number = some dir) :
    ∃ c p x m, (∀ d ∈ p, d ≠ 0x20) ∧ newdir.name.take 8 = c :: p ++ x ∧
      dir.name = c :: p ++ 0x7e :: (decimal 4 number ++ List.replicate m 0x20)
        ++ newdir.name.drop 8 ∧ p.length + 2 + (decimal 4 number).length + m = 8 := by
  have hdec := decimal_length number h0 hlt
  have hlen := (aliasLen_digits number hlt).2
  have hlen5 : aliasLen number ≤ 5 := by
    unfold aliasLen
    split_ifs <;> omega
  have h11 := name_length newdir
  rcases hpad with ⟨a, n, ha, htake⟩
  have han : a.length + n = 8 := by
    have hl := congrArg List.length htake
    rw [List.length_take, List.length_append, List.length_replicate] at hl
    omega
  have hname : newdir.name = a ++ (List.replicate n 0x20 ++ newdir.name.drop 8) := by
    rw [← List.append_assoc, ← htake, List.take_append_drop]
  rcases lastChar_some newdir.name (7 - aliasLen number) hhead with ⟨s, hlast⟩
  rcases lastChar_spec _ _ _ hlast with ⟨hs, hchar, hblank⟩
  -- The place lies among the characters of the name. Behind it there is a blank, unless the
  -- alias takes all eight characters.
  have hsa : s < a.length := by
    refine Nat.lt_of_not_le fun hle => hchar ?_
    rw [hname, List.getD_eq_getElem?_getD, List.getElem?_append_right hle,
      List.getElem?_append_left (by rw [List.length_replicate]; omega), List.getElem?_replicate,
      if_pos (by omega), Option.getD_some]
  have hend : s + aliasLen number = 7 ∨ a.length = s + 1 := by
    refine (Nat.lt_or_eq_of_le hs).symm.imp (fun heq => by omega) fun hlt => ?_
    refine Classical.byContradiction fun hne => ?_
    have hin : s + 1 < a.length := by omega
    have hget := hblank (s + 1) (by omega) (by omega)
    rw [hname, List.getD_eq_getElem?_getD, List.getElem?_append_left hin,
      List.getElem?_eq_getElem hin, Option.getD_some] at hget
    exact ha _ (List.getElem_mem hin) hget
  rw [aliasNameOn, if_neg (by omega), lastPlace, hlast] at h
  simp only [Option.some.injEq] at h
  have hput := putNumber_name 4 number (s + 1 + aliasLen number - 1) newdir (by omega) (by omega)
  rw [h, hdec, show s + 1 + aliasLen number - 1 - (aliasLen number - 1) = s + 1 by omega,
    show s + 1 + aliasLen number - 1 + 1 = s + 1 + aliasLen number by omega] at hput
  -- What is left of the name are blanks and the extension.
  have hrest : newdir.name.drop (s + 1 + aliasLen number)
      = List.replicate (8 - (s + 1 + aliasLen number)) 0x20 ++ newdir.name.drop 8 := by
    rcases hend with hend | hend
    · rw [show s + 1 + aliasLen number = 8 by omega]
      rfl
    · conv_lhs => rw [hname]
      rw [← hend, List.drop_append, List.drop_of_length_le (by omega), List.nil_append,
        show a.length + aliasLen number - a.length = aliasLen number by omega,
        List.drop_append_of_le_length (by rw [List.length_replicate]; omega), List.drop_replicate,
        show n - aliasLen number = 8 - (a.length + aliasLen number) by omega]
  have hfirst : newdir.name.take (s + 1) = a.take (s + 1) := by
    conv_lhs => rw [hname]
    rw [List.take_append_of_le_length (by omega)]
  cases hcp : a.take (s + 1) with
  | nil =>
    have hl := congrArg List.length hcp
    rw [List.length_take, List.length_nil] at hl
    omega
  | cons c p =>
    have hl := congrArg List.length hcp
    rw [List.length_take, List.length_cons] at hl
    refine ⟨c, p, a.drop (s + 1) ++ List.replicate n 0x20, 8 - (s + 1 + aliasLen number),
      fun d hd => ?_, ?_, ?_, by omega⟩
    · refine ha d (List.mem_of_mem_take (i := s + 1) ?_)
      rw [hcp]
      exact List.mem_cons_of_mem c hd
    · rw [htake, ← hcp, ← List.append_assoc, List.take_append_drop]
    · rw [hput, hfirst, hrest, hcp]
      simp only [List.append_assoc, List.cons_append]

/-- The alias with a number marks this number. -/
theorem aliasScan_alias (before : UInt8) (newdir dir : Entry) (number : Nat) (h0 : 0 < number)
    (hlt : number < 1600) (hpad : Padded newdir.name) (hhead : newdir.head ≠ 0x20)
    (h : aliasNameOn before newdir number = some dir) :
    aliasScan newdir.name dir.name = some (number : Int) := by
  rcases alias_name before newdir dir number h0 hlt hpad hhead h with
    ⟨c, p, x, m, hp, htake, hname, hlen⟩
  have height : (c :: p ++ 0x7e :: (decimal 4 number ++ List.replicate m 0x20)).length = 8 := by
    simp only [List.length_append, List.length_cons, List.length_replicate]
    omega
  have hnumber : aliasNumber (decimal 4 number ++ List.replicate m 0x20) = some (number : Int) := by
    rw [aliasNumber, aliasDigits_decimal 4 number _ (by omega) (by omega), aliasDigits_blanks]
    simp only
    rw [if_neg (by omega)]
  have hdrop : dir.name.drop 8 = newdir.name.drop 8 := by
    rw [hname, List.drop_append, List.drop_of_length_le (by omega), height]
    rfl
  have htake' : dir.name.take 8 =
    c :: p ++ 0x7e :: (decimal 4 number ++ List.replicate m 0x20) := by
    rw [hname, List.take_append_of_le_length (by omega), List.take_of_length_le (by omega)]
  have hheads : newdir.name.head? = dir.name.head? := by
    have hcons : newdir.name.head? = (newdir.name.take 8).head? := rfl
    rw [hcons, htake, hname]
    rfl
  rw [aliasScan, hdrop, if_neg (fun hne => hne rfl), if_neg (fun hne => hne hheads), htake, htake']
  exact aliasLoop_tilde p x _ _ hp hnumber

/-! ### The marks -/

/-- The main entry of another file than the one that gets another name. -/
def Other (specialpos : Int) (entries : List Entry) (i : Nat) (e : Entry) : Prop :=
  entries[i]? = some e ∧ Live entries i ∧ e.attr ≠ 0x0f ∧ ((32 * i : Nat) : Int) ≠ specialpos

theorem mainSeen_used (want : Want) (actpos : Nat) (dir : Entry) (gap gap' : Gap)
    (h : mainSeen want actpos dir gap = some gap') :
    (gap'.used = gap.used ∧ (dir.attr = 0x0f ∨ (actpos : Int) = want.specialpos ∨
      aliasScan want.newdir.name dir.name = none)) ∨
    ∃ number, aliasScan want.newdir.name dir.name = some number ∧ 0 ≤ number ∧
      gap'.used = number.toNat :: gap.used := by
  have hused : (if gap.found then gap else { gap with gap_pos := none }).used = gap.used := by
    by_cases hfound : gap.found = true
    · rw [if_pos hfound]
    · rw [if_neg hfound]
  unfold mainSeen at h
  generalize (if gap.found then gap else { gap with gap_pos := none }) = gap1 at h hused
  simp only at h
  by_cases hmain : dir.attr ≠ 0x0f ∧ (actpos : Int) ≠ want.specialpos
  · rw [if_pos hmain] at h
    cases hscan : aliasScan want.newdir.name dir.name with
    | none =>
      rw [hscan] at h
      rw [← Option.some.inj h]
      exact .inl ⟨hused, .inr (.inr rfl)⟩
    | some number =>
      rw [hscan] at h
      simp only [mark] at h
      by_cases hneg : number < 0
      · rw [if_pos hneg] at h
        simp only [reduceCtorEq] at h
      · rw [if_neg hneg] at h
        rw [← Option.some.inj h]
        exact .inr ⟨number, rfl, by omega, by rw [hused]⟩
  · rw [if_neg hmain] at h
    rw [← Option.some.inj h]
    refine .inl ⟨hused, ?_⟩
    by_cases hattr : dir.attr = 0x0f
    · exact .inl hattr
    · exact .inr (.inl (Classical.byContradiction fun hne => hmain ⟨hattr, hne⟩))

theorem grow_used (gap : Gap) (actpos : Nat) : (gap.grow actpos).used = gap.used := by
  unfold Gap.grow
  cases gap.gap_pos with
  | none => rfl
  | some g => rfl

/-- What the loop leaves in the table of marks: what was there, and the numbers of the other
    files that it sees. -/
structure Marked (want : Want) (entries : List Entry) (n : Nat) (used used' : List Nat) : Prop where
  kept : ∀ x ∈ used, x ∈ used'
  seen : ∀ i e number, n ≤ i → Other want.specialpos entries i e → ¬ Gone want entries i →
    aliasScan want.newdir.name e.name = some number → 0 ≤ number ∧ number.toNat ∈ used'

theorem Marked.done (want : Want) (entries : List Entry) (n : Nat) (used : List Nat)
    (h : ∀ i e, n ≤ i → ¬ Other want.specialpos entries i e) : Marked want entries n used used :=
  ⟨fun _ hx => hx, fun i e _ hi hother => absurd hother (h i e hi)⟩

theorem Marked.skip (want : Want) (entries : List Entry) (n : Nat) (used used' : List Nat)
    (hmarked : Marked want entries (n + 1) used used')
    (hno : ∀ e number, Other want.specialpos entries n e → ¬ Gone want entries n →
      aliasScan want.newdir.name e.name ≠ some number) : Marked want entries n used used' := by
  refine ⟨hmarked.kept, fun i e number hi hother hgone hscan => ?_⟩
  rcases Nat.lt_or_eq_of_le hi with hlt | rfl
  · exact hmarked.seen i e number hlt hother hgone hscan
  · exact absurd hscan (hno e number hother hgone)

theorem Marked.before (want : Want) (entries : List Entry) (n : Nat) (dir : Entry) (gap gap1 : Gap)
    (used : List Nat) (hlong : want.long = true) (hget : entries[n]? = some dir)
    (hskips : Skips want (32 * n) dir gap gap1)
    (hmarked : Marked want entries (n + 1) gap1.used used) :
    Marked want entries n gap.used used := by
  cases hskips with
  | gone _ hgone =>
    refine Marked.skip want entries n gap.used used ?_
      fun e number _ hnot => absurd ⟨dir, hget, hgone⟩ hnot
    by_cases hfound : gap.found = true
    · rw [if_pos hfound] at hmarked
      exact hmarked
    · rw [if_neg hfound] at hmarked
      simp only [grow_used] at hmarked
      exact hmarked
  | main _ _ hgone hmain =>
    rcases mainSeen_used want (32 * n) dir gap gap1 hmain with ⟨hused, hno⟩ |
      ⟨number, hscan, hpos, hused⟩
    · rw [hused] at hmarked
      refine Marked.skip want entries n gap.used used hmarked ?_
      intro e number hother _ hscan
      rw [hother.1, Option.some.injEq] at hget
      rw [← hget, hscan] at hno
      rcases hno with hattr | hpos | hscan
      · exact hother.2.2.1 hattr
      · exact hother.2.2.2 hpos
      · simp only [reduceCtorEq] at hscan
    · -- The entry marks its number.
      rw [hused] at hmarked
      refine ⟨fun x hx => hmarked.kept x (List.mem_cons_of_mem _ hx),
        fun i e k hi hother hnot hk => ?_⟩
      rcases Nat.lt_or_eq_of_le hi with hlt | rfl
      · exact hmarked.seen i e k hlt hother hnot hk
      · rw [hother.1, Option.some.injEq] at hget
        rw [hget, hscan, Option.some.injEq] at hk
        rw [← hk]
        exact ⟨hpos, hmarked.kept _ List.mem_cons_self⟩
  | short hshort => exact absurd hlong (Bool.eq_false_iff.mp hshort)

/-- All numbers of other files are marked. -/
theorem ffreeLoop_used (vol : Vol) (want : Want) (hlong : want.long = true) (fd fd' : Fd)
    (gap gap' : Gap) (h : ffreeLoop vol want fd 0 fd.entries gap = some (fd', .ende gap')) :
    Marked want fd.entries 0 gap.used gap'.used := by
  -- The invariant looks ahead: what is left to mark is what the rest of the loop marks.
  rcases ffreeLoop_run (P := fun m gap1 => ∀ used, Marked want fd.entries m gap1.used used →
    Marked want fd.entries 0 gap.used used) vol want fd fd' 0 fd.entries gap _ rfl (Nat.zero_le _)
    (fun _ hmarked => hmarked)
    (fun m dir gap1 gap2 hget _ hahead hskips used hmarked =>
      hahead used (Marked.before want fd.entries m dir gap1 gap2 used hlong hget hskips hmarked))
    h with ⟨m, gap1, -, hahead, hhalts⟩
  have hdone := fun used (hno : ∀ i e, m ≤ i → ¬ Other want.specialpos fd.entries i e) =>
    Marked.done want fd.entries m used hno
  -- Behind the end mark there are no files.
  have hmark : (∀ dir, fd.entries[m]? = some dir → dir.head = 0) →
      ∀ i e, m ≤ i → ¬ Other want.specialpos fd.entries i e := by
    intro hend i e hi hother
    cases hget : fd.entries[m]? with
    | none =>
      have hnone := hother.1
      rw [List.getElem?_eq_none (Nat.le_trans (List.getElem?_eq_none_iff.mp hget) hi)] at hnone
      simp only [reduceCtorEq] at hnone
    | some dir =>
      rcases hother.2.1 with ⟨_, -, -, hnot⟩
      exact hnot ⟨m, dir, hi, hget, hend dir hget⟩
  cases hhalts with
  | found _ hend => exact hahead _ (hdone _ (hmark hend))
  | extended hend =>
    have hnone : ∀ dir, fd.entries[m]? = some dir → dir.head = 0 := fun dir hdir => by
      rw [List.getElem?_eq_none hend] at hdir
      simp only [reduceCtorEq] at hdir
    refine hahead _ ?_
    by_cases hpos : gap1.gap_pos = none
    · rw [if_pos hpos]
      exact hdone _ (hmark hnone)
    · rw [if_neg hpos]
      exact hdone _ (hmark hnone)
  | room dir _ hdir h0 =>
    refine hahead _ ?_
    rw [grow_used]
    refine hdone _ (hmark fun e he => ?_)
    rw [hdir, Option.some.injEq] at he
    rw [← he]
    exact h0

/-! ### No other file has the name -/

/-- Nothing marks the number 0, which stands for the short name itself. -/
def BaseFree (specialpos : Int) (entries : List Entry) (name : List UInt8)
    (newdir : Entry) : Prop :=
  stricmp (ext83 newdir.name) name = false ∧
    ∀ i e, Other specialpos entries i e → aliasScan newdir.name e.name ≠ some 0

/-- From the first entry of the file that gets another name to its main entry there are only
    pieces of a long name. -/
def PiecesOnly (specialpos specialfirstpos : Int) (entries : List Entry) : Prop :=
  ∀ ndirs i e, Own specialpos specialfirstpos ndirs i → entries[i]? = some e →
    e.attr ≠ 0x0f → ((32 * i : Nat) : Int) = specialpos

/-- No other file has the short name that `vf_ffree` yields, provided that no other file has
    the one it was given when nothing marks the number 0. -/
def AliasUnique (before : UInt8) (vol : Vol) (specialpos specialfirstpos : Int) (fd : Fd)
    (name : List UInt8) (newdir : Entry) : Prop :=
  ∀ fd' r, vfFfreeOn before vol specialpos specialfirstpos fd name newdir = some (fd', r) →
    0 ≤ r.ret →
    (BaseFree specialpos fd.entries name newdir →
      ∀ i e, Other specialpos fd.entries i e → e.name ≠ newdir.name) →
    ∀ i e, Other specialpos fd.entries i e → e.name ≠ r.newdir.name

/-- No other file has the short name that is found for a name with a first character. -/
theorem vfFfreeOn_unique (before : UInt8) (vol : Vol) (hflags : vol.d_flags = true)
    (specialpos specialfirstpos : Int) (hspecial : specialpos < 2 ^ 31) (fd : Fd)
    (hpieces : PiecesOnly specialpos specialfirstpos fd.entries) (name : List UInt8)
    (newdir : Entry) (hpad : Padded newdir.name) (hhead : newdir.head ≠ 0x20)
    (hlong : ext83 newdir.name ≠ name) :
    AliasUnique before vol specialpos specialfirstpos fd name newdir := by
  intro fd' r h hret hbase i e hother hname
  have hl : (vol.d_flags && ext83 newdir.name != name) = true := by
    rw [hflags, Bool.true_and, bne_iff_ne]
    exact hlong
  -- The loop sees the other files, as their entries are none of the file that gets another name.
  have hgone : ∀ k c, Other specialpos fd.entries k c →
      ¬ Gone (wantOf vol specialpos specialfirstpos name newdir) fd.entries k := by
    intro k c hc hg
    rcases gone_spare specialpos specialfirstpos hspecial _ fd.entries k rfl rfl hg with
      ⟨d, hd, hdel⟩ | hown
    · rcases hc.2.1 with ⟨b, hb, hne, -⟩
      rw [hb, Option.some.injEq] at hd
      rw [hd] at hne
      exact hne hdel
    · exact hc.2.2.2 (hpieces _ k c hown hc.1 hc.2.2.1)
  rcases vfFfreeOn_cases before vol specialpos specialfirstpos fd fd' name newdir r h with
    ⟨-, rfl⟩ | ⟨-, hends⟩
  · exact absurd (show (0 : Int) ≤ ERANGE from hret) (by decide)
  cases hends with
  | ret doserr hloop =>
    have hneg := ffreeLoop_err vol _ { fd with fpos := 0 } fd' _ doserr hloop
    exact absurd hret (Int.not_le.mpr hneg)
  | frei actpos hloop =>
    exact absurd hloop (ffreeLoop_long vol _ { fd with fpos := 0 } fd' actpos _ hl)
  | ende gap r hloop hend =>
    have hmarked := ffreeLoop_used vol _ hl { fd with fpos := 0 } fd' _ gap hloop
    rcases ffreeEndeOn_cases before _ _ gap r hend with rfl | ⟨dir, rfl, hnumber⟩
    · exact absurd (show (0 : Int) ≤ EINTRN from hret) (by decide)
    have hdir : ∀ longname ndirs, (gap.answer ndirs dir longname).newdir = dir := by
      intro longname ndirs
      unfold Gap.answer
      split <;> rfl
    rw [hdir] at hname
    rcases hnumber hl with ⟨number, hlt, hfree, halias⟩
    rcases Nat.eq_zero_or_pos number with rfl | hpos
    · -- The name is as it was given. Nothing marks the number 0.
      rw [aliasNameOn, if_pos rfl, Option.some.injEq] at halias
      rw [← halias] at hname
      refine hbase ⟨?_, fun k d hd hscan => ?_⟩ i e hother hname
      · refine Bool.eq_false_iff.mpr fun hcmp => hfree (hmarked.kept 0 ?_)
        rw [if_pos (by rw [hl, hcmp]; rfl)]
        exact List.mem_singleton.mpr rfl
      · exact hfree (hmarked.seen k d 0 (Nat.zero_le k) hd (hgone k d hd) hscan).2
    · have hscan := aliasScan_alias before newdir dir number hpos hlt hpad hhead halias
      rw [← hname] at hscan
      have hseen := hmarked.seen i e number (Nat.zero_le i) hother (hgone i e hother) hscan
      rw [Int.toNat_natCast] at hseen
      exact hfree hseen.2

/-! ### Names that begin with a point -/

/-- The main entry of a file. -/
def Entry.file (dir : Entry) : Entry := { dir with attr := 0 }

/-- Two files: one with the given short name and one with its first alias. -/
def pointDir (newdir : Entry) : Fd := ⟨[newdir.file, (putNumber newdir 1 4 1).file], 0, 0⟩

theorem file_name (dir : Entry) : dir.file.name = dir.name := rfl

theorem file_attr (dir : Entry) : dir.file.attr ≠ 0x0f := (by decide : (0 : UInt8) ≠ 0x0f)

theorem putNumber_head (newdir : Entry) : (putNumber newdir 1 4 1).head = 0x7e := rfl

theorem lastChar_blank (name : List UInt8) (hblank : name.take 8 = List.replicate 8 0x20) (n : Nat)
    (hn : n < 8) : lastChar name n = none := by
  have hchar : ∀ i, i < 8 → name.getD i 0 = 0x20 := by
    intro i hi
    have hget : name[i]? = (name.take 8)[i]? := (List.getElem?_take_of_lt hi).symm
    rw [List.getD_eq_getElem?_getD, hget, hblank, List.getElem?_replicate, if_pos hi,
      Option.getD_some]
  induction n with
  | zero => rw [lastChar, if_pos (hchar 0 hn)]
  | succ n ih =>
    rw [lastChar, if_pos (hchar (n + 1) hn)]
    exact ih (by omega)

theorem aliasNameOn_point (newdir : Entry) (hblank : newdir.name.take 8 = List.replicate 8 0x20) :
    aliasNameOn 0 newdir 1 = some (putNumber newdir 1 4 1) := by
  rw [aliasNameOn, if_neg (by omega), lastPlace, lastChar_blank newdir.name hblank _ (by decide)]
  rfl

theorem ffreeLoop_main (vol : Vol) (want : Want) (hlong : want.long = true)
    (hspecial : want.specialpos < 0) (fd : Fd) (actpos : Nat) (dir : Entry) (es : List Entry)
    (gap gap1 : Gap) (h0 : dir.head ≠ 0) (hdel : dir.head ≠ 0xe5)
    (hmain : mainSeen want actpos dir gap = some gap1) :
    ffreeLoop vol want fd actpos (dir :: es) gap = ffreeLoop vol want fd (actpos + 32) es gap1 := by
  rw [ffreeLoop, if_neg h0, if_neg, if_pos hlong, hmain]
  rintro (hc | ⟨hle, -⟩)
  · exact hdel hc
  · omega

theorem pointDir_loop (want : Want) (hlong : want.long = true) (hspecial : want.specialpos = -1)
    (used : List Nat)
    (hblank : want.newdir.name.take 8 = List.replicate 8 0x20) :
    ∃ fd', ffreeLoop growVol want (pointDir want.newdir) 0 (pointDir want.newdir).entries
      ⟨none, 0, false, used⟩ = some (fd', .ende ⟨some 64, 0, false, 0 :: used⟩) := by
  have hhead : want.newdir.head = 0x20 := by
    have h := congrArg List.head? hblank
    exact Option.some.inj h
  -- The first entry has the name itself, the second one begins with another character.
  have hself : aliasScan want.newdir.name want.newdir.name = some 0 := by
    rw [aliasScan, if_neg (fun h => h rfl), if_neg (fun h => h rfl), hblank]
    rfl
  have hother : aliasScan want.newdir.name (putNumber want.newdir 1 4 1).name = none := by
    have hne : want.newdir.name.head? ≠ (putNumber want.newdir 1 4 1).name.head? := by
      rw [Entry.name, List.head?_cons, hhead, Entry.name, List.head?_cons, putNumber_head]
      exact fun h => absurd (Option.some.inj h) (by decide)
    rw [aliasScan, if_pos hne, ite_self]
  have hfirst : mainSeen want 0 want.newdir.file ⟨none, 0, false, used⟩
      = some ⟨none, 0, false, 0 :: used⟩ := by
    unfold mainSeen
    rw [if_pos ⟨file_attr _, by rw [hspecial]; decide⟩, file_name, hself]
    rfl
  have hsecond : mainSeen want 32 (putNumber want.newdir 1 4 1).file ⟨none, 0, false, 0 :: used⟩
      = some ⟨none, 0, false, 0 :: used⟩ := by
    unfold mainSeen
    rw [if_pos ⟨file_attr _, by rw [hspecial]; decide⟩, file_name, hother]
    rfl
  refine ⟨(pExtfd growVol (pointDir want.newdir)).1, ?_⟩
  unfold pointDir
  rw [ffreeLoop_main growVol want hlong (by omega) _ 0 _ _ _ _
    (by rw [show want.newdir.file.head = 0x20 from hhead]; decide)
    (by rw [show want.newdir.file.head = 0x20 from hhead]; decide) hfirst,
    ffreeLoop_main growVol want hlong (by omega) _ _ _ _ _ _
    (show (0x7e : UInt8) ≠ 0 by decide) (show (0x7e : UInt8) ≠ 0xe5 by decide) hsecond]
  rfl

theorem pointDir_head {newdir e : Entry} (hhead : newdir.file.head = 0x20) {m : Nat}
    (he : (pointDir newdir).entries[m]? = some e) : e.head ≠ 0 ∧ e.head ≠ 0xe5 := by
  unfold pointDir at he
  rcases m with _ | _ | m
  · rw [← Option.some.inj he, hhead]
    decide
  · rw [← Option.some.inj he]
    exact (by decide : (0x7e : UInt8) ≠ 0 ∧ (0x7e : UInt8) ≠ 0xe5)
  · simp only [List.getElem?_cons_succ, List.getElem?_nil, reduceCtorEq] at he

theorem pointDir_alias (name : List UInt8) (newdir : Entry)
    (hblank : newdir.name.take 8 = List.replicate 8 0x20) (hlong : ext83 newdir.name ≠ name)
    (hlen : name.length ≤ 64) : ¬ AliasUnique 0 growVol (-1) (-1) (pointDir newdir)
      name newdir := by
  intro hunique
  have hhead : newdir.head = 0x20 := Option.some.inj (congrArg List.head? hblank)
  have hl : (growVol.d_flags && ext83 newdir.name != name) = true := by
    rw [show growVol.d_flags = true from rfl, Bool.true_and, bne_iff_ne]
    exact hlong
  -- The numbers from 1 on are free.
  have hfind : ∀ used : List Nat, (∀ x ∈ used, x = 0) →
      (List.range 1600).find? (fun number => number ∉ 0 :: used) = some 1 := by
    intro used hused
    rw [List.find?_range_eq_some]
    refine ⟨decide_eq_true fun hmem => ?_, List.mem_range.mpr (by omega), fun j hj => ?_⟩
    · rcases List.mem_cons.mp hmem with h1 | h1
      · omega
      · have h0 := hused 1 h1
        omega
    · rw [show j = 0 by omega]
      simp only [List.mem_cons, true_or, not_true_eq_false, decide_false, Bool.not_false]
  have hres : ∃ fd' r, vfFfreeOn 0 growVol (-1) (-1) (pointDir newdir) name newdir = some (fd', r) ∧
      0 ≤ r.ret ∧ r.newdir = putNumber newdir 1 4 1 := by
    unfold vfFfreeOn
    simp only [hl, true_and, if_true, Bool.true_and]
    rw [if_neg (by unfold MAXFOLDERNAME; omega)]
    generalize hwant : (⟨(name.length + 12) / 13 + 1, true, newdir, -1, _⟩ : Want) = want
    have hw : want.long = true ∧ want.newdir = newdir ∧ want.specialpos = -1 := by
      rw [← hwant]
      exact ⟨rfl, rfl, rfl⟩
    generalize hused : (if stricmp (ext83 newdir.name) name = true then [0] else [] : List Nat) =
      used
    have hzero : ∀ x ∈ used, x = 0 := by
      rw [← hused]
      split_ifs
      · exact fun x hx => List.mem_singleton.mp hx
      · exact fun x hx => absurd hx List.not_mem_nil
    rcases pointDir_loop want hw.1 hw.2.2 used (by rw [hw.2.1]; exact hblank) with ⟨fd1, hloop⟩
    rw [hw.2.1] at hloop
    rw [show ({ pointDir newdir with fpos := 0 } : Fd) = pointDir newdir from rfl, hloop]
    refine ⟨fd1, ⟨64 + 32 * (want.ndirs - 1 : Nat), putNumber newdir 1 4 1, some name, some 64⟩,
      ?_, by simp only; omega, rfl⟩
    simp only [ffreeEndeOn, hw.1, if_true, hfind used hzero, hw.2.1,
      aliasNameOn_point newdir hblank]
    rfl
  rcases hres with ⟨fd', r, hres, hret, hr⟩
  have hother : ∀ (i : Nat) (e : Entry), (pointDir newdir).entries[i]? = some e → e.attr ≠ 0x0f →
      Other (-1) (pointDir newdir).entries i e := by
    intro i e he hattr
    refine ⟨he, ⟨e, he, (pointDir_head hhead he).2, ?_⟩, hattr, by omega⟩
    rintro ⟨m, d, -, hd, h0⟩
    exact (pointDir_head hhead hd).1 h0
  refine hunique fd' r hres hret (fun hbase => ?_) 1 (putNumber newdir 1 4 1).file
    (hother 1 _ rfl (file_attr _)) (by rw [hr, file_name])
  -- The first entry marks the number 0.
  refine absurd ?_ (hbase.2 0 newdir.file (hother 0 _ rfl (file_attr _)))
  rw [file_name, aliasScan, if_neg (fun h => h rfl), if_neg (fun h => h rfl), hblank]
  rfl

/-- The names for which no other file of any directory has the short name that `vf_ffree`
    yields. -/
theorem alias_unique_iff (name : List UInt8) (helem : Element name) (htst : tstName name = 0)
    (newdir : Entry) (hname : newdir.name = conv83 name) (hlong : ext83 newdir.name ≠ name) :
    (∀ before vol specialpos specialfirstpos fd, vol.d_flags = true → specialpos < 2 ^ 31 →
      PiecesOnly specialpos specialfirstpos fd.entries →
      AliasUnique before vol specialpos specialfirstpos fd name newdir) ↔
    name.head? ≠ some 0x2e := by
  have hhead : newdir.head = 0x20 ↔ name.head? = some 0x2e := by
    rw [← conv83_blank_iff name helem htst, ← hname, Entry.name, List.head?_cons,
      Option.some.injEq]
  constructor
  · intro hall hpoint
    cases name with
    | nil => simp only [List.head?_nil, reduceCtorEq] at hpoint
    | cons c cs =>
      rw [List.head?_cons, Option.some.injEq] at hpoint
      refine pointDir_alias (c :: cs) newdir ?_ hlong (tstName_cons c cs htst).2.2
        (hall 0 growVol (-1) (-1) _ rfl (by omega) ?_)
      · rw [hname, hpoint, conv83_point]
      · intro ndirs i e hown _ _
        have hle := hown.2.1
        omega
  · intro hpoint before vol specialpos specialfirstpos fd hflags hspecial hpieces
    exact vfFfreeOn_unique before vol hflags specialpos specialfirstpos hspecial fd hpieces name
      newdir (by rw [hname]; exact conv83_padded name) (fun h => hpoint (hhead.mp h)) hlong

/-- The name `a.text`. -/
def textName : List UInt8 := [0x61, 0x2e, 0x74, 0x65, 0x78, 0x74]

/-- The main entry with its short name. -/
def textBase : Entry :=
  { Entry.zero with
    head := 0x41, name1 := List.replicate 7 0x20 ++ [0x54, 0x45, 0x58], name1_length := rfl }

/-- When there is a file with the alias `A~1.TEX`, `a.text` gets another one. -/
theorem alias_unique_text :
    AliasUnique 0 growVol (-1) (-1) ⟨[(putNumber textBase 2 4 1).file], 0, 0⟩ textName
      textBase := by
  have h :=
    (alias_unique_iff textName (by unfold Element; decide +kernel) (by decide) textBase (by decide)
    (by decide)).mpr (by decide)
  refine h 0 growVol (-1) (-1) _ rfl (by omega) ?_
  intro ndirs i e hown _ _
  have hle := hown.2.1
  omega

/-- The name `.profile`. -/
def profileName : List UInt8 := [0x2e, 0x70, 0x72, 0x6f, 0x66, 0x69, 0x6c, 0x65]

/-- The main entry with its short name. -/
def profileBase : Entry :=
  { Entry.zero with
    head := 0x20, name1 := List.replicate 7 0x20 ++ [0x50, 0x52, 0x4f], name1_length := rfl }

/-- When there is a file with the alias of `.project`, the alias of `.profile` is the same. -/
theorem same_alias : profileBase.name = conv83 profileName ∧ tstName profileName = 0 ∧
    ¬ AliasUnique 0 growVol (-1) (-1) ⟨[(putNumber profileBase 1 4 1).file], 0, 0⟩ profileName
      profileBase := by
  refine ⟨by decide, by decide, fun h => ?_⟩
  have hres : vfFfreeOn 0 growVol (-1) (-1) ⟨[(putNumber profileBase 1 4 1).file], 0, 0⟩
      profileName profileBase = some (⟨(putNumber profileBase 1 4 1).file ::
        List.replicate 16 Entry.zero, 0, 0⟩,
        ⟨64, putNumber profileBase 1 4 1, some profileName, some 32⟩) := by
    decide +kernel
  refine h _ _ hres (by decide) (fun hbase => ?_) 0 _ ⟨rfl, ⟨_, rfl, by decide, ?_⟩, by decide,
    by decide⟩ rfl
  · -- The short name is not the whole name, so the number 0 is marked.
    exact absurd hbase.1 (by decide)
  · rintro ⟨m, e, hm, he, h0⟩
    rw [show m = 0 by omega] at he
    rw [← Option.some.inj he] at h0
    exact absurd h0 (by decide)

end Vfat

end MagiC
