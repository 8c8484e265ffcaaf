import MagiC.Aes.Image

/-!
# One Element of a Resource

What one turn of each of the loops of `_rsc_init` does. As long as the turn finds in memory
what is in the file, both where no element is and in its own element, it writes what is
written down for it and nothing else.

## Main definitions

* `Reads`: The memory is like the file on a set of places.

## Theorems

* `rsciLoopobj_spec`: An object.
-/

namespace MagiC

namespace Aes

namespace Rsc

open Memory

section

variable {f : Image} {b : Long} {m : Mem} {sc : Screen} {s t : Set Nat} {o : Nat}

/-- The memory is like the file on a set of places. -/
def Reads (f : Image) (b : Long) (s : Set Nat) (m : Mem) : Prop :=
  ∀ j ∈ s, m (b + BitVec.ofNat 32 j) = f.byte j

/-- What the initialisation knows about the file. -/
def glob (f : Image) (b : Long) : Global :=
  { apPtree := (f.word 18).setWidth 32 + b
    apPmem := b
    apLmem := f.word 34 }

theorem Reads.patch {l : List (Patch Byte)} (h : Reads f b s m)
    (hl : ∀ p ∈ l, ∀ i, p.Covers i → i < 2 ^ 32) (hs : ∀ j ∈ t, j ∈ s ∧ j < 2 ^ 32)
    (hout : ∀ j ∈ t, ∀ p ∈ l, ¬ p.Covers j) : Reads f b t (patch b m l) :=
  fun j hj => (patch_out hl (hs j hj).2 (hout j hj)).trans (h j (hs j hj).1)

theorem add_ofNat (j k : Nat) :
    b + BitVec.ofNat 32 j + BitVec.ofNat 32 k = b + BitVec.ofNat 32 (j + k) := by
  rw [BitVec.add_assoc, ← BitVec.ofNat_add]

theorem Reads.word (h : Reads f b s m) (h0 : o ∈ s) (h1 : o + 1 ∈ s) :
    getWord m (b + BitVec.ofNat 32 o) = f.word o := by
  have h1' : m (b + BitVec.ofNat 32 o + 1) = f.byte (o + 1) :=
    (congrArg m (add_ofNat o 1)).trans (h _ h1)
  unfold getWord Image.word
  rw [h o h0, h1']

theorem Reads.long (h : Reads f b s m) (ho : ∀ n < 4, o + n ∈ s) :
    getLong m (b + BitVec.ofNat 32 o) = f.long o := by
  have h1 : m (b + BitVec.ofNat 32 o + 1) = f.byte (o + 1) :=
    (congrArg m (add_ofNat o 1)).trans (h _ (ho 1 (by omega)))
  have h2 : m (b + BitVec.ofNat 32 o + 2) = f.byte (o + 2) :=
    (congrArg m (add_ofNat o 2)).trans (h _ (ho 2 (by omega)))
  have h3 : m (b + BitVec.ofNat 32 o + 3) = f.byte (o + 3) :=
    (congrArg m (add_ofNat o 3)).trans (h _ (ho 3 (by omega)))
  unfold getLong Image.long
  rw [h o (ho 0 (by omega)), h1, h2, h3]

theorem longBytes_long : longBytes (f.long o) =
    [f.byte o, f.byte (o + 1), f.byte (o + 2), f.byte (o + 3)] := by
  have key : ∀ a b c d : Byte, longBytes (a ++ b ++ c ++ d) = [a, b, c, d] := by
    intro a b c d
    unfold longBytes
    refine List.cons_eq_cons.mpr ⟨?_, List.cons_eq_cons.mpr ⟨?_, List.cons_eq_cons.mpr ⟨?_,
      List.cons_eq_cons.mpr ⟨?_, rfl⟩⟩⟩⟩ <;>
    · ext i hi
      simp only [BitVec.getElem_extractLsb', BitVec.getLsbD_append]
      rw [← BitVec.getLsbD_eq_getElem]
      split_ifs <;> first | omega | (congr 1; omega)
  exact key _ _ _ _

theorem patch_ptr_none (h : Reads f b s m) (ho : ∀ n < 4, o + n ∈ s) (hnone : f.long o = -1) :
    patch b m [f.ptr b o] = m := by
  refine write_same fun n hn => ?_
  have hbytes : longBytes (reloc b (f.long o)) = longBytes (f.long o) := by
    rw [reloc, if_pos hnone, hnone]
  show some (m (b + BitVec.ofNat 32 o + BitVec.ofNat 32 n)) =
    (longBytes (reloc b (f.long o)))[n]?
  rw [hbytes, longBytes_long, add_ofNat, h _ (ho n hn)]
  have hn' : n = 0 ∨ n = 1 ∨ n = 2 ∨ n = 3 := by
    have : n < 4 := hn
    omega
  rcases hn' with rfl | rfl | rfl | rfl <;> rfl

/-- A pointer. -/
theorem relToAbs_spec (h : Reads f b s m) (ho : ∀ n < 4, o + n ∈ s)
    (hb : b.toNat + o + 4 ≤ 2 ^ 32) :
    relToAbsAdr (glob f b) m (b + BitVec.ofNat 32 o) =
      some (patch b m [f.ptr b o], decide (f.long o ≠ -1)) := by
  have hne : b + BitVec.ofNat 32 o ≠ -1 := by
    intro heq
    have htoNat : (b + BitVec.ofNat 32 o).toNat = b.toNat + o :=
      toNat_add_ofNat (show b.toNat + o < 2 ^ 32 by omega) (Nat.le_refl _)
    rw [heq] at htoNat
    have hlast : (-1 : Long).toNat = 2 ^ 32 - 1 := rfl
    omega
  rw [relToAbsAdr, if_neg hne, h.long ho]
  by_cases hnone : f.long o = -1
  · rw [if_pos hnone, patch_ptr_none h ho hnone]
    simp [hnone]
  · rw [if_neg hnone]
    have hptr : f.ptr b o = ⟨o, longBytes (f.long o + b)⟩ := by
      rw [Image.ptr, reloc, if_neg hnone]
    rw [hptr]
    simp only [patch_cons, patch_nil, ne_eq, hnone, not_false_eq_true, decide_true]
    rfl

theorem header_reads (hf : Wellformed f) (h : Reads f b s m) (hs : f.common ⊆ s) {j : Nat}
    (hj : j + 1 < 36) : getWord m (b + BitVec.ofNat 32 j) = f.word j :=
  h.word (hs (header_common hf (by omega))) (hs (header_common hf hj))

theorem gaddr_field (hf : Wellformed f) (h : Reads f b s m) (hs : f.common ⊆ s) {k : Kind}
    {type index : Word} {typ n : Nat} (ht : type ≠ 0)
    (hrg : rgTab[(type - 1).toNat]? = some (typ, (n : Int))) (hk : k.table = 2 * typ)
    (hlen : structLenTab.getD typ 0 = k.length) :
    rsrcGaddr (glob f b) m type index =
      b + BitVec.ofNat 32 (f.elem k index.toNat + n) := by
  have htab : 2 * typ + 1 < 36 := by
    rw [← hk]
    cases k <;> decide
  rw [rsrcGaddr, if_neg ht, hrg]
  simp only
  rw [if_neg (by omega), hlen]
  show b + (getWord m (b + BitVec.ofNat 32 (2 * typ))).setWidth 32 + _ + _ = _
  rw [header_reads hf h hs htab, ← hk, BitVec.ofInt_natCast, ← BitVec.ofNat_toNat, add_ofNat,
    add_ofNat, Image.elem, Image.base, Nat.add_assoc]

theorem patch_long {l : List (Patch Byte)} {v : Long} (hp : (⟨o, longBytes v⟩ : Patch Byte) ∈ l)
    (hl : ∀ p ∈ l, ∀ i, p.Covers i → i < 2 ^ 32)
    (h : ∀ q ∈ l, ∀ n < 4, q = ⟨o, longBytes v⟩ ∨ ¬ q.Covers (o + n)) :
    getLong (Memory.patch b m l) (b + BitVec.ofNat 32 o) = v := by
  refine getLong_of_bytes fun n hn => ?_
  have hcov : (⟨o, longBytes v⟩ : Patch Byte).Covers (o + n) :=
    ⟨Nat.le_add_right o n, Nat.add_lt_add_left hn o⟩
  rw [add_ofNat, patch_in hl hp hcov fun q hq => h q hq n hn, Nat.add_sub_cancel_left]

theorem patch_word {l : List (Patch Byte)} {v : Word} (hp : (⟨o, wordBytes v⟩ : Patch Byte) ∈ l)
    (hl : ∀ p ∈ l, ∀ i, p.Covers i → i < 2 ^ 32)
    (h : ∀ q ∈ l, ∀ n < 2, q = ⟨o, wordBytes v⟩ ∨ ¬ q.Covers (o + n)) :
    getWord (Memory.patch b m l) (b + BitVec.ofNat 32 o) = v := by
  refine getWord_of_bytes fun n hn => ?_
  have hcov : (⟨o, wordBytes v⟩ : Patch Byte).Covers (o + n) :=
    ⟨Nat.le_add_right o n, Nat.add_lt_add_left hn o⟩
  rw [add_ofNat, patch_in hl hp hcov fun q hq => h q hq n hn, Nat.add_sub_cancel_left]

theorem ptr_covers {i : Nat} (h : (f.ptr b o).Covers i) : o ≤ i ∧ i < o + 4 := h

theorem len_covers {l i : Nat} (h : (f.len o l).Covers i) : l ≤ i ∧ i < l + 2 := h

theorem xy_covers {d : Bool} {i : Nat} (h : (f.xy sc d o).Covers i) : o ≤ i ∧ i < o + 2 := h

end

section

variable {f : Image} {b : Long} {m : Mem} {s : Set Nat}

theorem str1_spec {a : Long} {len n : Nat} (hn : len < n)
    (h : ∀ k < len, m (a + BitVec.ofNat 32 k) ≠ 0) (h0 : m (a + BitVec.ofNat 32 len) = 0) :
    str1 m n a = some (a + BitVec.ofNat 32 len) := by
  induction len generalizing a n with
  | zero =>
    rcases n with - | n
    · omega
    rw [BitVec.add_zero] at h0 ⊢
    rw [str1, if_pos h0]
  | succ len ih =>
    rcases n with - | n
    · omega
    have hfirst := h 0 (by omega)
    rw [BitVec.add_zero] at hfirst
    have hnext : ∀ k, a + 1 + BitVec.ofNat 32 k = a + BitVec.ofNat 32 (k + 1) := by
      intro k
      rw [BitVec.ofNat_add, BitVec.add_comm (BitVec.ofNat 32 k), ← BitVec.add_assoc]
      rfl
    have hrest : ∀ k < len, m (a + 1 + BitVec.ofNat 32 k) ≠ 0 := by
      intro k hk
      rw [hnext]
      exact h (k + 1) (by omega)
    rw [str1, if_neg hfirst, ih (by omega) hrest (by rw [hnext]; exact h0), hnext]

theorem strlen_spec {v len : Nat} (h : Reads f b s m) (hstr : f.StringAt v len)
    (hs : ∀ n ≤ len, v + n ∈ s) (hlen : len < 2 ^ 32) :
    strlen m (b + BitVec.ofNat 32 v) = some (BitVec.ofNat 32 len) := by
  have hend : str1 m (2 ^ 32) (b + BitVec.ofNat 32 v) =
      some (b + BitVec.ofNat 32 v + BitVec.ofNat 32 len) := by
    refine str1_spec hlen (fun k hk => ?_) ?_
    · rw [add_ofNat, h _ (hs k (by omega))]
      exact hstr.1 k hk
    · rw [add_ofNat, h _ (hs len (Nat.le_refl _))]
      exact hstr.2
  rw [strlen, hend, Option.map_some, add_sub_cancel_left]

theorem image_strlen {v len : Nat} (hstr : f.StringAt v len) (hlen : v + len < f.size) :
    f.strlen v = len := by
  have hlt : len < (List.range f.size).length := by
    rw [List.length_range]
    omega
  rw [Image.strlen, List.findIdx_eq hlt]
  refine ⟨?_, fun n hn => ?_⟩
  · rw [List.getElem_range]
    exact decide_eq_true hstr.2
  · rw [List.getElem_range]
    exact decide_eq_false (hstr.1 n hn)

theorem ritLoop2_field (hf : Wellformed f) (hb : b.toNat + f.size ≤ 2 ^ 32)
    (h : Reads f b s m) (hs : f.common ⊆ s) {i c l : Nat} {d0 d1 d1' : Word} {rest : List Word}
    (hi : i < f.number .tedinfo) (hc : c ∈ [0, 4]) (ht : d0 ≠ 0)
    (hrg : rgTab[(d0 - 1).toNat]? = some (2, (c : Int)))
    (hd1 : d1.signExtend 32 = BitVec.ofNat 32 c) (hmsb : d1.msb = false)
    (hd1' : d1'.signExtend 32 = BitVec.ofNat 32 l)
    (ho : ∀ n < 4, f.elem .tedinfo i + c + n ∈ s)
    (hv : f.long (f.elem .tedinfo i + c) ≠ -1) :
    ritLoop2 (glob f b) (b + BitVec.ofNat 32 (f.elem .tedinfo i)) (BitVec.ofNat 16 i)
        (d0 :: d1 :: d1' :: rest) m =
      ritLoop2 (glob f b) (b + BitVec.ofNat 32 (f.elem .tedinfo i)) (BitVec.ofNat 16 i) rest
        (Memory.patch b m [f.ptr b (f.elem .tedinfo i + c),
          f.len (f.elem .tedinfo i + c) (f.elem .tedinfo i + l)]) := by
  have hel := elem_inside hf hi
  have hsize := hf.rssize
  have hsmall := hf.small
  have hi16 : (BitVec.ofNat 16 i).toNat = i := by
    have hnum : f.number .tedinfo < 2 ^ 16 := (f.word _).isLt
    rw [BitVec.toNat_ofNat, Nat.mod_eq_of_lt (by omega)]
  have hc4 : c ≤ 4 := by
    simp only [List.mem_cons, List.not_mem_nil, or_false] at hc
    omega
  have hlen28 : Kind.tedinfo.length = 28 := rfl
  rw [hlen28] at hel
  rcases hf.strings i hi c hc hv with ⟨len, hstr, hlen16, hlenSize, hout⟩
  generalize ho' : f.elem .tedinfo i + c = o at *
  -- the pointer
  have hset : setAbsAdr (glob f b) m d0 (BitVec.ofNat 16 i) =
      some (Memory.patch b m [f.ptr b o], true) := by
    rw [setAbsAdr, gaddr_field hf h hs (k := .tedinfo) ht hrg rfl rfl, hi16, ho',
      relToAbs_spec h ho (by omega), decide_eq_true hv]
  have hsingle : ∀ p ∈ [f.ptr b o], ∀ j, p.Covers j → j < 2 ^ 32 := by
    intro p hp j hj
    rw [List.mem_singleton.mp hp] at hj
    have := ptr_covers hj
    omega
  have hget : getLong (Memory.patch b m [f.ptr b o]) (b + BitVec.ofNat 32 o) =
      b + BitVec.ofNat 32 (f.long o).toNat := by
    have hval : reloc b (f.long o) = b + BitVec.ofNat 32 (f.long o).toNat := by
      rw [reloc, if_neg hv, BitVec.ofNat_toNat, BitVec.setWidth_eq, BitVec.add_comm]
    rw [← hval]
    exact patch_long List.mem_cons_self hsingle
      fun q hq n hn => Or.inl (List.mem_singleton.mp hq)
  -- the string is in no element, so it is still there
  have hstring : ∀ n ≤ len, (f.long o).toNat + n ∈ f.common :=
    fun n hn => ⟨by omega, hout n hn⟩
  have hreads : Reads f b f.common (Memory.patch b m [f.ptr b o]) := by
    refine h.patch hsingle (fun j hj => ⟨hs hj, by have := hj.1; omega⟩) fun j hj p hp hcov => ?_
    rw [List.mem_singleton.mp hp] at hcov
    have hcov' := ptr_covers hcov
    exact hj.2 ⟨.tedinfo, i, hi, by omega, by rw [hlen28]; omega⟩
  have hn : (BitVec.ofNat 32 len).setWidth 16 + 1 = BitVec.ofNat 16
    (f.strlen (f.long o).toNat + 1) := by
    rw [image_strlen hstr hlenSize, BitVec.setWidth_ofNat_of_le (by omega), BitVec.ofNat_add]
    rfl
  rw [ritLoop2, hset, Option.bind_eq_bind, Option.bind_some]
  simp only [hmsb, Bool.false_eq_true, if_false, if_true]
  rw [hd1, hd1', add_ofNat, add_ofNat, ho', hget,
    strlen_spec hreads hstr hstring (by omega), Option.bind_eq_bind, Option.bind_some, hn]
  rfl

theorem toNat_index {k : Kind} {i : Nat} (hi : i < f.number k) : (BitVec.ofNat 16 i).toNat = i := by
  have hnum : f.number k < 2 ^ 16 := (f.word _).isLt
  rw [BitVec.toNat_ofNat, Nat.mod_eq_of_lt (by omega)]

theorem Reads.fix {l : List (Patch Byte)} {t : Set Nat} (h : Reads f b s m) (hf : Wellformed f)
    {k : Kind} {i : Nat} (hi : i < f.number k)
    (hl : ∀ p ∈ l, ∀ j, p.Covers j → f.elem k i ≤ j ∧ j < f.elem k i + k.length)
    (hs : t ⊆ s) (ht : ∀ j ∈ t, j ∈ f.common ∨ j < f.size ∧ ∀ p ∈ l, ¬ p.Covers j) :
    Reads f b t (Memory.patch b m l) := by
  have hel := elem_inside hf hi
  have hsize := hf.rssize
  have hsmall := hf.small
  refine h.patch (fun p hp j hj => ?_) (fun j hj => ⟨hs hj, ?_⟩) fun j hj p hp hcov => ?_
  · have := hl p hp j hj
    omega
  · rcases ht j hj with hc | hc
    · have := hc.1
      omega
    · omega
  · rcases ht j hj with hc | hc
    · exact hc.2 ⟨k, i, hi, hl p hp j hcov⟩
    · exact hc.2 p hp hcov

theorem part_subset {i : Nat} (lo : Nat) :
    f.common ∪ {j | f.elem .tedinfo i + lo ≤ j ∧ j < f.elem .tedinfo i + 12} ⊆
      f.common ∪ f.own (.tedinfo, i) := by
  refine Set.union_subset_union_right _ fun j hj => ?_
  have hlo : f.elem .tedinfo i + lo ≤ j := hj.1
  have hhi : j < f.elem .tedinfo i + 12 := hj.2
  exact ⟨show f.elem .tedinfo i ≤ j by omega, show j < f.elem .tedinfo i + 28 by omega⟩

theorem reads_text (hf : Wellformed f) {i : Nat} (hi : i < f.number .tedinfo)
    (h : Reads f b (f.common ∪ f.own (.tedinfo, i)) m) :
    Reads f b (f.common ∪ {j | f.elem .tedinfo i + 4 ≤ j ∧ j < f.elem .tedinfo i + 12})
      (patch b m [f.ptr b (f.elem .tedinfo i + 0),
        f.len (f.elem .tedinfo i + 0) (f.elem .tedinfo i + 24)]) := by
  have hel := elem_inside hf hi
  have hlen28 : Kind.tedinfo.length = 28 := rfl
  have hsize := hf.rssize
  rw [hlen28] at hel
  refine h.fix hf hi (fun p hp j hj => ?_) (part_subset 4) fun j hj => ?_
  · rw [hlen28]
    rcases List.mem_cons.mp hp with rfl | hp
    · have := ptr_covers hj
      omega
    · rw [List.mem_singleton.mp hp] at hj
      have := len_covers hj
      omega
  · rcases hj with hj | ⟨hlo, hhi⟩
    · exact Or.inl hj
    · refine Or.inr ⟨by omega, fun p hp hcov => ?_⟩
      rcases List.mem_cons.mp hp with rfl | hp
      · have := ptr_covers hcov
        omega
      · rw [List.mem_singleton.mp hp] at hcov
        have := len_covers hcov
        omega

theorem ritLoop_spec (hf : Wellformed f) (hb : b.toNat + f.size ≤ 2 ^ 32) {i : Nat}
    (hi : i < f.number .tedinfo) (h : Reads f b (f.common ∪ f.own (.tedinfo, i)) m)
    (htext : f.long (f.elem .tedinfo i) ≠ -1) (htmplt : f.long (f.elem .tedinfo i + 4) ≠ -1) :
    ritLoop (glob f b) m (BitVec.ofNat 16 i) =
      some (patch b m (f.fix b sc (.tedinfo, i))) := by
  have hel := elem_inside hf hi
  have hlen28 : Kind.tedinfo.length = 28 := rfl
  have hsize := hf.rssize
  rw [hlen28] at hel
  have hown : ∀ j, f.elem .tedinfo i ≤ j → j < f.elem .tedinfo i + 28 →
      j ∈ f.common ∪ f.own (.tedinfo, i) := fun j hlo hhi => Or.inr ⟨hlo, hhi⟩
  rw [ritLoop, gaddr_field hf h Set.subset_union_left (k := .tedinfo) (n := 0) (by decide) rfl rfl
    rfl, toNat_index hi, Nat.add_zero]
  -- the text
  rw [tedinfoTab, ritLoop2_field hf hb h Set.subset_union_left (c := 0) (l := 24) hi (by simp)
    (by decide) rfl rfl rfl rfl (fun n hn => hown _ (by omega) (by omega)) htext]
  have hreads₁ := reads_text hf hi h
  -- the template
  rw [ritLoop2_field hf hb hreads₁ Set.subset_union_left (c := 4) (l := 26) hi (by simp)
    (by decide) rfl rfl rfl rfl (fun n hn => Or.inr ⟨by omega, by omega⟩) htmplt, ← patch_append]
  have hreads₂ : Reads f b (f.common ∪ {j | f.elem .tedinfo i + 8 ≤ j ∧ j < f.elem .tedinfo i + 12})
      (patch b m ([f.ptr b (f.elem .tedinfo i + 0),
        f.len (f.elem .tedinfo i + 0) (f.elem .tedinfo i + 24)] ++
        [f.ptr b (f.elem .tedinfo i + 4),
          f.len (f.elem .tedinfo i + 4) (f.elem .tedinfo i + 26)])) := by
    refine h.fix hf hi (fun p hp j hj => ?_) (part_subset 8) fun j hj => ?_
    · rw [hlen28]
      simp only [List.mem_append, List.mem_cons, List.not_mem_nil, or_false] at hp
      rcases hp with (rfl | rfl) | rfl | rfl
      · have := ptr_covers hj
        omega
      · have := len_covers hj
        omega
      · have := ptr_covers hj
        omega
      · have := len_covers hj
        omega
    · rcases hj with hj | ⟨hlo, hhi⟩
      · exact Or.inl hj
      · refine Or.inr ⟨by omega, fun p hp hcov => ?_⟩
        simp only [List.mem_append, List.mem_cons, List.not_mem_nil, or_false] at hp
        rcases hp with (rfl | rfl) | rfl | rfl
        · have := ptr_covers hcov
          omega
        · have := len_covers hcov
          omega
        · have := ptr_covers hcov
          omega
        · have := len_covers hcov
          omega
  -- the valid characters, which end the table
  have hfix : f.fix b sc (.tedinfo, i) =
      [f.ptr b (f.elem .tedinfo i + 0), f.len (f.elem .tedinfo i + 0) (f.elem .tedinfo i + 24)] ++
      [f.ptr b (f.elem .tedinfo i + 4), f.len (f.elem .tedinfo i + 4) (f.elem .tedinfo i + 26)] ++
      [f.ptr b (f.elem .tedinfo i + 8)] := rfl
  rw [ritLoop2, setAbsAdr, gaddr_field hf hreads₂ Set.subset_union_left (k := .tedinfo) (n := 8)
    (by decide) rfl rfl rfl, toNat_index hi,
    relToAbs_spec hreads₂ (fun n hn => Or.inr ⟨by omega, by omega⟩) (by omega),
    Option.bind_eq_bind, Option.bind_some, hfix, patch_append _ [f.ptr b _]]
  rfl

theorem ritLoop2_none (hf : Wellformed f) (hb : b.toNat + f.size ≤ 2 ^ 32)
    (h : Reads f b s m) (hs : f.common ⊆ s) {i c : Nat} {d0 d1 : Word} {rest : List Word}
    (hi : i < f.number .tedinfo) (hc : c ≤ 4) (ht : d0 ≠ 0)
    (hrg : rgTab[(d0 - 1).toNat]? = some (2, (c : Int))) (hmsb : d1.msb = false)
    (ho : ∀ n < 4, f.elem .tedinfo i + c + n ∈ s)
    (hv : f.long (f.elem .tedinfo i + c) = -1) (a3 : Long) :
    ritLoop2 (glob f b) a3 (BitVec.ofNat 16 i) (d0 :: d1 :: rest) m =
      ritLoop2 (glob f b) a3 (BitVec.ofNat 16 i) rest
        (patch b m [f.ptr b (f.elem .tedinfo i + c)]) := by
  have hel := elem_inside hf hi
  have hlen28 : Kind.tedinfo.length = 28 := rfl
  have hsize := hf.rssize
  rw [hlen28] at hel
  have hset : setAbsAdr (glob f b) m d0 (BitVec.ofNat 16 i) =
      some (patch b m [f.ptr b (f.elem .tedinfo i + c)], false) := by
    rw [setAbsAdr, gaddr_field hf h hs (k := .tedinfo) ht hrg rfl rfl, toNat_index hi,
      relToAbs_spec h ho (by omega), hv]
    rfl
  rw [ritLoop2, hset, Option.bind_eq_bind, Option.bind_some]
  simp only [hmsb, Bool.false_eq_true, if_false]

theorem ritLoop2_fault {g : Global} {a3 : Long} {d7 d0 d1 : Word} {rest : List Word}
    (hd : d0 = te_txtlen ∨ d0 = te_tmplen) : ritLoop2 g a3 d7 (d0 :: d1 :: rest) m = none := by
  have hset : setAbsAdr g m d0 d7 = none := by
    rcases hd with rfl | rfl <;> rfl
  rw [ritLoop2, hset, Option.bind_eq_bind, Option.bind_none]

theorem ritLoop_fault (hf : Wellformed f) (hb : b.toNat + f.size ≤ 2 ^ 32) {i : Nat}
    (hi : i < f.number .tedinfo) (h : Reads f b (f.common ∪ f.own (.tedinfo, i)) m)
    (hv : f.long (f.elem .tedinfo i) = -1 ∨ f.long (f.elem .tedinfo i + 4) = -1) :
    ritLoop (glob f b) m (BitVec.ofNat 16 i) = none := by
  have hown : ∀ j, f.elem .tedinfo i ≤ j → j < f.elem .tedinfo i + 28 →
      j ∈ f.common ∪ f.own (.tedinfo, i) := fun j hlo hhi => Or.inr ⟨hlo, hhi⟩
  rw [ritLoop, gaddr_field hf h Set.subset_union_left (k := .tedinfo) (n := 0) (by decide) rfl rfl
    rfl, toNat_index hi, Nat.add_zero, tedinfoTab]
  by_cases htext : f.long (f.elem .tedinfo i) = -1
  · -- the place of the length is taken for the next request
    rw [ritLoop2_none hf hb h Set.subset_union_left (c := 0) hi (by omega) (by decide) rfl rfl
      (fun n hn => hown _ (by omega) (by omega)) htext]
    exact ritLoop2_fault (Or.inl rfl)
  · have htmplt : f.long (f.elem .tedinfo i + 4) = -1 := hv.resolve_left htext
    rw [ritLoop2_field hf hb h Set.subset_union_left (c := 0) (l := 24) hi (by simp)
      (by decide) rfl rfl rfl rfl (fun n hn => hown _ (by omega) (by omega)) htext,
      ritLoop2_none hf hb (reads_text hf hi h) Set.subset_union_left (c := 4) hi (by omega)
        (by decide) rfl rfl (fun n hn => Or.inr ⟨by omega, by omega⟩) htmplt]
    exact ritLoop2_fault (Or.inr rfl)

theorem rsrcObfixInt_spec {o : Nat} {d0 : Bool} (h : Reads f b s m) (h0 : o ∈ s)
    (h1 : o + 1 ∈ s) :
    rsrcObfixInt sc (m, b + BitVec.ofNat 32 o, d0) =
      (patch b m [f.xy sc d0 o], b + BitVec.ofNat 32 (o + 2), !d0) := by
  have hlow : m (b + BitVec.ofNat 32 o + 1) = (f.word o).setWidth 8 := by
    rw [show b + BitVec.ofNat 32 o + 1 = b + BitVec.ofNat 32 (o + 1) from add_ofNat o 1, h _ h1,
      Image.word, BitVec.setWidth_append]
    simp
  have hhigh : m (b + BitVec.ofNat 32 o) = (f.word o).extractLsb' 8 8 := by
    rw [h o h0, Image.word]
    exact (BitVec.extractLsb'_append_eq_left).symm
  have hiff : ∀ v : Byte, v.setWidth 16 = (80 : Word) ↔ v = 80 := by decide
  unfold rsrcObfixInt
  simp only [hlow, hhigh]
  rw [show b + BitVec.ofNat 32 o + 2 = b + BitVec.ofNat 32 (o + 2) from add_ofNat o 2]
  simp only [hiff]
  rfl

theorem rsrcObfixInt_next {o o' : Nat} {d0 : Bool} {l k : List (Patch Byte)}
    (h : Reads f b s (patch b m l)) (h0 : o ∈ s) (h1 : o + 1 ∈ s)
    (hk : k = l ++ [f.xy sc d0 o]) (ho : o' = o + 2) {d : Bool} (hd : d = !d0) :
    rsrcObfixInt sc (patch b m l, b + BitVec.ofNat 32 o, d0) =
      (patch b m k, b + BitVec.ofNat 32 o', d) := by
  rw [rsrcObfixInt_spec h h0 h1, ← patch_append, hk, ho, hd]

theorem reads_object (hf : Wellformed f) {i : Nat} (hi : i < f.number .object)
    (h : Reads f b (f.common ∪ f.own (.object, i)) m) {l : List (Patch Byte)} {n : Nat}
    (hlo : 16 ≤ n) (hle : n ≤ 24)
    (hl : ∀ p ∈ l, ∀ j, p.Covers j → f.elem .object i + 16 ≤ j ∧ j < f.elem .object i + n) :
    Reads f b (f.common ∪ {j | f.elem .object i ≤ j ∧ j < f.elem .object i + 16 ∨
      f.elem .object i + n ≤ j ∧ j < f.elem .object i + 24}) (patch b m l) := by
  have hel := elem_inside hf hi
  have hlen24 : Kind.object.length = 24 := rfl
  have hsize := hf.rssize
  rw [hlen24] at hel
  refine h.fix hf hi (fun p hp j hj => ?_) ?_ fun j hj => ?_
  · have := hl p hp j hj
    rw [hlen24]
    omega
  · refine Set.union_subset_union_right _ fun j hj => ?_
    have hj' : f.elem .object i ≤ j ∧ j < f.elem .object i + 16 ∨
      f.elem .object i + n ≤ j ∧ j < f.elem .object i + 24 := hj
    exact ⟨show f.elem .object i ≤ j by omega, show j < f.elem .object i + 24 by omega⟩
  · rcases hj with hj | hj
    · exact Or.inl hj
    · have hj' : f.elem .object i ≤ j ∧ j < f.elem .object i + 16 ∨
        f.elem .object i + n ≤ j ∧ j < f.elem .object i + 24 := hj
      refine Or.inr ⟨by omega, fun p hp hcov => ?_⟩
      have := hl p hp j hcov
      omega

theorem rsrcObfix_spec (hf : Wellformed f) {i : Nat} (hi : i < f.number .object)
    (h : Reads f b (f.common ∪ f.own (.object, i)) m) :
    rsrcObfix sc m (b + BitVec.ofNat 32 (f.elem .object i)) 0 =
      patch b m [f.xy sc true (f.elem .object i + 16), f.xy sc false (f.elem .object i + 18),
        f.xy sc true (f.elem .object i + 20), f.xy sc false (f.elem .object i + 22)] := by
  have hstart : b + BitVec.ofNat 32 (f.elem .object i) + (0 : Word).signExtend 32 * 24 + ob_x =
      b + BitVec.ofNat 32 (f.elem .object i + 16) := by
    rw [show (0 : Word).signExtend 32 * 24 = (0 : Long) from rfl, add_zero]
    exact add_ofNat _ 16
  generalize he : f.elem .object i = e at *
  have hown : ∀ j, e ≤ j → j < e + 24 → j ∈ f.common ∪ f.own (.object, i) := by
    intro j hlo hhi
    exact Or.inr ⟨show f.elem .object i ≤ j by omega, show j < f.elem .object i + 24 by omega⟩
  have hcov : ∀ lo (l : List (Patch Byte)), (∀ p ∈ l, ∃ d o, p = f.xy sc d o ∧ e + 16 ≤ o ∧
      o + 2 ≤ e + lo) → ∀ p ∈ l, ∀ j, p.Covers j → e + 16 ≤ j ∧ j < e + lo := by
    intro lo l hl p hp j hj
    rcases hl p hp with ⟨d, o, rfl, hlo, hhi⟩
    have := xy_covers hj
    omega
  have hreads := fun (lo : Nat) (l : List (Patch Byte)) (hlo : 16 ≤ lo) (hle : lo ≤ 24) hl =>
    reads_object hf hi h (l := l) hlo hle (by rw [he]; exact hcov lo l hl)
  rw [he] at hreads
  -- every field is changed by one call, which goes on to the next field
  have h₁ := hreads 18 [f.xy sc true (e + 16)] (by omega) (by omega) (by
    intro p hp
    exact ⟨true, e + 16, List.mem_singleton.mp hp, by omega, by omega⟩)
  have h₂ := hreads 20 [f.xy sc true (e + 16), f.xy sc false (e + 18)] (by omega) (by omega) (by
    intro p hp
    simp only [List.mem_cons, List.not_mem_nil, or_false] at hp
    rcases hp with rfl | rfl
    · exact ⟨_, _, rfl, by omega, by omega⟩
    · exact ⟨_, _, rfl, by omega, by omega⟩)
  have h₃ := hreads 22 [f.xy sc true (e + 16), f.xy sc false (e + 18), f.xy sc true (e + 20)]
    (by omega) (by omega) (by
      intro p hp
      simp only [List.mem_cons, List.not_mem_nil, or_false] at hp
      rcases hp with rfl | rfl | rfl
      · exact ⟨_, _, rfl, by omega, by omega⟩
      · exact ⟨_, _, rfl, by omega, by omega⟩
      · exact ⟨_, _, rfl, by omega, by omega⟩)
  have hx : rsrcObfixInt sc (patch b m [], b + BitVec.ofNat 32 (e + 16), true) =
      (patch b m [f.xy sc true (e + 16)], b + BitVec.ofNat 32 (e + 18), false) :=
    rsrcObfixInt_next h (hown _ (by omega) (by omega)) (hown _ (by omega) (by omega)) rfl rfl rfl
  have hy : rsrcObfixInt sc
      (patch b m [f.xy sc true (e + 16)], b + BitVec.ofNat 32 (e + 18), false) =
      (patch b m [f.xy sc true (e + 16), f.xy sc false (e + 18)],
        b + BitVec.ofNat 32 (e + 20), true) :=
    rsrcObfixInt_next h₁ (Or.inr (Or.inr ⟨by omega, by omega⟩))
      (Or.inr (Or.inr ⟨by omega, by omega⟩)) rfl rfl rfl
  have hw : rsrcObfixInt sc (patch b m [f.xy sc true (e + 16), f.xy sc false (e + 18)],
      b + BitVec.ofNat 32 (e + 20), true) =
      (patch b m [f.xy sc true (e + 16), f.xy sc false (e + 18), f.xy sc true (e + 20)],
        b + BitVec.ofNat 32 (e + 22), false) :=
    rsrcObfixInt_next h₂ (Or.inr (Or.inr ⟨by omega, by omega⟩))
      (Or.inr (Or.inr ⟨by omega, by omega⟩)) rfl rfl rfl
  have hh : rsrcObfixInt sc
      (patch b m [f.xy sc true (e + 16), f.xy sc false (e + 18), f.xy sc true (e + 20)],
        b + BitVec.ofNat 32 (e + 22), false) =
      (patch b m [f.xy sc true (e + 16), f.xy sc false (e + 18), f.xy sc true (e + 20),
        f.xy sc false (e + 22)], b + BitVec.ofNat 32 (e + 24), true) :=
    rsrcObfixInt_next h₃ (Or.inr (Or.inr ⟨by omega, by omega⟩))
      (Or.inr (Or.inr ⟨by omega, by omega⟩)) rfl rfl rfl
  rw [patch_nil] at hx
  rw [rsrcObfix, hstart, hx, hy, hw, hh]

theorem rsciLoopobj_spec (hf : Wellformed f) (hb : b.toNat + f.size ≤ 2 ^ 32) {i : Nat}
    (hi : i < f.number .object) (h : Reads f b (f.common ∪ f.own (.object, i)) m) (d4 : Long) :
    rsciLoopobj (glob f b) sc d4 m (BitVec.ofNat 16 i) =
      some (patch b m (f.fix b sc (.object, i))) := by
  have hel := elem_inside hf hi
  have hlen24 : Kind.object.length = 24 := rfl
  have hsize := hf.rssize
  rw [hlen24] at hel
  have hadd : ∀ k, b + BitVec.ofNat 32 (f.elem .object i) + BitVec.ofNat 32 k =
      b + BitVec.ofNat 32 (f.elem .object i + k) := fun k => add_ofNat _ k
  rw [rsciLoopobj, gaddr_field hf h Set.subset_union_left (k := .object) (n := 0) (by decide) rfl
    rfl rfl, toNat_index hi, Nat.add_zero]
  simp only
  rw [rsrcObfix_spec hf hi h]
  have hxy := reads_object (n := 24) hf hi h (by omega) (Nat.le_refl _)
    (l := [f.xy sc true (f.elem .object i + 16), f.xy sc false (f.elem .object i + 18),
      f.xy sc true (f.elem .object i + 20), f.xy sc false (f.elem .object i + 22)]) (by
    intro p hp j hj
    simp only [List.mem_cons, List.not_mem_nil, or_false] at hp
    rcases hp with rfl | rfl | rfl | rfl
    all_goals
      have := xy_covers hj
      omega)
  have hspec : ∀ n < 4, f.elem .object i + 12 + n ∈ f.common ∪ {j | f.elem .object i ≤ j ∧
      j < f.elem .object i + 16 ∨ f.elem .object i + 24 ≤ j ∧ j < f.elem .object i + 24} :=
    fun n hn => Or.inr (Or.inl ⟨by omega, by omega⟩)
  -- the type is still there
  have htype : (getWord (patch b m [f.xy sc true (f.elem .object i + 16),
      f.xy sc false (f.elem .object i + 18), f.xy sc true (f.elem .object i + 20),
      f.xy sc false (f.elem .object i + 22)])
      (b + BitVec.ofNat 32 (f.elem .object i) + ob_type)).setWidth 8 = f.obType i := by
    rw [show ob_type = BitVec.ofNat 32 6 from rfl, hadd,
      hxy.word (Or.inr (Or.inl ⟨by omega, by omega⟩)) (Or.inr (Or.inl ⟨by omega, by omega⟩))]
    rfl
  rw [htype, show ob_spec = BitVec.ofNat 32 12 from rfl, hadd, if_neg (hf.noIcons i hi)]
  have hfix : f.fix b sc (.object, i) =
      [f.xy sc true (f.elem .object i + 16), f.xy sc false (f.elem .object i + 18),
        f.xy sc true (f.elem .object i + 20), f.xy sc false (f.elem .object i + 22)] ++
      if f.Boxed i then [] else [f.ptr b (f.elem .object i + 12)] := rfl
  rw [hfix, patch_append]
  by_cases hbox : f.Boxed i
  · have hcol : f.obType i = G_BOX ∨ f.obType i = G_IBOX ∨ f.obType i = G_BOXCHAR := hbox
    rw [if_pos hcol, if_pos hbox]
    rfl
  · have hcol : ¬ (f.obType i = G_BOX ∨ f.obType i = G_IBOX ∨ f.obType i = G_BOXCHAR) := hbox
    rw [if_neg hcol, if_neg hbox, relToAbs_spec hxy hspec (by omega)]
    rfl

end

end Rsc

end Aes

end MagiC
