import MagiC.Aes.Relocation

/-!
# Resources in Memory

What there is in memory when `_rsc_init` has come to its end, and what `rsrc_gaddr` says then.

The initialisation does what it is for unless a text of the file has no string or no template.
`rsrc_gaddr` finds the trees unless there are more than 8192 of them: it counts the distance of an
entry from the beginning of the table in a word with a sign.

## Main definitions

* `memoryOf`: A memory that has nothing but the file in it.

## Theorems

* `relocates_iff`: When the initialisation does what it is for.
-/

namespace MagiC

namespace Aes

namespace Rsc

open Memory

section

variable {f : Image} {b : Long} {m m₀ : Mem} {sc : Screen}

theorem mem_passes (p : Pass) : p ∈ passes := by
  cases p <;> decide

theorem stage_unique (hf : Wellformed f) {t : Pass × Nat} (ht : t.2 < f.number t.1.kind)
    {q r : Patch Byte} (hq : q ∈ f.fix b sc t)
    (hr : r ∈ (turns f passes).flatMap (f.fix b sc)) {j : Nat} (hj : q.Covers j) :
    r = q ∨ ¬ r.Covers j := by
  by_cases hrj : r.Covers j
  · rcases List.mem_flatMap.mp hr with ⟨u, hu, hru⟩
    have hut : u = t := by
      by_contra hne
      exact own_apart hf (mem_turns.mp hu).2 ht hne (fix_own hru hrj) (fix_own hq hj)
    rw [hut] at hru
    exact Or.inl (fix_unique hru hq hrj hj)
  · exact Or.inr hrj

theorem stage_covers (hf : Wellformed f) : ∀ p ∈ (turns f passes).flatMap (f.fix b sc),
    ∀ j, p.Covers j → j < 2 ^ 32 := by
  intro p hp j hj
  have := turns_lt hf hp hj
  have := hf.small
  omega

theorem mem_stage {t : Pass × Nat} (ht : t.2 < f.number t.1.kind) {q : Patch Byte}
    (hq : q ∈ f.fix b sc t) : q ∈ (turns f passes).flatMap (f.fix b sc) :=
  List.mem_flatMap.mpr ⟨t, mem_turns.mpr ⟨mem_passes t.1, ht⟩, hq⟩

theorem stage_long (hf : Wellformed f) {t : Pass × Nat} (ht : t.2 < f.number t.1.kind) {o : Nat}
    {v : Long} (hq : (⟨o, longBytes v⟩ : Patch Byte) ∈ f.fix b sc t) :
    getLong (stage f b sc m₀ passes) (b + BitVec.ofNat 32 o) = v := by
  refine patch_long (mem_stage ht hq) (stage_covers hf) fun r hr n hn => ?_
  exact stage_unique hf ht hq hr ⟨Nat.le_add_right o n, Nat.add_lt_add_left hn o⟩

theorem stage_short (hf : Wellformed f) {t : Pass × Nat} (ht : t.2 < f.number t.1.kind) {o : Nat}
    {v : Word} (hq : (⟨o, wordBytes v⟩ : Patch Byte) ∈ f.fix b sc t) :
    getWord (stage f b sc m₀ passes) (b + BitVec.ofNat 32 o) = v := by
  refine patch_word (mem_stage ht hq) (stage_covers hf) fun r hr n hn => ?_
  exact stage_unique hf ht hq hr ⟨Nat.le_add_right o n, Nat.add_lt_add_left hn o⟩

theorem pointer_pass (b : Long) (sc : Screen) {k : Kind} {i c : Nat} (hc : c ∈ f.pointers k i) :
    ∃ p : Pass, p.kind = k ∧ f.ptr b (f.elem k i + c) ∈ f.fix b sc (p, i) := by
  cases k with
  | object =>
    refine ⟨.object, rfl, ?_⟩
    by_cases hbox : f.Boxed i
    · rw [Image.pointers, if_pos hbox] at hc
      exact absurd hc List.not_mem_nil
    · rw [Image.pointers, if_neg hbox, List.mem_singleton] at hc
      rw [hc]
      show _ ∈ _ ++ if f.Boxed i then [] else _
      rw [if_neg hbox]
      exact List.mem_append_right _ List.mem_cons_self
  | tedinfo =>
    refine ⟨.tedinfo, rfl, ?_⟩
    simp only [Image.pointers, List.mem_cons, List.not_mem_nil, or_false] at hc
    rcases hc with rfl | rfl | rfl <;>
      simp [Image.fix, Image.spot, Pass.kind, Pass.field]
  | iconblk =>
    simp only [Image.pointers, List.mem_cons, List.not_mem_nil, or_false] at hc
    rcases hc with rfl | rfl | rfl
    · exact ⟨.ibPmask, rfl, List.mem_cons_self⟩
    · exact ⟨.ibPdata, rfl, List.mem_cons_self⟩
    · exact ⟨.ibPtext, rfl, List.mem_cons_self⟩
  | bitblk =>
    rw [List.mem_singleton.mp hc]
    exact ⟨.biPdata, rfl, List.mem_cons_self⟩
  | frstr =>
    rw [List.mem_singleton.mp hc]
    exact ⟨.frstr, rfl, List.mem_cons_self⟩
  | frimg =>
    rw [List.mem_singleton.mp hc]
    exact ⟨.frimg, rfl, List.mem_cons_self⟩
  | tree =>
    rw [List.mem_singleton.mp hc]
    exact ⟨.tree, rfl, List.mem_cons_self⟩

theorem stage_pointers (hf : Wellformed f) {k : Kind} {i c : Nat} (hi : i < f.number k)
    (hc : c ∈ f.pointers k i) :
    getLong (stage f b sc m₀ passes) (b + BitVec.ofNat 32 (f.elem k i + c)) =
      reloc b (f.long (f.elem k i + c)) := by
  rcases pointer_pass b sc hc with ⟨p, rfl, hp⟩
  exact stage_long (t := (p, i)) hf hi hp

theorem stringAt_unique {v len len' : Nat} (h : f.StringAt v len) (h' : f.StringAt v len') :
    len = len' := by
  rcases Nat.lt_trichotomy len len' with hlt | heq | hgt
  · exact absurd h.2 (h'.1 len hlt)
  · exact heq
  · exact absurd h'.2 (h.1 len' hgt)

theorem stage_lengths (hf : Wellformed f) {i : Nat} (hi : i < f.number .tedinfo) {x : Nat × Nat}
    (hx : x ∈ lengths) (hv : f.long (f.elem .tedinfo i + x.1) ≠ -1) {len : Nat}
    (hlen : f.StringAt (f.long (f.elem .tedinfo i + x.1)).toNat len) :
    (getWord (stage f b sc m₀ passes) (b + BitVec.ofNat 32 (f.elem .tedinfo i + x.2))).toNat =
      len + 1 := by
  have hmem : f.len (f.elem .tedinfo i + x.1) (f.elem .tedinfo i + x.2) ∈
      f.fix b sc (.tedinfo, i) := by
    simp only [lengths, List.mem_cons, List.not_mem_nil, or_false] at hx
    rcases hx with rfl | rfl <;> simp [Image.fix, Image.spot, Pass.kind, Pass.field]
  have hx1 : x.1 ∈ [0, 4] := by
    simp only [lengths, List.mem_cons, List.not_mem_nil, or_false] at hx
    rcases hx with rfl | rfl <;> simp
  rcases hf.strings i hi x.1 hx1 hv with ⟨len', hstr, hlen16, hsize, -⟩
  rw [stage_short (t := (.tedinfo, i)) hf hi hmem, image_strlen hstr hsize,
    stringAt_unique hlen hstr, BitVec.toNat_ofNat, Nat.mod_eq_of_lt hlen16]

theorem stage_places (hf : Wellformed f) {i : Nat} (hi : i < f.number .object) {x : Nat × Bool}
    (hx : x ∈ places) :
    getWord (stage f b sc m₀ passes) (b + BitVec.ofNat 32 (f.elem .object i + x.1)) =
      obfixed sc x.2 (f.word (f.elem .object i + x.1)) := by
  have hmem : f.xy sc x.2 (f.elem .object i + x.1) ∈ f.fix b sc (.object, i) := by
    simp only [places, List.mem_cons, List.not_mem_nil, or_false] at hx
    rcases hx with rfl | rfl | rfl | rfl <;> simp [Image.fix, Image.spot, Pass.kind, Pass.field]
  exact stage_short (t := (.object, i)) hf hi hmem

theorem stage_same (hf : Wellformed f) (hm : Placed f b m₀) {j : Nat} (hj : j < f.size)
    (hout : ∀ k, ∀ i < f.number k, ∀ x ∈ f.fields k i,
      ¬ (f.elem k i + x.1 ≤ j ∧ j < f.elem k i + x.1 + x.2)) :
    stage f b sc m₀ passes (b + BitVec.ofNat 32 j) = f.byte j := by
  have hsmall := hf.small
  rw [stage, patch_out (stage_covers hf) (by omega) ?_, hm j hj]
  intro q hq hcov
  rcases List.mem_flatMap.mp hq with ⟨t, ht, hqt⟩
  rcases fix_field hqt with ⟨x, hx, hplace, hlen, -⟩
  refine hout t.1.kind t.2 (mem_turns.mp ht).2 x hx ?_
  rcases hcov with ⟨hlo, hhi⟩
  rw [hplace] at hlo hhi
  rw [hlen] at hhi
  exact ⟨hlo, hhi⟩

theorem gaddr_deref (hf : Wellformed f) (hm : Placed f b m₀) {k : Kind} {type index : Word}
    {typ : Nat} (ht : type ≠ 0) (hrg : rgTab[(type - 1).toNat]? = some (typ, -1))
    (hk : k.table = 2 * typ) (hlen : structLenTab.getD typ 0 = k.length) :
    rsrcGaddr (glob f b) (stage f b sc m₀ passes) type index =
      getLong (stage f b sc m₀ passes) (b + BitVec.ofNat 32 (f.elem k index.toNat)) := by
  have htab : 2 * typ + 1 < 36 := by
    rw [← hk]
    cases k <;> decide
  rw [rsrcGaddr, if_neg ht, hrg]
  simp only
  rw [if_pos (by decide), hlen]
  show getLong _ (b + (getWord _ (b + BitVec.ofNat 32 (2 * typ))).setWidth 32 + _) = _
  rw [stage_word hf hm htab, ← hk, ← BitVec.ofNat_toNat, add_ofNat]
  rfl

theorem requests_rgTab : ∀ t : Fin 17, t.val ≠ 0 → BitVec.ofNat 16 t.val ≠ 0 ∧
    rgTab[(BitVec.ofNat 16 t.val - 1).toNat]? =
      some (requests[t].1.table / 2, match requests[t].2 with
        | none => -1
        | some n => (n : Int)) ∧
    requests[t].1.table = 2 * (requests[t].1.table / 2) ∧
    structLenTab.getD (requests[t].1.table / 2) 0 = requests[t].1.length ∧
    (requests[t].2 = none → requests[t].1 = .frstr ∨ requests[t].1 = .frimg) := by
  decide

theorem stage_tree (hf : Wellformed f) {index : Word} (hi : index.toNat < f.number .tree)
    (hlt : index.toNat < 8192) :
    rsrcGaddr (glob f b) (stage f b sc m₀ passes) 0 index =
      reloc b (f.long (f.elem .tree index.toNat)) := by
  have hsign : (index <<< 2).signExtend 32 = BitVec.ofNat 32 (index.toNat * 4) := by
    have hshift : (index <<< 2).toNat = index.toNat * 4 := by
      rw [BitVec.toNat_shiftLeft, Nat.shiftLeft_eq, Nat.mod_eq_of_lt (by omega)]
    rw [BitVec.signExtend_eq_setWidth_of_msb_false, ← BitVec.ofNat_toNat, hshift]
    rw [BitVec.msb_eq_decide, hshift]
    exact decide_eq_false (by omega)
  have haddr : (glob f b).apPtree + (index <<< 2).signExtend 32 =
      b + BitVec.ofNat 32 (f.elem .tree index.toNat + 0) := by
    show (f.word 18).setWidth 32 + b + _ = _
    rw [hsign, BitVec.add_comm _ b, ← BitVec.ofNat_toNat, add_ofNat]
    rfl
  rw [rsrcGaddr, if_pos rfl, haddr]
  exact stage_pointers hf hi List.mem_cons_self

theorem stage_answers (hf : Wellformed f) (hm : Placed f b m₀) (htree : f.number .tree ≤ 8192)
    (type : Nat) (h : type < requests.length) (index : Word)
    (hi : index.toNat < f.number requests[type].1) :
    rsrcGaddr (glob f b) (stage f b sc m₀ passes) (BitVec.ofNat 16 type) index =
      f.answer b index.toNat requests[type] := by
  by_cases h0 : type = 0
  · rcases h0 with rfl
    have hi' : index.toNat < f.number .tree := hi
    exact stage_tree hf hi' (by omega)
  rcases requests_rgTab ⟨type, h⟩ h0 with ⟨hne, hrg, hk, hlen, hnone⟩
  simp only [Fin.getElem_fin] at hrg hk hlen hnone
  generalize requests[type] = r at *
  rcases r with ⟨k, - | n⟩
  · -- what a free string or image refers to
    have hptr : 0 ∈ f.pointers k index.toNat := by
      rcases hnone rfl with rfl | rfl <;> exact List.mem_cons_self
    have hvalue : getLong (stage f b sc m₀ passes)
        (b + BitVec.ofNat 32 (f.elem k index.toNat + 0)) =
        reloc b (f.long (f.elem k index.toNat + 0)) := stage_pointers hf hi hptr
    rw [Nat.add_zero] at hvalue
    exact (gaddr_deref hf hm hne hrg hk hlen).trans hvalue
  · show _ = b + BitVec.ofNat 32 (f.elem k index.toNat + n)
    exact gaddr_field hf (stage_common hf hm) (Set.Subset.refl _) hne hrg hk hlen

/-- Every distance has become an address. -/
theorem relocated (hf : Wellformed f) (hm : Placed f b m₀) (htree : f.number .tree ≤ 8192) :
    Relocated f b sc (glob f b) (stage f b sc m₀ passes) where
  pointers _ _ hi _ hc := stage_pointers hf hi hc
  lengths _ hi _ hx hv _ hlen := stage_lengths hf hi hx hv hlen
  places _ hi _ hx := stage_places hf hi hx
  same _ hj hout := stage_same hf hm hj hout
  answers := stage_answers hf hm htree

/-- A memory that has nothing but the file in it. -/
def memoryOf (f : Image) (b : Long) (v : Byte) : Mem :=
  fun a => if (a - b).toNat < f.size then f.byte (a - b).toNat else v

theorem memoryOf_placed (hf : Wellformed f) (v : Byte) : Placed f b (memoryOf f b v) := by
  have hsmall := hf.small
  intro j hj
  have hsub : (b + BitVec.ofNat 32 j - b).toNat = j := by
    rw [add_sub_cancel_left, BitVec.toNat_ofNat, Nat.mod_eq_of_lt (by omega)]
  rw [memoryOf, hsub, if_pos hj]

theorem tree_outside (hf : Wellformed f) (hn : 8192 < f.number .tree) (v : Byte) :
    rsrcGaddr (glob f b) (stage f b sc (memoryOf f b v) passes) 0 8192 = v ++ v ++ v ++ v := by
  have hsmall := hf.small
  have hin := (hf.inside .tree (by omega)).2
  have hlen : Kind.tree.length = 4 := rfl
  have hrs : f.rssize < 2 ^ 16 := (f.word 34).isLt
  rw [hlen] at hin
  have haddr : (glob f b).apPtree + ((8192 : Word) <<< 2).signExtend 32 =
      b + BitVec.ofNat 32 (f.base .tree + (2 ^ 32 - 32768)) := by
    have hsign : ((8192 : Word) <<< 2).signExtend 32 = BitVec.ofNat 32 (2 ^ 32 - 32768) := by
      decide
    show (f.word 18).setWidth 32 + b + _ = _
    rw [hsign, BitVec.add_comm _ b, ← BitVec.ofNat_toNat, add_ofNat]
    rfl
  -- these bytes are not part of the file
  have hbyte : ∀ n < 4, stage f b sc (memoryOf f b v) passes
      (b + BitVec.ofNat 32 (f.base .tree + (2 ^ 32 - 32768)) + BitVec.ofNat 32 n) = v := by
    intro n hn
    rw [add_ofNat, stage, patch_out (stage_covers hf) (by omega) fun q hq hcov => ?_, memoryOf,
      add_sub_cancel_left, BitVec.toNat_ofNat, Nat.mod_eq_of_lt (by omega), if_neg (by omega)]
    have := turns_lt hf hq hcov
    omega
  have hsame : getLong (stage f b sc (memoryOf f b v) passes)
      (b + BitVec.ofNat 32 (f.base .tree + (2 ^ 32 - 32768))) =
      getLong (fun _ : Long => v) 0 := getLong_congr fun n hn => hbyte n hn
  rw [rsrcGaddr, if_pos rfl, haddr, hsame]
  rfl

/-- Every resource is relocated, wherever it is and whatever there is around it, exactly if all
    of its texts have their strings and there are not too many trees. -/
theorem relocates_iff (hf : Wellformed f) (hb : b.toNat + f.size ≤ 2 ^ 32)
    (initColicons : Mem → Long → Long → Long → Option Mem) :
    (∀ m, Placed f b m → ∃ g m', rscInit initColicons sc b m = some (g, m') ∧
      Relocated f b sc g m') ↔
      f.number .tree ≤ 8192 ∧ ∀ i < f.number .tedinfo,
        f.long (f.elem .tedinfo i) ≠ -1 ∧ f.long (f.elem .tedinfo i + 4) ≠ -1 := by
  constructor
  · intro h
    have hlack : ∀ i < f.number .tedinfo, ¬ Lacking f i := by
      by_contra hsome
      simp only [not_forall, not_not] at hsome
      rcases hsome with ⟨i, hi, hbad⟩
      rcases h _ (memoryOf_placed hf 0) with ⟨g, m', hrun, -⟩
      rw [rscInit_none hf hb (memoryOf_placed hf 0) initColicons ⟨i, hi, hbad⟩] at hrun
      exact absurd hrun (by simp)
    refine ⟨?_, fun i hi => not_or.mp (hlack i hi)⟩
    by_contra hn
    -- what is said about this tree depends on what is before the file
    have hsaid : ∀ v : Byte, f.answer b 8192 requests[0] = v ++ v ++ v ++ v := by
      intro v
      rcases h _ (memoryOf_placed hf v) with ⟨g, m', hrun, hrel⟩
      rw [rscInit_eq hf hb (memoryOf_placed hf v) initColicons hlack] at hrun
      rcases Prod.mk.inj (Option.some.inj hrun) with ⟨rfl, rfl⟩
      have hans := hrel.answers 0 (by decide) 8192 (show 8192 < f.number .tree by omega)
      exact hans.symm.trans (tree_outside hf (by omega) v)
    exact absurd ((hsaid 0).symm.trans (hsaid 1)) (by decide)
  · intro h m hm
    have hlack : ∀ i < f.number .tedinfo, ¬ Lacking f i := fun i hi => not_or.mpr (h.2 i hi)
    exact ⟨_, _, rscInit_eq hf hb hm initColicons hlack, relocated hf hm h.1⟩

end

section

/-- A file with one tree, one object and one text. The object refers to the text. -/
def sample (text : List Byte) : Image where
  size := 98
  byte j := ([0, 0, 0, 40, 0, 64, 0, 92, 0, 92, 0, 92, 0, 92, 0, 92, 0, 92, 0, 36, 0, 1, 0, 1, 0, 1,
    0, 0, 0, 0, 0, 0, 0, 0, 0, 98] ++ [0, 0, 0, 40] ++
    [255, 255, 255, 255, 255, 255, 0, 21, 0, 0, 0, 0, 0, 0, 0, 64, 0, 1, 0, 2, 0, 80, 255, 1] ++
    (text ++ [0, 0, 0, 94, 0, 0, 0, 96, 0, 3, 0, 0, 0, 0, 0, 0, 0, 0, 0, 0, 0, 0, 0, 0]) ++
    [97, 0, 95, 0, 88, 0]).getD j 0

/-- The text has a string, or none. -/
def sampleTexts : List (List Byte) := [[0, 0, 0, 92], [255, 255, 255, 255]]

section

variable {text : List Byte} (h : text ∈ sampleTexts)

include h

theorem sample_number (k : Kind) :
    (sample text).number k = if k = .tree ∨ k = .object ∨ k = .tedinfo then 1 else 0 := by
  simp only [sampleTexts, List.mem_cons, List.not_mem_nil, or_false] at h
  rcases h with rfl | rfl <;> cases k <;> decide

theorem sample_base : (sample text).base .tree = 36 ∧ (sample text).base .object = 40 ∧
      (sample text).base .tedinfo = 64 := by
  simp only [sampleTexts, List.mem_cons, List.not_mem_nil, or_false] at h
  rcases h with rfl | rfl <;> decide

theorem sample_strings {j : Nat} (hj : 92 ≤ j) : ¬ (sample text).InTable j := by
  intro hin
  rcases hin with ⟨k, i, hi, hlo, hhi⟩
  rcases sample_base h with ⟨htree, hobject, htedinfo⟩
  rw [sample_number h] at hi
  unfold Image.elem at hhi
  cases k with
  | tree =>
    rw [htree] at hhi
    simp [Kind.length] at hi hhi
    omega
  | object =>
    rw [hobject] at hhi
    simp [Kind.length] at hi hhi
    omega
  | tedinfo =>
    rw [htedinfo] at hhi
    simp [Kind.length] at hi hhi
    omega
  | _ => simp at hi

theorem sample_wellformed : Wellformed (sample text) where
  small := show 98 < 2 ^ 31 by omega
  header := by
    simp only [sampleTexts, List.mem_cons, List.not_mem_nil, or_false] at h
    rcases h with rfl | rfl <;> decide
  rssize := by
    simp only [sampleTexts, List.mem_cons, List.not_mem_nil, or_false] at h
    rcases h with rfl | rfl <;> decide
  inside k hk := by
    simp only [sampleTexts, List.mem_cons, List.not_mem_nil, or_false] at h
    rcases h with rfl | rfl <;> cases k <;> revert hk <;> decide
  apart k k' hne hk hk' := by
    simp only [sampleTexts, List.mem_cons, List.not_mem_nil, or_false] at h
    rcases h with rfl | rfl <;> cases k <;> cases k' <;> revert hne hk hk' <;> decide
  strings i hi c hc hv := by
    have hi0 : i = 0 := by
      rw [sample_number h] at hi
      simpa using hi
    rcases hi0 with rfl
    have hstring : (sample text).StringAt ((sample text).long
        ((sample text).elem .tedinfo 0 + c)).toNat 1 ∧
        92 ≤ ((sample text).long ((sample text).elem .tedinfo 0 + c)).toNat ∧
        ((sample text).long ((sample text).elem .tedinfo 0 + c)).toNat + 1 < 98 := by
      unfold Image.StringAt
      simp only [List.mem_cons, List.not_mem_nil, or_false, sampleTexts] at hc h
      rcases h with rfl | rfl <;> rcases hc with rfl | rfl
      · decide
      · decide
      · exact absurd rfl hv
      · decide
    rcases hstring with ⟨hstr, hlo, hhi⟩
    exact ⟨1, hstr, by decide, hhi, fun n hn => sample_strings h (by omega)⟩
  noIcons i hi := by
    have hi0 : i = 0 := by
      rw [sample_number h] at hi
      simpa using hi
    simp only [sampleTexts, List.mem_cons, List.not_mem_nil, or_false] at h
    rcases hi0 with rfl
    rcases h with rfl | rfl <;> decide
  extension hv := by
    simp only [sampleTexts, List.mem_cons, List.not_mem_nil, or_false] at h
    rcases h with rfl | rfl <;> exact absurd hv (by decide)

end

/-- The file whose text has a string is relocated. -/
theorem relocates_iff_sample : Wellformed (sample [0, 0, 0, 92]) ∧
    ∀ m, Placed (sample [0, 0, 0, 92]) 0x10000 m →
      ∃ g m', rscInit (fun m _ _ _ => some m) ⟨8, 16, 640⟩ 0x10000 m = some (g, m') ∧
        Relocated (sample [0, 0, 0, 92]) 0x10000 ⟨8, 16, 640⟩ g m' := by
  have hmem : [0, 0, 0, 92] ∈ sampleTexts := List.mem_cons_self
  refine ⟨sample_wellformed hmem,
    (relocates_iff (sample_wellformed hmem) (by decide) _).mpr ⟨?_, fun i hi => ?_⟩⟩
  · rw [sample_number hmem]
    decide
  · rw [sample_number hmem] at hi
    have hi0 : i = 0 := by simpa using hi
    rw [hi0]
    decide

/-- The file whose text has none is not. -/
theorem missing_text_faults : ¬ ∀ (f : Image) (b : Long) (sc : Screen)
    (initColicons : Mem → Long → Long → Long → Option Mem) (m : Mem), Wellformed f →
      b.toNat + f.size ≤ 2 ^ 32 → Placed f b m →
      ∃ g m', rscInit initColicons sc b m = some (g, m') ∧ Relocated f b sc g m' := by
  intro h
  have hmem : [255, 255, 255, 255] ∈ sampleTexts := List.mem_cons_of_mem _ List.mem_cons_self
  have hf := sample_wellformed hmem
  rcases h _ 0x10000 ⟨8, 16, 640⟩ (fun m _ _ _ => some m) _ hf (by decide)
    (memoryOf_placed hf 0) with ⟨g, m', hrun, -⟩
  have hlack : ∃ i < (sample [255, 255, 255, 255]).number .tedinfo,
      Lacking (sample [255, 255, 255, 255]) i := by
    refine ⟨0, ?_, Or.inl ?_⟩
    · rw [sample_number hmem]
      decide
    · decide
  rw [rscInit_none hf (by decide) (memoryOf_placed hf 0) _ hlack] at hrun
  exact absurd hrun (by simp)

end

end Rsc

end Aes

end MagiC
