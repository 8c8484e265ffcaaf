import MagiC.Aes.Relocate

/-!
# Loading a Whole Resource

The loops of `_rsc_init` one after the other. Each goes on with a memory in which all that
was written down for the loops before has been written and nothing else, so in the end all
of it has been written.

## Main definitions

* `turns`: The turns of some of the loops.

## Theorems

* `rscInit_eq`: What the initialisation does to memory.
-/

namespace MagiC

namespace Aes

namespace Rsc

open Memory

/-- The order in which a loop takes the elements. -/
def order (f : Image) : Pass → List Nat
  | .tree => List.range (f.number .tree)
  | p => (List.range (f.number p.kind)).reverse

/-- The turns of some of the loops. -/
def turns (f : Image) (l : List Pass) : List (Pass × Nat) :=
  l.flatMap fun p => (order f p).map fun i => (p, i)

/-- The memory after some of the loops. -/
def stage (f : Image) (b : Long) (sc : Screen) (m₀ : Mem) (l : List Pass) : Mem :=
  patch b m₀ ((turns f l).flatMap (f.fix b sc))

def passes : List Pass :=
  [.tree, .tedinfo, .ibPmask, .ibPdata, .ibPtext, .biPdata, .frstr, .frimg, .object]

section

variable {f : Image} {b : Long} {m m₀ : Mem} {sc : Screen} {p : Pass} {l : List Pass}

theorem mem_order {i : Nat} : i ∈ order f p ↔ i < f.number p.kind := by
  cases p <;> simp [order, Pass.kind]

theorem nodup_order : (order f p).Nodup := by
  cases p <;> simp [order, List.nodup_range]

theorem mem_turns {t : Pass × Nat} : t ∈ turns f l ↔ t.1 ∈ l ∧ t.2 < f.number t.1.kind := by
  rcases t with ⟨q, i⟩
  simp only [turns, List.mem_flatMap, List.mem_map, Prod.mk.injEq]
  constructor
  · intro h
    rcases h with ⟨p, hp, k, hk, rfl, rfl⟩
    exact ⟨hp, mem_order.mp hk⟩
  · intro h
    exact ⟨q, h.1, i, mem_order.mpr h.2, rfl, rfl⟩

theorem stage_append : stage f b sc m₀ (l ++ [p]) =
    patch b (stage f b sc m₀ l) ((order f p).flatMap fun i => f.fix b sc (p, i)) := by
  rw [stage, turns, List.flatMap_append, List.flatMap_append, patch_append, List.flatMap_singleton,
    List.flatMap_map]
  rfl

theorem fix_lt (hf : Wellformed f) {t : Pass × Nat} (ht : t.2 < f.number t.1.kind)
    {q : Patch Byte} (hq : q ∈ f.fix b sc t) {j : Nat} (hj : q.Covers j) : j < f.size :=
  (own_inside hf ht (fix_own hq hj)).2.2

theorem turns_lt (hf : Wellformed f) {q : Patch Byte}
    (hq : q ∈ (turns f l).flatMap (f.fix b sc)) {j : Nat} (hj : q.Covers j) : j < f.size := by
  rcases List.mem_flatMap.mp hq with ⟨t, ht, hqt⟩
  exact fix_lt hf (mem_turns.mp ht).2 hqt hj

theorem stage_agree (hf : Wellformed f) {s : Set Nat} (hs : ∀ j ∈ s, j < f.size)
    (hout : ∀ t ∈ turns f l, ∀ j ∈ s, j ∉ f.own t) : Agree b s (stage f b sc m₀ l) m₀ := by
  have hsmall := hf.small
  refine Agree.patch (fun j _ => rfl) (fun q hq j hj => ?_)
    (fun j hj => ?_) fun j hj q hq hcov => ?_
  · have := turns_lt hf hq hj
    omega
  · have := hs j hj
    omega
  · rcases List.mem_flatMap.mp hq with ⟨t, ht, hqt⟩
    exact hout t ht j hj (fix_own hqt hcov)

theorem Agree.reads {s : Set Nat} (h : Agree b s m m₀) (hm : Placed f b m₀)
    (hs : ∀ j ∈ s, j < f.size) : Reads f b s m :=
  fun j hj => (h j hj).trans (hm j (hs j hj))

section

variable (hf : Wellformed f)

include hf

theorem stage_common (hm : Placed f b m₀) : Reads f b f.common (stage f b sc m₀ l) :=
  Agree.reads (stage_agree hf (fun _ hj => hj.1)
    fun _ ht _ hj => common_own hf (mem_turns.mp ht).2 hj) hm fun _ hj => hj.1

theorem common_union_lt {i : Nat} (hi : i < f.number p.kind) :
    ∀ j ∈ f.common ∪ f.own (p, i), j < f.size := by
  intro j hj
  rcases hj with hj | hj
  · exact hj.1
  · exact (own_inside hf hi hj).2.2

theorem own_lt : ∀ j ∈ f.common ∪ ⋃ i ∈ order f p, f.own (p, i), j < f.size := by
  intro j hj
  rcases hj with hj | hj
  · exact hj.1
  · rcases Set.mem_iUnion₂.mp hj with ⟨i, hi, hji⟩
    exact common_union_lt hf (mem_order.mp hi) j (Or.inr hji)

theorem stage_next (hp : p ∉ l) :
    Agree b (f.common ∪ ⋃ i ∈ order f p, f.own (p, i)) (stage f b sc m₀ l) m₀ := by
  refine stage_agree hf (own_lt hf) fun t ht j hj => ?_
  rcases mem_turns.mp ht with ⟨htl, htn⟩
  rcases hj with hj | hj
  · exact common_own hf htn hj
  · rcases Set.mem_iUnion₂.mp hj with ⟨i, hi, hji⟩
    refine own_apart hf (mem_order.mp hi) htn (fun h => hp ?_) hji
    rw [← h] at htl
    exact htl

theorem order_apart : (order f p).Pairwise fun i k => ∀ j ∈ f.own (p, k), j ∉ f.own (p, i) := by
  refine nodup_order.pairwise_of_forall_ne fun i hi k hk hne j hj => ?_
  refine own_apart hf (mem_order.mp hk) (mem_order.mp hi) (fun h => hne ?_) hj
  exact (congrArg Prod.snd h).symm

/-- A loop comes to its end, unless one of its turns does not. -/
theorem pass_cases (hm : Placed f b m₀) (hp : p ∉ l)
    {bd : Mem → Nat → Option Mem} (bad : Nat → Prop)
    (hbd : ∀ i < f.number p.kind, ¬ bad i → ∀ m, Reads f b (f.common ∪ f.own (p, i)) m →
      bd m i = some (patch b m (f.fix b sc (p, i))))
    (hbad : ∀ i < f.number p.kind, bad i → ∀ m, Reads f b (f.common ∪ f.own (p, i)) m →
      bd m i = none) :
    ((∀ i < f.number p.kind, ¬ bad i) →
      (order f p).foldlM bd (stage f b sc m₀ l) = some (stage f b sc m₀ (l ++ [p]))) ∧
    ((∃ i < f.number p.kind, bad i) → (order f p).foldlM bd (stage f b sc m₀ l) = none) := by
  have hsmall := hf.small
  have hreads : ∀ i ∈ order f p, ∀ m, Agree b (f.common ∪ f.own (p, i)) m _ → Reads f b _ m :=
    fun i hi m hagree => Agree.reads hagree hm (common_union_lt hf (mem_order.mp hi))
  have hlt : ∀ j ∈ f.common ∪ ⋃ i ∈ order f p, f.own (p, i), j < 2 ^ 32 := fun j hj => by
    have := own_lt hf j hj
    omega
  have hsweep := sweep (m := stage f b sc m₀ l) (fun i => f.own (p, i)) f.common
    (fun i => f.fix b sc (p, i)) bad (fun i hi hok m h => hbd i (mem_order.mp hi) hok m
      (hreads i hi m h))
    (fun i hi hb m h => hbad i (mem_order.mp hi) hb m (hreads i hi m h))
    (fun i hi q hq j hj => fix_own hq hj) hlt (order_apart hf)
    (fun i hi j hj => common_own hf (mem_order.mp hi) hj) (stage_next hf hp)
  rw [stage_append]
  refine ⟨fun hall => hsweep.1 fun i hi => hall i (mem_order.mp hi), ?_⟩
  rintro ⟨i, hi, hb⟩
  exact hsweep.2 ⟨i, mem_order.mpr hi, hb⟩

theorem pass (hm : Placed f b m₀) (hp : p ∉ l) {bd : Mem → Nat → Option Mem}
    (hbd : ∀ i < f.number p.kind, ∀ m, Reads f b (f.common ∪ f.own (p, i)) m →
      bd m i = some (patch b m (f.fix b sc (p, i)))) :
    (order f p).foldlM bd (stage f b sc m₀ l) = some (stage f b sc m₀ (l ++ [p])) :=
  (pass_cases hf hm hp (fun _ => False) (fun i hi _ => hbd i hi) fun _ _ h => h.elim).1
    fun _ _ => id

theorem counter (k : Kind) : (f.word k.count).toInt.toNat = f.number k := by
  have hlt : f.number k < 2 ^ 15 := by
    by_cases h0 : f.number k = 0
    · omega
    have hin := (hf.inside k h0).2
    have hmul : f.number k * 4 ≤ f.number k * k.length :=
      Nat.mul_le_mul_left _ k.four_le_length
    have hrs : f.rssize < 2 ^ 16 := (f.word 34).isLt
    omega
  rw [BitVec.toInt_eq_toNat_of_lt (by unfold Image.number at hlt; omega)]
  rfl

theorem foldlM_countDown (hp : p ≠ .tree) (bd : Mem → Word → Option Mem) :
    (countDown (f.word p.kind.count)).foldlM bd m =
      (order f p).foldlM (fun m i => bd m (BitVec.ofNat 16 i)) m := by
  have horder : order f p = (List.range (f.number p.kind)).reverse := by
    cases p with
    | tree => exact absurd rfl hp
    | _ => rfl
  rw [countDown, counter hf, horder, ← List.map_reverse, List.foldlM_map]

end

theorem trees_spec (sc : Screen) (hf : Wellformed f) (hb : b.toNat + f.size ≤ 2 ^ 32)
    (hm : Placed f b m₀) :
    rsciLooptree (glob f b) m₀ (f.word 22) = some (stage f b sc m₀ [.tree]) := by
  have hcount : (f.word 22).toInt.toNat = f.number .tree := counter hf .tree
  rw [rsciLooptree, hcount]
  refine pass (p := .tree) (l := []) hf hm List.not_mem_nil fun i hi m h => ?_
  have hel := elem_inside hf (k := .tree) hi
  have hlen : Kind.tree.length = 4 := rfl
  have hsize := hf.rssize
  rw [hlen] at hel
  have haddr : (glob f b).apPtree + BitVec.ofNat 32 (4 * i) =
      b + BitVec.ofNat 32 (f.elem .tree i) := by
    show (f.word 18).setWidth 32 + b + _ = _
    rw [BitVec.add_comm _ b, ← BitVec.ofNat_toNat, add_ofNat, Nat.mul_comm 4 i]
    rfl
  have hown : ∀ n < 4, f.elem .tree i + n ∈ f.common ∪ f.own (.tree, i) := by
    intro n hn
    exact Or.inr ⟨Nat.le_add_right (f.elem .tree i) n, Nat.add_lt_add_left hn (f.elem .tree i)⟩
  rw [haddr, relToAbs_spec h hown (by omega)]
  rfl

/-- A loop that goes over pointers that are asked for by a number. -/
structure Plain (p : Pass) (d7 : Word) : Prop where
  asked : ∃ typ, rgTab[(d7 - 1).toNat]? = some (typ, (p.field : Int)) ∧
    p.kind.table = 2 * typ ∧ structLenTab.getD typ 0 = p.kind.length
  ne_zero : d7 ≠ 0
  ne_tree : p ≠ .tree
  span : p.span = 4
  fix : ∀ (f : Image) b sc i, f.fix b sc (p, i) = [f.ptr b (f.spot (p, i))]

theorem pointers_spec (sc : Screen) (hf : Wellformed f) (hb : b.toNat + f.size ≤ 2 ^ 32)
    (hm : Placed f b m₀)
    (hp : p ∉ l) {d7 : Word} (hd : Plain p d7) :
    (countDown (f.word p.kind.count)).foldlM
        (fun m d6 => (setAbsAdr (glob f b) m d7 d6).map Prod.fst) (stage f b sc m₀ l) =
      some (stage f b sc m₀ (l ++ [p])) := by
  rw [foldlM_countDown hf hd.ne_tree]
  refine pass hf hm hp fun i hi m h => ?_
  rcases hd.asked with ⟨typ, hrg, hk, hlen⟩
  have hown : ∀ j, f.spot (p, i) ≤ j → j < f.spot (p, i) + 4 → j ∈ f.own (p, i) := by
    intro j hlo hhi
    have hspan : j < f.spot (p, i) + p.span := by
      rw [hd.span]
      exact hhi
    exact ⟨hlo, hspan⟩
  have hin := (own_inside hf hi (hown (f.spot (p, i) + 3) (by omega) (by omega))).2.2
  rw [setAbsAdr, gaddr_field hf h Set.subset_union_left hd.ne_zero hrg hk hlen, toNat_index hi,
    show f.elem p.kind i + p.field = f.spot (p, i) from rfl,
    relToAbs_spec h (fun k hk => Or.inr (hown _ (by omega) (by omega))) (by omega), hd.fix]
  rfl

theorem rsciExloop_spec {n k o : Nat} (hn : n < k) (hb : b.toNat + o + 4 * n + 4 ≤ 2 ^ 32)
    (hnone : ∀ i < n, getLong m (b + BitVec.ofNat 32 (o + 4 * i)) = -1)
    (hend : getLong m (b + BitVec.ofNat 32 (o + 4 * n)) = 0) :
    rsciExloop (glob f b) k (b + BitVec.ofNat 32 o) m = some m := by
  induction n generalizing o k with
  | zero =>
    rcases k with - | k
    · omega
    have hfirst : getLong m (b + BitVec.ofNat 32 o) = 0 := hend
    rw [rsciExloop, if_pos hfirst]
  | succ n ih =>
    rcases k with - | k
    · omega
    have hfirst : getLong m (b + BitVec.ofNat 32 o) = -1 := hnone 0 (by omega)
    have hne : b + BitVec.ofNat 32 o ≠ -1 := by
      intro heq
      have htoNat : (b + BitVec.ofNat 32 o).toNat = b.toNat + o :=
        toNat_add_ofNat (show b.toNat + o < 2 ^ 32 by omega) (Nat.le_refl _)
      rw [heq] at htoNat
      have hlast : (-1 : Long).toNat = 2 ^ 32 - 1 := rfl
      omega
    rw [rsciExloop, hfirst, if_neg (by decide), relToAbsAdr, if_neg hne, if_pos hfirst,
      Option.bind_eq_bind, Option.bind_some,
      show b + BitVec.ofNat 32 o + 4 = b + BitVec.ofNat 32 (o + 4) from add_ofNat o 4]
    refine ih (by omega) (by omega) (fun i hi => ?_) ?_
    · rw [show o + 4 + 4 * i = o + 4 * (i + 1) by omega]
      exact hnone (i + 1) (by omega)
    · rw [show o + 4 + 4 * n = o + 4 * (n + 1) by omega]
      exact hend

/-- An extension without colour icons. -/
theorem rsciEx_spec (hf : Wellformed f) (hb : b.toNat + f.size ≤ 2 ^ 32)
    (h : Reads f b f.common m) (initColicons : Mem → Long → Long → Long → Option Mem) :
    ∃ d4, rsciEx initColicons (glob f b) b m = some (m, d4) := by
  have hvrsn : getWord m (b + rsh_vrsn) = f.word 0 :=
    header_reads hf h (Set.Subset.refl _) (j := 0) (by omega)
  have hrssize : getWord m (b + rsh_rssize) = f.word 34 :=
    header_reads hf h (Set.Subset.refl _) (j := 34) (by omega)
  rw [rsciEx, hvrsn, hrssize]
  by_cases hv : f.word 0 = 4
  · rcases hf.extension hv with ⟨n, hsize, hnone, hend⟩
    have hsmall := hf.small
    have hget : ∀ k ≤ n, getLong m (b + BitVec.ofNat 32 (f.rssize + 4 + 4 * k)) =
        f.long (f.rssize + 4 + 4 * k) := fun k hk =>
      h.long fun i hi => behind_common hf (by omega) (by omega)
    have hbase : b + (f.word 34).setWidth 32 + 4 = b + BitVec.ofNat 32 (f.rssize + 4) := by
      rw [← BitVec.ofNat_toNat]
      exact (congrArg (· + (4 : Long)) rfl).trans (add_ofNat f.rssize 4)
    have hloop : rsciExloop (glob f b) (2 ^ 30) (b + BitVec.ofNat 32 (f.rssize + 4)) m =
        some m := by
      refine rsciExloop_spec (n := n) (by omega) (by omega) (fun i hi => ?_) ?_
      · rw [hget i (by omega), hnone i hi]
      · rw [hget n (Nat.le_refl n), hend]
    -- the first of them is the end or none
    have hfirst : (getLong m (b + BitVec.ofNat 32 (f.rssize + 4))).toInt ≤ 0 := by
      have h0 : getLong m (b + BitVec.ofNat 32 (f.rssize + 4)) = f.long (f.rssize + 4) :=
        hget 0 (Nat.zero_le n)
      rw [h0]
      rcases n with - | n
      · rw [show f.long (f.rssize + 4) = 0 from hend]
        decide
      · rw [show f.long (f.rssize + 4) = -1 from hnone 0 (by omega)]
        decide
    refine ⟨b + (f.word 34).setWidth 32, ?_⟩
    rw [if_neg (not_not.mpr hv)]
    simp only
    rw [hbase, hloop, Option.bind_eq_bind, Option.bind_some, if_pos hfirst]
    rfl
  · exact ⟨-1, if_pos hv⟩

/-- A text that is without one of its strings. -/
def Lacking (f : Image) (i : Nat) : Prop :=
  f.long (f.elem .tedinfo i) = -1 ∨ f.long (f.elem .tedinfo i + 4) = -1

theorem stage_word (hf : Wellformed f) (hm : Placed f b m₀) {j : Nat} (hj : j + 1 < 36) :
    getWord (stage f b sc m₀ l) (b + BitVec.ofNat 32 j) = f.word j :=
  header_reads hf (stage_common hf hm) (Set.Subset.refl _) hj

theorem riLoop_next (hf : Wellformed f) (hb : b.toNat + f.size ≤ 2 ^ 32) (hm : Placed f b m₀)
    (hp : p ∉ l) {d7 : Word} (hd : Plain p d7) {j n : Nat} (hj : p.kind.count = j) :
    riLoop (glob f b) (n + 1) d7 (b + BitVec.ofNat 32 j) (stage f b sc m₀ l) =
      riLoop (glob f b) n (d7 + 1)
        (if 13 < d7 + 1 then b + BitVec.ofNat 32 (j + 2) else b + BitVec.ofNat 32 j)
        (stage f b sc m₀ (l ++ [p])) := by
  have hcount : j + 1 < 36 := by
    rw [← hj]
    cases p <;> decide
  have hpass := pointers_spec sc hf hb hm hp hd
  rw [hj] at hpass
  rw [riLoop, stage_word hf hm hcount, hpass, Option.bind_eq_bind, Option.bind_some,
    show b + BitVec.ofNat 32 j + 2 = b + BitVec.ofNat 32 (j + 2) from add_ofNat j 2]

theorem riLoop_spec (hf : Wellformed f) (hb : b.toNat + f.size ≤ 2 ^ 32) (hm : Placed f b m₀) :
    riLoop (glob f b) 6 11 (b + rsh_nib) (stage f b sc m₀ [.tree, .tedinfo]) =
      some (stage f b sc m₀
        [.tree, .tedinfo, .ibPmask, .ibPdata, .ibPtext, .biPdata, .frstr, .frimg]) := by
  have hmask : Plain .ibPmask 11 := ⟨⟨3, rfl, rfl, rfl⟩, by decide, by decide, rfl,
    fun _ _ _ _ => rfl⟩
  have hdata : Plain .ibPdata (11 + 1) := ⟨⟨3, rfl, rfl, rfl⟩, by decide, by decide, rfl,
    fun _ _ _ _ => rfl⟩
  have htext : Plain .ibPtext (11 + 1 + 1) := ⟨⟨3, rfl, rfl, rfl⟩, by decide, by decide, rfl,
    fun _ _ _ _ => rfl⟩
  have hbit : Plain .biPdata (11 + 1 + 1 + 1) := ⟨⟨4, rfl, rfl, rfl⟩, by decide, by decide, rfl,
    fun _ _ _ _ => rfl⟩
  have hstr : Plain .frstr (11 + 1 + 1 + 1 + 1) := ⟨⟨5, rfl, rfl, rfl⟩, by decide, by decide, rfl,
    fun _ _ _ _ => rfl⟩
  have himg : Plain .frimg (11 + 1 + 1 + 1 + 1 + 1) := ⟨⟨8, rfl, rfl, rfl⟩, by decide, by decide,
    rfl, fun _ _ _ _ => rfl⟩
  -- the number of the icons is used three times
  rw [show b + rsh_nib = b + BitVec.ofNat 32 26 from rfl,
    riLoop_next (n := 5) (j := 26) hf hb hm (by simp) hmask rfl, if_neg (by decide),
    riLoop_next (n := 4) (j := 26) hf hb hm (by simp) hdata rfl, if_neg (by decide),
    riLoop_next (n := 3) (j := 26) hf hb hm (by simp) htext rfl, if_pos (by decide),
    riLoop_next (n := 2) (j := 28) hf hb hm (by simp) hbit rfl, if_pos (by decide),
    riLoop_next (n := 1) (j := 30) hf hb hm (by simp) hstr rfl, if_pos (by decide),
    riLoop_next (n := 0) (j := 32) hf hb hm (by simp) himg rfl]
  rfl

theorem texts_spec (hf : Wellformed f) (hb : b.toNat + f.size ≤ 2 ^ 32) (hm : Placed f b m₀)
    (hlack : ∀ i < f.number .tedinfo, ¬ Lacking f i) :
    (countDown (f.word 24)).foldlM (ritLoop (glob f b)) (stage f b sc m₀ [.tree]) =
      some (stage f b sc m₀ [.tree, .tedinfo]) := by
  refine (foldlM_countDown (p := .tedinfo) hf (by decide) (ritLoop (glob f b))).trans ?_
  refine pass (l := [.tree]) hf hm (by simp) fun i hi m h => ?_
  rcases not_or.mp (hlack i hi) with ⟨htext, htmplt⟩
  exact ritLoop_spec hf hb hi h htext htmplt

theorem texts_none (hf : Wellformed f) (hb : b.toNat + f.size ≤ 2 ^ 32) (hm : Placed f b m₀)
    (hlack : ∃ i < f.number .tedinfo, Lacking f i) :
    (countDown (f.word 24)).foldlM (ritLoop (glob f b)) (stage f b sc m₀ [.tree]) = none := by
  refine (foldlM_countDown (p := .tedinfo) hf (by decide) (ritLoop (glob f b))).trans ?_
  refine (pass_cases (p := .tedinfo) hf hm (by simp) (Lacking f) (fun i hi hok m h => ?_)
    (fun i hi hbad m h => ritLoop_fault hf hb hi h hbad)).2 hlack
  rcases not_or.mp hok with ⟨htext, htmplt⟩
  exact ritLoop_spec hf hb hi h htext htmplt

theorem objects_spec (hf : Wellformed f) (hb : b.toNat + f.size ≤ 2 ^ 32) (hm : Placed f b m₀)
    (hp : .object ∉ l) (d4 : Long) :
    (countDown (f.word 20)).foldlM (rsciLoopobj (glob f b) sc d4) (stage f b sc m₀ l) =
      some (stage f b sc m₀ (l ++ [.object])) := by
  refine (foldlM_countDown (p := .object) hf (by decide) (rsciLoopobj (glob f b) sc d4)).trans ?_
  exact pass hf hm hp fun i hi m h => rsciLoopobj_spec hf hb hi h d4

theorem rscInit_start (sc : Screen) (hf : Wellformed f) (hb : b.toNat + f.size ≤ 2 ^ 32)
    (hm : Placed f b m₀)
    (initColicons : Mem → Long → Long → Long → Option Mem) :
    ∃ d4, rscInit initColicons sc b m₀ =
      ((countDown (f.word 24)).foldlM (ritLoop (glob f b)) (stage f b sc m₀ [.tree])).bind fun m =>
        (riLoop (glob f b) 6 11 (b + rsh_nib) m).bind fun m =>
          ((countDown (getWord m (b + rsh_nobs))).foldlM (rsciLoopobj (glob f b) sc d4) m).bind
            fun m => some (glob f b, m) := by
  have hread : ∀ {j : Nat}, j + 1 < 36 → getWord m₀ (b + BitVec.ofNat 32 j) = f.word j :=
    fun hj => header_reads hf (s := f.common) (fun j hj => hm j hj.1) (Set.Subset.refl _) hj
  have hindex : getWord m₀ (b + rsh_trindex) = f.word 18 := hread (j := 18) (by omega)
  have hsize : getWord m₀ (b + rsh_rssize) = f.word 34 := hread (j := 34) (by omega)
  have hntree : getWord m₀ (b + rsh_ntree) = f.word 22 := hread (j := 22) (by omega)
  have hnted : getWord (stage f b sc m₀ [.tree]) (b + rsh_nted) = f.word 24 :=
    stage_word hf hm (j := 24) (by omega)
  have hreads : Reads f b f.common (stage f b sc m₀ [.tree]) := stage_common hf hm
  rcases rsciEx_spec hf hb hreads initColicons with ⟨d4, hex⟩
  refine ⟨d4, ?_⟩
  rw [rscInit]
  simp only
  rw [hindex, hsize, hntree]
  show (rsciLooptree (glob f b) m₀ (f.word 22) >>= _) = _
  rw [trees_spec sc hf hb hm, Option.bind_eq_bind, Option.bind_some]
  show (rsciEx initColicons (glob f b) b _ >>= _) = _
  rw [hex, Option.bind_eq_bind, Option.bind_some]
  simp only
  rw [hnted]
  rfl

/-- What the initialisation does to memory. -/
theorem rscInit_eq (hf : Wellformed f) (hb : b.toNat + f.size ≤ 2 ^ 32) (hm : Placed f b m₀)
    (initColicons : Mem → Long → Long → Long → Option Mem)
    (hlack : ∀ i < f.number .tedinfo, ¬ Lacking f i) :
    rscInit initColicons sc b m₀ = some (glob f b, stage f b sc m₀ passes) := by
  rcases rscInit_start sc hf hb hm initColicons with ⟨d4, hstart⟩
  have hnobs : getWord (stage f b sc m₀ [.tree, .tedinfo, .ibPmask, .ibPdata, .ibPtext, .biPdata,
      .frstr, .frimg]) (b + rsh_nobs) = f.word 20 := stage_word hf hm (j := 20) (by omega)
  rw [hstart, texts_spec hf hb hm hlack, Option.bind_some, riLoop_spec hf hb hm, Option.bind_some,
    hnobs, objects_spec hf hb hm (by simp), Option.bind_some]
  rfl

/-- The initialisation does not come to its end if a text lacks a string. -/
theorem rscInit_none (hf : Wellformed f) (hb : b.toNat + f.size ≤ 2 ^ 32) (hm : Placed f b m₀)
    (initColicons : Mem → Long → Long → Long → Option Mem)
    (hlack : ∃ i < f.number .tedinfo, Lacking f i) :
    rscInit initColicons sc b m₀ = none := by
  rcases rscInit_start sc hf hb hm initColicons with ⟨d4, hstart⟩
  rw [hstart, texts_none hf hb hm hlack, Option.bind_none]

end

end Rsc

end Aes

end MagiC
