import MagiC.Pexec.Scan

/-!
# Relocation

The relocation bytes of a file are read in lots of the size of the memory behind
the segments. A lot may end anywhere in the table, and the table may end where a
lot or where the file does. Nothing of that is to be seen in the program that has
been loaded: `relocated` is the image of the file with the base of TEXT added to
the longwords of the table, one after the other.

A table begins with a longword, and the value 0 there means that there is no table.
So the first longword of a program cannot be relocated together with others.

## Main definitions

* `relocated`: The image after the relocation.

## Theorems

* `pload_exact`: The program after it has been loaded.
-/

namespace MagiC

namespace Pexec

open Memory

/-- The bytes that lead from an offset to the offsets of a list. -/
inductive Fixups : Nat → List Nat → List Byte → Prop where
  | eof {p} : Fixups p [] []
  | zero {p l} (hmagx : l.length < 8 ∨ firstLong l ≠ MAGX) : Fixups p [] (0 :: l)
  | skip {p os l} (hnext : Fixups (p + 254) os l) (hos : os ≠ []) : Fixups p os (1 :: l)
  | fixup {p b os l} (hb : 2 ≤ b.toNat) (hnext : Fixups (p + b.toNat) os l) :
      Fixups p ((p + b.toNat) :: os) (b :: l)

/-- The table for a list of offsets. -/
def Table : List Nat → List Byte → Prop
  | [], l => ∃ l', l = longBytes 0 ++ l'
  | o :: os, l => ∃ l', l = longBytes (BitVec.ofNat 32 o) ++ l' ∧ Fixups o os l'

/-- The image of a program after the relocation. -/
def relocated (base : Long) (image : List Byte) (offsets : List Nat) : Long → Byte :=
  offsets.foldl (fun m o => addLong m (BitVec.ofNat 32 o) base) fun i => image.getD i.toNat 0

/-- A program file with an image of TEXT and DATA and a list of fix-ups. -/
structure Wellformed (ph : Ph) (file image : List Byte) (offsets : List Nat) : Prop where
  blen : 0 ≤ ph.blen.toInt
  tlen : 0 ≤ ph.tlen.toInt
  dlen : 0 ≤ ph.dlen.toInt
  slen : 0 ≤ ph.slen.toInt
  reloflag : ph.reloflag = 0
  text : image.length = ph.tlen.toNat + ph.dlen.toNat
  parts : ∃ header symbols table, file = header ++ image ++ symbols ++ table ∧
    header.length = ph_sizeof ∧ symbols.length = ph.slen.toNat ∧ Table offsets table
  even : ∀ o ∈ offsets, o % 2 = 0
  within : ∀ o ∈ offsets, o + 4 ≤ image.length
  -- a position in a file is a signed longword
  length : file.length < 2 ^ 31

section

variable {p o : Nat} {offsets : List Nat} {l image : List Byte} {base : Long}

theorem Fixups.gap {os : List Nat} (h : Fixups p (o :: os) l) : p + 2 ≤ o := by
  generalize hos : o :: os = os' at h
  induction h with
  | eof => cases hos
  | zero => cases hos
  | skip _ _ ih => exact Nat.le_trans (by omega) (ih hos)
  | fixup hb _ _ =>
    cases hos
    omega

theorem relocated_append :
    relocated base image (offsets ++ [o]) =
      addLong (relocated base image offsets) (BitVec.ofNat 32 o) base := by
  unfold relocated
  rw [List.foldl_append]
  rfl

theorem behind_fixup {x : Long} (ho : o + 4 ≤ image.length) (hx : image.length ≤ x.toNat) :
    4 ≤ (base + x - (base + BitVec.ofNat 32 o)).toNat := by
  have hno := ofNat_toNat (n := o) (by omega)
  rw [add_sub_add_left_eq_sub, BitVec.toNat_sub_of_le (BitVec.le_def.mpr (by omega)), hno]
  omega

end

/-- The image of a program after some of the fix-ups, in a process without a limit. -/
structure Loading (base : Long) (image : List Byte) (offsets : List Nat) (m : Load) : Prop where
  image : ∀ i : Long, i.toNat < image.length → m.mem (base + i) = relocated base image offsets i
  limit : m.long (base - basepage + p_mem) = -1

section

variable {p o k : Nat} {os offsets : List Nat} {l rest image : List Byte} {base : Long}
  {m m' : Load} {b : Byte}

theorem limit_congr
    (h : ∀ x : Long, 2 ^ 32 - 256 ≤ x.toNat → m'.mem (base + x) = m.mem (base + x)) :
    m'.long (base - basepage + p_mem) = m.long (base - basepage + p_mem) := by
  refine getLong_congr fun j hj => ?_
  have hx : base - basepage + p_mem + BitVec.ofNat 32 j =
      base + (p_mem - basepage + BitVec.ofNat 32 j) := by
    rw [← add_assoc, sub_add_eq_add_sub, add_sub_assoc]
  rw [hx]
  apply h
  have hbase : (p_mem - basepage).toNat = 2 ^ 32 - 152 := rfl
  rw [toNat_add_ofNat (n := 2 ^ 32) (by omega) (le_refl _)]
  omega

theorem Loading.fixup (h : Loading base image offsets m) (ho : o + 4 ≤ image.length)
    (hlen : image.length + 256 ≤ 2 ^ 32) :
    Loading base image (offsets ++ [o]) (m.fixup (base + BitVec.ofNat 32 o) base) where
  image := by
    intro i hi
    have hno := ofNat_toNat (n := o) (by omega)
    have hshift := congrFun (addLong_shift (m := m.mem) (a := BitVec.ofNat 32 o) (v := base) base) i
    rw [relocated_append, ← addLong_congr h.image (by rw [hno]; exact ho) (by omega) hi]
    exact hshift
  limit := by
    rw [← h.limit]
    exact limit_congr fun x hx => addLong_out (behind_fixup ho (by omega))

theorem Loading.read (h : Loading base image offsets m)
    (hlen : image.length + l.length + 256 ≤ 2 ^ 32) :
    Loading base image offsets (m.read (base + BitVec.ofNat 32 image.length) l) := by
  have hno := ofNat_toNat (n := image.length) (by omega)
  have hsub : ∀ x : Long, (base + x - (base + BitVec.ofNat 32 image.length)).toNat =
      (2 ^ 32 - image.length + x.toNat) % 2 ^ 32 := by
    intro x
    rw [add_sub_add_left_eq_sub, BitVec.toNat_sub, hno]
  constructor
  · intro i hi
    rw [← h.image i hi]
    refine write_out ?_
    rw [hsub, Nat.mod_eq_of_lt (by omega)]
    omega
  · rw [← h.limit]
    refine limit_congr fun x hx => write_out ?_
    have hmod : (2 ^ 32 - image.length + x.toNat) % 2 ^ 32 = x.toNat - image.length := by omega
    rw [hsub, hmod]
    omega

theorem Lot.fixup (h : Lot m (base + BitVec.ofNat 32 k) l) (ho : o + 4 ≤ image.length)
    (hk : image.length ≤ k) (hfit : k + l.length < 2 ^ 32) :
    Lot (m.fixup (base + BitVec.ofNat 32 o) base) (base + BitVec.ofNat 32 k) l := by
  intro j hj
  rw [← h j hj]
  have hno := ofNat_toNat (n := k) (by omega)
  refine congrArg some (addLong_out ?_)
  rw [add_assoc]
  refine behind_fixup ho ?_
  rw [toNat_add_ofNat (n := 2 ^ 32) (by omega) (le_refl _)]
  omega

/-- How the bytes of a lot are done with: Either the table ends in the lot, or the rest of
the file has the rest of the table. -/
def LotDone (base : Long) (image : List Byte) (offsets : List Nat) (rest : List Byte)
    (r : LoopEnd × Load) : Prop :=
  (∃ m, r = (.endrelo, m) ∧ Loading base image offsets m) ∨
    ∃ p os os' m, r = (.next (base + BitVec.ofNat 32 p), m) ∧ os ++ os' = offsets ∧
      Loading base image os m ∧ Fixups p os' rest ∧ p ≤ image.length

theorem ploadLoop_lot (l rest : List Byte) (k : Nat) (m : Load) (heven : base.getLsbD 0 = false)
    (hlen : image.length + 256 ≤ 2 ^ 32)
    (hall : ∀ o ∈ offsets, o % 2 = 0 ∧ o + 4 ≤ image.length) {os' : List Nat}
    (hos : os ++ os' = offsets) (hload : Loading base image os m) (hp : p ≤ image.length)
    (hlot : Lot m (base + BitVec.ofNat 32 k) l) (hk : image.length ≤ k)
    (hfit : k + l.length < 2 ^ 32) (hfix : Fixups p os' (l ++ rest)) :
    LotDone base image offsets rest
      (ploadLoop (base - basepage) base l.length (base + BitVec.ofNat 32 k)
        (base + BitVec.ofNat 32 p) m) := by
  -- the induction is on the bytes of the lot
  induction l generalizing os os' p k m with
  | nil => exact Or.inr ⟨p, os, os', m, rfl, hos, hload, hfix, hp⟩
  | cons b l ih =>
    have hhead := hlot.head
    have hnext : base + BitVec.ofNat 32 k + 1 = base + BitVec.ofNat 32 (k + 1) := by
      rw [add_assoc]
      exact congrArg _ (BitVec.ofNat_add k 1).symm
    rw [List.length_cons] at hfit ⊢
    unfold ploadLoop
    dsimp only
    rw [hhead, hnext]
    cases hfix with
    | zero hmagx =>
      rw [List.append_nil] at hos
      have hno : ¬ (9 ≤ l.length + 1 ∧ m.long (base + BitVec.ofNat 32 (k + 1)) = MAGX) := by
        intro hlimit
        rw [← hnext, hlot.tail.long (by omega) rest] at hlimit
        rcases hmagx with hshort | hmagx
        · have hlen8 : (l ++ rest).length < 8 := hshort
          rw [List.length_append] at hlen8
          omega
        · exact hmagx hlimit.2
      rw [if_pos rfl, if_neg hno]
      exact Or.inl ⟨m, rfl, hos ▸ hload⟩
    | skip hskip hne =>
      rw [if_neg (by decide), if_pos rfl]
      have hadd : base + BitVec.ofNat 32 p + 0xfe = base + BitVec.ofNat 32 (p + 254) := by
        rw [add_assoc]
        exact congrArg _ (BitVec.ofNat_add p 254).symm
      rw [hadd]
      -- the next fix-up is behind the bytes that are skipped
      have hp' : p + 254 ≤ image.length := by
        cases os' with
        | nil => exact absurd rfl hne
        | cons o os'' =>
          have hgap := hskip.gap
          have ho := (hall o (by rw [← hos]; exact List.mem_append_right _ List.mem_cons_self)).2
          omega
      exact ih _ _ hos hload hp' (hnext ▸ hlot.tail) (by omega) (by omega) hskip
    | @fixup _ _ os'' _ hb hskip =>
      have ho :=
        hall (p + b.toNat) (by rw [← hos]; exact List.mem_append_right _ List.mem_cons_self)
      have hb0 : b ≠ 0 := fun hz => by
        rw [hz] at hb
        exact absurd hb (by decide)
      have hb1 : b ≠ 1 := fun hz => by
        rw [hz] at hb
        exact absurd hb (by decide)
      have hadd : base + BitVec.ofNat 32 p + b.setWidth 32 = base + BitVec.ofNat 32
        (p + b.toNat) := by
        rw [add_assoc, BitVec.ofNat_add, BitVec.ofNat_toNat]
      have hodd : (base + BitVec.ofNat 32 (p + b.toNat)).getLsbD 0 = false := by
        rw [BitVec.getLsbD, Nat.testBit_zero, decide_eq_false_iff_not] at heven ⊢
        rw [BitVec.toNat_add, BitVec.toNat_ofNat]
        omega
      rw [if_neg hb0, if_neg hb1, hadd, hodd, if_neg (by decide)]
      refine ih _ _ (by rw [List.append_assoc]; exact hos) (hload.fixup ho.2 hlen)
        (by omega) ?_ (by omega)
        (by omega) hskip
      exact Lot.fixup (hnext ▸ hlot.tail) ho.2 (by omega) (by omega)

theorem ploadLoop2_lots (heven : base.getLsbD 0 = false)
    (hall : ∀ o ∈ offsets, o % 2 = 0 ∧ o + 4 ≤ image.length) {free : Long} (hfree : 0 < free.toInt)
    (hlen : image.length + free.toNat + 256 ≤ 2 ^ 32)
    (hwrap : base.toNat + image.length < 2 ^ 32) (os os' : List Nat) {p : Nat}
    (hos : os ++ os' = offsets) (hload : Loading base image os m) (hp : p ≤ image.length)
    (hfix : Fixups p os' rest) :
    ∃ m', ploadLoop2 (base - basepage) base (base + BitVec.ofNat 32 image.length) free rest
        (base + BitVec.ofNat 32 p) m = (E_OK, m') ∧ Loading base image offsets m' := by
  induction hrest : rest.length using Nat.strong_induction_on
    generalizing rest os os' p m with
  | _ len ih =>
    have hfreeNat := toInt_eq_toNat hfree.le
    have hn := fread_nonneg rest hfree.le
    have hle := fread_le rest free
    have hle' := fread_le_toInt rest free
    have hrange : base ≤ base + BitVec.ofNat 32 p ∧
        base + BitVec.ofNat 32 p ≤ base + BitVec.ofNat 32 image.length := by
      rw [BitVec.le_def, BitVec.le_def, toNat_add_ofNat (n := 2 ^ 32) (by omega) (le_refl _),
        toNat_add_ofNat (n := 2 ^ 32) (by omega) (le_refl _)]
      omega
    rw [ploadLoop2_lot hrange hfree]
    have hlot := ploadLoop_lot (rest.take (fread rest free).toNat)
      (rest.drop (fread rest free).toNat) image.length
      (m.read (base + BitVec.ofNat 32 image.length) (rest.take (fread rest free).toNat))
      heven (by omega) hall hos
      (hload.read (by rw [fread_toNat_length]; omega)) hp
      (lot_read (by rw [fread_toNat_length]; omega) _) (le_refl _)
      (by rw [fread_toNat_length]; omega) (by rw [List.take_append_drop]; exact hfix)
    rw [fread_toNat_length] at hlot
    rcases hlot with ⟨m', heq, hload'⟩ | ⟨p', os1, os2, m', heq, hos', hload', hfix', hp'⟩
    · rw [heq]
      exact ⟨m', rfl, hload'⟩
    · rw [heq]
      dsimp only
      split
      · refine ih _ ?_ _ _ hos' hload' hp' hfix' rfl
        rw [List.length_drop]
        omega
      · -- a lot that is not full is the last one
        have hnil : rest.drop (fread rest free).toNat = [] := by
          apply List.drop_eq_nil_of_le
          unfold fread at *
          omega
        rw [hnil] at hfix'
        cases hfix'
        rw [List.append_nil] at hos'
        exact ⟨m', rfl, hos' ▸ hload'⟩

end

section

variable {ph : Ph} {file image : List Byte} {offsets : List Nat} {pd f v a5 : Long} {m : Load}

theorem Wellformed.image_lt (h : Wellformed ph file image offsets) : image.length < 2 ^ 31 := by
  rcases h.parts with ⟨header, symbols, table, hfile, _⟩
  have hlen := h.length
  rw [hfile, List.length_append, List.length_append, List.length_append] at hlen
  omega

theorem Wellformed.d3 (h : Wellformed ph file image offsets) :
    ph.d3 = BitVec.ofNat 32 image.length := by
  apply BitVec.eq_of_toNat_eq
  unfold Ph.d3
  rw [BitVec.toNat_add, BitVec.toNat_ofNat, h.text]

theorem toInt_of_lt {x : Long} (h : x.toNat < 2 ^ 31) : x.toInt = x.toNat := by
  have hcond := BitVec.toInt_eq_toNat_cond x
  split at hcond <;> omega

theorem Wellformed.d3_toInt (h : Wellformed ph file image offsets) :
    ph.d3.toInt = image.length := by
  have hlt := h.image_lt
  have hnat := ofNat_toNat (n := image.length) (by omega)
  rw [h.d3, toInt_of_lt (by omega), hnat]

theorem Wellformed.read (h : Wellformed ph file image offsets) :
    fread (file.drop ph_sizeof) ph.d3 = ph.d3.toInt ∧
      (file.drop ph_sizeof).take ph.d3.toInt.toNat = image := by
  rcases h.parts with ⟨header, symbols, table, hfile, hheader, _⟩
  have hdrop : file.drop ph_sizeof = image ++ (symbols ++ table) := by
    rw [hfile, ← hheader, List.append_assoc, List.append_assoc, List.drop_left]
  rw [hdrop, h.d3_toInt, Int.toNat_natCast, List.take_left]
  refine ⟨?_, rfl⟩
  unfold fread
  rw [h.d3_toInt, List.length_append]
  omega

theorem Wellformed.seek (h : Wellformed ph file image offsets) :
    ∃ table, fseek file (BitVec.ofNat 32 ph_sizeof + ph.slen + ph.d3) = some table ∧
      Table offsets table := by
  rcases h.parts with ⟨header, symbols, table, hfile, hheader, hsymbols, htable⟩
  refine ⟨table, ?_, htable⟩
  have hlen := h.length
  have hsum : file.length = ph_sizeof + image.length + ph.slen.toNat + table.length := by
    rw [hfile, List.length_append, List.length_append, List.length_append, hheader, hsymbols]
  have hpos : (BitVec.ofNat 32 ph_sizeof + ph.slen + ph.d3).toNat =
      ph_sizeof + ph.slen.toNat + image.length := by
    unfold ph_sizeof at *
    rw [h.d3, BitVec.toNat_add, BitVec.toNat_add, BitVec.toNat_ofNat, BitVec.toNat_ofNat]
    omega
  have hint := toInt_of_lt (x := BitVec.ofNat 32 ph_sizeof + ph.slen + ph.d3) (by omega)
  unfold fseek
  rw [if_neg (by omega), hpos]
  have hskip : ph_sizeof + ph.slen.toNat + image.length = (header ++ image ++ symbols).length := by
    rw [List.length_append, List.length_append, hheader, hsymbols]
    omega
  rw [hskip, hfile, List.drop_left]

theorem loading_start (ph : Ph) (hlimit : m.long (pd + p_mem) = -1)
    (hlen : image.length + 256 ≤ 2 ^ 32) :
    Loading (pd + basepage) image []
      ((setSegments ph pd (pd + basepage) m).read (pd + basepage) image) where
  image := by
    intro i hi
    have hsub : (pd + basepage + i - (pd + basepage)).toNat = i.toNat := by
      rw [add_sub_cancel_left]
    have hin := write_in (m := (setSegments ph pd (pd + basepage) m).mem) (a := pd + basepage)
      (i := pd + basepage + i) (l := image) (by rw [hsub]; exact hi)
    rw [hsub] at hin
    show write _ _ _ _ = image.getD i.toNat 0
    rw [List.getD_eq_getElem?_getD, ← hin]
    rfl
  limit := by
    have hsegs := setSegments_mem ph pd (pd + basepage) m
    have hread : ((setSegments ph pd (pd + basepage) m).read (pd + basepage) image).long
        (pd + basepage - basepage + p_mem) = (setSegments ph pd (pd + basepage) m).long
          (pd + basepage - basepage + p_mem) :=
      limit_congr fun x hx => write_out (a := pd + basepage) (i := pd + basepage + x) (by
        rw [add_sub_cancel_left]
        omega)
    rw [hread, add_sub_cancel_right, hsegs, hlimit]

theorem firstLong_longBytes (l : List Byte) : firstLong (longBytes v ++ l) = v := longBytes_append

theorem relocate_exact (h : Wellformed ph file image offsets) (hfirst : offsets.head? ≠ some 0)
    (heven : pd.getLsbD 0 = false) (free : Long) (hfree : 0 < free.toInt)
    (hlen : image.length + free.toNat + 256 ≤ 2 ^ 32)
    (hwrap : (pd + basepage).toNat + image.length < 2 ^ 32)
    (hload : Loading (pd + basepage) image [] m) :
    ∃ m', relocate ph file pd (pd + basepage) (pd + basepage + ph.d3) free m = (E_OK, m') ∧
      Loading (pd + basepage) image offsets m' := by
  have hbase : (pd + basepage).getLsbD 0 = false := by
    rw [BitVec.getLsbD, Nat.testBit_zero, decide_eq_false_iff_not] at heven ⊢
    have h256 : basepage.toNat = 256 := rfl
    rw [BitVec.toNat_add, h256]
    omega
  rcases h.seek with ⟨table, hseek, htable⟩
  rw [← add_sub_cancel_left (pd + basepage) ph.d3] at hseek
  cases offsets with
  | nil =>
    rcases htable with ⟨l, rfl⟩
    have hfour : 4 ≤ (longBytes 0 ++ l).length := by
      rw [List.length_append, longBytes_length]
      omega
    have hread : fread (longBytes 0 ++ l) 4 = 4 := min_eq_left (Int.ofNat_le.mpr hfour)
    refine ⟨m, ?_, hload⟩
    unfold relocate
    rw [if_neg (not_not.mpr h.reloflag), hseek]
    dsimp only
    rw [if_neg (not_not.mpr hread), firstLong_longBytes, if_pos rfl]
  | cons o os =>
    rcases htable with ⟨l, rfl, hfix⟩
    have ho := h.within o List.mem_cons_self
    have hnat := ofNat_toNat (n := o) (by omega)
    have hzero : BitVec.ofNat 32 o ≠ 0 := by
      intro hz
      apply hfirst
      rw [hz] at hnat
      rw [List.head?_cons, ← hnat]
      rfl
    have hrange : pd + basepage ≤ pd + basepage + BitVec.ofNat 32 o ∧
        pd + basepage + BitVec.ofNat 32 o ≤ pd + basepage + ph.d3 := by
      rw [h.d3, BitVec.le_def, BitVec.le_def, toNat_add_ofNat (n := 2 ^ 32) (by omega) (le_refl _),
        toNat_add_ofNat (n := 2 ^ 32) (by omega) (le_refl _)]
      omega
    have hodd : (pd + basepage + BitVec.ofNat 32 o).getLsbD 0 = false := by
      have hmod := h.even o List.mem_cons_self
      rw [BitVec.getLsbD, Nat.testBit_zero, decide_eq_false_iff_not] at hbase ⊢
      rw [toNat_add_ofNat (n := 2 ^ 32) (by omega) (le_refl _)]
      omega
    have hlots := ploadLoop2_lots hbase (fun o' ho' => ⟨h.even o' ho', h.within o' ho'⟩) hfree hlen
      hwrap [o] os rfl
      (hload.fixup ho (by omega)) (by omega) hfix
    rw [add_sub_cancel_right, ← h.d3] at hlots
    rcases hlots with ⟨m', heq, hload'⟩
    refine ⟨m', ?_, hload'⟩
    rw [← heq,
      relocate_table _ h.reloflag hseek (by rw [List.length_append, longBytes_length]; omega)
      (by rw [firstLong_longBytes]; exact hzero) (by rw [firstLong_longBytes]; exact hrange)
      (by rw [firstLong_longBytes]; exact hodd), firstLong_longBytes]
    rfl

theorem Wellformed.free (h : Wellformed ph file image offsets)
    (hlow : m.long (pd + p_lowtpa) = pd)
    (hroom : 256 + image.length < (m.long (pd + p_hitpa) - pd).toNat) :
    (freeLength ph pd m).toNat = (m.long (pd + p_hitpa) - pd).toNat - (256 + image.length) := by
  have hbase : basepage.toNat = 256 := rfl
  have hlt := h.image_lt
  have hadd : (basepage + BitVec.ofNat 32 image.length).toNat = 256 + image.length := by
    rw [toNat_add_ofNat (n := 2 ^ 32) (by omega) (le_refl _), hbase]
  unfold freeLength
  rw [hlow, h.d3, sub_sub, BitVec.toNat_sub_of_le (BitVec.le_def.mpr (by omega)), hadd]

theorem pldEndrelo_unlimited {a3 free : Long} (hlimit : m.long (pd + p_mem) = -1) :
    pldEndrelo ph pd a3 free m = (E_OK, m.clear a3 (clearLength ph free)) := by
  unfold pldEndrelo limitHeap
  dsimp only
  rw [if_pos hlimit]

/-- The program after it has been loaded: TEXT and DATA are those of the file with the fix-ups
made, and BSS and the rest of the memory are cleared. -/
theorem pload_exact (h : Wellformed ph file image offsets) (hfirst : offsets.head? ≠ some 0)
    (hlow : m.long (pd + p_lowtpa) = pd) (hle : pd ≤ m.long (pd + p_hitpa))
    (heven : pd.getLsbD 0 = false) (hlimit : m.long (pd + p_mem) = -1)
    (hroom : 256 + image.length < (m.long (pd + p_hitpa) - pd).toNat)
    (hbss : 256 + image.length + ph.blen.toNat ≤ (m.long (pd + p_hitpa) - pd).toNat) :
    ((m.long (pd + p_hitpa) - pd).toNat < 2 ^ 31 → (pload ph file pd m).1 = E_OK) ∧
      ((pload ph file pd m).1 = E_OK →
        (∀ i : Long, i.toNat < image.length → (pload ph file pd m).2.mem (pd + basepage + i) =
          relocated (pd + basepage) image offsets i) ∧
        (∀ i : Long, image.length ≤ i.toNat → i.toNat < image.length + ph.blen.toNat →
          (pload ph file pd m).2.mem (pd + basepage + i) = 0) ∧
        (ph.flags.getLsbD 0 = false → ∀ i : Long, image.length ≤ i.toNat →
          256 + i.toNat < (m.long (pd + p_hitpa) - pd).toNat →
            (pload ph file pd m).2.mem (pd + basepage + i) = 0)) := by
  have hlt := h.image_lt
  have hfree := h.free hlow hroom
  have hwrap : (pd + basepage).toNat + image.length < 2 ^ 32 := by
    have hbase : basepage.toNat = 256 := rfl
    have hend : (m.long (pd + p_hitpa) - pd).toNat = (m.long (pd + p_hitpa)).toNat - pd.toNat :=
      BitVec.toNat_sub_of_le hle
    have hhi := (m.long (pd + p_hitpa)).isLt
    rw [BitVec.toNat_add, hbase]
    omega
  have hblen : ph.blen.toInt = ph.blen.toNat := toInt_eq_toNat h.blen
  -- with less than two gigabytes behind the segments the program is loaded
  have hdone : (freeLength ph pd m).toNat < 2 ^ 31 → ∃ m', pload ph file pd m =
      (E_OK, m'.clear (pd + basepage + ph.d3) (clearLength ph (freeLength ph pd m))) ∧
        Loading (pd + basepage) image offsets m' := by
    intro hsmall
    have hint := toInt_of_lt hsmall
    have hstart := loading_start ph hlimit (show image.length + 256 ≤ 2 ^ 32 by omega)
    rcases relocate_exact h hfirst heven (freeLength ph pd m) (by omega) (by omega) hwrap
      hstart with ⟨m', heq, hload⟩
    refine ⟨m', ?_, hload⟩
    rw [pload_text (by omega) (by rw [h.d3_toInt]; omega) h.read.1, h.read.2, heq]
    have hmem := hload.limit
    rw [add_sub_cancel_right] at hmem
    exact pldEndrelo_unlimited hmem
  constructor
  · intro hsmall
    rcases hdone (by omega) with ⟨m', heq, _⟩
    rw [heq]
  · intro hok
    have hsmall : (freeLength ph pd m).toNat < 2 ^ 31 := by
      by_contra hbig
      have hneg : (freeLength ph pd m).toInt < ph.blen.toInt := by
        have hcond := BitVec.toInt_eq_toNat_cond (freeLength ph pd m)
        split at hcond <;> omega
      unfold pload at hok
      rw [if_pos hneg] at hok
      exact absurd (show ENSMEM = E_OK from hok) (by decide)
    rcases hdone hsmall with ⟨m', heq, hload⟩
    rw [heq]
    have hsub : ∀ i : Long, (pd + basepage + i - (pd + basepage + ph.d3)).toNat =
        (2 ^ 32 - image.length + i.toNat) % 2 ^ 32 := by
      intro i
      rw [add_sub_add_left_eq_sub, BitVec.toNat_sub, h.d3, ofNat_toNat (by omega)]
    have hclear : ∀ i : Long, image.length ≤ i.toNat →
        i.toNat < image.length + clearLength ph (freeLength ph pd m) →
        (m'.clear (pd + basepage + ph.d3) (clearLength ph (freeLength ph pd m))).mem
          (pd + basepage + i) = 0 := by
      intro i hi hn
      refine fill_in ?_
      rw [hsub]
      omega
    have hlength : ph.blen.toNat ≤ clearLength ph (freeLength ph pd m) ∧
        clearLength ph (freeLength ph pd m) ≤ (freeLength ph pd m).toNat := by
      unfold clearLength
      split <;> omega
    refine ⟨fun i hi => ?_, fun i hi hn => hclear i hi (by omega), fun hflag i hi hn => ?_⟩
    · rw [← hload.image i hi]
      refine fill_out ?_
      rw [hsub, Nat.mod_eq_of_lt (by omega)]
      omega
    · refine hclear i hi ?_
      unfold clearLength
      rw [hflag, if_neg (by decide)]
      omega

end

/-- The image of a small program, in which two longwords are relocated. -/
def smallImage : List Byte := [0, 0, 0, 1, 0, 0, 0, 2]

/-- A file with that image and a table. -/
def smallTable (table : List Byte) : List Byte :=
  [0x60, 0x1a, 0, 0, 0, 8] ++ List.replicate 22 0 ++ smallImage ++ table

theorem wellformed_smallTable {table : List Byte} {offsets : List Nat} (h : Table offsets table)
    (heven : ∀ o ∈ offsets, o % 2 = 0) (hwithin : ∀ o ∈ offsets, o + 4 ≤ 8)
    (hlen : table.length < 100) : Wellformed smallPh (smallTable table) smallImage offsets where
  blen := by decide
  tlen := by decide
  dlen := by decide
  slen := by decide
  reloflag := rfl
  text := rfl
  parts := ⟨[0x60, 0x1a, 0, 0, 0, 8] ++ List.replicate 22 0, [], table, rfl, rfl, rfl, h⟩
  even := heven
  within := hwithin
  length := by
    unfold smallTable smallImage
    simp only [List.length_append, List.length_replicate, List.length_cons, List.length_nil]
    omega

/-- A table of two fix-ups that ends with the file. -/
theorem pload_exact_small :
    (pload smallPh (smallTable [0, 0, 0, 2, 2]) 0x1000 smallTpa).1 = E_OK ∧
      ∀ i : Long, i.toNat < 8 →
        (pload smallPh (smallTable [0, 0, 0, 2, 2]) 0x1000 smallTpa).2.mem (0x1000 + basepage + i) =
          relocated (0x1000 + basepage) smallImage [2, 4] i := by
  have hfile : Wellformed smallPh (smallTable [0, 0, 0, 2, 2]) smallImage [2, 4] :=
    wellformed_smallTable ⟨[2], rfl, Fixups.fixup (b := 2) (by decide) Fixups.eof⟩ (by decide)
      (by decide) (by decide)
  have hlow : smallTpa.long (0x1000 + p_lowtpa) = 0x1000 := by decide
  have hexact := pload_exact hfile (by decide) hlow (by decide) (by decide) (by decide) (by decide)
    (by decide)
  have hok := hexact.1 (by decide)
  exact ⟨hok, (hexact.2 hok).1⟩

/-- A table that begins with the offset 0 is taken for none. -/
theorem pload_first_zero :
    Wellformed smallPh (smallTable [0, 0, 0, 0, 4]) smallImage [0, 4] ∧
      (pload smallPh (smallTable [0, 0, 0, 0, 4]) 0x1000 smallTpa).1 = E_OK ∧
        (pload smallPh (smallTable [0, 0, 0, 0, 4]) 0x1000 smallTpa).2.mem (0x1000 + basepage + 2) ≠
          relocated (0x1000 + basepage) smallImage [0, 4] 2 := by
  refine ⟨?_, by decide, by decide⟩
  exact wellformed_smallTable ⟨[4], rfl, Fixups.fixup (b := 4) (by decide) Fixups.eof⟩ (by decide)
    (by decide) (by decide)

end Pexec

end MagiC
