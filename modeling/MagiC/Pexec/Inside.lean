import MagiC.Pexec.Load

/-!
# Where the Loader Writes

TEXT and DATA are read behind the basepage, and the relocation bytes into the
memory behind them, which is cleared in the end.

## Main definitions

* `AllInside`: Nothing outside the memory of the process has been written to.

## Theorems

* `pload_framed`: The rest of the memory.
-/

namespace MagiC

namespace Pexec

open Memory

/-- A stretch of memory lies between the ends of the memory of a process. -/
def Inside (lo hi : Long) (s : Long × Nat) : Prop :=
  ∀ k < s.2, lo ≤ s.1 + BitVec.ofNat 32 k ∧ s.1 + BitVec.ofNat 32 k < hi

instance (lo hi : Long) (s : Long × Nat) : Decidable (Inside lo hi s) :=
  inferInstanceAs (Decidable (∀ k < s.2, _))

/-- Everything that was written to lies in the memory of the process. -/
def AllInside (lo hi : Long) (m : Load) : Prop := ∀ s ∈ m.touched, Inside lo hi s

/-- A stretch that starts in the memory of a process ends before the memory does. -/
def Ends (lo hi a : Long) (n : Nat) : Prop := n = 0 ∨ (a - lo).toNat + n ≤ (hi - lo).toNat

instance (lo hi a : Long) (n : Nat) : Decidable (Ends lo hi a n) :=
  inferInstanceAs (Decidable (_ ∨ _))

section

variable {lo hi pd a5 a3 free a v d6 : Long} {n : Nat} {l rest : List Byte} {m m' : Load}

theorem inside_iff (h : lo ≤ hi) : Inside lo hi (a, n) ↔ Ends lo hi a n := by
  have hoff : ∀ x : Long, (lo ≤ x ∧ x < hi) ↔ (x - lo).toNat < (hi - lo).toNat := by
    intro x
    constructor <;> intro hx <;> bv_omega
  have hadd : ∀ k : Nat, (a + BitVec.ofNat 32 k - lo).toNat = ((a - lo).toNat + k) % 2 ^ 32 := by
    intro k
    rw [add_sub_right_comm, BitVec.toNat_add, BitVec.toNat_ofNat, Nat.add_mod_mod]
  have hlt := (hi - lo).isLt
  unfold Inside Ends
  simp only [hoff, hadd]
  constructor
  · intro hin
    by_contra hc
    rw [not_or] at hc
    have h0 := hin 0 (by omega)
    rw [Nat.add_zero, Nat.mod_eq_of_lt (a - lo).isLt] at h0
    -- the first byte behind the memory
    have hend := hin ((hi - lo).toNat - (a - lo).toNat) (by omega)
    rw [Nat.mod_eq_of_lt (by omega)] at hend
    omega
  · intro hend k hk
    rw [Nat.mod_eq_of_lt (by omega)]
    omega

theorem allInside_read (h : lo ≤ hi) :
    AllInside lo hi (m.read a l) ↔ Ends lo hi a l.length ∧ AllInside lo hi m := by
  rw [← inside_iff h]
  exact List.forall_mem_cons

theorem allInside_fixup (h : lo ≤ hi) :
    AllInside lo hi (m.fixup a v) ↔ Ends lo hi a 4 ∧ AllInside lo hi m := by
  rw [← inside_iff h]
  exact List.forall_mem_cons

theorem allInside_clear (h : lo ≤ hi) :
    AllInside lo hi (m.clear a n) ↔ Ends lo hi a n ∧ AllInside lo hi m := by
  rw [← inside_iff h]
  exact List.forall_mem_cons

end

/-- The fields of the basepage that the loader sets. -/
def pdFields : List Long :=
  [p_hitpa, p_tbase, p_tlen, p_dbase, p_dlen, p_bbase, p_blen, p_mem]

/-- More is written to, and nothing else has changed than that and the basepage. -/
structure Framed (pd : Long) (m m' : Load) : Prop where
  grows : ∀ s ∈ m.touched, s ∈ m'.touched
  frame : ∀ i, (∀ s ∈ m'.touched, s.2 ≤ (i - s.1).toNat) →
    (∀ f ∈ pdFields, 4 ≤ (i - (pd + f)).toNat) → m'.mem i = m.mem i

section

variable {pd a5 a3 free a v d6 f : Long} {ph : Ph} {file rest : List Byte} {n : Nat} {l : List Byte}
  {m m' m'' : Load}

theorem Framed.refl : Framed pd m m := ⟨fun _ hs => hs, fun _ _ _ => rfl⟩

theorem Framed.trans (h : Framed pd m m') (h' : Framed pd m' m'') : Framed pd m m'' where
  grows := fun s hs => h'.grows s (h.grows s hs)
  frame := fun i hi hf => by
    rw [h'.frame i hi hf, h.frame i (fun s hs => hi s (h'.grows s hs)) hf]

theorem framed_poke (hf : f ∈ pdFields) : Framed pd m (m.poke (pd + f) v) where
  grows := fun _ hs => hs
  frame := fun _ _ hfields => setLong_out (hfields f hf)

theorem framed_read : Framed pd m (m.read a l) where
  grows := fun _ hs => List.mem_cons_of_mem _ hs
  frame := fun _ hi _ => write_out (hi (a, l.length) List.mem_cons_self)

theorem framed_fixup : Framed pd m (m.fixup a v) where
  grows := fun _ hs => List.mem_cons_of_mem _ hs
  frame := fun _ hi _ => addLong_out (hi (a, 4) List.mem_cons_self)

theorem framed_clear : Framed pd m (m.clear a n) where
  grows := fun _ hs => List.mem_cons_of_mem _ hs
  frame := fun _ hi _ => fill_out (hi (a, n) List.mem_cons_self)

theorem ploadLoop_framed (pd a5 : Long) (d5 : Nat) (a2 d6 : Long) (m : Load) :
    Framed pd m (ploadLoop pd a5 d5 a2 d6 m).2 := by
  induction d5 generalizing a2 d6 m with
  | zero => exact Framed.refl
  | succ d5 ih =>
    unfold ploadLoop
    dsimp only
    split
    · split
      · exact framed_poke (by decide)
      · exact Framed.refl
    · split
      · exact ih _ _ _
      · split
        · exact Framed.refl
        · exact framed_fixup.trans (ih _ _ _)

theorem lot_framed {d5 : Nat} {e : LoopEnd}
    (h : ploadLoop pd a5 d5 a3 d6 (m.read a3 l) = (e, m')) : Framed pd m m' := by
  have hloop := ploadLoop_framed pd a5 d5 a3 d6 (m.read a3 l)
  rw [h] at hloop
  exact framed_read.trans hloop

theorem ploadLoop2_framed (rest : List Byte) (d6 : Long) (m : Load) :
    Framed pd m (ploadLoop2 pd a5 a3 free rest d6 m).2 := by
  fun_induction ploadLoop2 pd a5 a3 free rest d6 m with
  | case1 => exact Framed.refl
  | case2 => exact Framed.refl
  | case3 => exact Framed.refl
  | case4 _ _ _ _ _ _ _ _ _ heq _ ih => exact (lot_framed heq).trans ih
  | case5 _ _ _ _ _ _ _ _ _ heq _ => exact lot_framed heq
  | case6 _ _ _ _ _ _ _ _ heq => exact lot_framed heq
  | case7 _ _ _ _ _ _ _ _ heq => exact lot_framed heq

theorem relocate_framed (ph : Ph) (file : List Byte) (pd a5 a3 free : Long) (m : Load) :
    Framed pd m (relocate ph file pd a5 a3 free m).2 := by
  unfold relocate
  split
  · exact Framed.refl
  · split
    · exact Framed.refl
    · rename_i rest _
      split
      · exact Framed.refl
      · dsimp only
        generalize firstLong rest = first
        split
        · exact Framed.refl
        · split
          · exact Framed.refl
          · split
            · exact Framed.refl
            · exact framed_fixup.trans (ploadLoop2_framed _ _ _)

theorem limitHeap_framed : Framed pd m (limitHeap pd free m).2 := by
  unfold limitHeap
  dsimp only
  split
  · exact Framed.refl
  · split
    · exact framed_poke (by decide)
    · exact ((framed_poke (by decide)).trans (framed_poke (by decide))).trans
        (framed_poke (by decide))

theorem setSegments_framed (ph : Ph) (pd a5 : Long) (m : Load) :
    Framed pd m (setSegments ph pd a5 m) := by
  unfold setSegments
  exact (((((framed_poke (by decide)).trans (framed_poke (by decide))).trans
    (framed_poke (by decide))).trans (framed_poke (by decide))).trans
    (framed_poke (by decide))).trans (framed_poke (by decide))

theorem pload_framed : Framed pd m (pload ph file pd m).2 := by
  unfold pload
  dsimp only
  split
  · exact Framed.refl
  · split
    · exact setSegments_framed _ _ _ _
    · have hread := (setSegments_framed ph pd (pd + basepage) m).trans
        (framed_read (a := pd + basepage)
          (l := (file.drop ph_sizeof).take (fread (file.drop ph_sizeof) ph.d3).toNat))
      split
      · exact hread
      · split
        · exact hread.trans (relocate_framed _ _ _ _ _ _ _)
        · exact ((hread.trans (relocate_framed _ _ _ _ _ _ _)).trans limitHeap_framed).trans
            framed_clear

end

section

variable {lo hi pd a3 free : Long} {ph : Ph} {rest : List Byte} {m : Load}

theorem lot_ends (hroom : (a3 - lo).toNat + free.toNat ≤ (hi - lo).toNat)
    (hn : 0 ≤ fread rest free) : Ends lo hi a3 (rest.take (fread rest free).toNat).length := by
  right
  have hle := fread_le_toInt rest free
  have hfree := toInt_eq_toNat (hn.trans hle)
  rw [List.length_take]
  omega

@[simp] theorem setSegments_touched : (setSegments ph pd a5 m).touched = m.touched := rfl

@[simp] theorem limitHeap_touched : (limitHeap pd free m).2.touched = m.touched := by
  unfold limitHeap
  dsimp only
  split
  · rfl
  · split <;> rfl

theorem fread_toNat_length {rest : List Byte} {count : Long} :
    (rest.take (fread rest count).toNat).length = (fread rest count).toNat := by
  have hle := fread_le rest count
  rw [List.length_take]
  omega

theorem segments_room {s d : Long} (h : 256 + d.toNat ≤ s.toNat) :
    256 ≤ (basepage + d).toNat ∧
      (basepage + d).toNat + (s - basepage - d).toNat ≤ s.toNat := by
  have hbase : basepage.toNat = 256 := rfl
  have hadd : (basepage + d).toNat = 256 + d.toNat := by
    rw [BitVec.toNat_add]
    exact Nat.mod_eq_of_lt (by omega)
  have hsub : (s - basepage - d).toNat = s.toNat - (256 + d.toNat) := by
    rw [sub_sub, BitVec.toNat_sub_of_le (BitVec.le_def.mpr (by omega)), hadd]
  omega

/-- What is behind TEXT and DATA ends where the memory does. -/
theorem freeLength_room (hlow : m.long (pd + p_lowtpa) = pd)
    (hd3 : 0 ≤ ph.d3.toInt) (hne : ph.d3 ≠ 0)
    (hends : Ends pd (m.long (pd + p_hitpa)) (pd + basepage) ph.d3.toInt.toNat) :
    256 ≤ (pd + basepage + ph.d3 - pd).toNat ∧
      (pd + basepage + ph.d3 - pd).toNat + (freeLength ph pd m).toNat ≤
        (m.long (pd + p_hitpa) - pd).toNat := by
  have hnat := toInt_eq_toNat hd3
  unfold freeLength
  rw [hlow, add_assoc, add_sub_cancel_left]
  rcases hends with hz | hends
  · exact absurd (BitVec.eq_of_toNat_eq (show ph.d3.toNat = 0 by omega)) hne
  · rw [add_sub_cancel_left, hnat, Int.toNat_natCast] at hends
    exact segments_room hends

end

end Pexec

end MagiC
