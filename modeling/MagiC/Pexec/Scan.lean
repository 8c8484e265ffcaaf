import MagiC.Pexec.Inside

/-!
# What a Relocation Table Comes to

The fix-ups of a table are sums of its bytes. A sum is compared with the ends of
the segments for the first fix-up and wherever a new lot of bytes is read, and
nowhere in between. `scan` goes through the bytes of the file, whereas the loader
reads them back from memory. That is the same as long as no fix-up falls on bytes
of its lot which are still to be read, or on the basepage (`Clear`).

## Main definitions

* `scan`, `tableScan`: The fix-ups of a table, and what it ends with.

## Theorems

* `pload_inside_iff`: What the loader writes to.
-/

namespace MagiC

namespace Pexec

open Memory

/-- A fix-up, where the next relocation byte is, and how many of the lot there are. -/
structure Fix where
  addr : Long
  next : Long
  unread : Nat

/-- The fix-ups of a table, whether it ends without an error, and the limit for the heap. -/
structure Scan where
  fixups : List Fix
  ok : Bool
  limit : Option Long

/-- There are no more fix-ups. -/
def Scan.stop (ok : Bool) : Scan := ⟨[], ok, none⟩

/-- There is a fix-up before the others. -/
def Scan.after (f : Fix) (s : Scan) : Scan := { s with fixups := f :: s.fixups }

/-- The limit behind the end of a table, if it is in memory as well. -/
def limitOf (l : List Byte) (left : Nat) : Option Long :=
  if 8 ≤ (l.take left).length ∧ firstLong l = MAGX then some (firstLong (l.drop 4)) else none

/-- What relocation bytes come to, of which `left` belong to the lot that is at `a2`. -/
def scan (a5 a3 : Long) (free : Nat) : List Byte → Nat → Long → Long → Scan
  | [], left, _, d6 => .stop (left ≠ 0 ∨ ¬ (d6 < a5 ∨ a3 < d6))
  | b :: l, left, a2, d6 =>
    -- the sum is compared where a new lot begins
    if left = 0 ∧ (d6 < a5 ∨ a3 < d6) then .stop false
    else
      let a2 := (if left = 0 then a3 else a2) + 1
      let left := (if left = 0 then free else left) - 1
      if b = 0 then ⟨[], true, limitOf l left⟩
      else if b = 1 then scan a5 a3 free l left a2 (d6 + 0xfe)
      else
        let d6 := d6 + b.setWidth 32
        if d6.getLsbD 0 then .stop false
        else (scan a5 a3 free l left a2 d6).after ⟨d6, a2, (l.take left).length⟩

/-- What the relocation bytes behind a program come to. -/
def tableScan (ph : Ph) (file : List Byte) (a5 a3 free : Long) : Scan :=
  if ph.reloflag ≠ 0 then .stop true
  else
    match fseek file (BitVec.ofNat 32 ph_sizeof + ph.slen + (a3 - a5)) with
    | none => .stop false
    | some rest =>
      if rest.length < 4 then .stop false
      else if firstLong rest = 0 then .stop true
      else
        let d6 := a5 + firstLong rest
        if d6 < a5 ∨ a3 < d6 then .stop false
        else if d6.getLsbD 0 then .stop false
        else if free.toInt ≤ 0 then (Scan.stop false).after ⟨d6, a3, 0⟩
        else (scan a5 a3 free.toNat (rest.drop 4) 0 a3 d6).after ⟨d6, a3, 0⟩

/-- The longword at `a` has no byte of a stretch. -/
def Spares (a b : Long) (n : Nat) : Prop := n = 0 ∨ 4 ≤ (b - a).toNat ∧ n ≤ (a - b).toNat

/-- No fix-up changes relocation bytes that are still to be read, or the basepage. -/
def Clear (lo : Long) (s : Scan) : Prop :=
  ∀ f ∈ s.fixups, Spares f.addr f.next f.unread ∧ Spares f.addr lo 256

/-- What a limit for the heap leaves of the memory behind TEXT and DATA. -/
def leftOver (ph : Ph) (free tpa limit : Long) : Long :=
  if limit = -1 then free
  else
    let d1 := limit - tpa + (ph.tlen + ph.dlen + ph.blen + basepage)
    if 0 ≤ d1.toInt then free else free + d1

/-- The BSS does not fit, or what the file has of TEXT and DATA fits, no fix-up is outside, and
not more than what is behind DATA is to be cleared. -/
def Fits (lo hi : Long) (ph : Ph) (file : List Byte) (m : Load) : Prop :=
  let free := freeLength ph lo m
  let a5 := lo + basepage
  let a3 := a5 + ph.d3
  let n := fread (file.drop ph_sizeof) ph.d3
  let s := tableScan ph file a5 a3 free
  free.toInt < ph.blen.toInt ∨
    Ends lo hi a5 n.toNat ∧
      (n = ph.d3.toInt → 0 ≤ n →
        (∀ f ∈ s.fixups, Ends lo hi f.addr 4) ∧
          (s.ok = true → Ends lo hi a3
            (clearLength ph (leftOver ph free (hi - lo) (s.limit.getD (m.long (lo + p_mem)))))))

instance (lo : Long) (s : Scan) : Decidable (Clear lo s) := by
  unfold Clear Spares
  infer_instance

instance (lo hi : Long) (ph : Ph) (file : List Byte) (m : Load) :
    Decidable (Fits lo hi ph file m) := by
  unfold Fits
  infer_instance

theorem long_poke {pd f g v : Long} {m : Load}
    (h : ∀ j < 4, 4 ≤ (g + BitVec.ofNat 32 j - f).toNat) :
    (m.poke (pd + f) v).long (pd + g) = m.long (pd + g) := by
  refine getLong_congr fun j hj => setLong_out ?_
  rw [add_assoc, add_sub_add_left_eq_sub]
  exact h j hj

theorem ofNat_toNat {n : Nat} (h : n < 2 ^ 32) : (BitVec.ofNat 32 n).toNat = n := by
  rw [BitVec.toNat_ofNat, Nat.mod_eq_of_lt h]

/-- Relocation bytes in memory. -/
def Lot (m : Load) (a : Long) (l : List Byte) : Prop :=
  ∀ j < l.length, some (m.mem (a + BitVec.ofNat 32 j)) = l[j]?

section

variable {a b v : Long} {n : Nat} {l : List Byte} {c : Byte} {m : Load}

theorem lot_read (hlen : l.length < 2 ^ 32) (a : Long) : Lot (m.read a l) a l := by
  intro j hj
  have hsub : (a + BitVec.ofNat 32 j - a).toNat = j := by
    rw [add_sub_cancel_left]
    exact ofNat_toNat (by omega)
  have hin := write_in (m := m.mem) (a := a) (i := a + BitVec.ofNat 32 j) (l := l)
    (by rw [hsub]; exact hj)
  rw [hsub] at hin
  exact hin

theorem Lot.drop (h : Lot m a l) (k : Nat) : Lot m (a + BitVec.ofNat 32 k) (l.drop k) := by
  intro j hj
  rw [List.length_drop] at hj
  rw [List.getElem?_drop, ← h (k + j) (by omega), add_assoc, BitVec.ofNat_add]

theorem Lot.tail (h : Lot m a (c :: l)) : Lot m (a + 1) l := h.drop 1

theorem Lot.head (h : Lot m a (c :: l)) : m.mem a = c := by
  have hzero := h 0 (Nat.zero_lt_succ _)
  rw [show (BitVec.ofNat 32 0) = 0 from rfl, add_zero] at hzero
  exact Option.some.inj hzero

theorem Lot.long (h : Lot m a l) (hl : 4 ≤ l.length) (rest : List Byte) :
    m.long a = firstLong (l ++ rest) := by
  have hbyte : ∀ j < 4, m.mem (a + BitVec.ofNat 32 j) = (l ++ rest)[j]! := by
    intro j hj
    have hj' : j < l.length := by omega
    have hget := h j hj'
    rw [List.getElem!_eq_getElem?_getD, List.getElem?_append_left hj', ← hget]
    rfl
  have h0 := hbyte 0 (by omega)
  have h1 : m.mem (a + 1) = _ := hbyte 1 (by omega)
  have h2 : m.mem (a + 2) = _ := hbyte 2 (by omega)
  have h3 : m.mem (a + 3) = _ := hbyte 3 (by omega)
  rw [show (BitVec.ofNat 32 0) = 0 from rfl, add_zero] at h0
  unfold Load.long getLong firstLong
  rw [h0, h1, h2, h3]

/-- The limit behind the end of a table, in memory. -/
theorem Lot.limit {left : Nat} (h : Lot m a (l.take left)) :
    (if 9 ≤ (l.take left).length + 1 ∧ m.long a = MAGX then some (m.long (a + 4)) else none) =
      limitOf l left := by
  unfold limitOf
  by_cases hlen : 8 ≤ (l.take left).length
  swap
  · rw [if_neg (by omega), if_neg (by omega)]
  have hmagic := h.long (by omega) (l.drop left)
  have hvalue := (h.drop 4).long (by rw [List.length_drop]; omega) (l.drop left)
  rw [List.take_append_drop] at hmagic
  rw [← List.drop_append_of_le_length (by omega), List.take_append_drop] at hvalue
  rw [hmagic, show a + 4 = a + BitVec.ofNat 32 4 from rfl, hvalue]
  simp only [hlen, true_and, show 9 ≤ (l.take left).length + 1 by omega]

theorem Spares.far (h : Spares a b n) {i : Long} (hi : (i - b).toNat < n) : 4 ≤ (i - a).toNat := by
  rcases h with hz | ⟨hb, ha⟩
  · omega
  · bv_omega

theorem Lot.spared (h : Lot m b l) (hs : Spares a b l.length) (hl : l.length ≤ 2 ^ 32) :
    Lot (m.fixup a v) b l := by
  intro j hj
  rw [← h j hj]
  refine congrArg some (addLong_out (hs.far ?_))
  rw [add_sub_cancel_left, ofNat_toNat (by omega)]
  exact hj

end

/-- The fields of the basepage that the limit for the heap is computed from. -/
def sizeFields : List Long := [p_lowtpa, p_hitpa, p_tlen, p_dlen, p_blen]

/-- From a state `m` the loader has done what the bytes of the file say. -/
structure Agrees (lo hi : Long) (m : Load) (s : Scan) (r : Int × Load) : Prop where
  ok : r.1 < 0 ↔ s.ok = false
  inside : AllInside lo hi r.2 ↔ AllInside lo hi m ∧ ∀ f ∈ s.fixups, Ends lo hi f.addr 4
  sizes : ∀ f ∈ sizeFields, r.2.long (lo + f) = m.long (lo + f)
  limit : s.ok = true → r.2.long (lo + p_mem) = s.limit.getD (m.long (lo + p_mem))

section

variable {lo hi a5 a3 a2 free d6 f v : Long} {n : Nat} {e : Int} {l : List Byte} {s : Scan}
  {m m' : Load} {r : Int × Load}

/-- The basepage is the same. -/
theorem long_page (h : Intact m.mem m'.mem lo 256) (hf : f.toNat + 4 ≤ 256) :
    m'.long (lo + f) = m.long (lo + f) := by
  refine getLong_intact (h.mono fun i hi => ?_) (by omega)
  bv_omega

theorem sizeFields_apart (hf : f ∈ sizeFields) :
    f.toNat + 4 ≤ 256 ∧ ∀ j < 4, 4 ≤ (f + BitVec.ofNat 32 j - p_mem).toNat := by
  simp only [sizeFields, List.mem_cons, List.not_mem_nil, or_false] at hf
  rcases hf with rfl | rfl | rfl | rfl | rfl <;> decide

theorem agrees_stop {ok : Bool} (he : e < 0 ↔ ok = false) : Agrees lo hi m (.stop ok) (e, m) where
  ok := he
  inside := (and_iff_left (List.forall_mem_nil _)).symm
  sizes := fun _ _ => rfl
  limit := fun _ => rfl

/-- What comes before does not change the basepage. -/
theorem Agrees.before (h : Agrees lo hi m' s r) (hpage : Intact m.mem m'.mem lo 256)
    (hin : AllInside lo hi m' ↔ AllInside lo hi m) : Agrees lo hi m s r where
  ok := h.ok
  inside := by rw [h.inside, hin]
  sizes := fun f hf => (h.sizes f hf).trans (long_page hpage (sizeFields_apart hf).1)
  limit := fun hok => by rw [h.limit hok, long_page hpage (by decide)]

theorem Agrees.fixup {next : Long} (hle : lo ≤ hi) (h : Agrees lo hi (m.fixup d6 v) s r)
    (hpage : Spares d6 lo 256) : Agrees lo hi m (s.after ⟨d6, next, n⟩) r where
  ok := h.ok
  inside := by
    rw [h.inside, allInside_fixup hle, Scan.after, List.forall_mem_cons, and_assoc,
      and_left_comm]
  sizes := fun f hf => (h.sizes f hf).trans
    (long_page (fun _ hi => addLong_out (hpage.far hi)) (sizeFields_apart hf).1)
  limit := fun hok => by
    rw [h.limit hok, long_page (fun _ hi => addLong_out (hpage.far hi)) (by decide)]
    rfl

theorem read_page (h : Ends lo hi a3 l.length) (hbase : 256 ≤ (a3 - lo).toNat) :
    Intact m.mem (m.read a3 l).mem lo 256 := by
  refine fun i hin => write_out ?_
  have hlt := (hi - lo).isLt
  rcases h with hz | h
  · omega
  · bv_omega

theorem Agrees.read (hle : lo ≤ hi) (h : Agrees lo hi (m.read a3 l) s r)
    (hends : Ends lo hi a3 l.length) (hbase : 256 ≤ (a3 - lo).toNat) : Agrees lo hi m s r :=
  h.before (read_page hends hbase) (by rw [allInside_read hle, and_iff_right hends])

theorem agrees_limit (lo hi : Long) {a : Long} (left : Nat) (hlot : Lot m a (l.take left)) :
    Agrees lo hi m ⟨[], true, limitOf l left⟩ (E_OK,
      if 9 ≤ (l.take left).length + 1 ∧ m.long a = MAGX then m.poke (lo + p_mem) (m.long (a + 4))
      else m) := by
  have hok : E_OK < 0 ↔ true = false := by decide
  rw [← hlot.limit]
  split
  · refine ⟨hok, (and_iff_left (List.forall_mem_nil _)).symm, fun f hf => ?_, fun _ => ?_⟩
    · exact long_poke (sizeFields_apart hf).2
    · exact getLong_setLong (by omega)
  · exact ⟨hok, (and_iff_left (List.forall_mem_nil _)).symm, fun _ _ => rfl, fun _ => rfl⟩

theorem clear_after {g : Fix} :
    Clear lo (s.after g) ↔ (Spares g.addr g.next g.unread ∧ Spares g.addr lo 256) ∧ Clear lo s :=
  List.forall_mem_cons

/-- How the loader goes on behind a lot of `n` bytes. -/
def lotEnd (pd a5 a3 free : Long) (n : Int) (rest : List Byte) : LoopEnd × Load → Int × Load
  | (.next d6, m) => if n = free.toInt then ploadLoop2 pd a5 a3 free rest d6 m else (E_OK, m)
  | (.endrelo, m) => (E_OK, m)
  | (.eplfmt, m) => (EPLFMT, m)

/-- At the end of a lot it does not matter where the lot was. -/
theorem scan_end (free : Nat) (l : List Byte) (d6 : Long) :
    scan a5 a3 free l 0 a2 d6 = scan a5 a3 free l 0 a3 d6 := by
  cases l <;> rfl

/-- The bytes of a lot, of which `left` are not done with. -/
theorem lot_agrees (hle : lo ≤ hi) {n : Int} {rest : List Byte}
    (hmore : n = free.toInt → ∀ d6 m, Clear lo (scan a5 a3 free.toNat rest 0 a3 d6) →
      Agrees lo hi m (scan a5 a3 free.toNat rest 0 a3 d6) (ploadLoop2 lo a5 a3 free rest d6 m))
    (l : List Byte) (left : Nat) (a2 d6 : Long) (m : Load)
    (hfull : left ≤ l.length → n = free.toInt ∧ l.drop left = rest)
    (hpart : l.length < left → n ≠ free.toInt) (hlot : Lot m a2 (l.take left))
    (hlen : left ≤ 2 ^ 32) (hclear : Clear lo (scan a5 a3 free.toNat l left a2 d6)) :
    Agrees lo hi m (scan a5 a3 free.toNat l left a2 d6)
      (lotEnd lo a5 a3 free n rest (ploadLoop lo a5 (l.take left).length a2 d6 m)) := by
  induction l generalizing left a2 d6 m with
  | nil =>
    cases left with
    | zero =>
      rcases hfull (Nat.zero_le _) with ⟨hn, rfl⟩
      change Agrees _ _ _ _ (if _ then _ else _)
      rw [if_pos hn]
      exact hmore hn d6 m hclear
    | succ left =>
      change Agrees _ _ _ (.stop true) (if _ then _ else _)
      rw [if_neg (hpart (Nat.zero_lt_succ _))]
      exact agrees_stop (by decide)
  | cons b l ih =>
    cases left with
    | zero =>
      rcases hfull (Nat.zero_le _) with ⟨hn, rfl⟩
      rw [scan_end] at hclear ⊢
      change Agrees _ _ _ _ (if _ then _ else _)
      rw [if_pos hn]
      exact hmore hn d6 m hclear
    | succ left =>
    rw [List.take_succ_cons] at hlot ⊢
    have hih := fun d6 m => ih left (a2 + 1) d6 m
      (fun hl => hfull (Nat.succ_le_succ hl)) (fun hl => hpart (Nat.succ_lt_succ hl))
    rw [List.length_cons]
    unfold scan at hclear ⊢
    unfold ploadLoop
    dsimp only at hclear ⊢
    rw [hlot.head]
    rw [if_neg fun hc => Nat.succ_ne_zero _ hc.1] at hclear ⊢
    rw [if_neg (Nat.succ_ne_zero left), if_neg (Nat.succ_ne_zero left),
      Nat.add_sub_cancel] at hclear ⊢
    by_cases h0 : b = 0
    · rw [if_pos h0, if_pos h0]
      -- behind the end there may be the limit
      have hlimit := agrees_limit lo hi left hlot.tail
      rw [add_assoc] at hlimit
      split
      · rename_i hmagic
        rw [if_pos hmagic] at hlimit
        exact hlimit
      · rename_i hmagic
        rw [if_neg hmagic] at hlimit
        exact hlimit
    rw [if_neg h0] at hclear ⊢
    rw [if_neg h0]
    by_cases h1 : b = 1
    · rw [if_pos h1] at hclear ⊢
      rw [if_pos h1]
      exact hih _ m hlot.tail (by omega) hclear
    rw [if_neg h1] at hclear ⊢
    rw [if_neg h1]
    by_cases hodd : (d6 + b.setWidth 32).getLsbD 0 = true
    · rw [if_pos hodd, if_pos hodd]
      exact agrees_stop (by decide)
    · rw [if_neg hodd] at hclear ⊢
      rw [if_neg hodd]
      rcases clear_after.mp hclear with ⟨⟨hunread, hpage⟩, hclear⟩
      refine Agrees.fixup hle (hih _ _ (hlot.tail.spared hunread ?_) (by omega) hclear) hpage
      rw [List.length_take]
      omega

end

section

variable {lo hi a5 a3 free d6 : Long} {ph : Ph} {file rest : List Byte} {m : Load}

theorem scan_out (free : Nat) (l : List Byte) (a2 : Long) (h : d6 < a5 ∨ a3 < d6) :
    scan a5 a3 free l 0 a2 d6 = .stop false := by
  cases l with
  | nil =>
    unfold scan
    rw [decide_eq_false (not_or.mpr ⟨not_not.mpr rfl, not_not.mpr h⟩)]
  | cons b l =>
    unfold scan
    rw [if_pos ⟨rfl, h⟩]

theorem scan_lot {free : Nat} (l : List Byte) (hfree : free ≠ 0) (h : ¬ (d6 < a5 ∨ a3 < d6)) :
    scan a5 a3 free l 0 a3 d6 = scan a5 a3 free l free a3 d6 := by
  cases l with
  | nil =>
    unfold scan
    rw [decide_eq_true (Or.inr h), decide_eq_true (Or.inl hfree)]
  | cons b l =>
    unfold scan
    simp only [h, hfree, and_false, if_false, if_true]

theorem ploadLoop2_agrees (hle : lo ≤ hi) (hbase : 256 ≤ (a3 - lo).toNat)
    (hroom : (a3 - lo).toNat + free.toNat ≤ (hi - lo).toNat) (hfree : 0 < free.toInt)
    (rest : List Byte) (d6 : Long) (m : Load)
    (hclear : Clear lo (scan a5 a3 free.toNat rest 0 a3 d6)) :
    Agrees lo hi m (scan a5 a3 free.toNat rest 0 a3 d6) (ploadLoop2 lo a5 a3 free rest d6 m) := by
  induction hlen : rest.length using Nat.strong_induction_on generalizing rest d6 m with
  | _ len ih =>
    by_cases hout : d6 < a5 ∨ a3 < d6
    · rw [scan_out _ _ _ hout, ploadLoop2, if_pos hout]
      exact agrees_stop (by decide)
    have hnat := toInt_eq_toNat hfree.le
    have hlt := free.isLt
    rw [not_or, BitVec.not_lt, BitVec.not_lt] at hout
    have hn : (fread rest free).toNat = (rest.take free.toNat).length := by
      unfold fread
      rw [List.length_take]
      omega
    have htake : rest.take (fread rest free).toNat = rest.take free.toNat := by
      rw [hn, List.length_take, ← List.take_take, List.take_length]
    have hlot := lot_ends hroom (fread_nonneg rest hfree.le)
    rw [scan_lot rest (by omega) (by rw [not_or, BitVec.not_lt, BitVec.not_lt]; exact hout)]
      at hclear ⊢
    rw [ploadLoop2_lot hout hfree]
    refine Agrees.read hle ?_ hlot hbase
    rw [htake, hn]
    refine lot_agrees hle (fun hfull d6 m hclear => ?_) rest free.toNat a3 d6 _
      (fun hl => ?_) (fun hl => ?_) (lot_read ?_ a3) (by omega) hclear
    · have hrest := fread_le rest free
      refine ih _ ?_ _ d6 m hclear rfl
      rw [List.length_drop]
      omega
    · have hfull : fread rest free = free.toInt := by
        unfold fread
        omega
      refine ⟨hfull, ?_⟩
      rw [List.length_take, Nat.min_eq_left hl]
    · have hrest := fread_le rest free
      omega
    · rw [List.length_take]
      omega

/-- TEXT and DATA are relocated. -/
theorem relocate_agrees (hle : lo ≤ hi) (ph : Ph) (file : List Byte)
    (hroom : a3 ≠ a5 → 256 ≤ (a3 - lo).toNat ∧
      (a3 - lo).toNat + free.toNat ≤ (hi - lo).toNat)
    (m : Load) (hclear : Clear lo (tableScan ph file a5 a3 free)) :
    Agrees lo hi m (tableScan ph file a5 a3 free) (relocate ph file lo a5 a3 free m) := by
  unfold tableScan at hclear ⊢
  unfold relocate
  split
  · exact agrees_stop (by decide)
  rename_i hflag
  rw [if_neg hflag] at hclear
  cases hseek : fseek file (BitVec.ofNat 32 ph_sizeof + ph.slen + (a3 - a5)) with
  | none => exact agrees_stop (by decide)
  | some rest =>
    rw [hseek] at hclear
    dsimp only at hclear ⊢
    have hfour : fread rest 4 ≠ 4 ↔ rest.length < 4 := by
      have hint : (4 : Long).toInt = 4 := by decide
      unfold fread
      rw [hint]
      omega
    simp only [hfour]
    by_cases hread : rest.length < 4
    · rw [if_pos hread, if_pos hread]
      exact agrees_stop (by decide)
    rw [if_neg hread] at hclear ⊢
    rw [if_neg hread]
    generalize firstLong rest = first at hclear ⊢
    by_cases hfirst : first = 0
    · rw [if_pos hfirst, if_pos hfirst]
      exact agrees_stop (by decide)
    rw [if_neg hfirst] at hclear ⊢
    rw [if_neg hfirst]
    by_cases hrange : a5 + first < a5 ∨ a3 < a5 + first
    · rw [if_pos hrange, if_pos hrange]
      exact agrees_stop (by decide)
    rw [if_neg hrange] at hclear ⊢
    rw [if_neg hrange]
    by_cases hodd : (a5 + first).getLsbD 0 = true
    · rw [if_pos hodd, if_pos hodd]
      exact agrees_stop (by decide)
    rw [if_neg hodd] at hclear ⊢
    rw [if_neg hodd]
    -- the first fix-up lies before the end of DATA, so there is one
    have hne : a3 ≠ a5 := by
      intro heq
      apply hfirst
      subst heq
      bv_omega
    by_cases hfree : free.toInt ≤ 0
    · rw [if_pos hfree] at hclear ⊢
      have hnone : Agrees lo hi (m.fixup (a5 + first) a5) (.stop false)
          (ploadLoop2 lo a5 a3 free (rest.drop 4) (a5 + first) (m.fixup (a5 + first) a5)) := by
        rw [ploadLoop2, if_neg hrange]
        split
        · exact agrees_stop (by decide)
        · rename_i hz
          have hn := fread_le_toInt (rest.drop 4) free
          have hne : free.toInt ≠ 0 := fun hc => hz (BitVec.eq_of_toInt_eq hc)
          simp only [if_pos (show fread (rest.drop 4) free < 0 by omega)]
          exact agrees_stop (iff_of_true (by omega) rfl)
      exact hnone.fixup hle (clear_after.mp hclear).1.2
    · rw [if_neg hfree] at hclear ⊢
      rcases clear_after.mp hclear with ⟨hfix, hclear⟩
      have htable := ploadLoop2_agrees hle (hroom hne).1 (hroom hne).2 (by omega) _ _
        (m.fixup (a5 + first) a5) hclear
      exact htable.fixup hle hfix.2

end

section

variable {pd hi free limit : Long} {ph : Ph} {file : List Byte} {m : Load}

theorem setSegments_mem (ph : Ph) (pd a5 : Long) (m : Load) :
    (setSegments ph pd a5 m).long (pd + p_mem) = m.long (pd + p_mem) := by
  unfold setSegments
  rw [long_poke (by decide), long_poke (by decide), long_poke (by decide), long_poke (by decide),
    long_poke (by decide), long_poke (by decide)]

/-- The fields that the limit for the heap is computed from are these. -/
structure Sized (ph : Ph) (pd hi : Long) (m : Load) : Prop where
  lowtpa : m.long (pd + p_lowtpa) = pd
  hitpa : m.long (pd + p_hitpa) = hi
  tlen : m.long (pd + p_tlen) = ph.tlen
  dlen : m.long (pd + p_dlen) = ph.dlen
  blen : m.long (pd + p_blen) = ph.blen

theorem long_poke_same (m : Load) (a v : Long) : (m.poke a v).long a = v :=
  getLong_setLong (by omega)

theorem setSegments_sized (a5 : Long) (hlow : m.long (pd + p_lowtpa) = pd)
    (hhi : m.long (pd + p_hitpa) = hi) : Sized ph pd hi (setSegments ph pd a5 m) := by
  unfold setSegments
  constructor
  · rw [long_poke (by decide), long_poke (by decide), long_poke (by decide), long_poke (by decide),
      long_poke (by decide), long_poke (by decide), hlow]
  · rw [long_poke (by decide), long_poke (by decide), long_poke (by decide), long_poke (by decide),
      long_poke (by decide), long_poke (by decide), hhi]
  · rw [long_poke (by decide), long_poke (by decide), long_poke (by decide), long_poke (by decide),
      long_poke_same]
  · rw [long_poke (by decide), long_poke (by decide), long_poke_same]
  · rw [long_poke_same]

theorem Sized.congr {m' : Load} (h : Sized ph pd hi m)
    (hsizes : ∀ f ∈ sizeFields, m'.long (pd + f) = m.long (pd + f)) : Sized ph pd hi m' where
  lowtpa := (hsizes _ (by decide)).trans h.lowtpa
  hitpa := (hsizes _ (by decide)).trans h.hitpa
  tlen := (hsizes _ (by decide)).trans h.tlen
  dlen := (hsizes _ (by decide)).trans h.dlen
  blen := (hsizes _ (by decide)).trans h.blen

theorem limitHeap_left (h : Sized ph pd hi m) (hlimit : m.long (pd + p_mem) = limit) :
    (limitHeap pd free m).1 = leftOver ph free (hi - pd) limit := by
  unfold limitHeap leftOver
  dsimp only
  rw [hlimit, h.lowtpa, h.hitpa, h.tlen, h.dlen, h.blen]
  split
  · rfl
  · split <;> rfl

theorem text_sized (ph : Ph) {l : List Byte} (hends : Ends pd hi (pd + basepage) l.length)
    (hlow : m.long (pd + p_lowtpa) = pd) (hhi : m.long (pd + p_hitpa) = hi) :
    Sized ph pd hi ((setSegments ph pd (pd + basepage) m).read (pd + basepage) l) ∧
      ((setSegments ph pd (pd + basepage) m).read (pd + basepage) l).long (pd + p_mem) =
        m.long (pd + p_mem) := by
  have hpage := read_page (m := setSegments ph pd (pd + basepage) m) hends
    (by rw [add_sub_cancel_left]; decide)
  refine ⟨(setSegments_sized _ hlow hhi).congr fun f hf =>
    long_page hpage (sizeFields_apart hf).1, ?_⟩
  exact (long_page hpage (by decide)).trans (setSegments_mem _ _ _ _)

theorem pldEndrelo_inside (hle : pd ≤ hi) (a3 : Long) :
    AllInside pd hi (pldEndrelo ph pd a3 free m).2 ↔
      AllInside pd hi m ∧ Ends pd hi a3 (clearLength ph (limitHeap pd free m).1) := by
  have hclear := allInside_clear (a := a3) (n := clearLength ph (limitHeap pd free m).1)
    (m := (limitHeap pd free m).2) hle
  unfold AllInside at hclear ⊢
  rw [limitHeap_touched, and_comm] at hclear
  exact hclear

/-- Everything the loader writes to lies in the memory of the process if and only if the text
fits, no fix-up is outside and no more than what is left is cleared. -/
theorem pload_inside_iff (hlow : m.long (pd + p_lowtpa) = pd)
    (hle : pd ≤ m.long (pd + p_hitpa)) (hnew : m.touched = [])
    (hclear : Clear pd (tableScan ph file (pd + basepage) (pd + basepage + ph.d3)
      (freeLength ph pd m))) :
    AllInside pd (m.long (pd + p_hitpa)) (pload ph file pd m).2 ↔
      Fits pd (m.long (pd + p_hitpa)) ph file m := by
  generalize hhi : m.long (pd + p_hitpa) = hi at hle ⊢
  have hm : AllInside pd hi m := by
    intro s hs
    rw [hnew] at hs
    cases hs
  unfold pload Fits
  dsimp only
  by_cases hmem : (freeLength ph pd m).toInt < ph.blen.toInt
  · rw [if_pos hmem]
    exact iff_of_true hm (Or.inl hmem)
  rw [if_neg hmem, or_iff_right hmem]
  by_cases hn : fread (file.drop ph_sizeof) ph.d3 < 0
  · rw [if_pos hn]
    refine iff_of_true hm ⟨Or.inl (by omega), fun _ hpos => ?_⟩
    omega
  rw [if_neg hn]
  have hread : AllInside pd hi ((setSegments ph pd (pd + basepage) m).read (pd + basepage)
      ((file.drop ph_sizeof).take (fread (file.drop ph_sizeof) ph.d3).toNat)) ↔
      Ends pd hi (pd + basepage) (fread (file.drop ph_sizeof) ph.d3).toNat := by
    rw [allInside_read hle, fread_toNat_length]
    exact and_iff_left hm
  by_cases hall : fread (file.drop ph_sizeof) ph.d3 ≠ ph.d3.toInt
  · rw [if_pos hall, hread, and_iff_left fun hc => absurd hc hall]
  rw [if_neg hall]
  have heq := not_not.mp hall
  rw [forall_prop_of_true heq, forall_prop_of_true (Int.not_lt.mp hn), ← hread]
  have hsized := fun hends => text_sized ph (l := (file.drop ph_sizeof).take
    (fread (file.drop ph_sizeof) ph.d3).toNat) hends hlow hhi
  rw [fread_toNat_length] at hsized
  generalize hm1 : (setSegments ph pd (pd + basepage) m).read (pd + basepage)
    ((file.drop ph_sizeof).take (fread (file.drop ph_sizeof) ph.d3).toNat) = m1 at hread hsized ⊢
  have hgrows : ∀ m', Framed pd m1 m' → AllInside pd hi m' → AllInside pd hi m1 :=
    fun m' hf hin s hs => hin s (hf.grows s hs)
  by_cases hin : AllInside pd hi m1
  swap
  · -- the text does not fit, and what comes behind does not undo that
    have hframed := relocate_framed ph file pd (pd + basepage) (pd + basepage + ph.d3)
      (freeLength ph pd m) m1
    rw [iff_false_right fun hc : _ ∧ _ => hin hc.1]
    split
    · exact fun hc => hin (hgrows _ hframed hc)
    · exact fun hc => hin (hgrows _ ((hframed.trans limitHeap_framed).trans framed_clear) hc)
  have hends := hread.mp hin
  rcases hsized hends with ⟨hfields, hlimit⟩
  rw [and_iff_right hin]
  have hroom : pd + basepage + ph.d3 ≠ pd + basepage → 256 ≤ (pd + basepage + ph.d3 - pd).toNat ∧
      (pd + basepage + ph.d3 - pd).toNat + (freeLength ph pd m).toNat ≤ (hi - pd).toNat := by
    intro hne
    rw [heq, ← hhi] at hends
    rw [← hhi]
    refine freeLength_room hlow (heq ▸ Int.not_lt.mp hn) (fun hz => hne ?_) hends
    rw [hz, add_zero]
  have hagree := relocate_agrees hle ph file hroom m1 hclear
  generalize tableScan ph file (pd + basepage) (pd + basepage + ph.d3) (freeLength ph pd m) = s
    at hagree ⊢
  rcases hrel : relocate ph file pd (pd + basepage) (pd + basepage + ph.d3)
    (freeLength ph pd m) m1 with ⟨e, m2⟩
  rw [hrel] at hagree
  have hinside : AllInside pd hi m2 ↔ ∀ f ∈ s.fixups, Ends pd hi f.addr 4 :=
    hagree.inside.trans (and_iff_right hin)
  rw [← hinside]
  by_cases he : e < 0
  · rw [if_pos he, hagree.ok.mp he]
    exact (and_iff_left fun hc => Bool.noConfusion hc).symm
  · have hok : s.ok = true := by
      rw [← Bool.not_eq_false]
      exact fun hc => he (hagree.ok.mpr hc)
    rw [if_neg he, pldEndrelo_inside hle, forall_prop_of_true hok, ← hlimit,
      limitHeap_left (hfields.congr hagree.sizes) (hagree.limit hok)]

end

/-- A program of eight bytes, which has nothing but them. -/
def smallPh : Ph :=
  { tlen := 8, dlen := 0, blen := 0, slen := 0, flags := 0, reloflag := 0 }

/-- The file of such a program, of which the relocation bytes are given. -/
def smallFile (table : List Byte) : List Byte :=
  [0x60, 0x1a, 0, 0, 0, 8] ++ List.replicate 22 0 ++ List.replicate 8 0 ++ table

/-- A process without a limit, and with eight bytes behind such a program. -/
def smallTpa : Load :=
  { mem := setLong (setLong (setLong (fun _ => 0) 0x1000 0x1000) 0x1004 0x1110) 0x1068 (-1)
    touched := [] }

/-- A program with fix-ups at the offsets 2 and 4. -/
theorem pload_inside_iff_small :
    AllInside 0x1000 (smallTpa.long (0x1000 + p_hitpa))
      (pload smallPh (smallFile [0, 0, 0, 2, 2, 0]) 0x1000 smallTpa).2 :=
  (pload_inside_iff (by decide) (by decide) rfl (by decide)).mpr (by decide)

/-- The second fix-up is 254 bytes behind the first one, and behind the memory. -/
theorem pload_outside :
    smallTpa.long (0x1000 + p_lowtpa) = 0x1000 ∧ 0x1000 ≤ smallTpa.long (0x1000 + p_hitpa) ∧
      smallTpa.touched = [] ∧
        ¬ AllInside 0x1000 (smallTpa.long (0x1000 + p_hitpa))
          (pload smallPh (smallFile [0, 0, 0, 4, 254, 0]) 0x1000 smallTpa).2 := by
  refine ⟨by decide, by decide, rfl, fun hin => ?_⟩
  have hmem : ((0x1202, 4) : Long × Nat) ∈
      (pload smallPh (smallFile [0, 0, 0, 4, 254, 0]) 0x1000 smallTpa).2.touched := by
    rw [pload_text (by decide) (by decide) (by decide), relocate_table [0, 0, 0, 4, 254, 0] rfl
      (by decide) (by decide) (by decide) (by decide) (by decide),
      ploadLoop2_lot (by decide) (by decide)]
    decide
  exact absurd (hin _ hmem) (by decide)

end Pexec

end MagiC
