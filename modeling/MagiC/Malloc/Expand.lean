import MagiC.Malloc.Save

/-!
# Room in the List of Shared Blocks

Making room in the list of the shared blocks of a process.

When the list is long enough its entries are moved together. One pointer looks for a hole from
the front, the other one for an entry from the end, and the entry is moved into the hole. Up to
the first pointer there is no hole then, behind the second one there is nothing else, and in
between nothing is lost: an entry and a hole have been exchanged.

Otherwise the entries are copied to a new list, which is not cleared. So what is behind them is
not known.

## Main definitions

* `Shm.Ok`: The list is in a block of the heap.

## Theorems

* `sharelist_expanded`: There is room, and no entry is lost.
-/

namespace MagiC

namespace Malloc

/-- A heap, whether a process has a `PROCDATA`, and its `pr_memlist`, or zero. -/
structure Shm where
  heap : Heap
  procdata : Bool
  prMemlist : Nat

/-- `gnshb_loop`: count what is not zero. -/
def gnshbLoop (m : Mem) : Nat → Nat → Nat → Nat
  | 0, _, d0 => d0
  | d2 + 1, a1, d0 => gnshbLoop m d2 (a1 + 4) (if m a1 = 0 then d0 else d0 + 1)

/-- `get_n_shb`: the number of shared blocks, and the length of the list. -/
def getNShb (s : Shm) : Nat × Nat :=
  if s.procdata = false ∨ s.prMemlist = 0 then (0, 0)
  else (gnshbLoop s.heap.mem (s.heap.mem s.prMemlist) (s.prMemlist + 4) 0,
    s.heap.mem s.prMemlist)

/-- `expsh_loop1`: copy what is not zero. -/
def expshLoop1 (m : Mem) : Nat → Nat → Nat → Mem × Nat
  | 0, _, a3 => (m, a3)
  | d2 + 1, a0, a3 =>
    if m a0 = 0 then expshLoop1 m d2 (a0 + 4) a3
    else expshLoop1 (m.put a3 (m a0)) d2 (a0 + 4) (a3 + 4)

/-- `expsh_loop3`: the last entry that is not zero, from `a1` down to `a3`. -/
def expshLoop3 (m : Mem) (a3 : Nat) : Nat → Nat → Option Nat
  | 0, _ => none
  | n + 1, a1 =>
    if a1 < a3 then none
    else if m a1 ≠ 0 then some a1
    else expshLoop3 m a3 n (a1 - 4)

/-- `expsh_loop2`: move entries from the end into the holes. -/
def expshLoop2 (m : Mem) : Nat → Nat → Nat → Mem × Nat
  | 0, a3, _ => (m, a3)
  | d2 + 1, a3, a1 =>
    if m a3 ≠ 0 then expshLoop2 m d2 (a3 + 4) a1
    else
      match expshLoop3 m (a3 + 4) a1 a1 with
      | none => (m, a3 + 4 - 4)
      | some a1 =>
        expshLoop2 ((m.put (a3 + 4 - 4) (m a1)).put a1 0) d2 (a3 + 4) (a1 - 4)

/-- `expand_sharelist`: make room for `num` entries, and yield where it is. -/
def expandSharelist (s : Shm) (pd num : Nat) : Option (Shm × Int) :=
  if s.procdata = false then some (s, ENSMEM)
  else
    let d7 := (num + (getNShb s).1) % 2 ^ 32
    let d6 := (getNShb s).2
    if d7 ≤ d6 then
      let a5 := s.prMemlist
      let d2 := s.heap.mem a5
      let r := expshLoop2 s.heap.mem d2 (a5 + 4) (a5 + 4 * d2)
      some ({ s with heap := { s.heap with mem := r.1 } }, r.2)
    else
      match mxalloc s.heap ((d7 + 1) * 4 % 2 ^ 32) 0x6002 pd with
      | none => none
      | some (h, a5) =>
        if a5 = 0 then some ({ s with heap := h }, ENSMEM)
        else
          let m := h.mem.put a5 d7
          if s.prMemlist = 0 then
            some ({ s with heap := { h with mem := m }, prMemlist := a5 }, (a5 + 4 : Nat))
          else
            let r := expshLoop1 m (m s.prMemlist) (s.prMemlist + 4) (a5 + 4)
            match mxfree { h with mem := r.1 } s.prMemlist 0 with
            | none => none
            | some (h, _) => some ({ s with heap := h, prMemlist := a5 }, r.2)

/-! ## Longwords in a row -/

def longs (m : Mem) : Nat → Nat → List Nat
  | _, 0 => []
  | a, n + 1 => m a :: longs m (a + 4) n

section

variable {m g : Mem} {a c d n k : Nat}

@[simp] theorem longs_length : (longs m a n).length = n := by
  induction n generalizing a with
  | zero => rfl
  | succ n ih => rw [longs, List.length_cons, ih]

theorem longs_append : longs m a (n + k) = longs m a n ++ longs m (a + 4 * n) k := by
  induction n generalizing a with
  | zero => rw [Nat.zero_add]; rfl
  | succ n ih =>
    rw [Nat.add_right_comm, longs, ih, longs, List.cons_append, Nat.add_assoc a, Nat.mul_succ,
      Nat.add_comm 4]

theorem longs_congr (h : ∀ x, a ≤ x → x < a + 4 * n → g x = m x) : longs g a n = longs m a n := by
  induction n generalizing a with
  | zero => rfl
  | succ n ih =>
    rw [longs, longs, h a (Nat.le_refl a) (by omega), ih fun x hx hx' => h x (by omega)
      (by omega)]

theorem longs_forall {P : Nat → Prop} (h : ∀ i < n, P (m (a + 4 * i))) :
    ∀ e ∈ longs m a n, P e := by
  induction n generalizing a with
  | zero => exact fun e he => absurd he List.not_mem_nil
  | succ n ih =>
    intro e he
    rcases List.mem_cons.mp he with rfl | he
    · exact h 0 (by omega)
    · refine ih (fun i hi => ?_) e he
      rw [show a + 4 + 4 * i = a + 4 * (i + 1) by omega]
      exact h (i + 1) (by omega)

/-! ## The loops -/

theorem gnshbLoop_eq (d0 : Nat) :
    gnshbLoop m n a d0 = d0 + ((longs m a n).filter (· ≠ 0)).length := by
  induction n generalizing a d0 with
  | zero => rfl
  | succ n ih =>
    rw [gnshbLoop, ih, longs]
    by_cases hz : m a = 0
    · simp [hz]
    · simp [hz]
      omega

theorem loop1_spec (hapart : d + 4 * n ≤ c ∨ c + 4 * n ≤ d) :
    ∃ g, expshLoop1 m n c d =
        (g, d + 4 * ((longs m c n).filter (· ≠ 0)).length) ∧
      longs g d ((longs m c n).filter (· ≠ 0)).length = (longs m c n).filter (· ≠ 0) ∧
      ∀ x, x < d ∨ d + 4 * n ≤ x → g x = m x := by
  induction n generalizing m c d with
  | zero => exact ⟨m, rfl, rfl, fun x hx => rfl⟩
  | succ n ih =>
    by_cases hz : m c = 0
    · rcases ih (m := m) (c := c + 4) (d := d) (by omega) with ⟨g, hrun, hlongs, hsame⟩
      have hfilter : (longs m c (n + 1)).filter (· ≠ 0) = (longs m (c + 4) n).filter (· ≠ 0) :=
        List.filter_cons_of_neg (by simp [hz])
      rw [expshLoop1, if_pos hz, hfilter]
      exact ⟨g, hrun, hlongs, fun x hx => hsame x (by omega)⟩
    · rcases ih (m := m.put d (m c)) (c := c + 4) (d := d + 4) (by omega) with
        ⟨g, hrun, hlongs, hsame⟩
      -- The entry is not stored into what is still to be copied.
      rw [longs_congr (g := m.put d (m c)) (m := m) fun x hx hx' =>
        put_other m d _ x (by omega)] at hrun hlongs
      have hfilter : (longs m c (n + 1)).filter (· ≠ 0) =
          m c :: (longs m (c + 4) n).filter (· ≠ 0) := List.filter_cons_of_pos (by simp [hz])
      rw [expshLoop1, if_neg hz, hfilter, List.length_cons]
      refine ⟨g, ?_, ?_, fun x hx => ?_⟩
      · rw [hrun, Nat.mul_succ, Nat.add_assoc, Nat.add_comm 4]
      · rw [longs, hlongs, hsame d (by omega), put_self]
      · rw [hsame x (by omega), put_other m d _ x (by omega)]

theorem loop3_spec (hn : n < k) (ha : 4 ≤ d) :
    (expshLoop3 m d k (d + 4 * n - 4) = none ∧ ∀ i < n, m (d + 4 * i) = 0) ∨
      ∃ i < n, expshLoop3 m d k (d + 4 * n - 4) = some (d + 4 * i) ∧ m (d + 4 * i) ≠ 0 ∧
        ∀ j, i < j → j < n → m (d + 4 * j) = 0 := by
  induction n generalizing k with
  | zero =>
    cases k with
    | zero => omega
    | succ k => exact .inl ⟨if_pos (by omega), fun i hi => absurd hi (Nat.not_lt_zero i)⟩
  | succ n ih =>
    cases k with
    | zero => omega
    | succ k =>
      rw [expshLoop3, if_neg (by omega), show d + 4 * (n + 1) - 4 = d + 4 * n by omega]
      by_cases hz : m (d + 4 * n) = 0
      · rw [if_neg (not_not.mpr hz)]
        rcases ih (k := k) (by omega) with ⟨hnone, hall⟩ | ⟨i, hi, hsome, hne, hall⟩
        · refine .inl ⟨hnone, fun i hi => ?_⟩
          rcases Nat.lt_succ_iff_lt_or_eq.mp hi with hi | rfl
          · exact hall i hi
          · exact hz
        · refine .inr ⟨i, by omega, hsome, hne, fun j hij hj => ?_⟩
          rcases Nat.lt_succ_iff_lt_or_eq.mp hj with hj | rfl
          · exact hall j hij hj
          · exact hz
      · rw [if_pos hz]
        exact .inr ⟨n, Nat.lt_succ_self n, rfl, hz, fun j hj hj' => by omega⟩

theorem longs_exchange {i : Nat} (hi : i < n) (hz : m a = 0) :
    (longs ((m.put a (m (a + 4 + 4 * i))).put (a + 4 + 4 * i) 0) a (n + 1)).Perm
      (longs m a (n + 1)) := by
  rcases Nat.exists_eq_add_of_lt hi with ⟨q, rfl⟩
  generalize hx : m (a + 4 + 4 * i) = x
  have hsplit : ∀ m : Mem, longs m a (i + q + 1 + 1) = m a :: (longs m (a + 4) i ++
      m (a + 4 + 4 * i) :: longs m (a + 4 + 4 * i + 4) q) := by
    intro m
    rw [longs, Nat.add_assoc i, longs_append, longs]
  have hsame : ∀ y, y ≠ a → y ≠ a + 4 + 4 * i → ((m.put a x).put (a + 4 + 4 * i) 0) y = m y := by
    intro y hy hy'
    rw [put_other _ _ _ _ hy', put_other _ _ _ _ hy]
  rw [hsplit, hsplit, put_self, put_other _ _ _ _ (by omega), put_self, hx, hz,
    longs_congr (n := i) fun y hy hy' => hsame y (by omega) (by omega),
    longs_congr (n := q) fun y hy hy' => hsame y (by omega) (by omega)]
  exact ((List.perm_middle.cons x).trans (List.Perm.swap 0 x _)).trans
    (List.perm_middle.symm.cons 0)

/-- The entries have been moved together: `f` of them are in front, and there are zeros behind
    them. -/
structure Packed (m g : Mem) (a n f : Nat) : Prop where
  le : f ≤ n
  perm : (longs g a n).Perm (longs m a n)
  front : ∀ i < f, g (a + 4 * i) ≠ 0
  rest : ∀ i, f ≤ i → i < n → g (a + 4 * i) = 0
  same : ∀ x, x < a ∨ a + 4 * n ≤ x → g x = m x

theorem Packed.cons {f : Nat} (h : Packed m g (a + 4) n f) (hne : m a ≠ 0) :
    Packed m g a (n + 1) (f + 1) := by
  have hsame : g a = m a := h.same a (by omega)
  have hnext : ∀ i, a + 4 * (i + 1) = a + 4 + 4 * i := fun i => by omega
  refine ⟨Nat.succ_le_succ h.le, ?_, fun i hi => ?_, fun i hi hi' => ?_,
    fun x hx => h.same x (by omega)⟩
  · rw [longs, longs, hsame]
    exact h.perm.cons _
  · cases i with
    | zero => exact hsame ▸ hne
    | succ i => exact hnext i ▸ h.front i (by omega)
  · cases i with
    | zero => omega
    | succ i => exact hnext i ▸ h.rest i (by omega) (by omega)

theorem loop3_none (h : a < d) : expshLoop3 m d n a = none := by
  cases n with
  | zero => rfl
  | succ n => exact if_pos h

/-- The entries are moved together. -/
theorem loop2_spec (ha : 4 ≤ d) (hk : k ≤ n)
    (hzero : ∀ i, k ≤ i → i < n → m (d + 4 * i) = 0) :
    ∃ g f, expshLoop2 m n d (d + 4 * k - 4) = (g, d + 4 * f) ∧ Packed m g d n f := by
  induction n generalizing m d k with
  | zero =>
    exact ⟨m, 0, rfl, Nat.le_refl 0, .refl _, fun i hi => absurd hi (Nat.not_lt_zero i),
      fun i _ hi => absurd hi (Nat.not_lt_zero i), fun x _ => rfl⟩
  | succ n ih =>
    have hnext : ∀ f, d + 4 + 4 * f = d + 4 * (f + 1) := fun f => by omega
    rw [expshLoop2, Nat.add_sub_cancel]
    by_cases hz : m d = 0
    · rw [if_neg (not_not.mpr hz)]
      have hstop : (∀ i < k - 1, m (d + 4 + 4 * i) = 0) → Packed m m d (n + 1) 0 := by
        refine fun hall => ⟨Nat.zero_le _, .refl _, fun i hi => absurd hi (Nat.not_lt_zero i),
          fun i _ hi => ?_, fun x _ => rfl⟩
        rcases i with - | i
        · exact hz
        · by_cases hik : i < k - 1
          · exact hnext i ▸ hall i hik
          · exact hzero (i + 1) (by omega) hi
      rcases Nat.eq_zero_or_pos k with rfl | h0k
      · rw [loop3_none (by omega)]
        exact ⟨m, 0, rfl, hstop fun i hi => absurd hi (Nat.not_lt_zero i)⟩
      have ha1 : d + 4 * k - 4 = d + 4 + 4 * (k - 1) - 4 := by omega
      rcases loop3_spec (m := m) (d := d + 4) (n := k - 1) (k := d + 4 * k - 4) (by omega)
        (by omega) with ⟨hnone, hall⟩ | ⟨i, hi, hsome, hne, hall⟩
      · rw [← ha1] at hnone
        rw [hnone]
        exact ⟨m, 0, rfl, hstop hall⟩
      · -- The last entry comes into the hole.
        rw [← ha1] at hsome
        rw [hsome]
        dsimp only
        generalize hm : (m.put d (m (d + 4 + 4 * i))).put (d + 4 + 4 * i) 0 = m₁
        have hperm : (longs m₁ d (n + 1)).Perm (longs m d (n + 1)) :=
          hm ▸ longs_exchange (by omega) hz
        have hother : ∀ x, x ≠ d → x ≠ d + 4 + 4 * i → m₁ x = m x := by
          intro x hx hx'
          rw [← hm, put_other _ _ _ _ hx', put_other _ _ _ _ hx]
        have hput : m₁ d = m (d + 4 + 4 * i) := by
          rw [← hm, put_other _ _ _ _ (by omega), put_self]
        rcases ih (m := m₁) (d := d + 4) (k := i) (by omega) (by omega) (fun j hij hj => by
          rcases Nat.eq_or_lt_of_le hij with rfl | hij
          · rw [← hm, put_self]
          · rw [hother _ (by omega) (by omega)]
            by_cases hjk : j < k - 1
            · exact hall j hij hjk
            · exact hnext j ▸ hzero (j + 1) (by omega) (by omega)) with ⟨g, f, hrun, hp⟩
        have hp' := hp.cons (hput ▸ hne)
        refine ⟨g, f + 1, by rw [hrun, hnext], hp'.le, hp'.perm.trans hperm, hp'.front,
          hp'.rest, fun x hx => ?_⟩
        rw [hp'.same x hx, hother x (by omega) (by omega)]
    · -- The entry stays where it is.
      have h0k : 0 < k := Nat.pos_of_ne_zero fun h0 => hz (hzero 0 (by omega) (by omega))
      rcases ih (m := m) (d := d + 4) (k := k - 1) (by omega) (by omega)
        (fun i hi hi' => hnext i ▸ hzero (i + 1) (by omega) (by omega)) with ⟨g, f, hrun, hp⟩
      rw [if_pos hz, show d + 4 * k - 4 = d + 4 + 4 * (k - 1) - 4 by omega, hrun, hnext]
      exact ⟨g, f + 1, rfl, hp.cons hz⟩

end

/-! ## The list -/

def Shm.entries (s : Shm) : List Nat :=
  if s.prMemlist = 0 then [] else longs s.heap.mem (s.prMemlist + 4) (s.heap.mem s.prMemlist)

def Shm.used (s : Shm) : List Nat := s.entries.filter (· ≠ 0)

/-- The heap is well formed, and if there is a list, an allocated block holds it. -/
structure Shm.Ok (s : Shm) : Prop where
  ok : HeapOk s.heap
  table : Table s.heap
  block : s.prMemlist ≠ 0 → ∃ b, Alloc s.heap b ∧ s.prMemlist = b.adr + mcbData ∧
    4 * (s.heap.mem s.prMemlist + 1) ≤ b.len

/-- The used entries are in front, and `r` points to the room for `num` entries behind them. A
    list that has been kept has zeros there. -/
def Expanded (s s' : Shm) (num : Nat) (r : Int) : Prop :=
  ∃ front rest, s'.entries = front ++ rest ∧ front.Perm s.used ∧
    r = (s'.prMemlist + 4 + 4 * front.length : Nat) ∧ num ≤ rest.length ∧
      (s'.prMemlist = s.prMemlist → ∀ e ∈ rest, e = 0)

section

variable {h : Heap} {b : Block} {m : Mem} {s : Shm} {pd num : Nat}

theorem getNShb_eq (hpr : s.procdata = true) :
    getNShb s = (s.used.length, s.entries.length) := by
  unfold getNShb Shm.used Shm.entries
  by_cases h0 : s.prMemlist = 0
  · rw [if_pos (.inr h0), if_pos h0]
    rfl
  · rw [if_neg (by simp [hpr, h0]), if_neg h0, gnshbLoop_eq, Nat.zero_add, longs_length]

theorem store_inside (ok : HeapOk h) (hb : Alloc h b)
    (hm : ∀ x, x < b.adr + mcbData ∨ b.fin ≤ x → m x = h.mem x) :
    HeapOk { h with mem := m } ∧ ∀ c, Alloc { h with mem := m } c ↔ Alloc h c := by
  have hcongr := heap_congr h ok m fun x hx => hm x (by
    by_contra hin
    exact hx (inside_noHeader h ok b hb.1 x (by omega) (by omega)))
  exact ⟨hcongr.1, fun c => and_congr_left fun _ => hcongr.2 c⟩

theorem sharelist_kept (hok : s.Ok) (h0 : s.prMemlist ≠ 0)
    (hroom : num + s.used.length ≤ s.entries.length) :
    ∃ m' f, expshLoop2 s.heap.mem (s.heap.mem s.prMemlist) (s.prMemlist + 4)
        (s.prMemlist + 4 * s.heap.mem s.prMemlist) = (m', f) ∧
      Shm.Ok { s with heap := { s.heap with mem := m' } } ∧
      Expanded s { s with heap := { s.heap with mem := m' } } num f := by
  have hentries : s.entries = longs s.heap.mem (s.prMemlist + 4) (s.heap.mem s.prMemlist) :=
    if_neg h0
  rcases hok.block h0 with ⟨b, hb, hadr, hlen⟩
  rcases loop2_spec (m := s.heap.mem) (d := s.prMemlist + 4) (n := s.heap.mem s.prMemlist)
    (k := s.heap.mem s.prMemlist) (by omega) (Nat.le_refl _) (fun i hi hi' => by omega) with
    ⟨m', f, hrun, hp⟩
  rw [show s.prMemlist + 4 + 4 * s.heap.mem s.prMemlist - 4 =
    s.prMemlist + 4 * s.heap.mem s.prMemlist by omega] at hrun
  have hword : m' s.prMemlist = s.heap.mem s.prMemlist := hp.same _ (by omega)
  rcases store_inside hok.ok hb (m := m') fun x hx => hp.same x
    (by unfold Block.fin at hx; omega) with
    ⟨hheap, halloc⟩
  refine ⟨m', _, hrun, ⟨hheap, table_same s.heap _ (.store _ _ m' (.refl _)) hok.table,
    fun _ => ⟨b, (halloc b).mpr hb, hadr, ?_⟩⟩, ?_⟩
  · show 4 * (m' s.prMemlist + 1) ≤ b.len
    rwa [hword]
  · generalize hn : s.heap.mem s.prMemlist = n at *
    have hsplit : longs m' (s.prMemlist + 4) n = longs m' (s.prMemlist + 4) f ++
        longs m' (s.prMemlist + 4 + 4 * f) (n - f) := by
      rw [← longs_append, Nat.add_sub_cancel' hp.le]
    have hrest : ∀ e ∈ longs m' (s.prMemlist + 4 + 4 * f) (n - f), e = 0 :=
      longs_forall fun i hi => by
        rw [Nat.add_assoc _ (4 * f), ← Nat.mul_add]
        exact hp.rest (f + i) (by omega) (by omega)
    have hperm : (longs m' (s.prMemlist + 4) f).Perm s.used := by
      have hfilter := hp.perm.filter (· ≠ 0)
      rw [hsplit, List.filter_append, List.filter_eq_self.mpr, List.filter_eq_nil_iff.mpr,
        List.append_nil] at hfilter
      · rwa [Shm.used, hentries]
      · exact fun e he => by simp [hrest e he]
      · exact fun e he => by simpa using longs_forall (P := (· ≠ 0)) hp.front e he
    have hcount := hperm.length_eq
    rw [longs_length] at hcount
    rw [hentries, longs_length] at hroom
    refine ⟨_, _, ?_, hperm, ?_, ?_, fun _ => hrest⟩
    · show (if s.prMemlist = 0 then [] else longs m' (s.prMemlist + 4) (m' s.prMemlist)) = _
      rw [if_neg h0, hword, hsplit]
    · rw [longs_length]
    · rw [longs_length]
      omega

theorem entries_of (h0 : s.prMemlist ≠ 0) {n : Nat} (hn : s.heap.mem s.prMemlist = n) :
    s.entries = longs s.heap.mem (s.prMemlist + 4) n := by
  rw [Shm.entries, if_neg h0, hn]

theorem sharelist_new (hok : s.Ok) (h0 : s.prMemlist = 0) (ht : Takes s.heap h b)
    (hlen : (num + 1) * 4 ≤ b.len) :
    let s' : Shm := { s with
      heap := { h with mem := h.mem.put (b.adr + mcbData) num }, prMemlist := b.adr + mcbData }
    s'.Ok ∧ Expanded s s' num (b.adr + mcbData + 4 : Nat) := by
  intro s'
  have hb : Alloc h b := (ht.alloc b).mpr (.inr rfl)
  have hne : s'.prMemlist ≠ 0 := Nat.succ_ne_zero _
  have hword : s'.heap.mem s'.prMemlist = num := put_self _ _ _
  rcases store_inside (m := h.mem.put (b.adr + mcbData) num) ht.ok hb fun x hx =>
    put_other _ _ _ x (by unfold Block.fin at hx; omega) with ⟨hheap, halloc⟩
  refine ⟨⟨hheap, table_same s.heap _ (.store _ _ _ ht.same) hok.table,
    fun _ => ⟨b, (halloc b).mpr hb, rfl, ?_⟩⟩, [], s'.entries, rfl, ?_, rfl, ?_, fun heq => ?_⟩
  · rw [hword]
    omega
  · rw [Shm.used, Shm.entries, if_pos h0]
    exact .refl _
  · rw [entries_of hne hword, longs_length]
  · exact absurd (heq.trans h0) hne

theorem sharelist_copied (hok : s.Ok) (h0 : s.prMemlist ≠ 0) (ht : Takes s.heap h b) {d7 : Nat}
    (hd7 : d7 = num + s.used.length) (hmore : s.entries.length < d7) (hlen : (d7 + 1) * 4 ≤ b.len) :
    ∃ m' a3 h', expshLoop1 (h.mem.put (b.adr + mcbData) d7)
        (h.mem.put (b.adr + mcbData) d7 s.prMemlist) (s.prMemlist + 4) (b.adr + mcbData + 4) =
          (m', a3) ∧
      mxfree { h with mem := m' } s.prMemlist 0 = some (h', 0) ∧
      Shm.Ok { s with heap := h', prMemlist := b.adr + mcbData } ∧
      Expanded s { s with heap := h', prMemlist := b.adr + mcbData } num a3 := by
  have hb : Alloc h b := (ht.alloc b).mpr (.inr rfl)
  rcases hok.block h0 with ⟨c, hc, hadr, hclen⟩
  have hapart := ht.apart s.heap h hok.ok b c hc
  generalize hn : s.heap.mem s.prMemlist = n at *
  have hentries := entries_of h0 hn
  rw [hentries, longs_length] at hmore
  -- The old list has stayed as it was.
  have hold : ∀ x, s.prMemlist ≤ x → x < c.fin → h.mem.put (b.adr + mcbData) d7 x =
      s.heap.mem x := by
    intro x hx hx'
    have hdata : Data s.heap x := ⟨c, hc, hadr ▸ hx, hx'⟩
    rw [put_other _ _ _ _ (by unfold Block.fin mcbData at *; omega)]
    exact ht.clear x (data_noHeader s.heap hok.ok x hdata)
      fun e he hfree => data_notFree s.heap hok.ok x hdata e he hfree
  unfold Block.fin at hapart hold
  generalize hm : h.mem.put (b.adr + mcbData) d7 = m at hold ⊢
  rw [hold s.prMemlist (Nat.le_refl _) (by omega), hn]
  rcases loop1_spec (m := m) (c := s.prMemlist + 4) (d := b.adr + mcbData + 4) (n := n)
    (by unfold mcbData at *; omega) with ⟨m', hrun, hlongs, hsame⟩
  rw [longs_congr (g := m) (m := s.heap.mem) (a := s.prMemlist + 4) fun x hx hx' =>
    hold x (by omega) (by omega), ← hentries, show s.entries.filter (· ≠ 0) = s.used from rfl]
    at hrun hlongs
  have hword : m' (b.adr + mcbData) = d7 := by
    rw [hsame _ (by omega), ← hm, put_self]
  rcases store_inside (m := m') ht.ok hb fun x hx => by
    unfold Block.fin at hx
    rw [hsame x (by omega), ← hm, put_other _ _ _ x (by omega)] with ⟨hheap, halloc⟩
  have htable : Table { h with mem := m' } := table_same s.heap _ (.store _ _ m' ht.same) hok.table
  have hc' := (halloc c).mpr ((ht.alloc c).mpr (.inl hc))
  rcases mxfree_owned _ hheap htable c hc' 0 (.inl rfl) with ⟨h', hfree, hfrees⟩
  have hb' : Alloc h' b := by
    refine (hfrees.alloc b).mpr ⟨(halloc b).mpr hb, fun hbc => ?_⟩
    rw [hbc] at hapart
    unfold mcbData at hapart
    omega
  -- Freeing the old list does not store into the new one.
  have hnew : ∀ x, b.adr + mcbData ≤ x → x < b.fin → h'.mem x = m' x := fun x hx hx' =>
    (hfrees.clear x (inside_noHeader _ hheap b ((halloc b).mpr hb).1 x hx hx')).1
  unfold Block.fin at hnew
  have hword' : h'.mem (b.adr + mcbData) = d7 := by
    rw [hnew _ (Nat.le_refl _) (by omega), hword]
  refine ⟨m', _, h', hrun, hadr ▸ hfree, ⟨hfrees.ok, table_same _ _ hfrees.same htable,
    fun _ => ⟨b, hb', rfl, ?_⟩⟩, s.used, longs h'.mem (b.adr + mcbData + 4 + 4 * s.used.length) num,
    ?_, .refl _, rfl, ?_, fun heq => ?_⟩
  · show 4 * (h'.mem (b.adr + mcbData) + 1) ≤ b.len
    omega
  · rw [entries_of (Nat.succ_ne_zero _) hword', hd7, Nat.add_comm num, longs_append]
    congr 1
    rw [← hlongs, longs_length]
    exact longs_congr (a := b.adr + mcbData + 4) fun x hx hx' => hnew x (by omega) (by omega)
  · rw [longs_length]
  · have hbc : b.adr + mcbData = c.adr + mcbData := heq.trans hadr
    omega

theorem size_eq {n : Nat} (h : 4 * (n + 1) < 2 ^ 32) :
    (n + 1) * 4 % 2 ^ 32 = (n + 1) * 4 ∧ (n + 1) * 4 ≠ 2 ^ 32 - 1 ∧
      roundUp ((n + 1) * 4) = (n + 1) * 4 := by
  unfold roundUp
  omega

end

/-- There is room for so many entries, and no entry is lost, or there is no memory. -/
theorem sharelist_expanded (s : Shm) (hok : s.Ok) (hpr : s.procdata = true) (pd num : Nat)
    (hpd : pd ≠ 0) (hnum : 1 ≤ num) (hsize : 4 * (num + s.used.length + 1) < 2 ^ 32) :
    ∃ s' r, expandSharelist s pd num = some (s', r) ∧ s'.Ok ∧
      (s' = s ∧ r = ENSMEM ∨ Expanded s s' num r) := by
  have hd7 : (num + s.used.length) % 2 ^ 32 = num + s.used.length := Nat.mod_eq_of_lt (by omega)
  rcases size_eq hsize with ⟨hmod, hquery, hround⟩
  rw [expandSharelist, if_neg (by simp [hpr]), getNShb_eq hpr]
  dsimp only
  rw [hd7, hmod]
  by_cases hroom : num + s.used.length ≤ s.entries.length
  · have h0 : s.prMemlist ≠ 0 := by
      intro h0
      rw [Shm.entries, if_pos h0, List.length_nil] at hroom
      omega
    rcases sharelist_kept hok h0 hroom with ⟨m', f, hrun, hok', hexp⟩
    rw [if_pos hroom, hrun]
    exact ⟨_, _, rfl, hok', .inr hexp⟩
  rw [if_neg hroom]
  rcases mxalloc_spec s.heap hok.ok ((num + s.used.length + 1) * 4) 0x6002 pd hpd with
    ⟨h, r, hrun, ⟨rfl, hr⟩ | ⟨-, b, rfl, -, hlen, ht⟩⟩
  · obtain rfl : r = 0 := hr.resolve_right hquery
    rw [hrun]
    exact ⟨s, ENSMEM, rfl, hok, .inl ⟨rfl, rfl⟩⟩
  rw [hround] at hlen
  rw [hrun]
  dsimp only
  rw [if_neg (show b.adr + mcbData ≠ 0 from Nat.succ_ne_zero _)]
  by_cases h0 : s.prMemlist = 0
  · have hused : s.used.length = 0 := by
      rw [Shm.used, Shm.entries, if_pos h0]
      rfl
    rw [if_pos h0]
    rw [hused, Nat.add_zero] at hlen ⊢
    rcases sharelist_new hok h0 ht hlen with ⟨hok', hexp⟩
    exact ⟨_, _, rfl, hok', .inr hexp⟩
  · rw [if_neg h0]
    rcases sharelist_copied hok h0 ht rfl (Nat.lt_of_not_le hroom) hlen with
      ⟨m', a3, h', hcopy, hfree, hok', hexp⟩
    rw [hcopy]
    dsimp only
    rw [hfree]
    exact ⟨_, _, rfl, hok', .inr hexp⟩

/-- A block that holds a list of five entries with holes in it, and a free one. -/
def holedMem : Mem := fun x =>
  if x = 4096 then ANDR else if x = 4100 then 24 else if x = 4104 then 0x8000 else
  if x = 4112 then 5 else if x = 4120 then 9 else if x = 4128 then 8 else
  if x = 4136 then KROM else if x = 4140 then 4040 else if x = 4148 then 4096 else 0

def holed : Shm := ⟨oneList holedMem 4096 8192, true, 4112⟩

theorem holed_ok : holed.Ok := by
  have hlist : ∀ i, IsList holed.heap i → i = 0 := isList_oneList holedMem 4096 8192
  have hram : RamList holedMem 4096 8192 [⟨4096, ANDR, 24, 0x8000⟩, ⟨4136, KROM, 4040, 0⟩] := by
    refine ⟨⟨⟨rfl, rfl, rfl, rfl⟩, ⟨rfl, rfl, rfl, rfl⟩, trivial⟩,
      ⟨⟨rfl, rfl, rfl⟩, ⟨rfl, rfl⟩, ?_⟩, List.isChain_pair.mpr (.inl (Nat.succ_ne_zero _))⟩
    intro b hb
    rcases List.mem_pair.mp hb with rfl | rfl
    · decide
    · decide
  refine ⟨heapOk_oneList holedMem 4096 8192 _ (by decide) (by decide) hram,
    ⟨Nat.succ_ne_zero _, fun j hj i hij => ?_, fun i hi => ?_, fun i hi => ?_⟩,
    fun _ => ⟨⟨4096, ANDR, 24, 0x8000⟩,
      ⟨⟨0, _, ⟨by decide, by decide, by decide⟩, hram, List.mem_cons_self⟩, Nat.succ_ne_zero _⟩,
      rfl, by decide⟩⟩
  · rw [hlist j hj] at hij
    exact absurd hij (Nat.not_lt_zero i)
  · rw [hlist i hi]
    decide
  · rw [hlist i hi]
    decide

/-- There is room for three entries when the two are moved together. For four they are copied. -/
theorem sharelist_expanded_holed :
    (∃ s', expandSharelist holed 0x8000 3 = some (s', 4124) ∧ s'.entries = [8, 9, 0, 0, 0] ∧
      s'.Ok ∧ Expanded holed s' 3 4124) ∧
    ∃ s', expandSharelist holed 0x8000 4 = some (s', 4164) ∧ s'.entries = [9, 8, 0, 0, 0, 0] ∧
      s'.Ok ∧ Expanded holed s' 4 4164 := by
  have hkept : (expandSharelist holed 0x8000 3).map (fun p => (p.2, p.1.entries)) =
      some (4124, [8, 9, 0, 0, 0]) := by decide +kernel
  have hcopied : (expandSharelist holed 0x8000 4).map (fun p => (p.2, p.1.entries)) =
      some (4164, [9, 8, 0, 0, 0, 0]) := by decide +kernel
  constructor
  · rcases sharelist_expanded holed holed_ok rfl 0x8000 3 (by decide) (by decide)
      (by decide +kernel) with ⟨s', r, hrun, hok, hexp⟩
    rw [hrun] at hkept
    rcases Prod.mk.inj (Option.some.inj hkept) with ⟨rfl, hentries⟩
    exact ⟨s', hrun, hentries, hok, hexp.resolve_left fun h => absurd h.2 (by decide)⟩
  · rcases sharelist_expanded holed holed_ok rfl 0x8000 4 (by decide) (by decide)
      (by decide +kernel) with ⟨s', r, hrun, hok, hexp⟩
    rw [hrun] at hcopied
    rcases Prod.mk.inj (Option.some.inj hcopied) with ⟨rfl, hentries⟩
    exact ⟨s', hrun, hentries, hok, hexp.resolve_left fun h => absurd h.2 (by decide)⟩

/-- One free block from 4096 to 8192, in which something has been left. -/
def litteredMem : Mem := fun x =>
  if x = 4096 then KROM else if x = 4100 then 4080 else if x = 4104 ∨ x = 4108 then 0 else 7

/-- A process without a list, and that memory. -/
def littered : Shm := ⟨oneList litteredMem 4096 8192, true, 0⟩

/-- What has been left is in the new list, and the size of a list that is too long is zero. -/
theorem sharelist_littered :
    (∃ s', expandSharelist littered 0x8000 1 = some (s', 4116) ∧ ¬ s'.used.Perm littered.used) ∧
      ∃ s', expandSharelist littered 0x8000 (2 ^ 30 - 1) = some (s', 4116) ∧
        s'.heap.memEnd 0 < 4116 + 4 * (2 ^ 30 - 1) := by
  have hone : (expandSharelist littered 0x8000 1).map (fun p => (p.2, p.1.used)) =
      some (4116, [7]) := by decide +kernel
  have hlong : (expandSharelist littered 0x8000 (2 ^ 30 - 1)).map (fun p =>
      (p.2, p.1.heap.memEnd 0)) = some (4116, 8192) := by decide +kernel
  rcases Option.map_eq_some_iff.mp hone with ⟨⟨s', r⟩, hs', heq⟩
  rcases Option.map_eq_some_iff.mp hlong with ⟨⟨s'', r'⟩, hs'', heq'⟩
  rcases Prod.mk.inj heq with ⟨rfl, hused⟩
  rcases Prod.mk.inj heq' with ⟨rfl, hend⟩
  refine ⟨⟨s', hs', fun hperm => ?_⟩, s'', hs'', ?_⟩
  · have hlen := hperm.length_eq
    rw [show s'.used = [7] from hused] at hlen
    exact absurd hlen (by decide)
  · rw [show s''.heap.memEnd 0 = 8192 from hend]
    omega

end Malloc

end MagiC
