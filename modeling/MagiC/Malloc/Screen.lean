import MagiC.Malloc.Release

/-!
# Reallocating the Screen Memory

`Srealloc`, which halts the system if it has promised too much.

The routine looks for the largest block there would be if the screen memory were free: the screen
memory itself, or a free block together with the screen memory beside it and the free block on the
other side of that. If this is enough it frees the screen memory and takes the last block that is
large enough, and there is no way back: when one of the two fails the system is halted.

Each number that it comes up with belongs to a stretch of the list in which nothing is allocated but
the screen memory. Once this is free, the stretch lies in one free block, since a list has no free
neighbours: `covered`. So there is a block that is large enough, and `_malloc_last` finds one.

## Main definitions

* `Stretch`: A stretch in which nothing is allocated but one block.

## Theorems

* `srealloc_exact`: The system is not halted, and the query is exact.
-/

namespace MagiC

namespace Malloc

/-- The heap, with the address and the length of the screen memory. -/
structure Screen where
  heap : Heap
  scrbufAdr : Nat
  scrbufLen : Nat

/-- `sra_blen`: the length of the free block at `a0`, with the screen memory before or behind it and
    what is free beyond that. -/
def sraBlen (m : Mem) (scrbufAdr a0 : Nat) : Nat :=
  let d0 := m (a0 + mcbLen)
  let a2 := scrbufAdr - mcbData
  if m (a0 + mcbPrev) = a2 then
    let d0 := d0 + m (a2 + mcbLen) + mcbData
    if m (a2 + mcbPrev) = 0 then d0
    else
      let a2 := m (a2 + mcbPrev)
      if m (a2 + mcbOwner) = 0 then d0 + m (a2 + mcbLen) + mcbData else d0
  else if m a0 = KROM then d0
  else if a0 + mcbData + d0 ≠ a2 then d0
  else
    let d0 := d0 + m (a2 + mcbLen) + mcbData
    if m a2 ≠ ANDR then d0
    else
      let a2 := a2 + m (a2 + mcbLen) + mcbData
      if m (a2 + mcbOwner) = 0 then d0 + m (a2 + mcbLen) + mcbData else d0

/-- `sra_loop`: the largest free block from `a6` on, and `d6` at least. What the loop loads through
    `a0` is not used. -/
def sraLoop (m : Mem) (scrbufAdr : Nat) : Nat → Nat → Nat → Option Nat
  | 0, _, _ => none
  | fuel + 1, d6, a6 =>
    let d6 := if m (a6 + mcbOwner) = 0 ∧ d6 < sraBlen m scrbufAdr a6
      then sraBlen m scrbufAdr a6 else d6
    if m a6 = ANDR then sraLoop m scrbufAdr fuel d6 (a6 + m (a6 + mcbLen) + mcbData)
    else some d6

/-- The largest block that can be had for the screen memory. -/
def sraMost (s : Screen) : Option Nat :=
  (if s.heap.root 0 = 0 then some 0
    else sraLoop s.heap.mem s.scrbufAdr (s.heap.extent 0) 0 (s.heap.root 0)).map
      fun d6 => if s.scrbufLen < d6 then d6 else s.scrbufLen

/-- `Srealloc`: the address of the new screen memory, or 0, or for the size -1 the largest size to
    be had. It does not return if the system is halted. -/
def srealloc (s : Screen) (size : Nat) : Option (Screen × Nat) :=
  match sraMost s with
  | none => none
  | some d6 =>
    if size = 2 ^ 32 - 1 then some (s, (d6 + (2 ^ 32 - 256)) % 2 ^ 32)
    else
      let d7 := (size + 259) % 2 ^ 32 / 4 * 4
      if d6 < d7 then some (s, 0)
      else
        match mxfree s.heap s.scrbufAdr 0 with
        | none => none
        | some (h, d0) =>
          if d0 ≠ 0 then none
          else
            match mallocLast h d7 0 with
            | none => none
            | some (h, a0) =>
              if a0 = 0 then none
              else some (⟨h, a0 + mcbData, h.mem (a0 + mcbLen)⟩, a0 + mcbData)

/-- The screen memory is the block `b` of the first list, behind `pre` and before `post`. -/
structure ScreenAt (s : Screen) (pre : List Block) (b : Block) (post : List Block) : Prop where
  list : RamList s.heap.mem (s.heap.root 0) (s.heap.memEnd 0) (pre ++ [b] ++ post)
  owner : b.owner = s.heap.urPd
  adr : s.scrbufAdr = b.adr + mcbData
  len : s.scrbufLen = b.len

/-- The heap is well formed, its first list begins at a longword, where `mci_loop` moves it, and
    the screen memory is a block of this list. -/
structure ScreenOk (s : Screen) : Prop where
  heap : HeapOk s.heap
  first : IsList s.heap 0
  aligned : 4 ∣ s.heap.root 0
  block : ∃ pre b post, ScreenAt s pre b post

/-- A stretch with room for a block of `n` bytes, in which nothing is allocated but `b`. -/
def Stretch (bs : List Block) (b : Block) (a fin n : Nat) : Prop :=
  ∃ lo hi, a ≤ lo ∧ hi ≤ fin ∧ hi = lo + mcbData + n ∧
    ∀ d ∈ bs, d.owner ≠ 0 → d ≠ b → d.fin ≤ lo ∨ hi ≤ d.adr

/-- The screen memory has been freed, and a block of at least `size` bytes is the new one. All other
    allocated blocks are as before. -/
structure Moved (s s' : Screen) (r size : Nat) : Prop where
  ok : ScreenOk s'
  adr : r = s'.scrbufAdr
  room : size ≤ s'.scrbufLen
  alloc : ∃ old new, Alloc s.heap old ∧ old.adr + mcbData = s.scrbufAdr ∧
    new.adr + mcbData = r ∧ new.len = s'.scrbufLen ∧ new.owner = s.heap.urPd ∧
    ∀ c, Alloc s'.heap c ↔ (Alloc s.heap c ∧ c ≠ old) ∨ c = new

theorem prevOf_cases (p : Nat) (bs : List Block) :
    (bs = [] ∧ prevOf p bs = p) ∨ ∃ cs c, bs = cs ++ [c] ∧ prevOf p bs = c.adr := by
  rcases List.eq_nil_or_concat bs with rfl | ⟨cs, c, rfl⟩
  · exact .inl ⟨rfl, rfl⟩
  · rw [List.concat_eq_append]
    exact .inr ⟨cs, c, rfl, prevOf_append p cs [c]⟩

/-- A stretch in which nothing is allocated lies in one free block. -/
theorem covered (a fin lo hi : Nat) (bs : List Block) (hs : Span a bs fin) (hc : Coalesced bs)
    (halo : a ≤ lo) (hlohi : lo < hi) (hfin : hi ≤ fin)
    (hfree : ∀ d ∈ bs, d.owner ≠ 0 → d.fin ≤ lo ∨ hi ≤ d.adr) :
    ∃ e ∈ bs, e.owner = 0 ∧ e.adr ≤ lo ∧ hi ≤ e.fin := by
  induction bs generalizing a with
  | nil =>
    have heq : a = fin := hs
    exact absurd hfin (by omega)
  | cons b bs ih =>
    rcases hs with ⟨rfl, hrest⟩
    by_cases hin : lo < b.fin
    · have hb : b.owner = 0 := by
        by_contra hb
        rcases hfree b List.mem_cons_self hb with hlt | hlt
        · omega
        · omega
      refine ⟨b, List.mem_cons_self, hb, halo, Nat.le_of_not_lt fun hmore => ?_⟩
      -- The next block begins in the stretch, so it is free as well.
      cases bs with
      | nil =>
        have heq : b.fin = fin := hrest
        omega
      | cons c cs =>
        have hcadr : c.adr = b.fin := hrest.1
        have hcfin : c.adr < c.fin := by
          unfold Block.fin mcbData
          omega
        rcases (List.isChain_cons_cons.mp hc).1 with hne | hne
        · exact hne hb
        · rcases hfree c (List.mem_cons_of_mem _ List.mem_cons_self) hne with hlt | hlt
          · omega
          · omega
    · rcases ih b.fin hrest (List.isChain_cons.mp hc).2 (by omega)
        (fun d hd => hfree d (List.mem_cons_of_mem _ hd)) with ⟨e, he, h⟩
      exact ⟨e, List.mem_cons_of_mem _ he, h⟩

theorem span_end (a fin fin' : Nat) (bs : List Block) (h : Span a bs fin) (h' : Span a bs fin') :
    fin = fin' := by
  induction bs generalizing a with
  | nil => exact h.symm.trans h'
  | cons b bs ih => exact ih b.fin h.2 h'.2

theorem stretch_run (a fin n : Nat) (bs xs cs ys : List Block) (b c : Block)
    (hbs : bs = xs ++ (c :: cs) ++ ys) (hs : Span a bs fin)
    (hn : Span c.adr (c :: cs) (c.adr + mcbData + n))
    (hfree : ∀ d ∈ c :: cs, d.owner = 0 ∨ d = b) : Stretch bs b a fin n := by
  rw [hbs] at hs ⊢
  rcases (span_append a fin (xs ++ (c :: cs)) ys).mp hs with ⟨hi, hleft, hys⟩
  rcases (span_append a hi xs (c :: cs)).mp hleft with ⟨lo, hxs, hrun⟩
  rcases hrun.1
  have hhi := span_end _ _ _ _ hrun hn
  refine ⟨c.adr, hi, span_le _ _ _ hxs, span_le _ _ _ hys, hhi, fun d hd hown hne => ?_⟩
  rcases List.mem_append.mp hd with hd | hd
  · rcases List.mem_append.mp hd with hd | hd
    · exact .inl (span_mem _ _ _ hxs d hd).2
    · exact absurd ((hfree d hd).resolve_left hown) hne
  · exact .inr (span_mem _ _ _ hys d hd).1

section

variable (m : Mem) (a fin : Nat) (b : Block) (ha : a ≠ 0) (hbo : b.owner ≠ 0)
include ha hbo

theorem sraBlen_behind (xs ys : List Block) (c : Block)
    (h : RamList m a fin (xs ++ [b] ++ [c] ++ ys)) (hc : c.owner = 0) :
    Stretch (xs ++ [b] ++ [c] ++ ys) b a fin (sraBlen m (b.adr + mcbData) c.adr) ∧
      4 ∣ sraBlen m (b.adr + mcbData) c.adr := by
  have hcat := ramList_at m a fin (xs ++ [b]) ys c h.linked h.tiled
  have hassoc : xs ++ [b] ++ [c] ++ ys = xs ++ [b] ++ ([c] ++ ys) := by
    rw [List.append_assoc (xs ++ [b])]
  have hbat := ramList_at m a fin xs ([c] ++ ys) b (hassoc ▸ h.linked) (hassoc ▸ h.tiled)
  have hbc : b.fin = c.adr := by
    have hspan := hbat.2.1
    exact hspan.1.symm
  rcases hcat with ⟨-, -, -, ⟨-, hclen, -, hcprev⟩, -, -, hc4⟩
  rcases hbat with ⟨-, -, -, ⟨-, hblen, -, hbprev⟩, -, -, hb4⟩
  rw [prevOf_append] at hcprev
  have hfin : c.adr = b.adr + mcbData + b.len := hbc.symm
  have hpair : Stretch (xs ++ [b] ++ [c] ++ ys) b a fin (c.len + b.len + mcbData) :=
    stretch_run a fin _ _ xs [c] ys b b (by simp) h.tiled.span
      ⟨rfl, hbc.symm, by simp only [Span, Block.fin]; omega⟩ (by simp [hc])
  unfold sraBlen
  simp only [Nat.add_sub_cancel, hclen, hcprev, prevOf, if_true, hblen, hbprev]
  rcases prevOf_cases 0 xs with ⟨rfl, hp⟩ | ⟨ws, p, rfl, hp⟩
  · rw [hp, if_pos rfl]
    exact ⟨hpair, by unfold mcbData; omega⟩
  · have hpm : p ∈ ws ++ [p] ++ [b] ++ [c] ++ ys := by simp
    have hpadr := (span_mem _ _ _ h.tiled.span p hpm).1
    have hpf := linked_fields m 0 _ h.linked p hpm
    have hp4 := h.tiled.sized p hpm
    rw [hp, if_neg (by omega), hpf.2.1, hpf.2.2]
    by_cases hpfree : p.owner = 0
    · rw [if_pos hpfree]
      refine ⟨?_, by unfold mcbData; omega⟩
      have hpb : p.fin = b.adr := by
        have hspan := h.tiled.span
        rw [show ws ++ [p] ++ [b] ++ [c] ++ ys = ws ++ p :: (b :: c :: ys) by simp] at hspan
        exact (span_at _ _ _ _ _ hspan).2.1.symm
      exact stretch_run a fin _ _ ws [b, c] ys b p (by simp) h.tiled.span
        ⟨rfl, hpb.symm, hbc.symm, by
          unfold Block.fin at hpb
          simp only [Span, Block.fin]
          omega⟩ (by simp [hpfree, hc])
    · rw [if_neg hpfree]
      exact ⟨hpair, by unfold mcbData; omega⟩

theorem sraBlen_before (xs ys : List Block) (c : Block)
    (h : RamList m a fin (xs ++ [c] ++ [b] ++ ys)) (hc : c.owner = 0) :
    Stretch (xs ++ [c] ++ [b] ++ ys) b a fin (sraBlen m (b.adr + mcbData) c.adr) ∧
      4 ∣ sraBlen m (b.adr + mcbData) c.adr := by
  have hassoc : xs ++ [c] ++ [b] ++ ys = xs ++ [c] ++ ([b] ++ ys) := by
    rw [List.append_assoc (xs ++ [c])]
  have hcat := ramList_at m a fin xs ([b] ++ ys) c (hassoc ▸ h.linked) (hassoc ▸ h.tiled)
  have hbat := ramList_at m a fin (xs ++ [c]) ys b h.linked h.tiled
  have hcb : c.fin = b.adr := by
    have hspan := hcat.2.1
    exact hspan.1.symm
  rcases hcat with ⟨-, -, hcmark, ⟨hcmagic, hclen, -, hcprev⟩, -, -, hc4⟩
  rcases hbat with ⟨-, hyspan, hbmark, ⟨hbmagic, hblen, -, -⟩, -, -, hb4⟩
  have hbin : b ∈ xs ++ [c] ++ [b] ++ ys := by simp
  -- The block before the free one is not the screen memory, which lies behind it.
  have hprev : m (c.adr + mcbPrev) ≠ b.adr := by
    rw [hcprev]
    rcases prevOf_cases 0 xs with ⟨rfl, hp⟩ | ⟨ws, p, rfl, hp⟩
    · have hbadr := (span_mem _ _ _ h.tiled.span b hbin).1
      rw [hp]
      omega
    · have hlt := span_before a fin (ws ++ [p]) ([c] ++ [b] ++ ys)
        (by simpa only [List.append_assoc] using h.tiled.span) p b (by simp) (by simp)
      rw [hp]
      unfold Block.fin mcbData at hlt
      omega
  have hkrom : c.magic ≠ KROM := by
    rw [((marked_cons_iff c ([b] ++ ys)).mp hcmark).resolve_left
      (fun hk => List.cons_ne_nil _ _ hk.1) |>.2.1]
    exact andr_ne_krom
  have hfin : c.adr + mcbData + c.len = b.adr := hcb
  have hpair : Stretch (xs ++ [c] ++ [b] ++ ys) b a fin (c.len + b.len + mcbData) :=
    stretch_run a fin _ _ xs [b] ys b c (by simp) h.tiled.span
      ⟨rfl, hcb.symm, by simp only [Span, Block.fin]; omega⟩ (by simp [hc])
  unfold sraBlen
  simp only [Nat.add_sub_cancel, if_neg hprev, hcmagic, if_neg hkrom, hclen, hfin, ne_eq,
    not_true_eq_false, if_false, hblen, hbmagic]
  rcases marked_next b ys fin hyspan hbmark with ⟨rfl, hk⟩ | ⟨n, ns, rfl, hand, hn⟩
  · rw [if_pos (by rw [hk]; exact andr_ne_krom.symm)]
    exact ⟨hpair, by unfold mcbData; omega⟩
  · rw [if_neg (not_not.mpr hand)]
    have hnadr : b.adr + b.len + mcbData = n.adr := by omega
    have hnf := linked_fields m 0 _ h.linked n (by simp)
    have hn4 := h.tiled.sized n (by simp)
    rw [hnadr, hnf.2.1, hnf.2.2]
    by_cases hnfree : n.owner = 0
    · rw [if_pos hnfree]
      refine ⟨?_, by unfold mcbData; omega⟩
      exact stretch_run a fin _ _ xs [b, n] ns b c (by simp) h.tiled.span
        ⟨rfl, hcb.symm, hn, by simp only [Span, Block.fin]; omega⟩ (by simp [hc, hnfree])
    · rw [if_neg hnfree]
      exact ⟨hpair, by unfold mcbData; omega⟩

theorem sraBlen_stretch (xs ys : List Block) (c : Block) (h : RamList m a fin (xs ++ [c] ++ ys))
    (hb : b ∈ xs ++ [c] ++ ys) (hc : c.owner = 0) :
    Stretch (xs ++ [c] ++ ys) b a fin (sraBlen m (b.adr + mcbData) c.adr) ∧
      4 ∣ sraBlen m (b.adr + mcbData) c.adr := by
  rcases ramList_at m a fin xs ys c h.linked h.tiled with
    ⟨-, hyspan, hmark, ⟨hmagic, hlen, -, hprev⟩, -, -, hc4⟩
  have hbadr := (span_mem _ _ _ h.tiled.span b hb).1
  -- In a tiling there is one block at an address.
  have hsame : ∀ d ∈ xs ++ [c] ++ ys, d.adr = b.adr → d = b := by
    intro d hd hadr
    rcases span_apart _ _ _ h.tiled.span d b hd hb with heq | hlt | hlt
    · exact heq
    all_goals
      unfold Block.fin mcbData at hlt
      omega
  by_cases hbehind : m (c.adr + mcbPrev) = b.adr
  · rw [hprev] at hbehind
    rcases prevOf_cases 0 xs with ⟨rfl, hp⟩ | ⟨ws, p, rfl, hp⟩
    · exact absurd (hp.symm.trans hbehind) (by omega)
    · rcases hsame p (by simp) (hp.symm.trans hbehind)
      exact sraBlen_behind m a fin _ ha hbo ws ys c h hc
  by_cases hbefore : c.magic ≠ KROM ∧ c.adr + mcbData + c.len = b.adr
  · rcases marked_next c ys fin hyspan hmark with ⟨-, hk⟩ | ⟨n, ns, rfl, -, hn⟩
    · exact absurd hk hbefore.1
    · rcases hsame n (by simp) (hn.trans hbefore.2)
      have hassoc : xs ++ [c] ++ b :: ns = xs ++ [c] ++ [b] ++ ns := by simp
      rw [hassoc] at h ⊢
      exact sraBlen_before m a fin _ ha hbo xs ns c h hc
  -- The screen memory is not beside the block.
  have halone : sraBlen m (b.adr + mcbData) c.adr = c.len := by
    unfold sraBlen
    simp only [Nat.add_sub_cancel, if_neg hbehind, hmagic, hlen]
    by_cases hk : c.magic = KROM
    · rw [if_pos hk]
    · rw [if_neg hk, if_pos (fun hfin => hbefore ⟨hk, hfin⟩)]
  rw [halone]
  refine ⟨stretch_run a fin c.len _ xs [] ys b c rfl h.tiled.span ⟨rfl, rfl⟩
    fun d hd => .inl ?_, hc4⟩
  rw [List.mem_singleton.mp hd]
  exact hc

omit ha hbo in
theorem sraLoop_spec (scrbufAdr : Nat) (P : Nat → Prop) (bs : List Block) (fuel d6 p a : Nat)
    (hl : Linked m p bs) (hs : Span a bs fin) (hm : Marked bs) (hf : bs.length ≤ fuel)
    (hd6 : P d6) (hbs : ∀ c ∈ bs, c.owner = 0 → P (sraBlen m scrbufAdr c.adr)) :
    ∃ n, sraLoop m scrbufAdr fuel d6 a = some n ∧ P n := by
  induction bs generalizing fuel d6 p a with
  | nil => exact absurd hm id
  | cons c cs ih =>
    rcases hl with ⟨⟨hmagic, hlen, hown, -⟩, hrest⟩
    rcases hs with ⟨rfl, hspan⟩
    rw [List.length_cons] at hf
    rcases Nat.exists_eq_succ_of_ne_zero (show fuel ≠ 0 by omega) with ⟨fuel, rfl⟩
    have hmax : P (if c.owner = 0 ∧ d6 < sraBlen m scrbufAdr c.adr
        then sraBlen m scrbufAdr c.adr else d6) := by
      split
      · rename_i hfree
        exact hbs c List.mem_cons_self hfree.1
      · exact hd6
    unfold sraLoop
    simp only [hmagic, hlen, hown]
    rcases (marked_cons_iff c cs).mp hm with ⟨rfl, hk⟩ | ⟨-, hand, hm'⟩
    · rw [if_neg (by rw [hk]; exact andr_ne_krom.symm)]
      exact ⟨_, rfl, hmax⟩
    · have hfin : c.adr + c.len + mcbData = c.fin := by
        unfold Block.fin
        omega
      rw [if_pos hand, hfin]
      exact ih fuel _ c.adr c.fin hrest hspan hm' (by omega) hmax
        fun d hd => hbs d (List.mem_cons_of_mem _ hd)

end

theorem span_aligned (a fin : Nat) (bs : List Block) (hs : Span a bs fin) (hl : LongSized bs)
    (ha : 4 ∣ a) : ∀ b ∈ bs, 4 ∣ b.adr := by
  induction bs generalizing a with
  | nil => exact fun b hb => absurd hb List.not_mem_nil
  | cons c cs ih =>
    rcases hs with ⟨rfl, hrest⟩
    have hc := hl c List.mem_cons_self
    have hfin : 4 ∣ c.fin := by
      unfold Block.fin mcbData
      omega
    exact List.forall_mem_cons.mpr
      ⟨ha, ih c.fin hrest (fun d hd => hl d (List.mem_cons_of_mem _ hd)) hfin⟩

/-- Last fit in one list finds a block if there is one. -/
theorem mallocLast_grants (h : Heap) (ok : HeapOk h) (amount list : Nat) (hi : IsList h list)
    (h4 : 4 ∣ amount) (bs : List Block) (hbs : RamList h.mem (h.root list) (h.memEnd list) bs)
    (e : Block) (he : e ∈ bs) (hfit : Fits amount e) :
    ∃ m n pre post, mallocLast h amount list = some ({ h with mem := m }, n.adr) ∧
      n.owner = h.urPd ∧ amount ≤ n.len ∧ Takes h { h with mem := m } n ∧
      RamList m (h.root list) (h.memEnd list) (pre ++ [n] ++ post) := by
  unfold mallocLast
  rw [if_neg hi.2.1]
  rcases mllLoop_spec h.mem amount bs (h.extent list) 0 0 (h.root list) (h.memEnd list) hbs.linked
    hbs.tiled.span hbs.tiled.marked (span_length_le _ _ _ hbs.tiled.span) with
    ⟨-, hno⟩ | ⟨pre, b, post, rfl, heq, hb, -⟩
  · exact absurd hfit (hno e he)
  · rcases mllFound_takes h ok amount list hi pre post b hbs hb h4 with
      ⟨n, pre', hadr, hown, hlen, ht, hnew⟩
    rw [heq]
    simp only [if_neg (hasBlock_adr_pos h b ⟨list, _, hi, hbs, by simp⟩)]
    exact ⟨_, n, pre', post, by rw [hadr], hown, hlen, ht, hnew⟩

section

variable (s : Screen) (ok : ScreenOk s) (pre : List Block) (b : Block) (post : List Block)
  (hat : ScreenAt s pre b post)
include ok hat

theorem screen_block : HasBlock s.heap b :=
  ⟨0, _, ok.first, hat.list, by simp⟩

theorem sraMost_spec :
    ∃ n, sraMost s = some n ∧ 4 ∣ n ∧ n + 3 < 2 ^ 32 ∧
      Stretch (pre ++ [b] ++ post) b (s.heap.root 0) (s.heap.memEnd 0) n := by
  have hbo : b.owner ≠ 0 := by
    rw [hat.owner]
    exact ok.heap.urPd
  have hbound := ok.heap.bound 0 ok.first
  have hlt : ∀ n, Stretch (pre ++ [b] ++ post) b (s.heap.root 0) (s.heap.memEnd 0) n →
      n + 3 < 2 ^ 32 := by
    rintro n ⟨lo, hi, hlo, hhi, heq, -⟩
    unfold mcbData at heq
    omega
  have hself := stretch_run (s.heap.root 0) (s.heap.memEnd 0) b.len _ pre [] post b b rfl
    hat.list.tiled.span ⟨rfl, rfl⟩ fun d hd => .inr (List.mem_singleton.mp hd)
  have hb4 := hat.list.tiled.sized b (by simp)
  unfold sraMost
  rw [if_neg ok.first.2.1, hat.adr, hat.len]
  rcases sraLoop_spec s.heap.mem (s.heap.memEnd 0) (b.adr + mcbData)
    (fun n => n = 0 ∨ (Stretch (pre ++ [b] ++ post) b (s.heap.root 0) (s.heap.memEnd 0) n ∧ 4 ∣ n))
    (pre ++ [b] ++ post) (s.heap.extent 0) 0 0 (s.heap.root 0) hat.list.linked
    hat.list.tiled.span hat.list.tiled.marked (span_length_le _ _ _ hat.list.tiled.span) (.inl rfl)
    (fun c hc hfree => by
      rcases split_at _ c hc with ⟨xs, ys, heq⟩
      have hlist := hat.list
      have hbin : b ∈ pre ++ [b] ++ post := by simp
      rw [heq] at hlist hbin ⊢
      exact .inr (sraBlen_stretch s.heap.mem _ _ b ok.first.2.1 hbo xs ys c hlist hbin hfree)) with
    ⟨n, hrun, hn⟩
  rw [hrun]
  refine ⟨if b.len < n then n else b.len, rfl, ?_⟩
  by_cases hmore : b.len < n
  · rcases hn.resolve_left (by omega) with ⟨hstretch, h4⟩
    rw [if_pos hmore]
    exact ⟨h4, hlt n hstretch, hstretch⟩
  · rw [if_neg hmore]
    exact ⟨hb4, hlt b.len hself, hself⟩

theorem mxfree_screen :
    ∃ h', mxfree s.heap s.scrbufAdr 0 = some (h', 0) ∧ Frees s.heap h' b := by
  have hb := screen_block s ok pre b post hat
  have hin := span_mem _ _ _ hat.list.tiled.span b (by simp)
  have h4 := span_aligned _ _ _ hat.list.tiled.span hat.list.tiled.sized ok.aligned b (by simp)
  have hlists : inLists s.heap b.adr = true := by
    unfold inLists
    refine if_pos ⟨hin.1, ?_⟩
    have hfin := hin.2
    unfold Block.fin mcbData at hfin
    omega
  unfold mxfree
  rw [hat.adr, if_neg (by unfold mcbData; omega), mcbOf_data s.heap ok.heap b hb]
  simp only [if_pos hlists]
  unfold mfreeFree
  rw [if_neg (fun hpd => hpd.1 rfl)]
  rcases mfreeBlock_spec s.heap ok.heap b hb 0 with ⟨h', r, hrun, ⟨-, -, hown⟩ | ⟨rfl, -, hfrees⟩⟩
  · rw [hat.owner] at hown
    exact absurd hown ok.heap.urPd
  · exact ⟨h', hrun, hfrees⟩

/-- Once the screen memory is free, a stretch lies in one free block. -/
theorem freed_fits (h' : Heap) (hf : Frees s.heap h' b) (n : Nat)
    (hn : Stretch (pre ++ [b] ++ post) b (s.heap.root 0) (s.heap.memEnd 0) n) :
    ∃ bs e, RamList h'.mem (h'.root 0) (h'.memEnd 0) bs ∧ e ∈ bs ∧ Fits n e := by
  have hi : IsList h' 0 := by
    unfold IsList
    rw [hf.same.root]
    exact ok.first
  rcases hf.ok.lists 0 hi with ⟨bs, hbs⟩
  rcases hn with ⟨lo, hhi, hlo, hfin, heq, hclear⟩
  have hlist := hbs
  rw [hf.same.root, hf.same.memEnd] at hlist
  -- What is allocated in the list was so before, and is not the screen memory.
  have hfree : ∀ d ∈ bs, d.owner ≠ 0 → d.fin ≤ lo ∨ hhi ≤ d.adr := by
    intro d hd hown
    rcases (hf.alloc d).mp ⟨⟨0, bs, hi, hbs, hd⟩, hown⟩ with ⟨⟨⟨j, ds, hj, hds, hdin⟩, -⟩, hne⟩
    by_cases hj0 : j = 0
    · subst hj0
      rw [ramList_unique _ _ _ _ _ _ hds hat.list] at hdin
      exact hclear d hdin hown hne
    · have hd0 := span_mem _ _ _ hlist.tiled.span d hd
      have hdj := span_mem _ _ _ hds.tiled.span d hdin
      have hpos : d.adr < d.fin := by
        unfold Block.fin mcbData
        omega
      rcases ok.heap.apart j 0 hj ok.first hj0 with hlt | hlt
      · omega
      · omega
  rcases covered _ _ lo hhi bs hlist.tiled.span hlist.coalesced hlo
    (by unfold mcbData at heq; omega) hfin hfree with ⟨e, he, hown, hele, hefin⟩
  refine ⟨bs, e, hbs, he, hown, ?_⟩
  unfold Block.fin at hefin
  omega

theorem srealloc_grants (size n : Nat) (hmost : sraMost s = some n) (hsize : size ≠ 2 ^ 32 - 1)
    (hlt : size + 259 < 2 ^ 32) (hle : (size + 259) / 4 * 4 ≤ n) :
    ∃ s' r, srealloc s size = some (s', r) ∧ r ≠ 0 ∧ Moved s s' r size := by
  rcases sraMost_spec s ok pre b post hat with ⟨n', hmost', -, -, hstretch⟩
  rw [Option.some.inj (hmost'.symm.trans hmost)] at hstretch
  rcases mxfree_screen s ok pre b post hat with ⟨h', hfree, hf⟩
  rcases freed_fits s ok pre b post hat h' hf n hstretch with ⟨bs, e, hbs, he, hfit⟩
  have hi : IsList h' 0 := by
    unfold IsList
    rw [hf.same.root]
    exact ok.first
  have h4 : 4 ∣ (size + 259) / 4 * 4 := Dvd.intro_left _ rfl
  rcases mallocLast_grants h' hf.ok _ 0 hi h4 bs hbs e he ⟨hfit.1, Nat.le_trans hle hfit.2⟩ with
    ⟨m, new, pre', post', hrun, hown, hlen, ht, hnew⟩
  have hadr := hasBlock_adr_pos _ new ((ht.alloc new).mpr (.inr rfl)).1
  have hnlen : m (new.adr + mcbLen) = new.len :=
    (linked_fields m 0 _ hnew.linked new (by simp)).2.1
  have hcall : srealloc s size =
      some (⟨{ h' with mem := m }, new.adr + mcbData, new.len⟩, new.adr + mcbData) := by
    unfold srealloc
    rw [hmost]
    simp only [if_neg hsize, Nat.mod_eq_of_lt hlt, if_neg (Nat.not_lt.mpr hle), hfree, ne_eq,
      not_true_eq_false, if_false, hrun, if_neg hadr, hnlen]
  have hsame := hf.same
  refine ⟨_, _, hcall, by unfold mcbData; omega, ⟨ht.ok, ?_, ?_, pre', new, post', hnew, hown, rfl,
    rfl⟩, rfl, ?_, b, new, ⟨screen_block s ok pre b post hat, ?_⟩, hat.adr.symm, rfl, rfl, ?_,
    fun c => ?_⟩
  · exact hi
  · simp only
    rw [hsame.root]
    exact ok.aligned
  · simp only
    omega
  · rw [hat.owner]
    exact ok.heap.urPd
  · rw [hown, hsame.urPd]
  · rw [ht.alloc c, hf.alloc c]

omit ok hat in
theorem srealloc_refuses (size n : Nat) (hmost : sraMost s = some n) (hsize : size ≠ 2 ^ 32 - 1)
    (hlt : size + 259 < 2 ^ 32) (hmore : n < (size + 259) / 4 * 4) :
    srealloc s size = some (s, 0) := by
  unfold srealloc
  rw [hmost]
  simp only [if_neg hsize, Nat.mod_eq_of_lt hlt, if_pos hmore]

end

/-- `Srealloc` never halts the system: it returns 0 and changes nothing, or the screen memory is a
    block that is large enough. What the query answers can be had, and no longword more. -/
theorem srealloc_exact (s : Screen) (ok : ScreenOk s) :
    (∀ size, size < 2 ^ 31 → ∃ s' r, srealloc s size = some (s', r) ∧
      (r = 0 ∧ s' = s ∨ r ≠ 0 ∧ Moved s s' r size)) ∧
    ∃ n, srealloc s (2 ^ 32 - 1) = some (s, n) ∧ (n < 2 ^ 31 →
      (∃ s' r, srealloc s n = some (s', r) ∧ r ≠ 0 ∧ Moved s s' r n) ∧
        srealloc s (n + 4) = some (s, 0)) := by
  rcases ok.block with ⟨pre, b, post, hat⟩
  rcases sraMost_spec s ok pre b post hat with ⟨d6, hmost, h4, hlt, -⟩
  have hquery : srealloc s (2 ^ 32 - 1) = some (s, (d6 + (2 ^ 32 - 256)) % 2 ^ 32) := by
    unfold srealloc
    rw [hmost]
    simp only [if_true]
  refine ⟨fun size hsize => ?_, _, hquery, fun hn => ⟨?_, ?_⟩⟩
  · by_cases hle : (size + 259) / 4 * 4 ≤ d6
    · rcases srealloc_grants s ok pre b post hat size d6 hmost (by omega) (by omega) hle with
        ⟨s', r, hrun, hr⟩
      exact ⟨s', r, hrun, .inr hr⟩
    · exact ⟨s, 0, srealloc_refuses s size d6 hmost (by omega) (by omega) (by omega),
        .inl ⟨rfl, rfl⟩⟩
  · exact srealloc_grants s ok pre b post hat _ d6 hmost (by omega) (by omega) (by omega)
  · exact srealloc_refuses s _ d6 hmost (by omega) (by omega) (by omega)

/-- A free block before the screen memory, which is the last block. -/
def freeMem : Mem := fun x =>
  if x = 4096 then ANDR else if x = 4100 then 1008
  else if x = 5120 then KROM else if x = 5124 then 3056 else if x = 5128 then 0x9000
  else if x = 5132 then 4096 else 0

theorem freeMem_ramList : RamList freeMem 4096 8192
    ([⟨4096, ANDR, 1008, 0⟩] ++ [⟨5120, KROM, 3056, 0x9000⟩] ++ []) := by
  refine ⟨⟨⟨rfl, rfl, rfl, rfl⟩, ⟨rfl, rfl, rfl, rfl⟩, trivial⟩,
    ⟨⟨rfl, rfl, rfl⟩, ⟨rfl, rfl⟩, ?_⟩, List.isChain_pair.mpr (.inr (Nat.succ_ne_zero _))⟩
  intro b hb
  simp only [List.append_nil, List.cons_append, List.nil_append, List.mem_cons, List.not_mem_nil,
    or_false] at hb
  rcases hb with rfl | rfl
  · exact ⟨252, rfl⟩
  · exact ⟨764, rfl⟩

/-- The screen memory behind a free block. -/
def freeScreen : Screen := ⟨oneList freeMem 4096 8192, 5136, 3056⟩

theorem freeScreen_ok : ScreenOk freeScreen where
  heap := heapOk_oneList freeMem 4096 8192 _ (by decide) (by decide) freeMem_ramList
  first := ⟨by decide, by decide, by decide⟩
  aligned := ⟨1024, rfl⟩
  block := ⟨_, _, _, freeMem_ramList, rfl, rfl, rfl⟩

/-- Both blocks together are what the query answers, and can be had. -/
theorem srealloc_both : srealloc freeScreen (2 ^ 32 - 1) = some (freeScreen, 3824) ∧
    (∃ s' r, srealloc freeScreen 3824 = some (s', r) ∧ r ≠ 0 ∧ Moved freeScreen s' r 3824) ∧
    srealloc freeScreen 3828 = some (freeScreen, 0) := by
  have hquery : srealloc freeScreen (2 ^ 32 - 1) = some (freeScreen, 3824) := rfl
  rcases (srealloc_exact freeScreen freeScreen_ok).2 with ⟨n, hn, hexact⟩
  rcases (Prod.mk.inj (Option.some.inj (hn.symm.trans hquery))).2
  exact ⟨hquery, hexact (by decide)⟩

end Malloc

end MagiC
