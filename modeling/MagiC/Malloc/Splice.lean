import MagiC.Malloc.Code
import Mathlib.Tactic.Ring

/-!
# Splitting and Melting Blocks

What the two edits of an MCB chain do to the list of blocks it represents.

Handing out a block replaces one free block by an allocated one and perhaps a
free rest; melting replaces two neighbours by one. Both are a splice: a middle
stretch of the list is exchanged for another stretch that tiles the same
addresses, and the only header outside the stretch that changes is the back
link of the block behind it. `linked_splice` proves once that a memory edited
in that way still holds the list, so each edit only has to say which words it
stored.

`carve` and `carveLast` are the two ways to take a block out of a free one, at
its front and at its end, and `merge` is what melting makes of two neighbours.

## Main definitions

* `carveLast`: A free block with its end handed out.

## Theorems

* `meltMcbs_linked`: Melting a block into its predecessor.
-/

namespace MagiC

namespace Malloc

/-- Exchanging a stretch of the list. Only headers inside the stretch and the
    back link of the block behind it may change, and that link has to name the
    new last block. -/
theorem linked_splice (m m' : Mem) (p a fin lo hi : Nat) (pre old new post : List Block)
    (hl : Linked m p (pre ++ old ++ post))
    (hpre : Span a pre lo) (hold : Span lo old hi) (hpost : Span hi post fin)
    (hnew : Linked m' (prevOf p pre) new)
    (hout : ∀ x, (x < lo ∨ hi ≤ x) → (∀ c ∈ post.head?, x ≠ c.adr + mcbPrev) → m' x = m x)
    (hhead : ∀ c ∈ post.head?, m' (c.adr + mcbPrev) = prevOf (prevOf p pre) new) :
    Linked m' p (pre ++ new ++ post) := by
  have hlohi := span_le _ _ _ hold
  rw [linked_append, linked_append] at hl ⊢
  rcases hl with ⟨⟨hl1, _⟩, hl3⟩
  refine ⟨⟨?_, hnew⟩, ?_⟩
  · refine linked_congr m m' p pre (fun b hb k hk => hout _ (Or.inl ?_) ?_) hl1
    · have := (span_mem _ _ _ hpre b hb).2
      unfold Block.fin at this
      omega
    · intro c hc
      have hb' := (span_mem _ _ _ hpre b hb).2
      have hc' := (span_mem _ _ _ hpost c (List.mem_of_mem_head? hc)).1
      unfold Block.fin at hb'
      omega
  · cases post with
    | nil => trivial
    | cons c cs =>
      rcases hpost with ⟨hca, hcs⟩
      rcases hl3 with ⟨⟨h0, h1, h2, _⟩, hrest⟩
      -- The head's own fields lie behind the stretch and are not its back link.
      have hkeep : ∀ k, k < mcbPrev → m' (c.adr + k) = m (c.adr + k) := by
        intro k hk
        refine hout _ (Or.inr (by omega)) (fun d hd => ?_)
        rw [List.head?_cons, Option.mem_some_iff] at hd
        rw [← hd]
        omega
      refine ⟨⟨?_, ?_, ?_, ?_⟩, ?_⟩
      · rw [← h0]
        exact hkeep 0 (by decide)
      · rw [← h1]
        exact hkeep mcbLen (by decide)
      · rw [← h2]
        exact hkeep mcbOwner (by decide)
      · rw [hhead c rfl, prevOf_append]
      · refine linked_congr m m' c.adr cs (fun b hb k hk => hout _ (Or.inr ?_) ?_) hrest
        · have := (span_mem _ _ _ hcs b hb).1
          unfold Block.fin at this
          omega
        · intro d hd
          rw [List.head?_cons, Option.mem_some_iff] at hd
          have := (span_mem _ _ _ hcs b hb).1
          unfold Block.fin mcbData at this
          rw [← hd]
          unfold mcbPrev
          omega

/-- Exchanging a stretch for one of the same extent that ends in the same
    magic keeps the tiling. -/
theorem tiled_splice (a fin lo hi : Nat) (pre old new post : List Block)
    (ht : Tiled a fin (pre ++ old ++ post))
    (hpre : Span a pre lo) (hnew : Span lo new hi) (hpost : Span hi post fin)
    (hne : old ≠ []) (hne' : new ≠ [])
    (hmark : Marked (old ++ post) → Marked (new ++ post)) (hsize : LongSized new) :
    Tiled a fin (pre ++ new ++ post) := by
  rcases ht with ⟨_, hm, hz⟩
  refine ⟨?_, ?_, ?_⟩
  · rw [List.append_assoc, span_append]
    refine ⟨lo, hpre, ?_⟩
    rw [span_append]
    exact ⟨hi, hnew, hpost⟩
  · have hne1 : old ++ post ≠ [] := fun hc => hne (List.append_eq_nil_iff.mp hc).1
    have hne2 : new ++ post ≠ [] := fun hc => hne' (List.append_eq_nil_iff.mp hc).1
    rw [List.append_assoc, marked_append _ _ hne1] at hm
    rw [List.append_assoc, marked_append _ _ hne2]
    exact ⟨hm.1, hmark hm.2⟩
  · intro b hb
    rcases List.mem_append.mp hb with hb | hb
    · rcases List.mem_append.mp hb with hb | hb
      · exact hz b (List.mem_append_left _ (List.mem_append_left _ hb))
      · exact hsize b hb
    · exact hz b (List.mem_append_right _ hb)

/-- A free block with `amount` bytes at its front given to `pd`. -/
def carve (amount pd : Nat) (b : Block) : List Block :=
  if b.len - amount ≤ mcbData then [{ b with owner := pd }]
  else [⟨b.adr, ANDR, amount, pd⟩,
    ⟨b.adr + mcbData + amount, b.magic, b.len - amount - mcbData, 0⟩]

/-- A free block with `amount` bytes at its end given to `pd`. -/
def carveLast (amount pd : Nat) (b : Block) : List Block :=
  if b.len - amount ≤ mcbData then [{ b with owner := pd }]
  else [⟨b.adr, ANDR, b.len - amount - mcbData, 0⟩,
    ⟨b.adr + mcbData + (b.len - amount - mcbData), b.magic, amount, pd⟩]

/-- Two neighbours as one block, which keeps the first one's owner. -/
def merge (x y : Block) : Block :=
  ⟨x.adr, y.magic, x.len + (mcbData + y.len), x.owner⟩

theorem carve_span (amount pd : Nat) (b : Block) :
    Span b.adr (carve amount pd b) b.fin := by
  unfold carve
  split_ifs with h
  · exact ⟨rfl, rfl⟩
  · refine ⟨rfl, rfl, ?_⟩
    simp only [Span, Block.fin, mcbData] at h ⊢
    omega

theorem carveLast_span (amount pd : Nat) (b : Block) :
    Span b.adr (carveLast amount pd b) b.fin := by
  unfold carveLast
  split_ifs with h
  · exact ⟨rfl, rfl⟩
  · refine ⟨rfl, rfl, ?_⟩
    simp only [Span, Block.fin, mcbData] at h ⊢
    omega

theorem marked_two (x y b : Block) (post : List Block) (hx : x.magic = ANDR)
    (hy : y.magic = b.magic) (h : Marked (b :: post)) : Marked (x :: y :: post) := by
  refine ⟨hx, ?_⟩
  rcases (marked_cons_iff b post).mp h with ⟨rfl, hb⟩ | ⟨hne, hb, hrest⟩
  · exact hy.trans hb
  · exact (marked_cons_iff y post).mpr (Or.inr ⟨hne, hy.trans hb, hrest⟩)

theorem marked_one (y b : Block) (post : List Block) (hy : y.magic = b.magic)
    (h : Marked (b :: post)) : Marked (y :: post) := by
  rcases (marked_cons_iff b post).mp h with ⟨rfl, hb⟩ | ⟨hne, hb, hrest⟩
  · exact hy.trans hb
  · exact (marked_cons_iff y post).mpr (Or.inr ⟨hne, hy.trans hb, hrest⟩)

theorem carve_marked (amount pd : Nat) (b : Block) (post : List Block)
    (h : Marked ([b] ++ post)) : Marked (carve amount pd b ++ post) := by
  unfold carve
  split_ifs
  · exact marked_one _ b post rfl h
  · exact marked_two _ _ b post rfl rfl h

theorem carveLast_marked (amount pd : Nat) (b : Block) (post : List Block)
    (h : Marked ([b] ++ post)) : Marked (carveLast amount pd b ++ post) := by
  unfold carveLast
  split_ifs
  · exact marked_one _ b post rfl h
  · exact marked_two _ _ b post rfl rfl h

theorem carve_sized (amount pd : Nat) (b : Block) (ha : 4 ∣ amount) (hb : 4 ∣ b.len) :
    LongSized (carve amount pd b) := by
  unfold carve LongSized mcbData
  split_ifs with h
  · simpa only [List.mem_singleton, forall_eq] using hb
  · simp only [List.mem_cons, List.not_mem_nil, or_false, forall_eq_or_imp, forall_eq]
    exact ⟨ha, by omega⟩

theorem carveLast_sized (amount pd : Nat) (b : Block) (ha : 4 ∣ amount) (hb : 4 ∣ b.len) :
    LongSized (carveLast amount pd b) := by
  unfold carveLast LongSized mcbData
  split_ifs with h
  · simpa only [List.mem_singleton, forall_eq] using hb
  · simp only [List.mem_cons, List.not_mem_nil, or_false, forall_eq_or_imp, forall_eq]
    exact ⟨by omega, ha⟩

theorem coalesced_splice (pre post new : List Block) (b : Block) (hb : b.owner = 0)
    (h : Coalesced (pre ++ [b] ++ post)) (hnew : Coalesced new) :
    Coalesced (pre ++ new ++ post) := by
  unfold Coalesced at h hnew ⊢
  rw [List.isChain_append, List.isChain_append] at h
  rcases h with ⟨⟨hpre, _, hleft⟩, hpost, hright⟩
  rw [List.isChain_append, List.isChain_append]
  have hlast : ∀ c ∈ post.head?, c.owner ≠ 0 := by
    intro c hc
    rcases hright b (by simp) c hc with h0 | h0
    · exact absurd hb h0
    · exact h0
  refine ⟨⟨hpre, hnew, fun x hx y _ => ?_⟩, hpost, fun x _ y hy => Or.inr (hlast y hy)⟩
  rcases hleft x hx b rfl with h0 | h0
  · exact Or.inl h0
  · exact absurd hb h0

theorem carve_coalesced (amount pd : Nat) (b : Block) (hpd : pd ≠ 0) :
    Coalesced (carve amount pd b) := by
  unfold carve Coalesced
  split_ifs
  · exact List.isChain_singleton _
  · exact List.isChain_pair.mpr (Or.inl hpd)

theorem carveLast_coalesced (amount pd : Nat) (b : Block) (hpd : pd ≠ 0) :
    Coalesced (carveLast amount pd b) := by
  unfold carveLast Coalesced
  split_ifs
  · exact List.isChain_singleton _
  · exact List.isChain_pair.mpr (Or.inr hpd)

theorem carve_ne_nil (amount pd : Nat) (b : Block) : carve amount pd b ≠ [] := by
  unfold carve
  split_ifs <;> exact List.cons_ne_nil _ _

theorem carveLast_ne_nil (amount pd : Nat) (b : Block) : carveLast amount pd b ≠ [] := by
  unfold carveLast
  split_ifs <;> exact List.cons_ne_nil _ _

theorem marked_next (b : Block) (post : List Block) (fin : Nat) (hs : Span b.fin post fin)
    (hm : Marked (b :: post)) :
    (post = [] ∧ b.magic = KROM) ∨
      ∃ c cs, post = c :: cs ∧ b.magic = ANDR ∧ c.adr = b.adr + mcbData + b.len := by
  rcases (marked_cons_iff b post).mp hm with ⟨h, hk⟩ | ⟨hne, ha, _⟩
  · exact Or.inl ⟨h, hk⟩
  · rcases post with _ | ⟨c, cs⟩
    · exact absurd rfl hne
    · exact Or.inr ⟨c, cs, rfl, ha, hs.1⟩

theorem linked_head_prev (m : Mem) (p : Nat) (xs post : List Block)
    (h : Linked m p (xs ++ post)) :
    ∀ c ∈ post.head?, m (c.adr + mcbPrev) = prevOf p xs := by
  intro c hc
  rw [linked_append] at h
  cases post with
  | nil => exact absurd hc (by simp)
  | cons d ds =>
    rw [List.head?_cons, Option.mem_some_iff] at hc
    rw [← hc]
    exact h.2.1.2.2.2

theorem ramList_at (m : Mem) (a fin : Nat) (pre post : List Block) (b : Block)
    (hl : Linked m 0 (pre ++ [b] ++ post)) (ht : Tiled a fin (pre ++ [b] ++ post)) :
    Span a pre b.adr ∧ Span b.fin post fin ∧ Marked ([b] ++ post) ∧ McbAt m b (prevOf 0 pre) ∧
      a ≤ b.adr ∧ b.fin ≤ fin ∧ 4 ∣ b.len := by
  have hmem : b ∈ pre ++ [b] ++ post := by simp
  have hsp := ht.span
  rw [List.append_assoc] at hsp
  rcases span_at a fin pre post b hsp with ⟨h1, h2⟩
  have hm := ht.marked
  rw [List.append_assoc, marked_append pre ([b] ++ post) (List.cons_ne_nil _ _)] at hm
  rw [linked_append, linked_append] at hl
  have hin := span_mem _ _ _ ht.span b hmem
  exact ⟨h1, h2, hm.2, hl.1.2.1, hin.1, hin.2, ht.sized b hmem⟩

theorem mcbAt_mk (m : Mem) (adr magic len owner prev : Nat) (h0 : m adr = magic)
    (h1 : m (adr + 4) = len) (h2 : m (adr + 8) = owner) (h3 : m (adr + 12) = prev) :
    McbAt m ⟨adr, magic, len, owner⟩ prev :=
  ⟨h0, h1, h2, h3⟩

/-- An address in none of the headers. -/
def Clear (bs : List Block) (x : Nat) : Prop := ∀ e ∈ bs, x < e.adr ∨ e.adr + mcbData ≤ x

theorem clear_outside (a fin x : Nat) (bs : List Block) (h : Span a bs fin)
    (hx : x < a ∨ fin ≤ x) : Clear bs x := by
  intro e he
  have hin := span_mem a fin bs h e he
  unfold Block.fin at hin
  omega

theorem tiled_owner (a fin v : Nat) (pre post : List Block) (b : Block)
    (ht : Tiled a fin (pre ++ [b] ++ post)) :
    Tiled a fin (pre ++ [{ b with owner := v }] ++ post) := by
  have hsp := ht.span
  rw [List.append_assoc] at hsp
  rcases span_at a fin pre post b hsp with ⟨hpre, hpost⟩
  refine tiled_splice a fin b.adr b.fin pre [b] _ post ht hpre ⟨rfl, rfl⟩ hpost
    (List.cons_ne_nil _ _) (List.cons_ne_nil _ _) (marked_one _ b post rfl) (fun c hc => ?_)
  rw [List.mem_singleton.mp hc]
  exact ht.sized b (by simp)

theorem put_owner_linked (m : Mem) (a fin v : Nat) (pre post : List Block) (b : Block)
    (hl : Linked m 0 (pre ++ [b] ++ post)) (ht : Tiled a fin (pre ++ [b] ++ post)) :
    Linked (m.put (b.adr + mcbOwner) v) 0 (pre ++ [{ b with owner := v }] ++ post) ∧
      Tiled a fin (pre ++ [{ b with owner := v }] ++ post) := by
  rcases ramList_at m a fin pre post b hl ht with
    ⟨hpre, hpost, _, ⟨h0, h1, _, h3⟩, _, _, _⟩
  have hprev := linked_head_prev m 0 (pre ++ [b]) post hl
  refine ⟨?_, tiled_owner a fin v pre post b ht⟩
  refine linked_splice m _ 0 a fin b.adr b.fin pre [b] _ post hl hpre ⟨rfl, rfl⟩ hpost
    ⟨mcbAt_mk _ _ _ _ _ _ ?_ ?_ ?_ ?_, trivial⟩ ?_ ?_
  all_goals simp only [mcbOwner, mcbLen, mcbPrev, mcbData, Block.fin] at *
  · rw [put_other _ _ _ _ (by omega), h0]
  · rw [put_other _ _ _ _ (by omega), h1]
  · rw [put_self]
  · rw [put_other _ _ _ _ (by omega), h3]
  · intro x hx _
    rw [put_other _ _ _ _ (by omega)]
  · intro c hc
    have hadr := (span_mem _ _ _ hpost c (List.mem_of_mem_head? hc)).1
    rw [put_other _ _ _ _ (by omega), hprev c hc, prevOf_append]
    rfl

theorem coalesced_owned (pre post : List Block) (hpre : Coalesced pre) (hpost : Coalesced post) :
    ∀ new : List Block, new ≠ [] → (∀ x ∈ new, x.owner ≠ 0) →
      Coalesced (pre ++ new ++ post) := by
  intro new hne hnew
  have hchain : Coalesced new := by
    clear hne
    induction new with
    | nil => exact List.isChain_nil
    | cons x xs ih =>
      unfold Coalesced
      rw [List.isChain_cons]
      exact ⟨fun y _ => Or.inl (hnew x List.mem_cons_self),
        ih (fun y hy => hnew y (List.mem_cons_of_mem _ hy))⟩
  unfold Coalesced at *
  rw [List.isChain_append, List.isChain_append]
  refine ⟨⟨hpre, hchain, fun x _ y hy => Or.inr (hnew y (List.mem_of_mem_head? hy))⟩, hpost,
    fun x hx y _ => Or.inl ?_⟩
  rw [List.getLast?_append_of_ne_nil _ hne] at hx
  exact hnew x (List.mem_of_mem_getLast? hx)

theorem coalesced_sides (pre mid post : List Block) (h : Coalesced (pre ++ mid ++ post)) :
    Coalesced pre ∧ Coalesced post := by
  unfold Coalesced at *
  rw [List.isChain_append, List.isChain_append] at h
  exact ⟨h.1.1, h.2.1⟩

theorem put_owner_ramList (m : Mem) (a fin v : Nat) (pre post : List Block) (b : Block)
    (h : RamList m a fin (pre ++ [b] ++ post)) (hv : v ≠ 0) :
    RamList (m.put (b.adr + mcbOwner) v) a fin (pre ++ [{ b with owner := v }] ++ post) := by
  rcases put_owner_linked m a fin v pre post b h.linked h.tiled with ⟨hl, ht⟩
  rcases coalesced_sides pre _ post h.coalesced with ⟨hpre, hpost⟩
  refine ⟨hl, ht, coalesced_owned pre post hpre hpost _ (List.cons_ne_nil _ _) (fun x hx => ?_)⟩
  rw [List.mem_singleton.mp hx]
  exact hv

theorem put_owner_other (m : Mem) (b : Block) (v x : Nat) (hx : x < b.adr ∨ b.fin ≤ x) :
    m.put (b.adr + mcbOwner) v x = m x := by
  simp only [Block.fin, mcbData] at hx
  rw [mcbOwner, put_other _ _ _ _ (by omega)]

/-- Two blocks in place of one. The block behind it points back to the second one. -/
theorem put_pair_ramList (m m1 : Mem) (a fin : Nat) (pre post : List Block) (b x y : Block)
    (h : RamList m a fin (pre ++ [b] ++ post)) (hspan : Span b.adr [x, y] b.fin)
    (htiled : Tiled a fin (pre ++ [x, y] ++ post)) (hcoal : Coalesced (pre ++ [x, y] ++ post))
    (hx : McbAt m1 x (prevOf 0 pre)) (hy : McbAt m1 y x.adr)
    (hout : ∀ z, z < b.adr ∨ b.fin ≤ z → m1 z = m z) :
    RamList (if b.magic = ANDR then m1.put (b.fin + mcbPrev) y.adr else m1) a fin
        (pre ++ [x, y] ++ post) ∧
      ∀ z, z < b.adr ∨ b.fin ≤ z → Clear (pre ++ [b] ++ post) z →
        (if b.magic = ANDR then m1.put (b.fin + mcbPrev) y.adr else m1) z = m z := by
  rcases ramList_at m a fin pre post b h.linked h.tiled with ⟨hpre, hpost, hmark, -⟩
  have hsplice := fun m' => linked_splice m m' 0 a fin b.adr b.fin pre [b] [x, y] post h.linked
    hpre ⟨rfl, rfl⟩ hpost
  rcases marked_next b post fin hpost hmark with ⟨rfl, hk⟩ | ⟨c, cs, rfl, ha, hc⟩
  · rw [if_neg (by rw [hk]; exact andr_ne_krom.symm)]
    refine ⟨⟨hsplice m1 ⟨hx, hy, trivial⟩ (fun z hz _ => hout z hz) fun d hd => ?_, htiled, hcoal⟩,
      fun z hz _ => hout z hz⟩
    exact absurd hd (by simp)
  · rw [if_pos ha]
    have hkeep : ∀ e p, e.fin ≤ b.fin → McbAt m1 e p →
        McbAt (m1.put (b.fin + mcbPrev) y.adr) e p := by
      rintro e p hle ⟨h0, h1, h2, h3⟩
      unfold Block.fin mcbData at hle
      simp only [mcbOwner, mcbLen, mcbPrev, Block.fin, mcbData] at h1 h2 h3 ⊢
      refine mcbAt_mk _ _ _ _ _ _ ?_ ?_ ?_ ?_ <;> rwa [put_other _ _ _ _ (by omega)]
    have hfin : x.fin ≤ b.fin ∧ y.fin = b.fin := by
      refine ⟨?_, hspan.2.2⟩
      rw [← hspan.2.2, ← hspan.2.1]
      unfold Block.fin
      omega
    have hbfin : c.adr = b.fin := hc
    refine ⟨⟨hsplice _ ⟨hkeep x _ hfin.1 hx, hkeep y _ hfin.2.le hy, trivial⟩ ?_ ?_, htiled,
      hcoal⟩, ?_⟩
    · intro z hz hne
      rw [put_other _ _ _ _ (hbfin ▸ hne c rfl), hout z hz]
    · intro d hd
      rw [List.head?_cons, Option.mem_some_iff] at hd
      rw [← hd, hbfin, put_self]
      rfl
    · intro z hz hclear
      have hcc := hclear c (by simp)
      unfold mcbData at hcc
      rw [put_other _ _ _ _ (by unfold mcbPrev; omega), hout z hz]

theorem malFound_split (m : Mem) (amount pd : Nat) (b : Block) (h0 : m b.adr = b.magic)
    (h1 : m (b.adr + 4) = b.len) (hbig : ¬ b.len - amount ≤ 16) :
    malFound m amount pd b.adr =
      let n := b.adr + 16 + amount
      let m' := (((((((m.put (b.adr + 8) pd).put b.adr ANDR).put (b.adr + 4) amount).put n
        b.magic).put (n + 4) (b.len - amount - 16)).put (n + 8) 0).put (n + 12) b.adr)
      if b.magic = ANDR then m'.put (n + 16 + (b.len - amount - 16) + 12) n else m' := by
  simp only [malFound, mcbLen, mcbOwner, mcbPrev, mcbData, h0, h1, if_neg hbig]

/-- Handing out the front of a free block that is large enough. Nothing is
    stored outside the block, save for the header behind it. -/
theorem malFound_ramList (m : Mem) (a fin amount pd : Nat) (pre post : List Block) (b : Block)
    (h : RamList m a fin (pre ++ [b] ++ post)) (hfree : b.owner = 0) (hfit : amount ≤ b.len)
    (h4 : 4 ∣ amount) (hpd : pd ≠ 0) :
    RamList (malFound m amount pd b.adr) a fin (pre ++ carve amount pd b ++ post) ∧
      ∀ x, x < b.adr ∨ b.fin ≤ x → Clear (pre ++ [b] ++ post) x →
        malFound m amount pd b.adr x = m x := by
  rcases ramList_at m a fin pre post b h.linked h.tiled with
    ⟨hpre, hpost, hmark, ⟨h0, h1, h2, h3⟩, hlo, hhi, hb4⟩
  have htiled : Tiled a fin (pre ++ carve amount pd b ++ post) :=
    tiled_splice a fin b.adr b.fin pre [b] _ post h.tiled hpre (carve_span amount pd b) hpost
      (List.cons_ne_nil _ _) (carve_ne_nil amount pd b) (carve_marked amount pd b post)
      (carve_sized amount pd b h4 hb4)
  have hcoal := coalesced_splice pre post _ b hfree h.coalesced (carve_coalesced amount pd b hpd)
  simp only [mcbOwner, mcbLen, mcbPrev] at h1 h2 h3
  by_cases hsmall : b.len - amount ≤ 16
  · -- The rest is too small to split off: only the owner changes.
    have heq : malFound m amount pd b.adr = m.put (b.adr + mcbOwner) pd := by
      simp only [malFound, mcbLen, mcbOwner, mcbData, h1, if_pos hsmall]
    have hcarve : carve amount pd b = [{ b with owner := pd }] := if_pos hsmall
    rw [hcarve, heq]
    exact ⟨put_owner_ramList m a fin pd pre post b h hpd, fun x hx _ => put_owner_other m b pd x hx⟩
  · -- A rest is split off behind the block, and the block behind it points back to the rest.
    have hcarve : carve amount pd b = [⟨b.adr, ANDR, amount, pd⟩,
        ⟨b.adr + 16 + amount, b.magic, b.len - amount - 16, 0⟩] := if_neg hsmall
    have hspan := carve_span amount pd b
    have heq := malFound_split m amount pd b h0 h1 hsmall
    have hback : b.adr + 16 + amount + 16 + (b.len - amount - 16) + 12 = b.fin + mcbPrev := by
      simp only [Block.fin, mcbData, mcbPrev]
      omega
    dsimp only at heq
    rw [hback] at heq
    rw [hcarve] at htiled hcoal hspan ⊢
    rw [heq]
    refine put_pair_ramList m _ a fin pre post b _ _ h hspan htiled hcoal
      (mcbAt_mk _ _ _ _ _ _ ?_ ?_ ?_ ?_) (mcbAt_mk _ _ _ _ _ _ ?_ ?_ ?_ ?_) fun z hz => ?_
    all_goals try simp (disch := omega) only [put_self, put_other, h3]
    simp only [Block.fin, mcbData] at hz
    simp (disch := omega) only [put_other]

theorem mllFound_split (m : Mem) (amount urPd : Nat) (b : Block) (h0 : m b.adr = b.magic)
    (h1 : m (b.adr + 4) = b.len) (hbig : ¬ b.len - amount ≤ 16) :
    mllFound m amount urPd b.adr =
      let n := b.adr + 16 + (b.len - amount - 16)
      let m' := ((((((m.put (b.adr + 4) (b.len - amount - 16)).put n b.magic).put b.adr ANDR).put
        (n + 4) amount).put (n + 12) b.adr).put (n + 8) urPd)
      (if b.magic = ANDR then m'.put (n + 16 + amount + 12) n else m', n) := by
  simp only [mllFound, mcbLen, mcbOwner, mcbPrev, mcbData, h1, if_neg hbig]
  simp (disch := omega) only [put_self, put_other, h0]
  split
  · rw [put_comm _ _ _ _ _ (by omega)]
  · rfl

theorem mllFound_ramList (m : Mem) (a fin amount urPd : Nat) (pre post : List Block) (b : Block)
    (h : RamList m a fin (pre ++ [b] ++ post)) (hfree : b.owner = 0) (hfit : amount ≤ b.len)
    (h4 : 4 ∣ amount) (hpd : urPd ≠ 0) :
    RamList (mllFound m amount urPd b.adr).1 a fin (pre ++ carveLast amount urPd b ++ post) ∧
      ∀ x, x < b.adr ∨ b.fin ≤ x → Clear (pre ++ [b] ++ post) x →
        (mllFound m amount urPd b.adr).1 x = m x := by
  rcases ramList_at m a fin pre post b h.linked h.tiled with
    ⟨hpre, hpost, hmark, ⟨h0, h1, h2, h3⟩, hlo, hhi, hb4⟩
  have htiled : Tiled a fin (pre ++ carveLast amount urPd b ++ post) :=
    tiled_splice a fin b.adr b.fin pre [b] _ post h.tiled hpre (carveLast_span amount urPd b) hpost
      (List.cons_ne_nil _ _) (carveLast_ne_nil amount urPd b) (carveLast_marked amount urPd b post)
      (carveLast_sized amount urPd b h4 hb4)
  have hcoal := coalesced_splice pre post _ b hfree h.coalesced
    (carveLast_coalesced amount urPd b hpd)
  simp only [mcbOwner, mcbLen, mcbPrev] at h1 h2 h3
  by_cases hsmall : b.len - amount ≤ 16
  · have heq : (mllFound m amount urPd b.adr).1 = m.put (b.adr + mcbOwner) urPd := by
      simp only [mllFound, mcbLen, mcbOwner, mcbData, h1, if_pos hsmall]
    have hcarve : carveLast amount urPd b = [{ b with owner := urPd }] := if_pos hsmall
    rw [hcarve, heq]
    exact ⟨put_owner_ramList m a fin urPd pre post b h hpd,
      fun x hx _ => put_owner_other m b urPd x hx⟩
  · -- The block keeps its owner, which is none, and the new one lies behind it.
    have hcarve : carveLast amount urPd b = [⟨b.adr, ANDR, b.len - amount - 16, 0⟩,
        ⟨b.adr + 16 + (b.len - amount - 16), b.magic, amount, urPd⟩] := if_neg hsmall
    have hspan := carveLast_span amount urPd b
    have heq := congrArg Prod.fst (mllFound_split m amount urPd b h0 h1 hsmall)
    have hback : b.adr + 16 + (b.len - amount - 16) + 16 + amount + 12 = b.fin + mcbPrev := by
      simp only [Block.fin, mcbData, mcbPrev]
      omega
    dsimp only at heq
    rw [hback] at heq
    rw [hcarve] at htiled hcoal hspan ⊢
    rw [heq]
    refine put_pair_ramList m _ a fin pre post b _ _ h hspan htiled hcoal
      (mcbAt_mk _ _ _ _ _ _ ?_ ?_ ?_ ?_) (mcbAt_mk _ _ _ _ _ _ ?_ ?_ ?_ ?_) fun z hz => ?_
    all_goals try simp (disch := omega) only [put_self, put_other, h2, h3]
    · exact hfree
    · simp only [Block.fin, mcbData] at hz
      simp (disch := omega) only [put_other]

theorem linked_pair_at (m : Mem) (a fin : Nat) (pre post : List Block) (x y : Block)
    (hl : Linked m 0 (pre ++ [x, y] ++ post)) (ht : Tiled a fin (pre ++ [x, y] ++ post)) :
    Span a pre x.adr ∧ y.adr = x.fin ∧ Span y.fin post fin ∧ x.magic = ANDR ∧
      Marked ([y] ++ post) ∧ McbAt m x (prevOf 0 pre) ∧ McbAt m y x.adr ∧ a ≤ x.adr ∧
      y.fin ≤ fin ∧ 4 ∣ x.len ∧ 4 ∣ y.len := by
  have hsp := ht.span
  rw [List.append_assoc] at hsp
  rcases span_at a fin pre ([y] ++ post) x hsp with ⟨h1, h2, h3⟩
  have hm := ht.marked
  rw [List.append_assoc, marked_append pre ([x, y] ++ post) (List.cons_ne_nil _ _)] at hm
  rw [linked_append, linked_append] at hl
  have hinx := span_mem _ _ _ ht.span x (by simp)
  have hiny := span_mem _ _ _ ht.span y (by simp)
  exact ⟨h1, h2, h3, hm.2.1, hm.2.2, hl.1.2.1, hl.1.2.2.1, hinx.1, hiny.2,
    ht.sized x (by simp), ht.sized y (by simp)⟩

/-- Melting a block into the one before it stores into headers only. Nothing is
    said about who owns the two, and nothing about their other neighbours. -/
theorem meltMcbs_linked (m : Mem) (a fin : Nat) (pre post : List Block) (x y : Block)
    (hl : Linked m 0 (pre ++ [x, y] ++ post)) (ht : Tiled a fin (pre ++ [x, y] ++ post)) :
    ∃ m', meltMcbs m y.adr x.adr = some m' ∧ Linked m' 0 (pre ++ [merge x y] ++ post) ∧
      Tiled a fin (pre ++ [merge x y] ++ post) ∧
      ∀ i, Clear (pre ++ [x, y] ++ post) i → m' i = m i := by
  rcases linked_pair_at m a fin pre post x y hl ht with
    ⟨hpre, hxy, hpost, hx, hmark, ⟨g0, g1, g2, g3⟩, ⟨h0, h1, _, _⟩, hlo, hhi, hx4, hy4⟩
  have hspan : Span x.adr [x, y] y.fin := ⟨rfl, hxy, rfl⟩
  have hmspan : Span x.adr [merge x y] y.fin := by
    refine ⟨rfl, ?_⟩
    simp only [Span, merge, Block.fin, mcbData] at hxy ⊢
    omega
  have htiled : Tiled a fin (pre ++ [merge x y] ++ post) := by
    refine tiled_splice a fin x.adr y.fin pre [x, y] _ post ht hpre hmspan hpost
      (List.cons_ne_nil _ _) (List.cons_ne_nil _ _) (fun h => marked_one _ y post rfl h.2) ?_
    intro c hc
    rw [List.mem_singleton] at hc
    rw [hc]
    simp only [merge, mcbData]
    omega
  have hsplice := fun m' => linked_splice m m' 0 a fin x.adr y.fin pre [x, y] [merge x y] post hl
    hpre hspan hpost
  have hnext := marked_next y post fin hpost hmark
  simp only [mcbOwner, mcbLen, mcbPrev, mcbData, Block.fin] at g1 g2 g3 h1 hxy hhi hpost hsplice
  rcases hnext with ⟨rfl, hk⟩ | ⟨c, cs, rfl, ha, hc⟩
  · have heq : meltMcbs m y.adr x.adr = some (((m.put y.adr 0).put x.adr y.magic).put (x.adr + 4)
        (x.len + (16 + y.len))) := by
      simp only [meltMcbs, h0, hk, if_true, mcbLen, mcbData]
      simp (disch := omega) only [put_other, h1, g1]
    refine ⟨_, heq, hsplice _ ⟨mcbAt_mk _ _ _ _ _ _ ?_ ?_ ?_ ?_, trivial⟩ ?_ ?_, htiled, ?_⟩
    · simp (disch := omega) only [put_self, put_other]
    · rw [put_self]
      rfl
    · simp (disch := omega) only [put_other, g2]
    · simp (disch := omega) only [put_other, g3]
    · intro i hi _
      simp (disch := omega) only [put_other]
    · intro d hd
      exact absurd hd (by simp)
    · intro i hi
      have hcx := hi x (by simp)
      have hcy := hi y (by simp)
      unfold mcbData at hcx hcy
      simp (disch := omega) only [put_other]
  · have hcfin : c.adr + 16 ≤ fin := by
      have := (span_mem _ _ _ hpost c List.mem_cons_self).2
      unfold Block.fin mcbData at this
      omega
    have hadr : c.adr = y.adr + (16 + y.len) := by
      rw [hc]
      unfold mcbData
      omega
    have heq : meltMcbs m y.adr x.adr = some ((((m.put y.adr 0).put (c.adr + 12) x.adr).put x.adr
        y.magic).put (x.adr + 4) (x.len + (16 + y.len))) := by
      simp only [meltMcbs, h0, ha, if_neg andr_ne_krom, if_true, mcbLen, mcbData, mcbPrev, hadr]
      simp (disch := omega) only [put_other, h1, g1]
    refine ⟨_, heq, hsplice _ ⟨mcbAt_mk _ _ _ _ _ _ ?_ ?_ ?_ ?_, trivial⟩ ?_ ?_, htiled, ?_⟩
    · simp (disch := omega) only [put_self, put_other]
    · rw [put_self]
      rfl
    · simp (disch := omega) only [put_other, g2]
    · simp (disch := omega) only [put_other, g3]
    · intro i hi hne
      have := hne c rfl
      simp (disch := omega) only [put_other]
    · intro d hd
      rw [List.head?_cons, Option.mem_some_iff] at hd
      rw [← hd]
      simp (disch := omega) only [put_self, put_other]
      rfl
    · intro i hi
      have hcx := hi x (by simp)
      have hcy := hi y (by simp)
      have hcc := hi c (by simp)
      unfold mcbData at hcx hcy hcc
      simp (disch := omega) only [put_other]

end Malloc

end MagiC
