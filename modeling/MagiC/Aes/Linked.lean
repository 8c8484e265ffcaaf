import MagiC.Aes.Popup
import MagiC.Aes.Reorder

/-!
# Entries of a Popup Menu

Entries that are taken out of the box and put back into it. The links of nothing else change,
so the tree around the box stays a tree, and an entry can always be found again.

## Main definitions

* `Linked`: Some of the entries are in the box.

## Theorems

* `unlink_loop`, `shrink_loop`, `relink_loop`, `putBack_loop`: Many do.
-/

namespace MagiC

namespace Aes

namespace Smn

open Obj Chains

theorem mem_span {a b x : Nat} : x ∈ span a b ↔ a ≤ x ∧ x < b := by
  rw [span, List.mem_range'_1]
  omega

theorem span_nodup (a b : Nat) : (span a b).Nodup := List.nodup_range'

theorem span_length (a b : Nat) : (span a b).length = b - a := List.length_range'

section

variable {t₀ t t' : Objs} {root o c : Nat} {es l xs : List Nat}

/-- Some of the entries are in the box, and nothing else has been touched. -/
structure Linked (t₀ t : Objs) (root : Nat) (es l : List Nat) : Prop where
  frame : Frame t₀ t root es
  kids : Kids t root l
  sub : ∀ x ∈ l, x ∈ es

theorem reach_stays (hw : WellFormed t₀ 0) (hf : Frame t₀ t root es) (hk : Kids t₀ root es)
    (hr : Reach t₀ 0 root) : Reach t 0 root := by
  -- the way to the box does not go through the box
  have hway : ∀ x, Reach t₀ 0 x → Reach t 0 x ∨ Reach t 0 root := by
    intro x hx
    induction hx with
    | root => exact Or.inl Reach.root
    | @child y c m hy hm hc ih =>
      by_cases hyr : y = root
      · rcases ih with ih | ih
        · exact Or.inr (hyr ▸ ih)
        · exact Or.inr ih
      · rcases ih with ih | ih
        · exact Or.inl (Reach.child ih (hf.others hw hr hk hy hyr hm) hc)
        · exact Or.inr ih
  rcases hway root hr with h | h <;> exact h

theorem Linked.wellFormed (h : Linked t₀ t root es l) (hw : WellFormed t₀ 0)
    (hk : Kids t₀ root es) (hr : Reach t₀ 0 root) : WellFormed t 0 :=
  hw.relist h.frame hr hk h.kids h.sub

theorem Linked.start (hk : Kids t₀ root es) : Linked t₀ t₀ root es es :=
  ⟨⟨rfl, fun _ _ => rfl, fun _ _ => rfl, fun _ _ => rfl⟩, hk, fun _ hx => hx⟩

theorem entry_ne_zero (hw : WellFormed t₀ 0) (hk : Kids t₀ root es) (hr : Reach t₀ 0 root)
    (ho : o ∈ es) : o ≠ 0 := by
  intro h0
  rw [h0] at ho
  exact hw.root root es hr hk ho

/-- An entry is taken out. -/
theorem Linked.delete (h : Linked t₀ t root es l) (hw : WellFormed t₀ 0) (hk : Kids t₀ root es)
    (hr : Reach t₀ 0 root) (ho : o ∈ l) :
    ∃ t', objcDelete t o = .ok t' ∧ Linked t₀ t' root es (l.erase o) := by
  rcases objcDelete_spec (h.wellFormed hw hk hr) (reach_stays hw h.frame hk hr) h.kids ho
    (entry_ne_zero hw hk hr (h.sub o ho)) with ⟨t', hrun, hframe, hkids⟩
  exact ⟨t', hrun, h.frame.trans (hframe.mono h.sub), hkids,
    fun x hx => h.sub x (List.mem_of_mem_erase hx)⟩

theorem Linked.add (h : Linked t₀ t root es l) (hk : Kids t₀ root es) (hlt : root < t₀.size)
    (hc : c ∈ es) (hcl : c ∉ l) :
    ∃ t', objcAdd t root c = .ok t' ∧ Linked t₀ t' root es (l ++ [c]) := by
  have hcr : c ≠ root := fun heq => hk.self (heq ▸ hc)
  rcases objcAdd_spec (h.frame.size ▸ hlt) (h.frame.size ▸ hk.lt c hc) hcr h.kids hcl with
    ⟨t', hrun, hframe, hkids⟩
  refine ⟨t', hrun, h.frame.trans (hframe.mono fun x hx => ?_), hkids, fun x hx => ?_⟩
  · rcases List.mem_cons.mp hx with rfl | hx
    · exact hc
    · exact h.sub x hx
  · rcases List.mem_append.mp hx with hx | hx
    · exact h.sub x hx
    · exact List.mem_singleton.mp hx ▸ hc

/-- With all of the entries in their order the links are what they were. -/
theorem Linked.restored (h : Linked t₀ t root es es) (hk : Kids t₀ root es) (hne : es ≠ []) :
    t = t₀ := by
  rcases hk.sibs.path hne with ⟨hpath, hlast⟩
  rcases h.kids.sibs.path hne with ⟨hpath', hlast'⟩
  have hhead : t.obHead root = t₀.obHead root := by
    rcases es with - | ⟨x, es⟩
    · exact absurd rfl hne
    · exact hpath'.1.trans hpath.1.symm
  have htail : t.obTail root = t₀.obTail root := by
    rw [hlast] at hlast'
    exact (Option.some.inj hlast').symm
  -- two lists of the same objects have the same links
  have hnext : ∀ x ∈ es, t.obNext x = t₀.obNext x := by
    intro x hx
    rcases List.append_of_mem hx with ⟨a, b, rfl⟩
    rcases (path_append t₀.obNext (t₀.obHead root) root a (x :: b)).mp hpath with
      ⟨y, -, hxb⟩
    rcases (path_append t.obNext (t.obHead root) root a (x :: b)).mp hpath' with
      ⟨y', -, hxb'⟩
    rcases b with - | ⟨z, b⟩
    · exact hxb'.2.trans hxb.2.symm
    · exact hxb'.2.1.trans hxb.2.1.symm
  have hsize := h.frame.size
  have hn : t.obNext = t₀.obNext := funext fun x => by
    by_cases hx : x ∈ es
    · exact hnext x hx
    · exact h.frame.next x hx
  have hh : t.obHead = t₀.obHead := funext fun x => by
    by_cases hx : x = root
    · rw [hx, hhead]
    · exact h.frame.head x hx
  have ht : t.obTail = t₀.obTail := funext fun x => by
    by_cases hx : x = root
    · rw [hx, htail]
    · exact h.frame.tail x hx
  cases t
  cases t₀
  simp only at hsize hn hh ht
  subst hsize hn hh ht
  rfl

end

/-- A menu box whose entries are numbered one after the other. -/
structure Box (m₀ : Menu) (root head tail : Nat) (h : Word) : Prop where
  wellFormed : WellFormed m₀.objs 0
  reach : Reach m₀.objs 0 root
  kids : Kids m₀.objs root (span head (tail + 1))
  le : head ≤ tail
  height : ∀ e, head ≤ e → e ≤ tail → m₀.obHeight e = h
  laid : ∀ e, head ≤ e → e ≤ tail → m₀.obY e = BitVec.ofNat 16 (e - head) * h
  text : ∀ e, head ≤ e → e ≤ tail →
    3 ≤ (m₀.text e).length ∧ (m₀.text e).length ≤ 127 ∧ (m₀.text e).length < m₀.room e

section

variable {m₀ m : Menu} {root head tail : Nat} {h r : Word} {l xs : List Nat} {p : Popup}

section

variable (b : Box m₀ root head tail h)

include b

theorem Box.root_not_entry : ¬ (head ≤ root ∧ root ≤ tail) := by
  intro hin
  exact b.kids.self (mem_span.mpr ⟨hin.1, by omega⟩)

theorem Box.ne_nil : span head (tail + 1) ≠ [] := by
  have := b.le
  intro hnil
  have hmem : head ∈ span head (tail + 1) := mem_span.mpr ⟨Nat.le_refl _, by omega⟩
  rw [hnil] at hmem
  exact List.not_mem_nil hmem

theorem Box.tail_lt : tail < 0x8000 := by
  have hlt := b.kids.lt tail (mem_span.mpr ⟨b.le, by omega⟩)
  have := m₀.objs.small
  omega

theorem Box.root_lt : root < 0x8000 := by
  have hlt := b.reach.lt b.wellFormed
  have := m₀.objs.small
  omega

theorem Box.head_pos : 0 < head := by
  have := entry_ne_zero b.wellFormed b.kids b.reach (o := head)
    (mem_span.mpr ⟨Nat.le_refl _, by have := b.le; omega⟩)
  omega

section

variable (hl : Linked m₀.objs m.objs root (span head (tail + 1)) l) (hnd : xs.Nodup)

include hl hnd

/-- Entries are taken out. -/
theorem unlink_loop (hxs : ∀ x ∈ xs, x ∈ l) :
    ∃ t' l', xs.foldlM unlink m = .ok { m with objs := t' } ∧
      Linked m₀.objs t' root (span head (tail + 1)) l' ∧ ∀ x, x ∈ l' ↔ x ∈ l ∧ x ∉ xs := by
  induction xs generalizing m l with
  | nil => exact ⟨m.objs, l, rfl, hl, by simp⟩
  | cons o xs ih =>
    rcases hl.delete b.wellFormed b.kids b.reach (hxs o List.mem_cons_self) with ⟨t₁, hrun, hl₁⟩
    have hmem : ∀ x, x ∈ l.erase o ↔ x ≠ o ∧ x ∈ l := fun x => hl.kids.nodup.mem_erase_iff
    rcases List.nodup_cons.mp hnd with ⟨ho, hnd⟩
    rcases ih (m := { m with objs := t₁ }) hl₁ hnd (fun x hx => (hmem x).mpr
      ⟨fun heq => ho (heq ▸ hx), hxs x (List.mem_cons_of_mem o hx)⟩) with ⟨t', l', hloop, hl', hl'x⟩
    refine ⟨t', l', ?_, hl', fun x => ?_⟩
    · rw [List.foldlM_cons, unlink, hrun]
      exact hloop
    · rw [hl'x, hmem, List.mem_cons, not_or]
      tauto

theorem relink_loop (hxs : ∀ x ∈ xs, x ∈ span head (tail + 1) ∧ x ∉ l) :
    ∃ t', xs.foldlM (relink root) m = .ok { m with objs := t' } ∧
      Linked m₀.objs t' root (span head (tail + 1)) (l ++ xs) := by
  induction xs generalizing m l with
  | nil => exact ⟨m.objs, rfl, by rwa [List.append_nil]⟩
  | cons c xs ih =>
    rcases hxs c List.mem_cons_self with ⟨hc, hcl⟩
    rcases hl.add b.kids (b.reach.lt b.wellFormed) hc hcl with ⟨t₁, hrun, hl₁⟩
    rcases List.nodup_cons.mp hnd with ⟨hcx, hnd⟩
    rcases ih (m := { m with objs := t₁ }) hl₁ hnd (fun x hx => by
      rcases hxs x (List.mem_cons_of_mem c hx) with ⟨hxe, hxl⟩
      refine ⟨hxe, fun hmem => ?_⟩
      rcases List.mem_append.mp hmem with hmem | hmem
      · exact hxl hmem
      · exact hcx (List.mem_singleton.mp hmem ▸ hx)) with ⟨t', hloop, hl'⟩
    refine ⟨t', ?_, by rwa [List.append_assoc, List.singleton_append] at hl'⟩
    rw [List.foldlM_cons, relink, hrun]
    exact hloop

/-- Entries are taken out, and the box gets smaller by each of them. -/
theorem shrink_loop (hxs : ∀ x ∈ xs, x ∈ l) (hh : m.obHeight = Function.update m₀.obHeight root r) :
    ∃ t' l', xs.foldlM (shrink root) m = .ok { m with
        objs := t'
        obHeight := Function.update m₀.obHeight root (r - BitVec.ofNat 16 xs.length * h) } ∧
      Linked m₀.objs t' root (span head (tail + 1)) l' ∧ ∀ x, x ∈ l' ↔ x ∈ l ∧ x ∉ xs := by
  induction xs generalizing m l r with
  | nil =>
    refine ⟨m.objs, l, ?_, hl, by simp⟩
    rw [List.foldlM_nil, List.length_nil, show (BitVec.ofNat 16 0) * h = 0 from BitVec.zero_mul,
      sub_zero, ← hh]
    rfl
  | cons o xs ih =>
    have hol := hxs o List.mem_cons_self
    rcases hl.delete b.wellFormed b.kids b.reach hol with ⟨t₁, hrun, hl₁⟩
    have hmem : ∀ x, x ∈ l.erase o ↔ x ≠ o ∧ x ∈ l := fun x => hl.kids.nodup.mem_erase_iff
    rcases List.nodup_cons.mp hnd with ⟨ho, hnd⟩
    have hoe := mem_span.mp (hl.sub o hol)
    have hor : o ≠ root := fun heq => hl.kids.self (heq ▸ hol)
    -- the box is smaller by one entry
    have hstep : Function.update m.obHeight root (m.obHeight root - m.obHeight o) =
        Function.update m₀.obHeight root (r - h) := by
      rw [hh, Function.update_self, Function.update_of_ne hor, Function.update_idem,
        b.height o hoe.1 (by omega)]
    rcases ih (m := { m with objs := t₁, obHeight := Function.update m₀.obHeight root (r - h) })
      hl₁ hnd (fun x hx => (hmem x).mpr
        ⟨fun heq => ho (heq ▸ hx), hxs x (List.mem_cons_of_mem o hx)⟩) rfl with
      ⟨t', l', hloop, hl', hl'x⟩
    refine ⟨t', l', ?_, hl', fun x => ?_⟩
    · have hcount : r - h - BitVec.ofNat 16 xs.length * h =
          r - BitVec.ofNat 16 (o :: xs).length * h := by
        rw [List.length_cons, BitVec.ofNat_add, add_mul, sub_sub, add_comm (_ * h)]
        congr 2
        exact (BitVec.one_mul h).symm
      rw [hcount] at hloop
      rw [List.foldlM_cons, shrink, unlink, hstep, hrun]
      exact hloop
    · rw [hl'x, hmem, List.mem_cons, not_or]
      tauto

end

end

theorem hide_eq_shrink (m : Menu) (obj : Nat) : hide root m obj = shrink root m obj := by
  rw [hide, shrink, unlink, unlink]
  cases objcDelete m.objs obj <;> rfl

/-- Entries are put back, and the box gets larger by a line for each of them. -/
theorem putBack_loop (big : Word) (b : Box m₀ root head tail h)
    (hl : Linked m₀.objs m.objs root (span head (tail + 1)) l) (hnd : xs.Nodup)
    (hxs : ∀ x ∈ xs, x ∈ span head (tail + 1) ∧ x ∉ l)
    (hh : m.obHeight = Function.update m₀.obHeight root r) (hpr : p.root = root)
    (hph : p.head = head) :
    ∃ t', xs.foldlM (putBack big p) m = .ok { m with
        objs := t'
        obHeight := Function.update m₀.obHeight root (r + BitVec.ofNat 16 xs.length * big)
        obState := fun e => if e ∈ xs then m.obState e &&& ~~~SELECTED else m.obState e
        obFlags := fun e => if e ∈ xs then NONE else m.obFlags e
        obY := fun e => if e ∈ xs then BitVec.ofNat 16 (e - head) * h else m.obY e } ∧
      Linked m₀.objs t' root (span head (tail + 1)) (l ++ xs) := by
  induction xs generalizing m l r with
  | nil =>
    refine ⟨m.objs, ?_, by rwa [List.append_nil]⟩
    rw [List.foldlM_nil, List.length_nil, show (BitVec.ofNat 16 0) * big = 0 from BitVec.zero_mul,
      add_zero, ← hh]
    simp only [List.not_mem_nil, if_false]
    rfl
  | cons c xs ih =>
    rcases hxs c List.mem_cons_self with ⟨hc, hcl⟩
    rcases hl.add b.kids (b.reach.lt b.wellFormed) hc hcl with ⟨t₁, hrun, hl₁⟩
    rcases List.nodup_cons.mp hnd with ⟨hcx, hnd⟩
    have hheadr : head ≠ root := fun heq =>
      b.root_not_entry ⟨Nat.le_of_eq heq, heq ▸ b.le⟩
    have hhead : m.obHeight head = h := by
      rw [hh, Function.update_of_ne hheadr, b.height head (Nat.le_refl _) b.le]
    have hstep : Function.update m.obHeight root (m.obHeight root + big) =
        Function.update m₀.obHeight root (r + big) := by
      rw [hh, Function.update_self, Function.update_idem]
    rcases ih (m := { m with
        objs := t₁
        obState := Function.update m.obState c (m.obState c &&& ~~~SELECTED)
        obHeight := Function.update m₀.obHeight root (r + big)
        obFlags := Function.update m.obFlags c NONE
        obY := Function.update m.obY c (BitVec.ofNat 16 (c - head) * h) }) hl₁ hnd (fun x hx => by
      rcases hxs x (List.mem_cons_of_mem c hx) with ⟨hxe, hxl⟩
      refine ⟨hxe, fun hmem => ?_⟩
      rcases List.mem_append.mp hmem with hmem | hmem
      · exact hxl hmem
      · exact hcx (List.mem_singleton.mp hmem ▸ hx)) rfl with ⟨t', hloop, hl'⟩
    refine ⟨t', ?_, by rwa [List.append_assoc, List.singleton_append] at hl'⟩
    -- an entry that has been put back is not put back again
    have hfield : ∀ {α : Type} (f : Nat → α) (g : Nat → α), (fun e => if e ∈ xs then
        g e else Function.update f c (g c) e) = fun e => if e ∈ c :: xs then g e else f e := by
      intro α f g
      funext e
      by_cases hec : e = c
      · rw [hec, if_neg hcx, if_pos List.mem_cons_self, Function.update_self]
      · rw [Function.update_of_ne hec]
        simp only [List.mem_cons, hec, false_or]
    have hstate : (fun e => if e ∈ xs then
        Function.update m.obState c (m.obState c &&& ~~~SELECTED) e &&& ~~~SELECTED
        else Function.update m.obState c (m.obState c &&& ~~~SELECTED) e) =
        fun e => if e ∈ c :: xs then m.obState e &&& ~~~SELECTED else m.obState e := by
      rw [← hfield m.obState fun e => m.obState e &&& ~~~SELECTED]
      funext e
      by_cases hex : e ∈ xs
      · have hec : e ≠ c := fun heq => hcx (heq ▸ hex)
        rw [if_pos hex, if_pos hex, Function.update_of_ne hec]
      · rw [if_neg hex, if_neg hex]
    have hcount : r + big + BitVec.ofNat 16 xs.length * big =
        r + BitVec.ofNat 16 (c :: xs).length * big := by
      rw [List.length_cons, BitVec.ofNat_add, add_mul, add_assoc, add_comm big]
      congr 2
      exact (BitVec.one_mul big).symm
    rw [hcount] at hloop
    simp only [hstate] at hloop
    rw [hfield m.obFlags fun _ => NONE, hfield m.obY fun e => BitVec.ofNat 16 (e - head) * h]
      at hloop
    have hput : putBack big p m c = .ok { m with
        objs := t₁
        obState := Function.update m.obState c (m.obState c &&& ~~~SELECTED)
        obHeight := Function.update m.obHeight root (m.obHeight root + big)
        obFlags := Function.update m.obFlags c NONE
        obY := Function.update m.obY c (BitVec.ofNat 16 (c - head) * m.obHeight head) } := by
      rw [putBack, relink, hpr, hrun, hph]
      rfl
    rw [hhead, hstep] at hput
    rw [List.foldlM_cons, hput]
    exact hloop

end

end Smn

end Aes

end MagiC
