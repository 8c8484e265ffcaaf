import MagiC.Aes.Family

/-!
# Adding and Deleting Objects

What `objc_add` and `objc_delete` do to the child list of an object. Each changes the two
ends of the list and the links of objects in it, so the tree stays well formed
(`WellFormed.graft`, `WellFormed.relist`).

## Theorems

* `objcAdd_spec`, `objcDelete_spec`: The calls.
-/

namespace MagiC

namespace Aes

namespace Obj

open Chains

variable {t t' : Objs} {r p o x y c : Nat} {l m : List Nat}

theorem WellFormed.graft (hw : WellFormed t r) (hc : WellFormed t c)
    (hd : ∀ x, Reach t r x → ¬ Reach t c x) (hp : Reach t r p) (hl : Kids t p l)
    (h : Frame t t' p (c :: l)) (hm : Kids t' p (l ++ [c])) :
    WellFormed t' r ∧
      (∀ x m, Reach t r x ∨ Reach t c x → x ≠ p → Kids t x m → Kids t' x m) := by
  have apart : ∀ x, Reach t r x → Reach t c x → False := fun x hx => hd x hx
  have others : ∀ x m, Reach t r x ∨ Reach t c x → x ≠ p → Kids t x m → Kids t' x m := by
    intro x m hx hxp hxm
    refine h.kids hxp hxm fun d hdm hdl => ?_
    rcases hx with hx | hx
    · rcases List.mem_cons.mp hdl with rfl | hdl
      · exact apart d (Reach.child hx hxm hdm) Reach.root
      · exact hxp (hw.once x p m l d hx hp hxm hl hdm hdl)
    · rcases List.mem_cons.mp hdl with rfl | hdl
      · exact hc.root x m hx hxm hdm
      · exact apart d (Reach.child hp hl hdl) (Reach.child hx hxm hdm)
  -- what is reached now, and who had it as a child
  have old : ∀ x k, Reach t r x ∨ Reach t c x → Kids t' x k →
      ∀ d ∈ k, (x = p ∧ d = c) ∨ ∃ k', Kids t x k' ∧ d ∈ k' := by
    intro x k hx hk d hdk
    by_cases hxp : x = p
    · subst hxp
      rw [hk.unique hm] at hdk
      rcases List.mem_append.mp hdk with hdl | hdc
      · exact .inr ⟨l, hl, hdl⟩
      · exact .inl ⟨rfl, List.mem_singleton.mp hdc⟩
    · have hk' : ∃ k', Kids t x k' := by
        rcases hx with hx | hx
        · exact hw.kids x hx
        · exact hc.kids x hx
      rcases hk' with ⟨k', hk'⟩
      exact .inr ⟨k', hk', (others x k' hx hxp hk').unique hk ▸ hdk⟩
  have reach : ∀ x, Reach t' r x → Reach t r x ∨ Reach t c x := by
    intro x hx
    induction hx with
    | root => exact .inl Reach.root
    | @child y d k _ hk hdk ih =>
      rcases old y k ih hk d hdk with ⟨-, rfl⟩ | ⟨k', hk', hdk'⟩
      · exact .inr Reach.root
      · exact ih.imp (fun hy => Reach.child hy hk' hdk') fun hy => Reach.child hy hk' hdk'
  refine ⟨⟨h.size ▸ hw.lt, ?_, ?_, ?_⟩, others⟩
  · intro x hx
    by_cases hxp : x = p
    · subst hxp
      exact ⟨_, hm⟩
    · rcases reach x hx with hx | hx
      · exact (hw.kids x hx).imp fun k hk => others x k (.inl hx) hxp hk
      · exact (hc.kids x hx).imp fun k hk => others x k (.inr hx) hxp hk
  · intro x k hx hk hrk
    rcases old x k (reach x hx) hk r hrk with ⟨-, rfl⟩ | ⟨k', hk', hrk'⟩
    · exact apart r Reach.root Reach.root
    · rcases reach x hx with hx | hx
      · exact hw.root x k' hx hk' hrk'
      · exact apart r Reach.root (Reach.child hx hk' hrk')
  · intro x y k j d hx hy hk hj hdk hdj
    have hx := reach x hx
    have hy := reach y hy
    have single : ∀ z, Reach t r z ∨ Reach t c z → ∀ k', Kids t z k' → c ∈ k' → False := by
      intro z hz k' hk' hck
      rcases hz with hz | hz
      · exact apart c (Reach.child hz hk' hck) Reach.root
      · exact hc.root z k' hz hk' hck
    rcases old x k hx hk d hdk with ⟨rfl, rfl⟩ | ⟨k', hk', hdk'⟩
    · rcases old y j hy hj d hdj with ⟨rfl, -⟩ | ⟨j', hj', hdj'⟩
      · rfl
      · exact (single y hy j' hj' hdj').elim
    · rcases old y j hy hj d hdj with ⟨rfl, rfl⟩ | ⟨j', hj', hdj'⟩
      · exact (single x hx k' hk' hdk').elim
      · rcases hx with hx | hx <;> rcases hy with hy | hy
        · exact hw.once x y k' j' d hx hy hk' hj' hdk' hdj'
        · exact (apart d (Reach.child hx hk' hdk') (Reach.child hy hj' hdj')).elim
        · exact (apart d (Reach.child hy hj' hdj') (Reach.child hx hk' hdk')).elim
        · exact hc.once x y k' j' d hx hy hk' hj' hdk' hdj'

theorem objcAdd_spec (hp : p < t.size) (hc : c < t.size) (hcp : c ≠ p) (hl : Kids t p l)
    (hcl : c ∉ l) :
    ∃ t', objcAdd t p c = .ok t' ∧ Frame t t' p (c :: l) ∧ Kids t' p (l ++ [c]) := by
  rw [objcAdd, if_neg (ne_NIL hp), if_neg (ne_NIL hc), setNext_ok p hc, Outcome.ok_bind]
  by_cases hnil : l = []
  · -- the first child of an object without children
    have htail : t.obTail p = NIL := by
      rcases hl.sibs with ⟨-, -, ht⟩ | ⟨hne, -⟩
      · exact ht
      · exact absurd hnil hne
    rw [rd_ok (by exact hp), Outcome.ok_bind, if_pos htail, setHead_ok c (by exact hp),
      Outcome.ok_bind]
    refine ⟨_, setTail_ok c (show p < t.size from hp),
      ⟨rfl, fun x hx => Function.update_of_ne hx _ _, fun x hx => Function.update_of_ne hx _ _,
        fun x hx => ?_⟩, ?_, ?_, ?_⟩
    · exact Function.update_of_ne (fun h : x = c => hx (h ▸ List.mem_cons_self)) _ _
    · simp only [Function.update_self, hnil, List.nil_append]
      exact sibs_single (Function.update_self c p t.obNext)
    · rw [hnil]
      simpa using hcp.symm
    · rw [hnil]
      simpa using hc
  · have hmem := hl.sibs.mem_tail hnil
    have hne : t.obTail p ≠ NIL := ne_NIL (hl.lt _ hmem)
    have hct : c ≠ t.obTail p := fun h => hcl (h ▸ hmem)
    rw [rd_ok (by exact hp), Outcome.ok_bind, if_neg hne,
      setNext_ok c (by exact hl.lt _ hmem), Outcome.ok_bind]
    refine ⟨_, setTail_ok c (show p < t.size from hp),
      ⟨rfl, fun x _ => rfl, fun x hx => Function.update_of_ne hx _ _, fun x hx => ?_⟩, ?_, ?_, ?_⟩
    · have hx' := not_or.mp (mt List.mem_cons.mpr hx)
      simp only
      rw [Function.update_of_ne (fun h : x = t.obTail p => hx'.2 (h ▸ hmem)),
        Function.update_of_ne hx'.1]
    · simp only [Function.update_self]
      refine sibs_append hl.sibs hnil (Function.update_self _ _ _) ?_ ?_ hl.nodup
      · rw [Function.update_of_ne hct, Function.update_self]
      · intro z hz hzt
        rw [Function.update_of_ne hzt, Function.update_of_ne fun h : z = c => hcl (h ▸ hz)]
    · simp only [List.mem_append, List.mem_singleton, not_or]
      exact ⟨hl.self, hcp.symm⟩
    · intro d hd
      rcases List.mem_append.mp hd with hd | hd
      · exact hl.lt d hd
      · exact List.mem_singleton.mp hd ▸ hc

theorem objcDelete_spec (hw : WellFormed t r) (hp : Reach t r p) (hl : Kids t p l) (ho : o ∈ l)
    (h0 : o ≠ 0) :
    ∃ t', objcDelete t o = .ok t' ∧ Frame t t' p l ∧ Kids t' p (l.erase o) := by
  have hplt := hp.lt hw
  have hnd := hl.nodup
  rcases List.append_of_mem ho with ⟨a, b, rfl⟩
  have hpath := (hl.sibs.path (by simp)).1
  have hlast := (hl.sibs.path (by simp)).2
  rw [objcDelete, if_neg h0, rd_ok (hl.lt o ho), Outcome.ok_bind, hw.parentob hp hl ho,
    Outcome.ok_bind, rd_ok hplt, Outcome.ok_bind, rd_ok hplt, Outcome.ok_bind]
  rcases List.eq_nil_or_concat a with rfl | ⟨a, y, rfl⟩
  · have hhead : t.obHead p = o := hpath.1
    rw [if_pos hhead, List.nil_append, List.erase_cons_head]
    rcases b with - | ⟨z, b⟩
    · -- the only child
      have htail : t.obTail p = o := by simpa using hlast.symm
      rw [if_pos htail, setTail_ok NIL hplt, Outcome.ok_bind, setHead_ok NIL (by exact hplt)]
      refine ⟨_, rfl, ⟨rfl, fun x hx => Function.update_of_ne hx _ _,
        fun x hx => Function.update_of_ne hx _ _, fun x _ => rfl⟩, .inl ?_, ?_, ?_⟩
      · exact ⟨rfl, Function.update_self _ _ _, Function.update_self _ _ _⟩
      · exact List.not_mem_nil
      · exact fun d hd => absurd hd List.not_mem_nil
    · have htail : t.obTail p ≠ o := by
        have hmem : t.obTail p ∈ z :: b := by
          refine List.mem_of_getLast? ?_
          rwa [List.nil_append, List.getLast?_cons_cons] at hlast
        rw [List.nil_append] at hnd
        exact fun h => (List.nodup_cons.mp hnd).1 (h ▸ hmem)
      rw [if_neg htail, setHead_ok _ hplt]
      refine ⟨_, rfl, ⟨rfl, fun x hx => Function.update_of_ne hx _ _, fun x _ => rfl,
        fun x _ => rfl⟩, ?_, ?_, ?_⟩
      · simp only [Function.update_self]
        exact sibs_first hl.sibs (List.cons_ne_nil z b)
      · exact fun h => hl.self (List.mem_cons_of_mem o h)
      · exact fun d hd => hl.lt d (List.mem_cons_of_mem o hd)
  · rw [List.concat_eq_append, List.append_assoc] at hl hnd hpath hlast ⊢
    rw [List.singleton_append] at hl hnd hpath hlast ⊢
    have hyo : y ≠ o := by
      intro h
      rw [h] at hnd
      simp [List.nodup_append] at hnd
    have hhead : t.obHead p ≠ o := by
      intro h
      rcases a with - | ⟨z, a⟩
      · exact hyo (hpath.1.symm.trans h)
      · have hz : z = o := hpath.1.symm.trans h
        rw [hz] at hnd
        simp at hnd
    have herase : (a ++ y :: o :: b).erase o = a ++ y :: b := by
      have hoa : o ∉ a := by
        intro h
        exact (List.nodup_append.mp hnd).2.2 o h o (by simp) rfl
      rw [List.erase_append_right _ hoa, List.erase_cons_tail (by simpa using hyo),
        List.erase_cons_head]
    have hob : o ∉ b := by
      have := (List.nodup_append.mp hnd).2.1
      simp only [List.nodup_cons] at this
      exact this.2.1
    have hy : Function.update t.obNext y (t.obNext o) y = t.obNext o := Function.update_self _ _ _
    have hcut := sibs_cut hl.sibs hy fun z hz => by
        refine Function.update_of_ne (fun h => ?_) _ _
        rw [h] at hz
        rcases List.mem_append.mp hz with hz | hz
        · exact (List.nodup_append.mp hnd).2.2 y hz y (by simp) rfl
        · have := (List.nodup_append.mp hnd).2.1
          simp only [List.nodup_cons, List.mem_cons, not_or] at this
          exact this.1.2 hz
    have hself : p ∉ a ++ y :: b := fun h => hl.self (by
      rcases List.mem_append.mp h with h | h
      · exact List.mem_append_left _ h
      · rcases List.mem_cons.mp h with rfl | h <;> simp_all)
    have hlt : ∀ d ∈ a ++ y :: b, d < t.size := fun d hd => hl.lt d (by
      rcases List.mem_append.mp hd with h | h
      · exact List.mem_append_left _ h
      · rcases List.mem_cons.mp h with rfl | h <;> simp_all)
    have hnext : ∀ x, x ∉ a ++ y :: o :: b →
        Function.update t.obNext y (t.obNext o) x = t.obNext x :=
      fun x hx => Function.update_of_ne (fun h => hx (by simp [h])) _ _
    rw [if_neg hhead, hl.predObjc_next hplt, Outcome.ok_bind, setNext_ok _ (hl.lt y (by simp)),
      Outcome.ok_bind, herase]
    by_cases hb : b = []
    · have htail : t.obTail p = o := by
        rw [hb] at hlast
        simpa using hlast.symm
      rw [if_pos htail, setTail_ok y (by exact hplt)]
      rw [if_pos hb] at hcut
      refine ⟨_, rfl, ⟨rfl, fun x _ => rfl, fun x hx => Function.update_of_ne hx _ _, hnext⟩, ?_,
        hself, hlt⟩
      simp only [Function.update_self]
      exact hcut
    · have htail : t.obTail p ≠ o := by
        have hmem : t.obTail p ∈ b := by
          rcases b with - | ⟨z, b⟩
          · exact absurd rfl hb
          · refine List.mem_of_getLast? ?_
            rw [List.getLast?_append] at hlast
            simpa using hlast
        exact fun h => hob (h ▸ hmem)
      rw [if_neg htail]
      rw [if_neg hb] at hcut
      exact ⟨_, rfl, ⟨rfl, fun x _ => rfl, fun x _ => rfl, hnext⟩, hcut, hself, hlt⟩

end Obj

end Aes

end MagiC
