import MagiC.Aes.Loaded
import Mathlib.Tactic.IntervalCases

/-!
# Setting an Address in a Resource

`rsrc_saddr` of `aesrsc.s`, with the stack.

The value is kept on the stack while `rsrc_gaddr` looks for the place it is to be stored at,
which puts a return address and an entry of its table behind it. At the end the value is to be
taken off the stack. It is a longword, and a word is taken off.

So the value gets where it belongs, and nothing else in the resource is changed, but the caller
is not returned to.

## Main definitions

* `Cpu.rsrcSaddr`: The routine up to its last instruction.

## Theorems

* `rsrcSaddr_never`: It never returns to its caller.
-/

namespace MagiC

namespace Aes

namespace Rsc

open Memory

/-- Memory, the stack pointer and `d0`. -/
structure Cpu where
  mem : Mem
  sp : Long
  d0 : Long

def Cpu.pushLong (c : Cpu) (v : Long) : Cpu :=
  { c with mem := setLong c.mem (c.sp - 4) v, sp := c.sp - 4 }

def Cpu.pushWord (c : Cpu) (v : Word) : Cpu :=
  { c with mem := setWord c.mem (c.sp - 2) v, sp := c.sp - 2 }

def rgWord (x : Nat × Int) : Word := BitVec.ofNat 8 x.1 ++ BitVec.ofInt 8 x.2

/-- `rsrc_gaddr`, to return to `pc`. The entry of `rg_tab` is on the stack while the table is
    looked up. -/
def Cpu.rsrcGaddr (c : Cpu) (g : Global) (pc : Long) (type index : Word) : Cpu :=
  let c1 := c.pushLong pc
  let c2 := if type = 0 then c1 else
    match rgTab[(type - 1).toNat]? with
    | none => c1
    | some x => c1.pushWord (rgWord x)
  { mem := c2.mem, sp := c.sp, d0 := Rsc.rsrcGaddr g c2.mem type index }

/-- `rsrc_saddr` up to `rts`. -/
def Cpu.rsrcSaddr (c : Cpu) (g : Global) (pc : Long) (type index : Word) (value : Long) : Cpu :=
  let c := (c.pushLong value).rsrcGaddr g pc type index
  let c := if c.d0 + 1 = 0 then { c with d0 := 0 }
    else { c with mem := setLong c.mem c.d0 (getLong c.mem c.sp), d0 := 1 }
  { c with sp := c.sp + 2 }

/-- Where `rts` goes. -/
def Cpu.rts (c : Cpu) : Long := getLong c.mem c.sp

/-- What the caller of a routine sees when it has returned. -/
structure Returns (c c' : Cpu) (d0 : Long) : Prop where
  sp : c'.sp = c.sp
  pc : c'.rts = c.rts
  d0 : c'.d0 = d0

section

variable (f : Image)

/-- A request for an address that is stored in an element. -/
structure Image.Stored (type index : Word) : Prop where
  low : 7 ≤ type.toNat
  high : type.toNat ≤ 16
  index : index.toNat < f.number (requests.getD type.toNat (.object, none)).1

/-- Where the address is stored. -/
def Image.spotOf (type index : Word) : Nat :=
  f.elem (requests.getD type.toNat (.object, none)).1 index.toNat +
    (requests.getD type.toNat (.object, none)).2.getD 0

/-- One address is set, and the caller is told. -/
structure Sets (b : Long) (g : Global) (c c' : Cpu) (type index : Word) (value : Long) : Prop where
  returns : Returns c c' 1
  stored : getLong c'.mem (rsrcGaddr g c.mem type index) = value
  same : ∀ j < f.size, 4 ≤ (b + BitVec.ofNat 32 j - rsrcGaddr g c.mem type index).toNat →
    c'.mem (b + BitVec.ofNat 32 j) = c.mem (b + BitVec.ofNat 32 j)
  apart : ∀ type' index', f.Stored type' index' → (type', index') ≠ (type, index) →
    Apart (rsrcGaddr g c.mem type index) 4 (rsrcGaddr g c.mem type' index') 4

/-- Nothing is set, and the caller is told. -/
structure Rejects (b : Long) (c c' : Cpu) : Prop where
  returns : Returns c c' 0
  same : ∀ j < f.size, c'.mem (b + BitVec.ofNat 32 j) = c.mem (b + BitVec.ofNat 32 j)

/-- What is asked of `rsrc_saddr`. -/
def Asked (b : Long) (g : Global) (c c' : Cpu) (type index : Word) (value : Long) : Prop :=
  (f.Stored type index → Sets f b g c c' type index value) ∧
    (16 < type.toNat → Rejects f b c c')

end

section

variable {f : Image} {b pc value : Long} {c : Cpu} {g : Global} {m : Mem} {sc : Screen}
  {type index type' index' : Word}

theorem fields_inside {k : Kind} {i : Nat} {x : Nat × Nat} (hx : x ∈ f.fields k i) :
    x.1 + x.2 ≤ k.length := by
  rcases List.mem_append.mp hx with hx | hx
  · rcases List.mem_map.mp hx with ⟨o, ho, rfl⟩
    cases k with
    | object =>
      by_cases hbox : f.Boxed i
      · rw [Image.pointers, if_pos hbox] at ho
        exact absurd ho List.not_mem_nil
      · rw [Image.pointers, if_neg hbox, List.mem_singleton] at ho
        rw [ho]
        decide
    | tedinfo => exact (by decide : ∀ o ∈ [0, 4, 8], o + 4 ≤ Kind.tedinfo.length) o ho
    | iconblk => exact (by decide : ∀ o ∈ [0, 4, 8], o + 4 ≤ Kind.iconblk.length) o ho
    | bitblk => exact (by decide : ∀ o ∈ [0], o + 4 ≤ Kind.bitblk.length) o ho
    | frstr => exact (by decide : ∀ o ∈ [0], o + 4 ≤ Kind.frstr.length) o ho
    | frimg => exact (by decide : ∀ o ∈ [0], o + 4 ≤ Kind.frimg.length) o ho
    | tree => exact (by decide : ∀ o ∈ [0], o + 4 ≤ Kind.tree.length) o ho
  · cases k with
    | object =>
      exact (by decide : ∀ x ∈ places.map fun x => (x.1, 2), x.1 + x.2 ≤ Kind.object.length) x hx
    | tedinfo =>
      exact (by decide : ∀ x ∈ lengths.map fun x => (x.2, 2), x.1 + x.2 ≤ Kind.tedinfo.length)
        x hx
    | _ => exact absurd hx List.not_mem_nil

theorem Relocated.reads (h : Relocated f b sc g m) : Reads f b f.common m := by
  intro j hj
  refine h.same j hj.1 fun k i hi x hx hin => hj.2 ⟨k, i, hi, ?_, ?_⟩
  · omega
  · have := fields_inside hx
    omega

theorem stored_requests {t : Nat} (hlow : 7 ≤ t) (hhigh : t ≤ 16) :
    ∃ k c typ, requests.getD t (.object, none) = (k, some c) ∧ c + 4 ≤ k.length ∧
      rgTab[t - 1]? = some (typ, (c : Int)) ∧ k.table = 2 * typ ∧
      structLenTab.getD typ 0 = k.length := by
  interval_cases t
  · exact ⟨.object, 12, 1, rfl, by decide, rfl, rfl, rfl⟩
  · exact ⟨.tedinfo, 0, 2, rfl, by decide, rfl, rfl, rfl⟩
  · exact ⟨.tedinfo, 4, 2, rfl, by decide, rfl, rfl, rfl⟩
  · exact ⟨.tedinfo, 8, 2, rfl, by decide, rfl, rfl, rfl⟩
  · exact ⟨.iconblk, 0, 3, rfl, by decide, rfl, rfl, rfl⟩
  · exact ⟨.iconblk, 4, 3, rfl, by decide, rfl, rfl, rfl⟩
  · exact ⟨.iconblk, 8, 3, rfl, by decide, rfl, rfl, rfl⟩
  · exact ⟨.bitblk, 0, 4, rfl, by decide, rfl, rfl, rfl⟩
  · exact ⟨.frstr, 0, 5, rfl, by decide, rfl, rfl, rfl⟩
  · exact ⟨.frimg, 0, 8, rfl, by decide, rfl, rfl, rfl⟩

theorem gaddr_spot (hf : Wellformed f) (h : Reads f b f.common m) (hs : f.Stored type index) :
    rsrcGaddr (glob f b) m type index = b + BitVec.ofNat 32 (f.spotOf type index) := by
  rcases stored_requests hs.low hs.high with ⟨k, o, typ, hreq, -, hrg, htab, hlen⟩
  have hlow := hs.low
  have ht : type ≠ 0 := by
    rintro rfl
    exact absurd hlow (by decide)
  have hsub : (type - 1).toNat = type.toNat - 1 := by
    have := hs.high
    bv_omega
  rw [gaddr_field hf h subset_rfl ht (by rw [hsub]; exact hrg) htab hlen]
  unfold Image.spotOf
  rw [hreq]
  rfl

theorem spot_inside (hf : Wellformed f) (hs : f.Stored type index) :
    36 ≤ f.spotOf type index ∧ f.spotOf type index + 4 ≤ f.size := by
  rcases stored_requests hs.low hs.high with ⟨k, o, typ, hreq, hlen, -⟩
  have hi : index.toNat < f.number k := by
    have hi := hs.index
    rwa [hreq] at hi
  rcases elem_inside hf hi with ⟨hlo, hhi⟩
  have hsize := hf.rssize
  have hspot : f.spotOf type index = f.elem k index.toNat + o := by
    unfold Image.spotOf
    rw [hreq]
    rfl
  omega

theorem spot_apart (hf : Wellformed f) (hs : f.Stored type index) (hs' : f.Stored type' index')
    (hne : (type', index') ≠ (type, index)) {j : Nat} (hj : f.spotOf type index ≤ j)
    (hj4 : j < f.spotOf type index + 4) (hj' : f.spotOf type' index' ≤ j)
    (hj4' : j < f.spotOf type' index' + 4) : False := by
  rcases stored_requests hs.low hs.high with ⟨k, o, typ, hreq, hlen, -⟩
  rcases stored_requests hs'.low hs'.high with ⟨k', o', typ', hreq', hlen', -⟩
  have hi : index.toNat < f.number k := by
    have hi := hs.index
    rwa [hreq] at hi
  have hi' : index'.toNat < f.number k' := by
    have hi' := hs'.index
    rwa [hreq'] at hi'
  have hspot : f.spotOf type index = f.elem k index.toNat + o := by
    unfold Image.spotOf
    rw [hreq]
    rfl
  have hspot' : f.spotOf type' index' = f.elem k' index'.toNat + o' := by
    unfold Image.spotOf
    rw [hreq']
    rfl
  by_cases hel : (k, index.toNat) = (k', index'.toNat)
  · -- Two addresses of one element are in different fields.
    rcases Prod.mk.inj hel with ⟨rfl, hindex⟩
    have hii : index' = index := BitVec.eq_of_toNat_eq hindex.symm
    rw [hii] at hspot' hj' hj4' hne
    have ho : o = o' := by
      have h4 : ∀ t, 7 ≤ t → t ≤ 16 → 4 ∣ (requests.getD t (.object, none)).2.getD 0 := by
        intro t hlow hhigh
        interval_cases t <;> decide
      have h1 := h4 _ hs.low hs.high
      have h2 := h4 _ hs'.low hs'.high
      rw [hreq] at h1
      rw [hreq'] at h2
      simp only [Option.getD_some] at h1 h2
      omega
    have hinj : ∀ t u, 7 ≤ t → t ≤ 16 → 7 ≤ u → u ≤ 16 →
        requests.getD t (.object, none) = requests.getD u (.object, none) → t = u := by
      intro t u ht ht' hu hu'
      interval_cases t <;> interval_cases u <;> decide
    have htype := hinj _ _ hs.low hs.high hs'.low hs'.high (by rw [hreq, hreq', ho])
    exact hne (by rw [BitVec.eq_of_toNat_eq htype])
  · exact elem_apart hf hi hi' hel (j := j) (by omega) (by omega) (by omega) (by omega)

theorem pushLong_out {i : Long} (h : 4 ≤ (i - (c.sp - 4)).toNat) :
    (c.pushLong value).mem i = c.mem i := setLong_out h

theorem pushWord_out {i : Long} {v : Word} (h : 2 ≤ (i - (c.sp - 2)).toNat) :
    (c.pushWord v).mem i = c.mem i := write_out h

theorem rsrcGaddr_out {i : Long} (h : 6 ≤ (i - (c.sp - 6)).toNat) :
    (c.rsrcGaddr g pc type index).mem i = c.mem i := by
  have hlong : (c.pushLong pc).mem i = c.mem i := pushLong_out (by bv_omega)
  have hsp : (c.pushLong pc).sp - 2 = c.sp - 6 := by
    show c.sp - 4 - 2 = c.sp - 6
    bv_omega
  have hword : ∀ v, ((c.pushLong pc).pushWord v).mem i = (c.pushLong pc).mem i := by
    intro v
    refine pushWord_out ?_
    rw [hsp]
    omega
  unfold Cpu.rsrcGaddr
  simp only
  by_cases ht : type = 0
  · rw [if_pos ht]
    exact hlong
  · rw [if_neg ht]
    cases rgTab[(type - 1).toNat]? with
    | none => exact hlong
    | some x => exact (hword _).trans hlong

theorem rsrcGaddr_stack (g : Global) (pc : Long) (type index : Word) (c : Cpu) (value : Long) :
    getLong ((c.pushLong value).rsrcGaddr g pc type index).mem (c.sp - 4) = value ∧
      ∀ i, 10 ≤ (i - (c.sp - 10)).toNat →
        ((c.pushLong value).rsrcGaddr g pc type index).mem i = c.mem i := by
  have hsp : (c.pushLong value).sp - 6 = c.sp - 10 := by
    show c.sp - 4 - 6 = c.sp - 10
    bv_omega
  constructor
  · have hlong : getLong (c.pushLong value).mem (c.sp - 4) = value := getLong_setLong (by decide)
    refine Eq.trans (getLong_congr fun n hn => rsrcGaddr_out ?_) hlong
    rw [hsp]
    bv_omega
  · intro i hi
    have hout : ((c.pushLong value).rsrcGaddr g pc type index).mem i =
      (c.pushLong value).mem i := by
      refine rsrcGaddr_out ?_
      rw [hsp]
      omega
    exact hout.trans (pushLong_out (by bv_omega))

/-- `rsrc_saddr` stores the value in the place it is for, and nowhere else in the resource. -/
theorem rsrcSaddr_stores (hf : Wellformed f) (hb : b.toNat + f.size ≤ 2 ^ 32)
    (hrel : Relocated f b sc (glob f b) c.mem) (hstack : Apart b f.size (c.sp - 10) 10)
    (hs : f.Stored type index) :
    let c' := c.rsrcSaddr (glob f b) pc type index value
    c'.d0 = 1 ∧ getLong c'.mem (rsrcGaddr (glob f b) c.mem type index) = value ∧
      ∀ j < f.size, 4 ≤ (b + BitVec.ofNat 32 j - rsrcGaddr (glob f b) c.mem type index).toNat →
        c'.mem (b + BitVec.ofNat 32 j) = c.mem (b + BitVec.ofNat 32 j) := by
  rcases rsrcGaddr_stack (glob f b) pc type index c value with ⟨hvalue, hout⟩
  have hfile : ∀ j < f.size,
      ((c.pushLong value).rsrcGaddr (glob f b) pc type index).mem (b + BitVec.ofNat 32 j) =
        c.mem (b + BitVec.ofNat 32 j) := by
    intro j hj
    refine hout _ (hstack _ ?_)
    rw [toNat_add_sub (by omega)]
    exact hj
  have hreads : Reads f b f.common
      ((c.pushLong value).rsrcGaddr (glob f b) pc type index).mem := fun j hj =>
    (hfile j hj.1).trans (hrel.reads j hj)
  have hspot := gaddr_spot hf hrel.reads hs
  have hd0 : ((c.pushLong value).rsrcGaddr (glob f b) pc type index).d0 =
      b + BitVec.ofNat 32 (f.spotOf type index) := gaddr_spot hf hreads hs
  have hne : ¬ b + BitVec.ofNat 32 (f.spotOf type index) + 1 = 0 := by
    have := spot_inside hf hs
    bv_omega
  unfold Cpu.rsrcSaddr
  simp only
  rw [hd0, if_neg hne, hspot]
  refine ⟨rfl, ?_, fun j hj hfar => ?_⟩
  · exact (getLong_setLong (by decide)).trans hvalue
  · exact (setLong_out hfar).trans (hfile j hj)

/-- The stored addresses are like the cells of an array: the one that is set has the value, and
    every other one is where it was, and what it was. -/
theorem rsrcSaddr_array (hf : Wellformed f) (hb : b.toNat + f.size ≤ 2 ^ 32)
    (hrel : Relocated f b sc (glob f b) c.mem) (hstack : Apart b f.size (c.sp - 10) 10)
    (hs : f.Stored type index) {c' : Cpu} (hc' : c' = c.rsrcSaddr (glob f b) pc type index value)
    (hs' : f.Stored type' index') :
    rsrcGaddr (glob f b) c'.mem type' index' = rsrcGaddr (glob f b) c.mem type' index' ∧
      getLong c'.mem (rsrcGaddr (glob f b) c'.mem type' index') =
        if (type', index') = (type, index) then value
        else getLong c.mem (rsrcGaddr (glob f b) c.mem type' index') := by
  obtain ⟨-, hvalue, hsame⟩ : (c.rsrcSaddr (glob f b) pc type index value).d0 = 1 ∧ _ ∧ _ :=
    rsrcSaddr_stores hf hb hrel hstack hs
  rw [gaddr_spot hf hrel.reads hs, ← hc'] at hvalue hsame
  have hin := spot_inside hf hs
  have hfar : ∀ j < f.size, ¬ (f.spotOf type index ≤ j ∧ j < f.spotOf type index + 4) →
      c'.mem (b + BitVec.ofNat 32 j) = c.mem (b + BitVec.ofNat 32 j) := fun j hj h =>
    hsame j hj (by bv_omega)
  -- What is set is in a table, and so it is not what the place of an address depends on.
  have hreads : Reads f b f.common c'.mem := by
    intro j hj
    refine (hfar j hj.1 fun hspot => hj.2 ?_).trans (hrel.reads j hj)
    rcases stored_requests hs.low hs.high with ⟨k, o, typ, hreq, hlen, -⟩
    have hi := hs.index
    unfold Image.spotOf at hspot
    rw [hreq] at hi hspot
    simp only [Option.getD_some] at hspot
    exact ⟨k, index.toNat, hi, by omega, by omega⟩
  have h := gaddr_spot hf hrel.reads hs'
  rw [gaddr_spot hf hreads hs', h]
  refine ⟨rfl, ?_⟩
  by_cases heq : (type', index') = (type, index)
  · rw [if_pos heq, (Prod.mk.inj heq).1, (Prod.mk.inj heq).2]
    exact hvalue
  · rw [if_neg heq]
    refine getLong_congr fun n hn => ?_
    have hin' := spot_inside hf hs'
    rw [add_ofNat]
    exact hfar _ (by omega) fun hspot =>
      spot_apart hf hs hs' heq hspot.1 hspot.2 (Nat.le_add_right _ n) (by omega)

theorem rsrcSaddr_sp : (c.rsrcSaddr g pc type index value).sp = c.sp - 2 := by
  have hsp : (c.rsrcSaddr g pc type index value).sp = c.sp - 4 + 2 := by
    unfold Cpu.rsrcSaddr
    simp only
    split <;> rfl
  rw [hsp]
  bv_omega

/-- The routine never returns to its caller, neither with the answer one nor with zero. -/
theorem rsrcSaddr_never (f : Image) (b : Long) (g : Global) (c : Cpu) (pc : Long)
    (type index : Word) (value : Long) (h : f.Stored type index ∨ 16 < type.toNat) :
    ¬ Asked f b g c (c.rsrcSaddr g pc type index value) type index value := by
  intro hasked
  have hsp : (c.rsrcSaddr g pc type index value).sp = c.sp := by
    rcases h with h | h
    · exact (hasked.1 h).returns.sp
    · exact (hasked.2 h).returns.sp
  rw [rsrcSaddr_sp] at hsp
  bv_omega

/-- The string of the text in the sample cannot be set. -/
theorem rsrcSaddr_never_sample :
    ¬ Asked (sample [0, 0, 0, 92]) 0x10000 (glob (sample [0, 0, 0, 92]) 0x10000)
      ⟨memoryOf (sample [0, 0, 0, 92]) 0x10000 0, 0x20000, 0⟩
      (Cpu.rsrcSaddr ⟨memoryOf (sample [0, 0, 0, 92]) 0x10000 0, 0x20000, 0⟩
        (glob (sample [0, 0, 0, 92]) 0x10000) 0x30000 8 0 0x1005e) 8 0 0x1005e :=
  rsrcSaddr_never _ _ _ _ _ _ _ _ (Or.inl ⟨by decide, by decide, by decide⟩)

/-- The sample, initialised at 0x10000, with the stack far behind it. -/
theorem rsrcSaddr_strays : ¬ ∀ (f : Image) (b : Long) (sc : Screen) (c : Cpu) (pc : Long)
    (type index : Word) (value : Long), Wellformed f → b.toNat + f.size ≤ 2 ^ 32 →
      Relocated f b sc (glob f b) c.mem → Apart b f.size (c.sp - 10) 10 →
      f.Stored type index ∨ 16 < type.toNat →
      Asked f b (glob f b) c (c.rsrcSaddr (glob f b) pc type index value) type index value := by
  intro h
  have hmem : [0, 0, 0, 92] ∈ sampleTexts := List.mem_cons_self
  have hf := sample_wellformed hmem
  have htree : (sample [0, 0, 0, 92]).number .tree ≤ 8192 := by decide
  have hs : (sample [0, 0, 0, 92]).Stored 8 0 := ⟨by decide, by decide, by decide⟩
  have hasked := h _ 0x10000 ⟨8, 16, 640⟩ ⟨_, 0x20000, 0⟩ 0x30000 8 0 0x1005e hf (by decide)
    (relocated hf (memoryOf_placed hf 0) htree)
    (fun i hi => by
      have hi' : (i - 0x10000).toNat < 98 := hi
      show 10 ≤ (i - (0x20000 - 10)).toNat
      bv_omega) (Or.inl hs)
  have hsp := (hasked.1 hs).returns.sp
  rw [rsrcSaddr_sp] at hsp
  exact absurd hsp (by decide)

/-- The string of the text in the sample is set, and its template is what it was. -/
theorem rsrcSaddr_array_sample : ∃ (g : Global) (c c' : Cpu),
    c' = c.rsrcSaddr g 0x30000 8 0 0x1005e ∧ getLong c'.mem (rsrcGaddr g c'.mem 8 0) = 0x1005e ∧
      getLong c'.mem (rsrcGaddr g c'.mem 9 0) = getLong c.mem (rsrcGaddr g c.mem 9 0) := by
  have hf := sample_wellformed (show [0, 0, 0, 92] ∈ sampleTexts from List.mem_cons_self)
  obtain ⟨m, hrel⟩ : ∃ m, Relocated (sample [0, 0, 0, 92]) 0x10000 ⟨8, 16, 640⟩
      (glob (sample [0, 0, 0, 92]) 0x10000) m :=
    ⟨_, relocated hf (memoryOf_placed hf 0) (by decide)⟩
  have hstack : Apart 0x10000 (sample [0, 0, 0, 92]).size ((0x20000 : Long) - 10) 10 := by
    intro i hi
    have hi' : (i - 0x10000).toNat < 98 := hi
    bv_omega
  have hs : (sample [0, 0, 0, 92]).Stored 8 0 := ⟨by decide, by decide, by decide⟩
  have hs' : (sample [0, 0, 0, 92]).Stored 9 0 := ⟨by decide, by decide, by decide⟩
  obtain ⟨c, hm, hsp⟩ : ∃ c : Cpu, c.mem = m ∧ c.sp = 0x20000 := ⟨⟨m, 0x20000, 0⟩, rfl, rfl⟩
  rw [← hm] at hrel
  rw [← hsp] at hstack
  have hb : (0x10000 : Long).toNat + (sample [0, 0, 0, 92]).size ≤ 2 ^ 32 := by decide
  exact ⟨_, c, _, rfl, (rsrcSaddr_array hf hb hrel hstack hs rfl hs).2.trans (if_pos rfl),
    (rsrcSaddr_array hf hb hrel hstack hs rfl hs').2.trans (if_neg (by decide))⟩

end

end Rsc

end Aes

end MagiC
