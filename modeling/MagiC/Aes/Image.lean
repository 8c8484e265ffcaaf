import MagiC.Aes.Resource
import MagiC.Lib.Patch

/-!
# Resource Files

A file is its bytes. It has seven tables, and the header says where they are and how many
elements they have. What `_rsc_init` does with an element is known from the file alone, so
it is written down here as the bytes that are to be put in the place of others.

## Main definitions

* `Pass`: The loops over the elements.

## Theorems

* `elem_inside`, `own_inside`: An element is inside of the file.
-/

namespace MagiC

namespace Aes

namespace Rsc

open Memory

/-- A file. -/
structure Image where
  size : Nat
  byte : Nat → Byte

def Image.word (f : Image) (j : Nat) : Word := f.byte j ++ f.byte (j + 1)

def Image.long (f : Image) (j : Nat) : Long :=
  f.byte j ++ f.byte (j + 1) ++ f.byte (j + 2) ++ f.byte (j + 3)

/-- The tables. -/
inductive Kind where
  | object
  | tedinfo
  | iconblk
  | bitblk
  | frstr
  | frimg
  | tree
  deriving DecidableEq

def Kind.table : Kind → Nat
  | .object => 2
  | .tedinfo => 4
  | .iconblk => 6
  | .bitblk => 8
  | .frstr => 10
  | .frimg => 16
  | .tree => 18

def Kind.count : Kind → Nat
  | .object => 20
  | .tree => 22
  | .tedinfo => 24
  | .iconblk => 26
  | .bitblk => 28
  | .frstr => 30
  | .frimg => 32

def Kind.length : Kind → Nat
  | .object => 24
  | .tedinfo => 28
  | .iconblk => 34
  | .bitblk => 14
  | .frstr => 4
  | .frimg => 4
  | .tree => 4

theorem Kind.four_le_length (k : Kind) : 4 ≤ k.length := by
  cases k <;> decide

section

variable (f : Image)

def Image.number (k : Kind) : Nat := (f.word k.count).toNat

def Image.base (k : Kind) : Nat := (f.word k.table).toNat

/-- The length of the file, or of its part without extensions. -/
def Image.rssize : Nat := (f.word 34).toNat

def Image.elem (k : Kind) (i : Nat) : Nat := f.base k + i * k.length

def Image.InTable (j : Nat) : Prop :=
  ∃ k i, i < f.number k ∧ f.elem k i ≤ j ∧ j < f.elem k i + k.length

/-- A string, without the zero behind it. -/
def Image.StringAt (v len : Nat) : Prop :=
  (∀ n < len, f.byte (v + n) ≠ 0) ∧ f.byte (v + len) = 0

def Image.strlen (v : Nat) : Nat := (List.range f.size).findIdx fun n => f.byte (v + n) = 0

/-- The low byte of the type of an object. -/
def Image.obType (i : Nat) : Byte := (f.word (f.elem .object i + 6)).setWidth 8

/-- An object that has colours in the place of a pointer. -/
def Image.Boxed (i : Nat) : Prop :=
  f.obType i = G_BOX ∨ f.obType i = G_IBOX ∨ f.obType i = G_BOXCHAR

instance (i : Nat) : Decidable (f.Boxed i) :=
  inferInstanceAs (Decidable (_ ∨ _ ∨ _))

/-- The tables are apart and inside the file, and texts refer to strings. -/
structure Wellformed : Prop where
  small : f.size < 2 ^ 31
  header : 36 ≤ f.rssize
  rssize : f.rssize ≤ f.size
  inside : ∀ k, f.number k ≠ 0 → 36 ≤ f.base k ∧ f.base k + f.number k * k.length ≤ f.rssize
  apart : ∀ k k', k ≠ k' → f.number k ≠ 0 → f.number k' ≠ 0 →
    f.base k + f.number k * k.length ≤ f.base k' ∨ f.base k' + f.number k' * k'.length ≤ f.base k
  strings : ∀ i < f.number .tedinfo, ∀ c ∈ [0, 4], f.long (f.elem .tedinfo i + c) ≠ -1 →
    ∃ len, f.StringAt (f.long (f.elem .tedinfo i + c)).toNat len ∧ len + 1 < 2 ^ 16 ∧
      (f.long (f.elem .tedinfo i + c)).toNat + len < f.size ∧
      ∀ n ≤ len, ¬ f.InTable ((f.long (f.elem .tedinfo i + c)).toNat + n)
  noIcons : ∀ i < f.number .object, f.obType i ≠ G_CICON
  extension : f.word 0 = 4 → ∃ n, f.rssize + 4 + 4 * n + 4 ≤ f.size ∧
    (∀ k < n, f.long (f.rssize + 4 + 4 * k) = -1) ∧ f.long (f.rssize + 4 + 4 * n) = 0

def Placed (b : Long) (m : Mem) : Prop := ∀ j < f.size, m (b + BitVec.ofNat 32 j) = f.byte j

/-- What becomes of a distance. -/
def reloc (b v : Long) : Long := if v = -1 then -1 else v + b

/-- What becomes of a place in characters and pixels. -/
def obfixed (sc : Screen) (horizontal : Bool) (v : Word) : Word :=
  (if horizontal ∧ (v.setWidth 8 : Byte) = 80 then sc.scrW else
    (v.setWidth 8 : Byte).setWidth 16 * (if horizontal then sc.bigWchar else sc.bigHchar)) +
  (v.extractLsb' 8 8).signExtend 16

def Image.pointers : Kind → Nat → List Nat
  | .object, i => if f.Boxed i then [] else [12]
  | .tedinfo, _ => [0, 4, 8]
  | .iconblk, _ => [0, 4, 8]
  | _, _ => [0]

/-- The pointers of a text that have a length, and where the length is kept. -/
def lengths : List (Nat × Nat) := [(0, 24), (4, 26)]

/-- The fields of an object that are places or sizes, and their directions. -/
def places : List (Nat × Bool) := [(16, true), (18, false), (20, true), (22, false)]

/-- The fields of an element that may change: where they are and how long they are. -/
def Image.fields (k : Kind) (i : Nat) : List (Nat × Nat) :=
  (f.pointers k i).map (fun c => (c, 4)) ++
  match k with
  | .tedinfo => lengths.map fun x => (x.2, 2)
  | .object => places.map fun x => (x.1, 2)
  | _ => []

/-- What can be asked for: the table and the field, or none if what an element refers to is
    asked for. -/
def requests : List (Kind × Option Nat) :=
  [(.tree, none), (.object, some 0), (.tedinfo, some 0), (.iconblk, some 0), (.bitblk, some 0),
    (.frstr, none), (.frimg, none), (.object, some 12), (.tedinfo, some 0), (.tedinfo, some 4),
    (.tedinfo, some 8), (.iconblk, some 0), (.iconblk, some 4), (.iconblk, some 8),
    (.bitblk, some 0), (.frstr, some 0), (.frimg, some 0)]

def Image.answer (b : Long) (i : Nat) : Kind × Option Nat → Long
  | (k, none) => reloc b (f.long (f.elem k i))
  | (k, some c) => b + BitVec.ofNat 32 (f.elem k i + c)

/-- Every distance in the file has become an address, and nothing else has changed. -/
structure Relocated (b : Long) (sc : Screen) (g : Global) (m : Mem) : Prop where
  pointers : ∀ k, ∀ i < f.number k, ∀ c ∈ f.pointers k i,
    getLong m (b + BitVec.ofNat 32 (f.elem k i + c)) = reloc b (f.long (f.elem k i + c))
  lengths : ∀ i < f.number .tedinfo, ∀ x ∈ lengths, f.long (f.elem .tedinfo i + x.1) ≠ -1 →
    ∀ len, f.StringAt (f.long (f.elem .tedinfo i + x.1)).toNat len →
      (getWord m (b + BitVec.ofNat 32 (f.elem .tedinfo i + x.2))).toNat = len + 1
  places : ∀ i < f.number .object, ∀ x ∈ places,
    getWord m (b + BitVec.ofNat 32 (f.elem .object i + x.1)) =
      obfixed sc x.2 (f.word (f.elem .object i + x.1))
  same : ∀ j < f.size, (∀ k, ∀ i < f.number k, ∀ x ∈ f.fields k i,
    ¬ (f.elem k i + x.1 ≤ j ∧ j < f.elem k i + x.1 + x.2)) →
      m (b + BitVec.ofNat 32 j) = f.byte j
  answers : ∀ type (h : type < requests.length), ∀ index : Word,
    index.toNat < f.number requests[type].1 →
      rsrcGaddr g m (BitVec.ofNat 16 type) index = f.answer b index.toNat requests[type]

/-- The loops over the elements. -/
inductive Pass where
  | tree
  | tedinfo
  | ibPmask
  | ibPdata
  | ibPtext
  | biPdata
  | frstr
  | frimg
  | object
  deriving DecidableEq

def Pass.kind : Pass → Kind
  | .tree => .tree
  | .tedinfo => .tedinfo
  | .ibPmask => .iconblk
  | .ibPdata => .iconblk
  | .ibPtext => .iconblk
  | .biPdata => .bitblk
  | .frstr => .frstr
  | .frimg => .frimg
  | .object => .object

/-- Where the part of an element is that a loop looks at. -/
def Pass.field : Pass → Nat
  | .ibPdata => 4
  | .ibPtext => 8
  | _ => 0

/-- How long the part of an element is that a loop looks at. -/
def Pass.span : Pass → Nat
  | .tedinfo => 28
  | .object => 24
  | _ => 4

/-- Where a turn of a loop begins. -/
def Image.spot (t : Pass × Nat) : Nat := f.elem t.1.kind t.2 + t.1.field

/-- What belongs to a turn of a loop. -/
def Image.own (t : Pass × Nat) : Set Nat := {j | f.spot t ≤ j ∧ j < f.spot t + t.1.span}

/-- What belongs to no element. -/
def Image.common : Set Nat := {j | j < f.size ∧ ¬ f.InTable j}

def Image.ptr (b : Long) (o : Nat) : Patch Byte := ⟨o, longBytes (reloc b (f.long o))⟩

def Image.len (o l : Nat) : Patch Byte :=
  ⟨l, wordBytes (BitVec.ofNat 16 (f.strlen (f.long o).toNat + 1))⟩

def Image.xy (sc : Screen) (horizontal : Bool) (o : Nat) : Patch Byte :=
  ⟨o, wordBytes (obfixed sc horizontal (f.word o))⟩

def Image.fix (b : Long) (sc : Screen) (t : Pass × Nat) : List (Patch Byte) :=
  match t.1 with
  | .tedinfo =>
    [f.ptr b (f.spot t), f.len (f.spot t) (f.spot t + 24),
      f.ptr b (f.spot t + 4), f.len (f.spot t + 4) (f.spot t + 26), f.ptr b (f.spot t + 8)]
  | .object =>
    [f.xy sc true (f.spot t + 16), f.xy sc false (f.spot t + 18),
      f.xy sc true (f.spot t + 20), f.xy sc false (f.spot t + 22)] ++
    if f.Boxed t.2 then [] else [f.ptr b (f.spot t + 12)]
  | _ => [f.ptr b (f.spot t)]

end

section

variable {f : Image} {b : Long} {sc : Screen}

theorem span_le (p : Pass) : p.field + p.span ≤ p.kind.length := by
  cases p <;> decide

theorem elem_inside (hf : Wellformed f) {k : Kind} {i : Nat} (hi : i < f.number k) :
    36 ≤ f.elem k i ∧ f.elem k i + k.length ≤ f.rssize := by
  rcases hf.inside k (by omega) with ⟨hbase, hend⟩
  have hmul : (i + 1) * k.length ≤ f.number k * k.length := Nat.mul_le_mul_right _ hi
  rw [Nat.add_mul, Nat.one_mul] at hmul
  unfold Image.elem
  omega

theorem elem_apart (hf : Wellformed f) {k k' : Kind} {i i' j : Nat} (hi : i < f.number k)
    (hi' : i' < f.number k') (hne : (k, i) ≠ (k', i')) (hj : f.elem k i ≤ j)
    (hj₁ : j < f.elem k i + k.length) (hj' : f.elem k' i' ≤ j)
    (hj₁' : j < f.elem k' i' + k'.length) :
    False := by
  unfold Image.elem at hj hj₁ hj' hj₁'
  by_cases hk : k = k'
  · -- elements of one table
    rcases hk with rfl
    have hii : i ≠ i' := fun h => hne (by rw [h])
    rcases Nat.lt_or_gt_of_ne hii with h | h
    · have hmul : (i + 1) * k.length ≤ i' * k.length := Nat.mul_le_mul_right _ h
      rw [Nat.add_mul, Nat.one_mul] at hmul
      omega
    · have hmul : (i' + 1) * k.length ≤ i * k.length := Nat.mul_le_mul_right _ h
      rw [Nat.add_mul, Nat.one_mul] at hmul
      omega
  · have hmul : (i + 1) * k.length ≤ f.number k * k.length := Nat.mul_le_mul_right _ hi
    have hmul' : (i' + 1) * k'.length ≤ f.number k' * k'.length := Nat.mul_le_mul_right _ hi'
    rw [Nat.add_mul, Nat.one_mul] at hmul hmul'
    have := hf.apart k k' hk (by omega) (by omega)
    omega

theorem own_inside (hf : Wellformed f) {t : Pass × Nat} (ht : t.2 < f.number t.1.kind) {j : Nat}
    (hj : j ∈ f.own t) :
    f.elem t.1.kind t.2 ≤ j ∧ j < f.elem t.1.kind t.2 + t.1.kind.length ∧ j < f.size := by
  have hspan := span_le t.1
  have hin := elem_inside hf ht
  have hsize := hf.rssize
  rcases hj with ⟨hlo, hhi⟩
  unfold Image.spot at hlo hhi
  omega

/-- What one turn of a loop changes has nothing to do with what another one does. -/
theorem own_apart (hf : Wellformed f) {t u : Pass × Nat} (ht : t.2 < f.number t.1.kind)
    (hu : u.2 < f.number u.1.kind) (hne : t ≠ u) {j : Nat} (hj : j ∈ f.own t) : j ∉ f.own u := by
  intro hj'
  rcases own_inside hf ht hj with ⟨hlo, hhi, -⟩
  rcases own_inside hf hu hj' with ⟨hlo', hhi', -⟩
  by_cases hel : (t.1.kind, t.2) = (u.1.kind, u.2)
  · -- the loops over the icons look at different parts of an element
    rcases t with ⟨p, i⟩
    rcases u with ⟨q, i'⟩
    rcases Prod.mk.inj hel with ⟨hk, rfl⟩
    rcases hj with ⟨hlo, hhi⟩
    rcases hj' with ⟨hlo', hhi'⟩
    unfold Image.spot at hlo hhi hlo' hhi'
    simp only at hk hlo hhi hlo' hhi'
    rw [hk] at hlo hhi
    have hpq : p ≠ q := fun h => hne (by rw [h])
    cases p <;> cases q <;> simp_all [Pass.kind, Pass.field, Pass.span] <;> omega
  · exact elem_apart hf ht hu hel hlo hhi hlo' hhi'

theorem common_own (hf : Wellformed f) {t : Pass × Nat} (ht : t.2 < f.number t.1.kind) {j : Nat}
    (hj : j ∈ f.common) : j ∉ f.own t := by
  intro h
  rcases own_inside hf ht h with ⟨hlo, hhi, -⟩
  exact hj.2 ⟨t.1.kind, t.2, ht, hlo, hhi⟩

theorem header_common (hf : Wellformed f) {j : Nat} (hj : j < 36) : j ∈ f.common := by
  refine ⟨?_, ?_⟩
  · have := hf.header
    have := hf.rssize
    omega
  · intro hin
    rcases hin with ⟨k, i, hi, hlo, -⟩
    have := (elem_inside hf hi).1
    omega

theorem behind_common (hf : Wellformed f) {j : Nat} (h : f.rssize ≤ j) (hj : j < f.size) :
    j ∈ f.common := by
  refine ⟨hj, ?_⟩
  intro hin
  rcases hin with ⟨k, i, hi, -, hhi⟩
  have := (elem_inside hf hi).2
  omega

theorem fix_field {t : Pass × Nat} {p : Patch Byte} (hp : p ∈ f.fix b sc t) :
    ∃ x ∈ f.fields t.1.kind t.2, p.place = f.elem t.1.kind t.2 + x.1 ∧ p.bytes.length = x.2 ∧
      t.1.field ≤ x.1 ∧ x.1 + x.2 ≤ t.1.field + t.1.span := by
  rcases t with ⟨q, i⟩
  cases q with
  | tedinfo =>
    simp only [Image.fix, List.mem_cons, List.not_mem_nil, or_false] at hp
    rcases hp with rfl | rfl | rfl | rfl | rfl
    · exact ⟨(0, 4), by simp [Image.fields, Image.pointers, Pass.kind], rfl, rfl,
        by simp [Pass.field, Pass.span]⟩
    · exact ⟨(24, 2), by simp [Image.fields, lengths, Pass.kind], rfl, rfl,
        by simp [Pass.field, Pass.span]⟩
    · exact ⟨(4, 4), by simp [Image.fields, Image.pointers, Pass.kind], rfl, rfl,
        by simp [Pass.field, Pass.span]⟩
    · exact ⟨(26, 2), by simp [Image.fields, lengths, Pass.kind], rfl, rfl,
        by simp [Pass.field, Pass.span]⟩
    · exact ⟨(8, 4), by simp [Image.fields, Image.pointers, Pass.kind], rfl, rfl,
        by simp [Pass.field, Pass.span]⟩
  | object =>
    simp only [Image.fix, List.mem_append, List.mem_cons, List.not_mem_nil, or_false] at hp
    rcases hp with (rfl | rfl | rfl | rfl) | hp
    · exact ⟨(16, 2), by simp [Image.fields, places, Pass.kind], rfl, rfl,
        by simp [Pass.field, Pass.span]⟩
    · exact ⟨(18, 2), by simp [Image.fields, places, Pass.kind], rfl, rfl,
        by simp [Pass.field, Pass.span]⟩
    · exact ⟨(20, 2), by simp [Image.fields, places, Pass.kind], rfl, rfl,
        by simp [Pass.field, Pass.span]⟩
    · exact ⟨(22, 2), by simp [Image.fields, places, Pass.kind], rfl, rfl,
        by simp [Pass.field, Pass.span]⟩
    · -- there is a pointer only if there are no colours in its place
      split at hp
      · exact absurd hp List.not_mem_nil
      · rename_i hbox
        rw [List.mem_singleton] at hp
        rw [hp]
        exact ⟨(12, 4), by simp [Image.fields, Image.pointers, Pass.kind, hbox], rfl, rfl,
          by simp [Pass.field, Pass.span]⟩
  | _ =>
    simp only [Image.fix, List.mem_singleton] at hp
    rw [hp]
    refine ⟨(_, 4), ?_, rfl, rfl, Nat.le_refl _, Nat.le_refl _⟩
    simp [Image.fields, Image.pointers, Pass.kind]

theorem fix_own {t : Pass × Nat} {p : Patch Byte} (hp : p ∈ f.fix b sc t) {j : Nat}
    (hj : p.Covers j) : j ∈ f.own t := by
  rcases fix_field hp with ⟨x, -, hplace, hlen, hlo, hhi⟩
  rcases hj with ⟨hj, hj'⟩
  rw [hplace] at hj hj'
  rw [hlen] at hj'
  show f.spot t ≤ j ∧ j < f.spot t + t.1.span
  unfold Image.spot
  omega

theorem fix_unique {t : Pass × Nat} {p q : Patch Byte} (hp : p ∈ f.fix b sc t)
    (hq : q ∈ f.fix b sc t) {j : Nat} (hj : p.Covers j) (hj' : q.Covers j) : p = q := by
  rcases t with ⟨r, i⟩
  cases r with
  | tedinfo =>
    simp only [Image.fix, List.mem_cons, List.not_mem_nil, or_false] at hp hq
    generalize f.spot (.tedinfo, i) = s at hp hq
    unfold Patch.Covers at hj hj'
    rcases hp with rfl | rfl | rfl | rfl | rfl <;> rcases hq with rfl | rfl | rfl | rfl | rfl <;>
      first
      | rfl
      | (simp only [Image.ptr, Image.len, longBytes_length, wordBytes_length] at hj hj'; omega)
  | object =>
    have hmem : ∀ p ∈ f.fix b sc (.object, i), p = f.xy sc true (f.spot (.object, i) + 16) ∨
        p = f.xy sc false (f.spot (.object, i) + 18) ∨
        p = f.xy sc true (f.spot (.object, i) + 20) ∨
        p = f.xy sc false (f.spot (.object, i) + 22) ∨
        p = f.ptr b (f.spot (.object, i) + 12) := by
      intro p hp
      unfold Image.fix at hp
      split_ifs at hp <;> simp at hp <;> tauto
    generalize f.spot (.object, i) = s at hmem
    unfold Patch.Covers at hj hj'
    rcases hmem p hp with rfl | rfl | rfl | rfl | rfl <;>
      rcases hmem q hq with rfl | rfl | rfl | rfl | rfl <;>
      first
      | rfl
      | (simp only [Image.ptr, Image.xy, longBytes_length, wordBytes_length] at hj hj'; omega)
  | _ =>
    simp only [Image.fix, List.mem_singleton] at hp hq
    rw [hp, hq]

end

end Rsc

end Aes

end MagiC
