import Mathlib.Data.BitVec
import Mathlib.Tactic.Common

/-!
# User and Group Ids

The calls that set the ids of a process. A process has a real, an effective and a
saved user id, and the same for groups. The routines get the offset of the triple,
so users and groups are treated in the same way.

`_setid` loads the effective id into the register that holds the id to be set. A
process of root gets its own effective id three times, which is 0, and any other
process keeps its ids. `_setreid` makes the saved id what it has been given for the
effective id, also when that is the value for "unchanged".

## Main definitions

* `Drops`: What a sequence of calls must do.

## Theorems

* `drops_iff`: A sequence of calls.
-/

namespace MagiC

namespace Uid

abbrev Id := BitVec 16

def EACCDN : Int := -36

/-- The value that leaves an id as it is. -/
def unchanged : Id := -1

/-- The real, the effective and the saved id. -/
structure Ids where
  ruid : Id
  euid : Id
  suid : Id
  deriving DecidableEq

/-- Users or groups. -/
inductive Kind where
  | user
  | group
  deriving DecidableEq

/-- The ids of a process. -/
structure Procdata where
  user : Ids
  group : Ids
  deriving DecidableEq

def Procdata.ids (p : Procdata) : Kind → Ids
  | .user => p.user
  | .group => p.group

def Procdata.set (p : Procdata) (i : Ids) : Kind → Procdata
  | .user => { p with user := i }
  | .group => { p with group := i }

@[simp] theorem ids_set (p : Procdata) (i : Ids) (k : Kind) : (p.set i k).ids k = i := by
  cases k <;> rfl

theorem ids_set_of_ne (p : Procdata) (i : Ids) (k l : Kind) (h : l ≠ k) :
    (p.set i k).ids l = p.ids l := by
  cases k <;> cases l <;> first | rfl | exact absurd rfl h

/-- `_setid`. The id that has been passed is overwritten. -/
def setid (_uid : Id) (i : Ids) : Int × Ids :=
  let d0 := i.euid
  if d0 = 0 then (d0.toNat, ⟨d0, d0, d0⟩)
  else if d0 = i.ruid then (d0.toNat, { i with euid := d0 })
  else if d0 = i.suid then (d0.toNat, { i with euid := d0 })
  else (EACCDN, i)

def setreid (ruid euid : Id) (i : Ids) : Int × Ids :=
  let d2 := i.ruid
  -- a process that is not of root may take its effective id for the real one
  if ruid ≠ unchanged ∧ ruid ≠ d2 ∧ ruid ≠ i.euid ∧ i.euid ≠ 0 then (EACCDN, i)
  else
    let i := if ruid = unchanged ∨ ruid = d2 then i else { i with ruid := ruid }
    let d0 := euid
    if d0 ≠ unchanged ∧ d0 ≠ i.euid ∧ d0 ≠ d2 ∧ d0 ≠ i.suid ∧ i.euid ≠ 0 then
      (EACCDN, { i with ruid := d2 })
    else
      let i := if d0 = unchanged ∨ d0 = i.euid then i else { i with euid := d0 }
      if ruid = unchanged ∧ (d0 = unchanged ∨ d0 = d2) then (0, i)
      else (0, { i with suid := d0 })

def seteid (uid : Id) (i : Ids) : Int × Ids :=
  match setreid unchanged uid i with
  | (d0, i) => if d0 ≠ 0 then (d0, i) else (uid.toNat, i)

/-- A routine for the triple of a kind. -/
def onIds (f : Ids → Int × Ids) (k : Kind) (p : Procdata) : Int × Procdata :=
  ((f (p.ids k)).1, p.set (f (p.ids k)).2 k)

def D_Psetuid (uid : Id) := onIds (setid uid) .user
def D_Psetgid (gid : Id) := onIds (setid gid) .group
def Psetreuid (ruid euid : Id) := onIds (setreid ruid euid) .user
def Psetregid (rgid egid : Id) := onIds (setreid rgid egid) .group
def D_Pseteuid (uid : Id) := onIds (seteid uid) .user
def D_Psetegid (gid : Id) := onIds (seteid gid) .group

/-- What a call asks for. -/
inductive Request where
  | id (uid : Id)
  | reid (ruid euid : Id)
  | eid (uid : Id)

/-- A call for users or groups. -/
structure IdCall where
  kind : Kind
  request : Request

def Request.run : Request → Ids → Int × Ids
  | .id u => setid u
  | .reid r e => setreid r e
  | .eid u => seteid u

/-- What a call gives and does. -/
def perform (p : Procdata) (c : IdCall) : Int × Procdata :=
  match c.kind, c.request with
  | .user, .id u => D_Psetuid u p
  | .group, .id u => D_Psetgid u p
  | .user, .reid r e => Psetreuid r e p
  | .group, .reid r e => Psetregid r e p
  | .user, .eid u => D_Pseteuid u p
  | .group, .eid u => D_Psetegid u p

/-- The ids after some calls. -/
def after (p : Procdata) (calls : List IdCall) : Procdata :=
  calls.foldl (fun p c => (perform p c).2) p

/-- One of the three ids. -/
def Among (x : Id) (i : Ids) : Prop := x = i.ruid ∨ x = i.euid ∨ x = i.suid

/-- None of the three ids is that of root. -/
def Nonzero (i : Ids) : Prop := i.ruid ≠ 0 ∧ i.euid ≠ 0 ∧ i.suid ≠ 0

/-- What a call must do to the triple of its kind. -/
structure Lawful (q : Request) (i i' : Ids) (ret : Int) : Prop where
  root : ∀ u, q = .id u → i.euid = 0 → i' = ⟨u, u, u⟩
  among : i.euid ≠ 0 → Among i'.ruid i ∧ Among i'.euid i ∧ Among i'.suid i
  error : ret = EACCDN → i' = i

/-- What a sequence of calls must do: Every call is lawful and leaves the other kind alone, and
after an id has been set that is not 0 none of the three is 0 any more. -/
def Drops (p : Procdata) (calls : List IdCall) : Prop :=
  ∀ pre c post, calls = pre ++ c :: post →
    Lawful c.request ((after p pre).ids c.kind) ((perform (after p pre) c).2.ids c.kind)
        (perform (after p pre) c).1 ∧
      (∀ k, k ≠ c.kind → (perform (after p pre) c).2.ids k = (after p pre).ids k) ∧
        ∀ u, c.request = .id u → u ≠ 0 → (perform (after p pre) c).1 ≠ EACCDN →
          ∀ mid rest, post = mid ++ rest →
            Nonzero ((after (perform (after p pre) c).2 mid).ids c.kind)

instance (i : Ids) : Decidable (Nonzero i) := inferInstanceAs (Decidable (_ ∧ _))

instance (x : Id) (i : Ids) : Decidable (Among x i) := inferInstanceAs (Decidable (_ ∨ _))

/-- The calls that keep the law: With an effective id of 0 only 0 is set, and the effective id is
not left as it is when the real one is set. -/
def Keeps (i : Ids) : Request → Prop
  | .id u => i.euid = 0 → u = 0
  | .reid r e => i.euid ≠ 0 → r ≠ unchanged → e = unchanged → r = i.ruid ∨ r = i.euid →
      Among unchanged i
  | .eid _ => True

/-- Where an id is set that is not 0 none of the three is 0. -/
def Leaves (i : Ids) : Request → Prop
  | .id u => u ≠ 0 → i.euid = 0 ∨ i.euid = i.ruid ∨ i.euid = i.suid → Nonzero i
  | _ => True

section

variable {i : Ids} {p : Procdata} {c : IdCall} {k : Kind}

theorem perform_eq (p : Procdata) (c : IdCall) : perform p c = onIds c.request.run c.kind p := by
  rcases c with ⟨k, q⟩
  cases k <;> cases q <;> rfl

theorem setid_root (u : Id) (h : i.euid = 0) : setid u i = (0, ⟨0, 0, 0⟩) := by
  unfold setid
  dsimp only
  rw [if_pos h, h]
  rfl

theorem setid_other (u : Id) (h : i.euid ≠ 0) : (setid u i).2 = i := by
  unfold setid
  dsimp only
  rw [if_neg h]
  split
  · rfl
  · split <;> rfl

theorem setid_ok (u : Id) :
    (setid u i).1 ≠ EACCDN ↔ i.euid = 0 ∨ i.euid = i.ruid ∨ i.euid = i.suid := by
  unfold setid EACCDN
  dsimp only
  split
  · rename_i h
    exact iff_of_true (by omega) (Or.inl h)
  · rename_i h
    split
    · rename_i hr
      exact iff_of_true (by omega) (Or.inr (Or.inl hr))
    · rename_i hr
      split
      · rename_i hs
        exact iff_of_true (by omega) (Or.inr (Or.inr hs))
      · rename_i hs
        exact iff_of_false (not_not.mpr rfl) fun hc => hc.elim h fun hc => hc.elim hr hs

/-- What `_setreid` asks of its arguments. -/
def Allowed (r e : Id) (i : Ids) : Prop :=
  (r = unchanged ∨ r = i.ruid ∨ r = i.euid ∨ i.euid = 0) ∧
    (e = unchanged ∨ e = i.euid ∨ e = i.ruid ∨ e = i.suid ∨ i.euid = 0)

/-- The ids that `_setreid` leaves. -/
def newIds (r e : Id) (i : Ids) : Ids where
  ruid := if r = unchanged then i.ruid else r
  euid := if e = unchanged then i.euid else e
  suid := if r = unchanged ∧ (e = unchanged ∨ e = i.ruid) then i.suid else e

theorem setreid_error (r e : Id) (i : Ids) (h : ¬ Allowed r e i) : setreid r e i = (EACCDN, i) := by
  rcases i with ⟨ri, ei, si⟩
  unfold Allowed at h
  unfold setreid
  grind

theorem setreid_ok (r e : Id) (i : Ids) (h : Allowed r e i) :
    setreid r e i = (0, newIds r e i) := by
  unfold Allowed at h
  have hreal : ¬ (r ≠ unchanged ∧ r ≠ i.ruid ∧ r ≠ i.euid ∧ i.euid ≠ 0) := by
    rintro ⟨h1, h2, h3, h4⟩
    rcases h.1 with hr | hr | hr | hr
    · exact h1 hr
    · exact h2 hr
    · exact h3 hr
    · exact h4 hr
  -- the real id after the first half
  have hset : (if r = unchanged ∨ r = i.ruid then i else { i with ruid := r }) =
      { i with ruid := if r = unchanged then i.ruid else r } := by
    by_cases hr : r = unchanged
    · rw [if_pos (Or.inl hr), if_pos hr]
    · rw [if_neg hr]
      by_cases hr' : r = i.ruid
      · rw [if_pos (Or.inr hr'), hr']
      · rw [if_neg (not_or.mpr ⟨hr, hr'⟩)]
  have heff : ¬ (e ≠ unchanged ∧ e ≠ i.euid ∧ e ≠ i.ruid ∧ e ≠ i.suid ∧ i.euid ≠ 0) := by
    rintro ⟨h1, h2, h3, h4, h5⟩
    rcases h.2 with he | he | he | he | he
    · exact h1 he
    · exact h2 he
    · exact h3 he
    · exact h4 he
    · exact h5 he
  unfold setreid newIds
  dsimp only
  rw [if_neg hreal, hset, if_neg heff]
  by_cases he : e = unchanged
  · rw [if_pos (Or.inl he), if_pos he]
    split <;> rfl
  · rw [if_neg he]
    by_cases he' : e = i.euid
    · rw [if_pos (Or.inr he'), ← he']
      split <;> rfl
    · rw [if_neg (not_or.mpr ⟨he, he'⟩)]
      split <;> rfl

theorem among_self (i : Ids) : Among i.ruid i ∧ Among i.euid i ∧ Among i.suid i :=
  ⟨Or.inl rfl, Or.inr (Or.inl rfl), Or.inr (Or.inr rfl)⟩

theorem newIds_among (r e : Id) (i : Ids) (h : Allowed r e i) (he : i.euid ≠ 0) :
    Among (newIds r e i).ruid i ∧ Among (newIds r e i).euid i ∧
      (Among (newIds r e i).suid i ↔ (r ≠ unchanged → e = unchanged → Among unchanged i)) := by
  have hself := among_self i
  have hreal : r ≠ unchanged → Among r i := by
    intro hr
    rcases h.1 with hc | hc | hc | hc
    · exact absurd hc hr
    · exact hc ▸ hself.1
    · exact hc ▸ hself.2.1
    · exact absurd hc he
  have heff : e ≠ unchanged → Among e i := by
    intro hu
    rcases h.2 with hc | hc | hc | hc | hc
    · exact absurd hc hu
    · exact hc ▸ hself.2.1
    · exact hc ▸ hself.1
    · exact hc ▸ hself.2.2
    · exact absurd hc he
  unfold newIds
  dsimp only
  refine ⟨?_, ?_, ?_⟩
  · split
    · exact hself.1
    · exact hreal ‹_›
  · split
    · exact hself.2.1
    · exact heff ‹_›
  · split
    · rename_i hkeep
      exact iff_of_true hself.2.2 fun hr => absurd hkeep.1 hr
    · rename_i hset
      by_cases hu : e = unchanged
      · rw [hu]
        refine ⟨fun ha _ _ => ha, fun ha => ha (fun hr => hset ⟨hr, Or.inl hu⟩) rfl⟩
      · exact iff_of_true (heff hu) fun _ hc => absurd hc hu

theorem setreid_lawful (r e : Id) (i : Ids) :
    Lawful (.reid r e) i (setreid r e i).2 (setreid r e i).1 ↔ Keeps i (.reid r e) := by
  by_cases hok : Allowed r e i
  · rw [setreid_ok r e i hok]
    constructor
    · intro h he hr hu _
      exact (newIds_among r e i hok he).2.2.mp (h.among he).2.2 hr hu
    · intro h
      refine ⟨fun u hu => (by cases hu), fun he => ?_, fun herr => ?_⟩
      · have hamong := newIds_among r e i hok he
        refine ⟨hamong.1, hamong.2.1, hamong.2.2.mpr fun hr hu => h he hr hu ?_⟩
        rcases hok.1 with hc | hc | hc | hc
        · exact absurd hc hr
        · exact Or.inl hc
        · exact Or.inr hc
        · exact absurd hc he
      · exact absurd (show (0 : Int) = EACCDN from herr) (by decide)
  · rw [setreid_error r e i hok]
    refine iff_of_true ⟨fun u hu => (by cases hu), fun _ => among_self i, fun _ => rfl⟩ ?_
    intro he hr hu hreal
    refine absurd ⟨?_, Or.inl hu⟩ hok
    rcases hreal with hc | hc
    · exact Or.inr (Or.inl hc)
    · exact Or.inr (Or.inr (Or.inl hc))

theorem seteid_error (u : Id) (i : Ids) (h : ¬ Allowed unchanged u i) :
    seteid u i = (EACCDN, i) := by
  unfold seteid
  rw [setreid_error _ _ _ h]
  rfl

theorem seteid_ok (u : Id) (i : Ids) (h : Allowed unchanged u i) :
    seteid u i = ((u.toNat : Int), newIds unchanged u i) := by
  unfold seteid
  rw [setreid_ok _ _ _ h]
  rfl

theorem seteid_lawful (u : Id) (i : Ids) : Lawful (.eid u) i (seteid u i).2 (seteid u i).1 := by
  by_cases hok : Allowed unchanged u i
  · rw [seteid_ok u i hok]
    refine ⟨fun v hv => (by cases hv), fun he => ?_, fun herr => ?_⟩
    · have hamong := newIds_among unchanged u i hok he
      exact ⟨hamong.1, hamong.2.1, hamong.2.2.mpr fun hr => absurd rfl hr⟩
    · have hneg : (u.toNat : Int) = -36 := herr
      omega
  · rw [seteid_error u i hok]
    exact ⟨fun v hv => (by cases hv), fun _ => among_self i, fun _ => rfl⟩

theorem setid_lawful (u : Id) (i : Ids) :
    Lawful (.id u) i (setid u i).2 (setid u i).1 ↔ Keeps i (.id u) := by
  by_cases he : i.euid = 0
  · rw [setid_root u he]
    constructor
    · intro h _
      have hall := h.root u rfl he
      exact (congrArg Ids.ruid hall).symm
    · intro h
      refine ⟨fun v hv _ => ?_, fun hne => absurd he hne, fun herr => ?_⟩
      · cases hv
        rw [h he]
      · exact absurd (show (0 : Int) = EACCDN from herr) (by decide)
  · rw [setid_other u he]
    exact iff_of_true ⟨fun v _ hz => absurd hz he, fun _ => among_self i, fun _ => rfl⟩
      fun hz => absurd hz he

theorem lawful_iff (q : Request) (i : Ids) :
    Lawful q i (q.run i).2 (q.run i).1 ↔ Keeps i q := by
  cases q with
  | id u => exact setid_lawful u i
  | reid r e => exact setreid_lawful r e i
  | eid u => exact iff_of_true (seteid_lawful u i) trivial

/-- A triple without the id of root stays so. -/
theorem nonzero_kept (q : Request) (h : Nonzero i) : Nonzero (q.run i).2 := by
  have hnew : ∀ r e, Allowed r e i → Nonzero (newIds r e i) := by
    intro r e hok
    have hamong := newIds_among r e i hok h.2.1
    have hne : ∀ x, Among x i → x ≠ 0 := by
      intro x hx
      rcases hx with hx | hx | hx
      · exact hx ▸ h.1
      · exact hx ▸ h.2.1
      · exact hx ▸ h.2.2
    refine ⟨hne _ hamong.1, hne _ hamong.2.1, ?_⟩
    by_cases hsaved : r ≠ unchanged → e = unchanged → Among unchanged i
    · exact hne _ (hamong.2.2.mpr hsaved)
    · -- the saved id becomes the value for "unchanged"
      unfold newIds
      dsimp only
      split
      · exact h.2.2
      · by_contra hz
        refine hsaved fun _ hu => ?_
        rw [hu] at hz
        exact absurd hz (by decide)
  cases q with
  | id u =>
    show Nonzero (setid u i).2
    rw [setid_other u h.2.1]
    exact h
  | reid r e =>
    show Nonzero (setreid r e i).2
    by_cases hok : Allowed r e i
    · rw [setreid_ok r e i hok]
      exact hnew r e hok
    · rw [setreid_error r e i hok]
      exact h
  | eid u =>
    show Nonzero (seteid u i).2
    by_cases hok : Allowed unchanged u i
    · rw [seteid_ok u i hok]
      exact hnew _ _ hok
    · rw [seteid_error u i hok]
      exact h

theorem ids_perform (p : Procdata) (c : IdCall) :
    (perform p c).2.ids c.kind = (c.request.run (p.ids c.kind)).2 := by
  rw [perform_eq]
  exact ids_set _ _ _

theorem ids_perform_of_ne (p : Procdata) (c : IdCall) (k : Kind) (h : k ≠ c.kind) :
    (perform p c).2.ids k = p.ids k := by
  rw [perform_eq]
  exact ids_set_of_ne _ _ _ _ h

theorem nonzero_after (calls : List IdCall) (h : Nonzero (p.ids k)) :
    Nonzero ((after p calls).ids k) := by
  -- the induction is on the calls
  induction calls generalizing p with
  | nil => exact h
  | cons c calls ih =>
    apply ih
    by_cases hk : k = c.kind
    · rw [hk, ids_perform]
      exact nonzero_kept _ (hk ▸ h)
    · rw [ids_perform_of_ne p c k hk]
      exact h

/-- A sequence of calls does what it must do if and only if every call of it keeps the law and
leaves no id of root behind. -/
theorem drops_iff (p : Procdata) (calls : List IdCall) :
    Drops p calls ↔ ∀ pre c post, calls = pre ++ c :: post →
      Keeps ((after p pre).ids c.kind) c.request ∧ Leaves ((after p pre).ids c.kind) c.request := by
  unfold Drops
  refine forall_congr' fun pre => forall_congr' fun c => forall_congr' fun post =>
    imp_congr_right fun _ => ?_
  have hret : (perform (after p pre) c).1 = (c.request.run ((after p pre).ids c.kind)).1 := by
    rw [perform_eq]
    rfl
  rw [hret, ids_perform, lawful_iff]
  refine and_congr_right fun _ => ?_
  rw [and_iff_right fun k hk => ids_perform_of_ne _ c k hk]
  generalize (after p pre) = p'
  constructor
  · intro h
    rcases c with ⟨kind, q⟩
    cases q with
    | id u =>
      intro hu hok
      have hzero := h u rfl hu ((setid_ok u).mpr hok) [] post rfl
      rw [show after (perform p' ⟨kind, .id u⟩).2 [] = (perform p' ⟨kind, .id u⟩).2 from rfl,
        ids_perform] at hzero
      by_cases he : (p'.ids kind).euid = 0
      · have hroot : Nonzero (setid u (p'.ids kind)).2 := hzero
        rw [setid_root u he] at hroot
        exact absurd rfl hroot.1
      · have hother : Nonzero (setid u (p'.ids kind)).2 := hzero
        rw [setid_other u he] at hother
        exact hother
    | reid r e => exact trivial
    | eid u => exact trivial
  · intro h u hq hu hok mid rest _
    rw [hq] at h hok
    have hnz := h hu ((setid_ok u).mp hok)
    apply nonzero_after
    rw [ids_perform]
    exact nonzero_kept _ hnz

/-- Root that sets another id has the id of root three times afterwards. -/
theorem setuid_keeps_root :
    ¬ Drops ⟨⟨0, 0, 0⟩, ⟨0, 0, 0⟩⟩ [⟨.user, .id 5⟩] := by
  intro h
  have hroot := (h [] ⟨.user, .id 5⟩ [] rfl).1.root 5 rfl rfl
  exact absurd hroot (by decide)

end

end Uid

end MagiC
