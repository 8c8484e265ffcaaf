import MagiC.Aes.Dispatch
import Mathlib.Data.List.Perm.Subperm

/-!
# Every Application Is on Its List

Any steps of the dispatcher and of the running application, in any order, with
interrupts in between.

`Base` is what holds of the lists and the applications at every point of the
code, with exceptions for applications that are just being moved: the running
one, and one that has been taken out of its list. Each routine is shown to keep
it. An application that waits can be on `notready_list` only as long as none of
its events has happened, because `event_happened`, `cnt_thr` and `appl_yield`
all look at both event words before they put it there or leave it there.

`cnt_thr` hangs an application that was stopped on the ready list again. The
running application is still on it after `stp_thr`, until it yields.

## Main definitions

* `Queued`: The lists belong to the states, except for the running application.

## Theorems

* `no_wakeup_lost`: The lists are consistent and no event is overlooked.
-/

namespace MagiC

namespace Sched

open Chains

/-- What the running application, the kernel and interrupts can do. -/
inductive SchedAct where
  | yield
  | suspend
  | wait (evtyp : BitVec 16)
  | waitRet
  | event (a : Nat) (ev : BitVec 16)
  | stop (a : Nat)
  | cont (a : Nat)
  | ready (a : Nat)
  | kring
  | kio
  | kswitch
  | iocp (a : Nat)
  | ring (e : List (Nat × BitVec 16))

/-- The applications there are. -/
structure Apps where
  apps : List Nat
  fuel : Nat
  apps_ne : 0 ∉ apps
  apps_lt : apps.length < fuel

/-- What an action does. -/
def exec (w : Apps) (s : State) : SchedAct → Option State
  | .yield => yield w.fuel s
  | .suspend => applSuspend w.fuel s
  | .wait evtyp => applWait w.fuel s evtyp
  | .waitRet => some (applWaitRet s)
  | .event a ev => eventHappened w.fuel s a ev
  | .stop a => stpThr w.fuel s a
  | .cont a => cntThr w.fuel s a
  | .ready a => app2ready w.fuel s a
  | .kring => kring w.fuel s
  | .kio => kio w.fuel w.apps s
  | .kswitch => some (kswitch s)
  | .iocp a => some (applIocomplete s a)
  | .ring e => some (writeEvnt s e)

/-- An application is running, and not inside of `appl_wait`. -/
def State.InUser (s : State) : Prop := s.inKernel = false ∧ s.inWait s.actAppl = false

def Enabled (w : Apps) (s : State) : SchedAct → Prop
  | .yield | .suspend | .wait _ => s.InUser
  | .waitRet => s.inKernel = false ∧ s.inWait s.actAppl = true
  | .event a _ | .stop a | .cont a | .ready a => s.InUser ∧ a ∈ w.apps
  | .kring => s.inKernel = true ∧ s.ringbuf ≠ []
  | .kio => s.inKernel = true ∧ s.ringbuf = [] ∧ s.iocpbufCnt ≠ 0
  | .kswitch => s.inKernel = true ∧ s.ringbuf = [] ∧ s.iocpbufCnt = 0 ∧
      (s.actAppl ≠ 0 ∨ s.next (.head .suspend) ≠ 0)
  | .iocp a => a ∈ w.apps
  | .ring e => ∀ p ∈ e, p.1 ∈ w.apps

def Step (w : Apps) (s : State) (act : SchedAct) (s' : State) : Prop :=
  Enabled w s act ∧ exec w s act = some s'

/-- The state an application on a list is in. -/
def Queue.status : Queue → Status
  | .act => .ready
  | .notready => .waiting
  | .suspend => .suspended

theorem Queue.status_inj (q r : Queue) (h : q.status = r.status) : q = r := by
  cases q <;> cases r <;> first | rfl | cases h

/-- The lists belong to the states of the applications, except for those of
    `ex`. -/
structure Base (w : Apps) (s : State) (L : Queue → List Nat) (ex : Nat → Prop) : Prop where
  lists : Lists s.next 0 L
  mem : ∀ q a, a ∈ L q → a ∈ w.apps
  listed : ∀ a ∈ w.apps, ¬ ex a → ∀ q, a ∈ L q ↔ s.status a = q.status
  moving : ∀ a, ex a → a ∉ L .notready ∧ a ∉ L .suspend
  noevent : ∀ a ∈ L .notready, s.rbits a &&& s.hbits a = 0
  waits : ∀ a ∈ L .notready, s.inWait a = true
  runs : ∀ a ∈ L .suspend, s.inWait a = false
  inwait : ∀ a, s.inWait a = false → s.rbits a = 0
  ring : ∀ e ∈ s.ringbuf, ∀ p ∈ e, p.1 ∈ w.apps

section

variable {w : Apps} {s s' : State} {L : Queue → List Nat} {ex : Nat → Prop}

section

variable (h : Base w s L ex)

include h

theorem Base.ne_zero (q : Queue) (a : Nat) (ha : a ∈ L q) : a ≠ 0 :=
  fun h0 => w.apps_ne (h0 ▸ h.mem q a ha)

theorem Base.length_lt (q : Queue) : (L q).length < w.fuel := by
  have hsub : L q ⊆ w.apps := fun a ha => h.mem q a ha
  exact Nat.lt_of_le_of_lt (List.subperm_of_subset (lists_nodup h.lists q) hsub).length_le
    w.apps_lt

theorem Base.absent (a : Nat) (ha : a ∈ w.apps) (hex : ¬ ex a)
    (hst : s.status a = .zombie ∨ s.status a = .stopped) : ∀ q, a ∉ L q := by
  intro q hq
  have hs := (h.listed a ha hex q).mp hq
  rw [hs] at hst
  cases q <;> rcases hst with hst | hst <;> cases hst

theorem Base.weaken (ex' : Nat → Prop) (hex : ∀ a, ex a → ex' a)
    (hmov : ∀ a, ex' a → a ∉ L .notready ∧ a ∉ L .suspend) : Base w s L ex' :=
  { h with
    listed := fun a ha hn => h.listed a ha fun e => hn (hex a e)
    moving := hmov }

theorem Base.remove (q : Queue) (a : Nat) (ha : a ∈ L q) :
    ∃ next, unlink w.fuel s.next 0 q a = some (next, true) ∧
      Base w { s with next := next } (Function.update L q ((L q).erase a)) (fun b => ex b ∨ b = a) ∧
      ∀ r, a ∉ Function.update L q ((L q).erase a) r := by
  rcases lists_unlink w.fuel q a h.lists ha (h.length_lt q) with ⟨next, hrun, hl⟩
  -- The other elements of the lists are what they were.
  have hmem : ∀ r b, b ∈ Function.update L q ((L q).erase a) r ↔ b ∈ L r ∧ b ≠ a := by
    intro r b
    by_cases hrq : r = q
    · subst hrq
      rw [Function.update_self, List.Nodup.mem_erase_iff (lists_nodup h.lists r), and_comm]
    · rw [Function.update_of_ne hrq]
      refine ⟨fun hb => ⟨hb, ?_⟩, fun hb => hb.1⟩
      intro e
      exact hrq (h.lists.disjoint r q a (e ▸ hb) ha)
  refine ⟨next, hrun, ⟨hl, ?_, ?_, ?_, ?_, ?_, ?_, h.inwait, h.ring⟩,
    fun r hr => ((hmem r a).mp hr).2 rfl⟩
  · exact fun r b hb => h.mem r b ((hmem r b).mp hb).1
  · intro b hb hn r
    rw [hmem r b, h.listed b hb (fun e => hn (.inl e)) r]
    exact and_iff_left fun e => hn (.inr e)
  · intro b hb
    rw [hmem, hmem]
    rcases hb with hb | hb
    · exact ⟨fun e => (h.moving b hb).1 e.1, fun e => (h.moving b hb).2 e.1⟩
    · exact ⟨fun e => e.2 hb, fun e => e.2 hb⟩
  · exact fun b hb => h.noevent b ((hmem _ b).mp hb).1
  · exact fun b hb => h.waits b ((hmem _ b).mp hb).1
  · exact fun b hb => h.runs b ((hmem _ b).mp hb).1

theorem Base.insert (q : Queue) (a : Nat) (l : List Nat)
    (next : Cell Queue Nat → Nat) (ha : a ∈ w.apps) (hout : ∀ r, a ∉ L r)
    (hl : Lists next 0 (Function.update L q l)) (hmem : ∀ b, b ∈ l ↔ b = a ∨ b ∈ L q)
    (hn : q = .notready → s.rbits a &&& s.hbits a = 0 ∧ s.inWait a = true)
    (hs : q = .suspend → s.inWait a = false) :
    Base w { s with next := next, status := Function.update s.status a q.status }
      (Function.update L q l) (fun b => ex b ∧ b ≠ a) := by
  -- The lists are those before and the application.
  have hall : ∀ r b, b ∈ Function.update L q l r ↔ b ∈ L r ∨ b = a ∧ r = q := by
    intro r b
    by_cases hrq : r = q
    · subst hrq
      rw [Function.update_self, hmem b, or_comm]
      simp
    · rw [Function.update_of_ne hrq]
      simp [hrq]
  refine ⟨hl, ?_, ?_, ?_, ?_, ?_, ?_, h.inwait, h.ring⟩
  · intro r b hb
    rcases (hall r b).mp hb with hb | hb
    · exact h.mem r b hb
    · exact hb.1 ▸ ha
  · intro b hb hnb r
    rw [hall r b]
    by_cases hba : b = a
    · subst hba
      simp only [hout r, false_or, true_and, Function.update_self]
      exact ⟨fun e => e ▸ rfl, fun e => (Queue.status_inj q r e).symm⟩
    · simp only [Function.update_of_ne hba, hba, false_and, or_false]
      exact h.listed b hb (fun e => hnb ⟨e, hba⟩) r
  · intro b hb
    have hm := h.moving b hb.1
    rw [hall, hall]
    exact ⟨fun e => e.elim hm.1 fun e => hb.2 e.1, fun e => e.elim hm.2 fun e => hb.2 e.1⟩
  · intro b hb
    rcases (hall _ b).mp hb with hb | hb
    · exact h.noevent b hb
    · exact hb.1 ▸ (hn hb.2.symm).1
  · intro b hb
    rcases (hall _ b).mp hb with hb | hb
    · exact h.waits b hb
    · exact hb.1 ▸ (hn hb.2.symm).2
  · intro b hb
    rcases (hall _ b).mp hb with hb | hb
    · exact h.runs b hb
    · exact hb.1 ▸ hs hb.2.symm

theorem Base.stop (a : Nat) (st : Status) (hout : ∀ r, a ∉ L r)
    (hst : st = .zombie ∨ st = .stopped) :
    Base w { s with status := Function.update s.status a st } L (fun b => ex b ∧ b ≠ a) := by
  refine { h with listed := fun b hb hnb r => ?_, moving := fun b hb => h.moving b hb.1 }
  by_cases hba : b = a
  · subst hba
    simp only [hout r, false_iff, Function.update_self]
    rcases hst with rfl | rfl <;> cases r <;> exact fun e => by cases e
  · dsimp only
    rw [Function.update_of_ne hba]
    exact h.listed b hb (fun e => hnb ⟨e, hba⟩) r

theorem Base.head : s.actAppl = (L .act).headD 0 := by
  have hon := h.lists.on .act
  cases hl : L .act with
  | nil =>
    rw [hl] at hon
    exact on_nil.mp hon
  | cons a l =>
    rw [hl] at hon
    exact ((on_cons a).mp hon).1

theorem Base.head_mem (h0 : s.actAppl ≠ 0) : ∃ l, L .act = s.actAppl :: l := by
  have hh := h.head
  cases hl : L .act with
  | nil =>
    rw [hl] at hh
    exact absurd hh h0
  | cons a l =>
    rw [hl] at hh
    exact ⟨l, by rw [hh]; rfl⟩

theorem Base.exempt (a : Nat) (st : Status) (ha : ex a) :
    Base w { s with status := Function.update s.status a st } L ex := by
  refine { h with listed := fun b hb hnb r => ?_ }
  have hba : b ≠ a := fun e => hnb (e ▸ ha)
  dsimp only
  rw [Function.update_of_ne hba]
  exact h.listed b hb hnb r

end

theorem Base.settle (a : Nat) (h : Base w s L (fun b => (ex b ∨ b = a) ∧ b ≠ a)) (hna : ¬ ex a) :
    Base w s L ex := by
  refine h.weaken ex (fun b hb => hb.1.resolve_right hb.2) fun b hb => h.moving b ⟨.inl hb, ?_⟩
  exact fun e => hna (e ▸ hb)

/-- What moving an application to the ready list leaves as it is. -/
structure Kept (s : State) (L : Queue → List Nat) (ex : Nat → Prop) (s' : State)
    (L' : Queue → List Nat) : Prop where
  inKernel : s'.inKernel = s.inKernel
  inWait : s'.inWait = s.inWait
  ringbuf : s'.ringbuf = s.ringbuf
  status : ∀ b, ex b → s'.status b = s.status b
  front : ∃ t, L' .act = L .act ++ t

theorem Kept.refl (s : State) (L : Queue → List Nat) (ex : Nat → Prop) : Kept s L ex s L :=
  ⟨rfl, rfl, rfl, fun _ _ => rfl, [], (List.append_nil _).symm⟩

theorem apToLastready_base (h : Base w s L ex) (a : Nat) (ha : a ∈ w.apps) (hout : ∀ r, a ∉ L r) :
    ∃ s', apToLastready w.fuel s a = some s' ∧ s'.status a = .ready ∧
      s' = { s with next := s'.next, status := s'.status } ∧
      (∀ b, b ≠ a → s'.status b = s.status b) ∧
      Base w s' (Function.update L .act (L .act ++ [a])) (fun b => ex b ∧ b ≠ a) := by
  have ha0 : a ≠ 0 := fun h0 => w.apps_ne (h0 ▸ ha)
  rcases lists_toLast w.fuel .act a h.lists hout ha0 (h.length_lt .act) with ⟨next, hrun, hl⟩
  have hb := h.insert .act a (L .act ++ [a]) next ha hout hl
    (fun b => by rw [List.mem_append, List.mem_singleton, or_comm])
    (fun e => by cases e) (fun e => by cases e)
  refine ⟨_, by rw [apToLastready, hrun]; rfl, Function.update_self _ _ _, rfl, ?_, hb⟩
  exact fun b hba => Function.update_of_ne hba _ _

theorem wake_base (h : Base w s L ex) (a : Nat) (rb hb : Nat → BitVec 16) (hna : ¬ ex a)
    (hq : a ∈ L .notready) (hrb : ∀ b, b ≠ a → rb b = s.rbits b)
    (hhb : ∀ b, b ≠ a → hb b = s.hbits b) :
    ∃ next s' L', unlink w.fuel s.next 0 .notready a = some (next, true) ∧
      apToLastready w.fuel { s with next := next, rbits := rb, hbits := hb } a = some s' ∧
      Base w s' L' ex ∧ Kept s L ex s' L' ∧ s'.rbits = rb ∧ s'.status a = .ready := by
  rcases h.remove .notready a hq with ⟨next, hrun, hbase, hout⟩
  have hb' : Base w { s with next := next, rbits := rb, hbits := hb }
      (Function.update L .notready ((L .notready).erase a)) (fun b => ex b ∨ b = a) := by
    refine { hbase with noevent := fun b hbn => ?_, inwait := fun b hbw => ?_ }
    · have hba : b ≠ a := fun e => hout .notready (e ▸ hbn)
      dsimp only
      rw [hrb b hba, hhb b hba]
      exact hbase.noevent b hbn
    · have hba : b ≠ a := by
        intro e
        have hw := h.waits a hq
        dsimp only at hbw
        rw [e, hw] at hbw
        cases hbw
      dsimp only
      rw [hrb b hba]
      exact h.inwait b hbw
  rcases apToLastready_base hb' a (h.mem _ a hq) hout with ⟨s', hrun', hst, hs', hother, hnew⟩
  refine ⟨next, s', _, hrun, hrun', hnew.settle a hna, ⟨?_, ?_, ?_, fun b hb => ?_, [a], ?_⟩, ?_,
    hst⟩
  · rw [hs']
  · rw [hs']
  · rw [hs']
  · exact hother b fun e => hna (e ▸ hb)
  · rw [Function.update_self, Function.update_of_ne (by decide)]
  · rw [hs']

/-- An event happens. The application is moved if it waits for it. -/
theorem eventHappened_base (h : Base w s L ex) (a : Nat) (ev : BitVec 16) (ha : a ∈ w.apps)
    (hex : ∀ b, ex b → s.status b = .ready ∨ s.status b = .stopped) :
    ∃ s' L', eventHappened w.fuel s a ev = some s' ∧ Base w s' L' ex ∧ Kept s L ex s' L' ∧
      s'.rbits = s.rbits := by
  unfold eventHappened
  simp only [Function.update_self]
  -- All but the events of the application itself is as it was.
  have hbits : (a ∈ L .notready → s.rbits a &&& (s.hbits a ||| ev) = 0) →
      Base w { s with hbits := Function.update s.hbits a (s.hbits a ||| ev) } L ex := by
    intro hno
    refine { h with noevent := fun b hb => ?_ }
    dsimp only
    by_cases hba : b = a
    · rw [hba, Function.update_self]
      exact hno (hba ▸ hb)
    · rw [Function.update_of_ne hba]
      exact h.noevent b hb
  by_cases hst : s.status a = .ready ∨ s.status a = .stopped
  · rw [if_pos hst]
    refine ⟨_, L, rfl, hbits fun hn => ?_, ⟨rfl, rfl, rfl, fun _ _ => rfl, [], by simp⟩, rfl⟩
    -- It is not on the list of those that wait.
    by_cases hexa : ex a
    · exact absurd hn (h.moving a hexa).1
    · have hw := (h.listed a ha hexa .notready).mp hn
      rw [hw] at hst
      rcases hst with hst | hst <;> cases hst
  · have hna : ¬ ex a := fun e => hst (hex a e)
    rw [if_neg hst]
    by_cases hz : (s.hbits a ||| ev) &&& s.rbits a = 0
    · rw [if_pos hz]
      refine ⟨_, L, rfl, hbits fun _ => ?_, ⟨rfl, rfl, rfl, fun _ _ => rfl, [], by simp⟩, rfl⟩
      rw [BitVec.and_comm]
      exact hz
    · rw [if_neg hz]
      cases hs : s.status a with
      | ready => exact absurd (.inl hs) hst
      | stopped => exact absurd (.inr hs) hst
      | waiting =>
        have hq : a ∈ L .notready := (h.listed a ha hna .notready).mpr hs
        rcases wake_base h a s.rbits (Function.update s.hbits a (s.hbits a ||| ev)) hna hq
          (fun _ _ => rfl) (fun b hb => Function.update_of_ne hb _ _) with
          ⟨next, s', L', hrun, hrun', hb, hk, hr, _⟩
        rw [hrun]
        exact ⟨s', L', hrun', hb, hk, hr⟩
      | suspended =>
        -- It was running when it was suspended, and does not wait for anything.
        have hq : a ∈ L .suspend := (h.listed a ha hna .suspend).mpr hs
        have hr := h.inwait a (h.runs a hq)
        rw [hr] at hz
        exact absurd (BitVec.and_zero) hz
      | zombie =>
        have hq : a ∉ L .notready := fun hn => by
          have hw := (h.listed a ha hna .notready).mp hn
          rw [hs] at hw
          cases hw
        rw [unlink_absent w.fuel .notready a h.lists hq (h.length_lt _)]
        simp only [if_true]
        exact ⟨_, L, rfl, hbits fun hn => absurd hn hq,
          ⟨rfl, rfl, rfl, fun _ _ => rfl, [], by simp⟩, rfl⟩

def State.Running (s : State) (a : Nat) : Prop := s.inKernel = false ∧ a = s.actAppl

instance (s : State) : DecidablePred s.Running := fun _ => inferInstanceAs (Decidable (_ ∧ _))

/-- The lists belong to the states, except for the running application, which
    is on the ready list until it yields. -/
structure Queued (w : Apps) (s : State) (L : Queue → List Nat) : Prop where
  base : Base w s L s.Running
  run : s.inKernel = false → s.actAppl ≠ 0 ∧
    (s.status s.actAppl = .ready ∨ s.status s.actAppl = .stopped)

theorem Queued.running_status (h : Queued w s L) (a : Nat) (ha : s.Running a) :
    s.status a = .ready ∨ s.status a = .stopped := ha.2 ▸ (h.run ha.1).2

theorem Queued.of_base {L' : Queue → List Nat} (h : Queued w s L) (hb : Base w s' L' s.Running)
    (hk : s'.inKernel = s.inKernel) (hh : s.inKernel = false → s'.actAppl = s.actAppl)
    (hst : s.inKernel = false →
      s'.status s.actAppl = .ready ∨ s'.status s.actAppl = .stopped) : Queued w s' L' := by
  refine ⟨hb.weaken s'.Running (fun a ha => ?_) (fun a ha => hb.moving a ?_), fun hu => ?_⟩
  · exact ⟨hk.trans ha.1, ha.2.trans (hh ha.1).symm⟩
  · have hu := hk.symm.trans ha.1
    exact ⟨hu, ha.2.trans (hh hu)⟩
  · have hu' := hk.symm.trans hu
    rw [hh hu']
    exact ⟨(h.run hu').1, hst hu'⟩

theorem Kept.actAppl {L' : Queue → List Nat} {ex' : Nat → Prop} (hk : Kept s L ex s' L')
    (h : Base w s L ex) (h' : Base w s' L' ex') (h0 : s.actAppl ≠ 0) :
    s'.actAppl = s.actAppl := by
  rcases hk.front with ⟨t, ht⟩
  rcases h.head_mem h0 with ⟨l, hl⟩
  rw [h'.head, ht, hl]
  rfl

theorem Queued.of_kept {L' : Queue → List Nat} (h : Queued w s L) (hb : Base w s' L' s.Running)
    (hk : Kept s L s.Running s' L') : Queued w s' L' := by
  refine h.of_base hb hk.inKernel (fun hu => hk.actAppl h.base hb (h.run hu).1) fun hu => ?_
  rw [hk.status _ ⟨hu, rfl⟩]
  exact (h.run hu).2

theorem eventHappened_queued (h : Queued w s L) (a : Nat) (ev : BitVec 16) (ha : a ∈ w.apps) :
    ∃ s' L', eventHappened w.fuel s a ev = some s' ∧ Queued w s' L' ∧
      Kept s L s.Running s' L' := by
  rcases eventHappened_base h.base a ev ha h.running_status with ⟨s', L', hrun, hb, hk, _⟩
  exact ⟨s', L', hrun, h.of_kept hb hk, hk⟩

theorem stpUnlist_queued (h : Queued w s L) (q : Queue) (a : Nat) (hr : ¬ s.Running a)
    (hq : a ∈ L q) : ∃ s' L', stpUnlist w.fuel s q a = some s' ∧ Queued w s' L' := by
  rcases h.base.remove q a hq with ⟨next, hrun, hb, hout⟩
  have hb' := (hb.stop a .stopped hout (.inr rfl)).settle a hr
  refine ⟨_, _, by rw [stpUnlist, hrun]; rfl, h.of_base hb' rfl (fun hu => ?_) fun hu => ?_⟩
  · -- The running application is in front of it, or on another list.
    rcases h.base.head_mem (h.run hu).1 with ⟨l, hl⟩
    rw [hb'.head]
    by_cases hqa : q = .act
    · subst hqa
      have hne : s.actAppl ≠ a := fun e => hr ⟨hu, e.symm⟩
      rw [Function.update_self, hl, List.erase_cons_tail (by simpa using hne)]
      rfl
    · rw [Function.update_of_ne (Ne.symm hqa), hl]
      rfl
  · dsimp only
    rw [Function.update_of_ne]
    · exact (h.run hu).2
    · exact fun e => hr ⟨hu, e.symm⟩

theorem stpThr_queued (h : Queued w s L) (a : Nat) (ha : a ∈ w.apps) (hu : s.inKernel = false) :
    ∃ s' L', stpThr w.fuel s a = some s' ∧ Queued w s' L' := by
  by_cases hr : s.Running a
  · -- It stays where it is until it yields.
    have hq := h.of_base (h.base.exempt a .stopped hr) rfl (fun _ => rfl) fun _ => .inr (by
      rw [← hr.2]
      exact Function.update_self _ _ _)
    unfold stpThr
    rcases h.running_status a hr with hs | hs
    · rw [hs]
      simp only [if_pos hr.2]
      exact ⟨_, L, rfl, hq⟩
    · rw [hs]
      exact ⟨_, L, rfl, hq⟩
  · have hlist := fun q => h.base.listed a ha hr q
    have hne : a ≠ s.actAppl := fun e => hr ⟨hu, e⟩
    have hout : (∀ q, a ∉ L q) →
        Queued w { s with status := Function.update s.status a .stopped } L := by
      intro hout
      have hb : Base w { s with status := Function.update s.status a .stopped } L s.Running :=
        (h.base.stop a .stopped hout (.inr rfl)).weaken s.Running (fun b hb => hb.1)
          fun b hb => h.base.moving b hb
      refine h.of_base hb rfl (fun _ => rfl) fun hu => ?_
      dsimp only
      rw [Function.update_of_ne (Ne.symm hne)]
      exact (h.run hu).2
    unfold stpThr
    cases hs : s.status a with
    | ready =>
      rw [if_neg hne]
      exact stpUnlist_queued h .act a hr ((hlist .act).mpr hs)
    | waiting => exact stpUnlist_queued h .notready a hr ((hlist .notready).mpr hs)
    | suspended => exact stpUnlist_queued h .suspend a hr ((hlist .suspend).mpr hs)
    | zombie => exact ⟨_, L, rfl, hout (h.base.absent a ha hr (.inl hs))⟩
    | stopped => exact ⟨_, L, rfl, hout (h.base.absent a ha hr (.inr hs))⟩

theorem cntThr_queued (h : Queued w s L) (a : Nat) (ha : a ∈ w.apps)
    (hself : s.Running a → s.status a ≠ .stopped) :
    ∃ s' L', cntThr w.fuel s a = some s' ∧ Queued w s' L' ∧ Kept s L s.Running s' L' ∧
      (s.status a = .stopped → s'.status a =
        if s.rbits a = 0 ∨ s.rbits a &&& s.hbits a ≠ 0 then .ready else .waiting) := by
  unfold cntThr
  by_cases hs : s.status a = .stopped
  · have hr : ¬ s.Running a := fun e => hself e hs
    have hout := h.base.absent a ha hr (.inr hs)
    have ha0 : a ≠ 0 := fun h0 => w.apps_ne (h0 ▸ ha)
    rw [if_neg (not_not.mpr hs)]
    by_cases hm : s.rbits a = 0 ∨ s.rbits a &&& s.hbits a ≠ 0
    · rw [if_pos hm]
      rcases apToLastready_base h.base a ha hout with ⟨s', hrun, hst, hs', hother, hb⟩
      have hb' : Base w s' _ s.Running :=
        hb.weaken s.Running (fun b hb => hb.1)
          fun b hbr => hb.moving b ⟨hbr, fun e : b = a => hr (e ▸ hbr)⟩
      have hk : Kept s L s.Running s' (Function.update L .act (L .act ++ [a])) := by
        refine ⟨by rw [hs'], by rw [hs'], by rw [hs'], fun b hb => hother b fun e => hr (e ▸ hb),
          [a], Function.update_self _ _ _⟩
      exact ⟨s', _, hrun, h.of_kept hb' hk, hk, fun _ => by rw [if_pos hm]; exact hst⟩
    · rw [if_neg hm]
      have hm' := not_or.mp hm
      have hb := h.base.insert .notready a (a :: L .notready) (push s.next .notready a) ha hout
        (lists_push .notready a h.base.lists hout ha0) (fun b => List.mem_cons)
        (fun _ => ⟨not_not.mp hm'.2, by
          by_contra hw
          exact hm'.1 (h.base.inwait a (by simpa using hw))⟩)
        (fun e => by cases e)
      have hb' := hb.weaken s.Running (fun b hb => hb.1)
        fun b hbr => hb.moving b ⟨hbr, fun e : b = a => hr (e ▸ hbr)⟩
      have hk : Kept s L s.Running { s with
          next := push s.next .notready a
          status := Function.update s.status a .waiting }
          (Function.update L .notready (a :: L .notready)) :=
        ⟨rfl, rfl, rfl, fun b hb => Function.update_of_ne (fun e : b = a => hr (e ▸ hb)) _ _, [], by
          rw [Function.update_of_ne (by decide), List.append_nil]⟩
      refine ⟨_, _, rfl, h.of_kept hb' hk, hk, fun _ => ?_⟩
      rw [if_neg hm]
      exact Function.update_self _ _ _
  · rw [if_pos hs]
    exact ⟨s, L, rfl, h, Kept.refl s L s.Running, fun e => absurd e hs⟩

theorem app2ready_queued (h : Queued w s L) (a : Nat) (ha : a ∈ w.apps)
    (hself : s.Running a → s.status a ≠ .stopped) :
    ∃ s' L', app2ready w.fuel s a = some s' ∧ Queued w s' L' := by
  rcases cntThr_queued h a ha hself with ⟨s1, L1, hrun, h1, _, _⟩
  unfold app2ready
  rw [hrun]
  by_cases hs : s1.status a ≠ .waiting
  · simp only [if_pos hs]
    exact ⟨s1, L1, rfl, h1⟩
  · simp only [if_neg hs]
    have hw := not_not.mp hs
    have hr : ¬ s1.Running a := by
      intro e
      rcases h1.running_status a e with e | e <;> rw [hw] at e <;> cases e
    have hq := (h1.base.listed a ha hr .notready).mpr hw
    -- The event that it waits for now is the one that happens.
    have hm : (s1.hbits a ||| EV_RESVD) &&& (s1.rbits a ||| EV_RESVD) ≠ 0 := by
      intro h0
      have hbit := congrArg (fun x => BitVec.getLsbD x 15) h0
      simp [EV_RESVD] at hbit
    rcases wake_base h1.base a (Function.update s1.rbits a (s1.rbits a ||| EV_RESVD))
      (Function.update s1.hbits a (s1.hbits a ||| EV_RESVD)) hr hq
      (fun b hb => Function.update_of_ne hb _ _) (fun b hb => Function.update_of_ne hb _ _) with
      ⟨next, s', L', hun, hrun', hb, hk, _, _⟩
    refine ⟨s', L', ?_, h1.of_kept hb hk⟩
    unfold eventHappened
    simp only [Function.update_self, hw, reduceCtorEq, or_self, if_false, if_neg hm, hun]
    exact hrun'

theorem Base.own (h : Base w s L ex) (a : Nat) (rb hb : BitVec 16) (iw : Bool) (ha : ex a)
    (hin : iw = false → rb = 0) :
    Base w { s with
      rbits := Function.update s.rbits a rb
      hbits := Function.update s.hbits a hb
      inWait := Function.update s.inWait a iw } L ex := by
  have hn : ∀ b ∈ L .notready, b ≠ a := fun b hbn e => (h.moving a ha).1 (e ▸ hbn)
  have hs : ∀ b ∈ L .suspend, b ≠ a := fun b hbs e => (h.moving a ha).2 (e ▸ hbs)
  refine { h with
    noevent := fun b hbn => ?_, waits := fun b hbn => ?_, runs := fun b hbs => ?_,
    inwait := fun b hbw => ?_ }
  · dsimp only
    rw [Function.update_of_ne (hn b hbn), Function.update_of_ne (hn b hbn)]
    exact h.noevent b hbn
  · dsimp only
    rw [Function.update_of_ne (hn b hbn)]
    exact h.waits b hbn
  · dsimp only
    rw [Function.update_of_ne (hs b hbs)]
    exact h.runs b hbs
  · dsimp only at hbw ⊢
    by_cases hba : b = a
    · rw [hba, Function.update_self] at hbw ⊢
      exact hin hbw
    · rw [Function.update_of_ne hba] at hbw ⊢
      exact h.inwait b hbw

theorem Base.pop (h : Base w s L ex) (q : Queue) (a : Nat) (l : List Nat) (hl : L q = a :: l) :
    Base w { s with next := Function.update s.next (.head q) (s.next (.elem a)) }
        (Function.update L q l) (fun b => ex b ∨ b = a) ∧
      ∀ r, a ∉ Function.update L q l r := by
  have herase : (L q).erase a = l := by rw [hl, List.erase_cons_head]
  rcases h.remove q a (hl ▸ List.mem_cons_self) with ⟨next, hrun, hb, hout⟩
  have hon := h.lists.on q
  rw [hl] at hon
  have ha := (on_cons a).mp hon
  rcases Nat.exists_eq_succ_of_ne_zero (Nat.ne_of_gt (Nat.zero_lt_of_lt w.apps_lt)) with ⟨f, hf⟩
  rw [hf, unlink, findRef, ha.1, if_neg ha.2.1, if_pos rfl] at hrun
  cases hrun
  rw [herase] at hb hout
  exact ⟨hb, hout⟩

theorem unsuspend_base (h : Base w s L ex) :
    ∃ s' L', unsuspend w.fuel s = some s' ∧ Base w s' L' ex ∧ Kept s L ex s' L' ∧
      s'.rbits = s.rbits ∧ s'.hbits = s.hbits := by
  unfold unsuspend
  by_cases hc : s.unsuspcnt ≠ 0
  · rw [if_pos hc]
    exact ⟨_, L, rfl, { h with }, ⟨rfl, rfl, rfl, fun _ _ => rfl, [], by simp⟩, rfl, rfl⟩
  · rw [if_neg hc]
    have h1 : Base w { s with unsuspcnt := s.unSusp } L ex := { h with }
    have hon := h.lists.on .suspend
    cases hl : L .suspend with
    | nil =>
      rw [hl] at hon
      simp only [on_nil.mp hon, if_true]
      exact ⟨_, L, rfl, h1, ⟨rfl, rfl, rfl, fun _ _ => rfl, [], by simp⟩, rfl, rfl⟩
    | cons a l =>
      rw [hl] at hon
      have ha := (on_cons a).mp hon
      have hmem : a ∈ L .suspend := hl ▸ List.mem_cons_self
      have hna : ¬ ex a := fun e => (h.moving a e).2 hmem
      rcases h1.pop .suspend a l hl with ⟨hb, hout⟩
      rcases apToLastready_base hb a (h.mem _ a hmem) hout with ⟨s', hrun, _, hs', hother, hnew⟩
      simp only [ha.1, if_neg ha.2.1]
      refine ⟨s', _, hrun, hnew.settle a hna, ⟨?_, ?_, ?_, fun b hb => ?_, [a], ?_⟩, ?_, ?_⟩
      · rw [hs']
      · rw [hs']
      · rw [hs']
      · exact hother b fun e => hna (e ▸ hb)
      · rw [Function.update_self, Function.update_of_ne (by decide)]
      · rw [hs']
      · rw [hs']

theorem Base.queued {a : Nat} (h : Base w s L (fun b => b = a ∧ b ≠ a))
    (hk : s.inKernel = true) : Queued w s L := by
  refine ⟨h.weaken s.Running (fun b hb => absurd hb.1 hb.2) fun b hb => ?_, fun hu => ?_⟩
  · exact absurd (hk.symm.trans hb.1) (by decide)
  · exact absurd (hk.symm.trans hu) (by decide)

theorem leave_queued (h : Base w s L s.Running) (h0 : s.actAppl ≠ 0)
    (hsus : s.status s.actAppl = .suspended → s.inWait s.actAppl = false)
    (hwait : s.status s.actAppl = .waiting → s.inWait s.actAppl = true) :
    ∃ s' L', leave w.fuel s = some s' ∧ Queued w s' L' := by
  rcases h.head_mem h0 with ⟨l, hl⟩
  have ha : s.actAppl ∈ w.apps := h.mem .act _ (hl ▸ List.mem_cons_self)
  rcases h.pop .act s.actAppl l hl with ⟨hb, hout⟩
  have hb1 : Base w { s with
      next := Function.update s.next (.head .act) (s.next (.elem s.actAppl))
      inKernel := true } (Function.update L .act l) (fun b => b = s.actAppl) := by
    have hw := hb.weaken (fun b => b = s.actAppl) (fun b hb => hb.elim (fun e => e.2) id)
      fun b hbe => hb.moving b (.inr hbe)
    exact { hw with }
  have hsame : ∀ st, s.status s.actAppl = st →
      Function.update s.status s.actAppl st = s.status := fun st hst => by
    rw [← hst, Function.update_eq_self]
  -- At the end of the ready list, for one that can go on.
  have hready : ∃ s' L', apToLastready w.fuel { s with
      next := Function.update s.next (.head .act) (s.next (.elem s.actAppl))
      inKernel := true } s.actAppl = some s' ∧ Queued w s' L' := by
    rcases apToLastready_base hb1 s.actAppl ha hout with ⟨s', hrun, _, hs', _, hnew⟩
    exact ⟨s', _, hrun, hnew.queued (by rw [hs'])⟩
  unfold leave
  simp only
  cases hst : s.status s.actAppl with
  | ready => exact hready
  | waiting =>
    by_cases hm : s.rbits s.actAppl &&& s.hbits s.actAppl ≠ 0
    · rw [if_pos hm]
      exact hready
    · rw [if_neg hm]
      have hins := hb1.insert .notready s.actAppl (s.actAppl :: Function.update L .act l .notready)
        _ ha hout (lists_push .notready s.actAppl hb1.lists hout h0) (fun b => List.mem_cons)
        (fun _ => ⟨not_not.mp hm, hwait hst⟩) (fun e => by cases e)
      rw [show Queue.notready.status = .waiting from rfl] at hins
      simp only [hsame _ hst] at hins
      exact ⟨_, _, rfl, hins.queued rfl⟩
  | suspended =>
    rcases lists_toLast w.fuel .suspend s.actAppl hb1.lists hout h0 (hb1.length_lt .suspend) with
      ⟨next, hrun, hlists⟩
    have hins := hb1.insert .suspend s.actAppl _ next ha hout hlists
      (fun b => by rw [List.mem_append, List.mem_singleton, or_comm])
      (fun e => by cases e) (fun _ => hsus hst)
    rw [show Queue.suspend.status = .suspended from rfl] at hins
    simp only [hsame _ hst] at hins
    exact ⟨_, _, by simp only [hrun, Option.map_some], hins.queued rfl⟩
  | zombie =>
    have hstop := hb1.stop s.actAppl .zombie hout (.inl rfl)
    simp only [hsame _ hst] at hstop
    exact ⟨_, _, rfl, hstop.queued rfl⟩
  | stopped =>
    have hstop := hb1.stop s.actAppl .stopped hout (.inr rfl)
    simp only [hsame _ hst] at hstop
    exact ⟨_, _, rfl, hstop.queued rfl⟩

/-- `appl_yield`, whatever the status of the running application is. -/
theorem yield_base (h : Base w s L s.Running) (hu : s.inKernel = false) (h0 : s.actAppl ≠ 0)
    (hsus : s.status s.actAppl = .suspended → s.inWait s.actAppl = false)
    (hwait : s.status s.actAppl = .waiting → s.inWait s.actAppl = true) :
    ∃ s' L', yield w.fuel s = some s' ∧ Queued w s' L' := by
  rcases unsuspend_base h with ⟨s1, L1, hrun, hb, hk, _, _⟩
  have hact := hk.actAppl h hb h0
  have hrunning : s1.Running = s.Running := by
    ext a
    rw [State.Running, State.Running, hk.inKernel, hact]
  have hst := hk.status s.actAppl ⟨hu, rfl⟩
  unfold yield
  rw [hrun, Option.bind_some]
  refine leave_queued (hrunning ▸ hb) (hact ▸ h0) ?_ ?_
  · rw [hact, hst, hk.inWait]
    exact hsus
  · rw [hact, hst, hk.inWait]
    exact hwait

theorem handler_queued (es : List (Nat × BitVec 16)) (h : Queued w s L)
    (hes : ∀ p ∈ es, p.1 ∈ w.apps) :
    ∃ s' L', handler w.fuel es s = some s' ∧ Queued w s' L' := by
  induction es generalizing s L with
  | nil => exact ⟨s, L, rfl, h⟩
  | cons p es ih =>
    rcases eventHappened_queued h p.1 p.2 (hes p List.mem_cons_self) with ⟨s1, L1, hrun, h1, _⟩
    rcases ih h1 (fun q hq => hes q (List.mem_cons_of_mem _ hq)) with ⟨s', L', hrun', h'⟩
    exact ⟨s', L', by rw [handler, hrun, Option.bind_some, hrun'], h'⟩

theorem iocomplete_queued (as : List Nat) (h : Queued w s L) (has : ∀ a ∈ as, a ∈ w.apps) :
    ∃ s' L', iocomplete w.fuel as s = some s' ∧ Queued w s' L' := by
  induction as generalizing s L with
  | nil => exact ⟨s, L, rfl, h⟩
  | cons a as ih =>
    have has' := fun b hb => has b (List.mem_cons_of_mem a hb)
    rw [iocomplete]
    by_cases hio : s.iocpbuf a = true
    · rw [if_pos hio]
      have h0 : Queued w { s with iocpbuf := Function.update s.iocpbuf a false } L :=
        ⟨{ h.base with }, h.run⟩
      rcases eventHappened_queued h0 a EV_IO (has a List.mem_cons_self) with
        ⟨s1, L1, hrun, h1, _⟩
      rcases ih h1 has' with ⟨s', L', hrun', h'⟩
      exact ⟨s', L', by rw [hrun, Option.bind_some, hrun'], h'⟩
    · rw [if_neg hio]
      exact ih h has'

theorem kswitch_queued (h : Queued w s L) (hk : s.inKernel = true)
    (hen : s.actAppl ≠ 0 ∨ s.next (.head .suspend) ≠ 0) : ∃ L', Queued w (kswitch s) L' := by
  have hex : ∀ a, ¬ s.Running a := fun a ha => absurd (hk.symm.trans ha.1) (by decide)
  unfold kswitch
  by_cases h0 : s.actAppl ≠ 0
  · rw [if_pos h0]
    rcases h.base.head_mem h0 with ⟨l, hl⟩
    have hmem : s.actAppl ∈ L .act := hl ▸ List.mem_cons_self
    have hst := (h.base.listed _ (h.base.mem _ _ hmem) (hex _) .act).mp hmem
    have hother : ∀ q, q ≠ .act → s.actAppl ∉ L q := fun q hq hm =>
      hq (h.base.lists.disjoint q .act _ hm hmem)
    refine ⟨L, ⟨{ h.base with listed := fun a ha _ => ?_, moving := fun a ha => ?_ },
      fun _ => ⟨h0, .inl hst⟩⟩⟩
    · exact h.base.listed a ha (hex a)
    · rw [show a = s.actAppl from ha.2]
      exact ⟨hother .notready (by decide), hother .suspend (by decide)⟩
  · rw [if_neg h0]
    -- There is no ready application, and the first suspended one becomes the only one.
    have hnil : L .act = [] := by
      have hh := h.base.head
      cases hl : L .act with
      | nil => rfl
      | cons a l =>
        have ha := h.base.ne_zero .act a (hl ▸ List.mem_cons_self)
        rw [hl] at hh
        exact absurd (hh.symm.trans (not_not.mp h0)) ha
    have hon := h.base.lists.on .suspend
    cases hl : L .suspend with
    | nil =>
      rw [hl] at hon
      exact absurd (on_nil.mp hon) (hen.resolve_left h0)
    | cons a l =>
      rw [hl] at hon
      have ha := (on_cons a).mp hon
      have hmem : a ∈ L .suspend := hl ▸ List.mem_cons_self
      rcases h.base.pop .suspend a l hl with ⟨hb, hout⟩
      have hact : Function.update s.next (.head .suspend) (s.next (.elem a)) (.head .act) = 0 := by
        rw [Function.update_of_ne (by decide)]
        exact not_not.mp h0
      have hlists := lists_push .act a hb.lists hout ha.2.1
      rw [push] at hlists
      dsimp only at hlists
      rw [hact, Function.update_of_ne (by decide : Queue.act ≠ .suspend), hnil] at hlists
      have hins := hb.insert .act a [a] _ (h.base.mem _ a hmem) hout hlists
        (fun b => by
          rw [Function.update_of_ne (by decide : Queue.act ≠ .suspend), hnil]
          simp)
        (fun e => by cases e) (fun e => by cases e)
      have hself : (Function.update (Function.update (Function.update s.next (.head .suspend)
          (s.next (.elem a))) (.elem a) 0) (.head .act) a) (.head .act) = a :=
        Function.update_self _ _ _
      rw [ha.1]
      refine ⟨Function.update (Function.update L .suspend l) .act [a],
        ⟨{ hins with listed := fun b hb hn r => ?_, moving := fun b hbr => ?_ }, fun _ => ?_⟩⟩
      · exact hins.listed b hb (fun e => e.1.elim (hex b) e.2) r
      · have hba : b = a := hbr.2.trans hself
        rw [hba, Function.update_of_ne (by decide : Queue.notready ≠ .act),
          Function.update_of_ne (by decide : Queue.suspend ≠ .act)]
        exact ⟨hout .notready, hout .suspend⟩
      · simp only [State.actAppl, hself, Function.update_self]
        exact ⟨ha.2.1, .inl trivial⟩

theorem applWaitRet_queued (h : Queued w s L) (hu : s.inKernel = false) :
    Queued w (applWaitRet s) L := by
  have hb := h.base.own s.actAppl 0 (s.hbits s.actAppl) false ⟨hu, rfl⟩ fun _ => rfl
  rw [Function.update_eq_self] at hb
  exact h.of_base hb rfl (fun _ => rfl) fun hu => (h.run hu).2

/-- The running application is not continued before it yields, once it has been
    stopped. -/
def NotSelf (s : State) : SchedAct → Prop
  | .cont a | .ready a => a = s.actAppl → s.status a ≠ .stopped
  | _ => True

/-- Each step succeeds and keeps the lists. -/
theorem step_queued (h : Queued w s L) (act : SchedAct) (hen : Enabled w s act)
    (hself : NotSelf s act) : ∃ s' L', exec w s act = some s' ∧ Queued w s' L' := by
  cases act with
  | yield =>
    have hr := h.run hen.1
    refine yield_base h.base hen.1 hr.1 (fun _ => hen.2) fun hw => ?_
    rcases hr.2 with hs | hs <;> rw [hw] at hs <;> cases hs
  | suspend =>
    have hb := h.base.exempt s.actAppl .suspended ⟨hen.1, rfl⟩
    refine yield_base hb hen.1 (h.run hen.1).1 (fun _ => hen.2) fun hw => ?_
    have hs : Status.suspended = .waiting := (Function.update_self _ _ _).symm.trans hw
    cases hs
  | wait evtyp =>
    have hb := (h.base.exempt s.actAppl .waiting ⟨hen.1, rfl⟩).own s.actAppl evtyp 0 true
      ⟨hen.1, rfl⟩ (fun e => by cases e)
    refine yield_base hb hen.1 (h.run hen.1).1 (fun hw => ?_) fun _ => Function.update_self _ _ _
    have hs : Status.waiting = .suspended := (Function.update_self _ _ _).symm.trans hw
    cases hs
  | waitRet => exact ⟨_, L, rfl, applWaitRet_queued h hen.1⟩
  | event a ev =>
    rcases eventHappened_queued h a ev hen.2 with ⟨s', L', hrun, h', _⟩
    exact ⟨s', L', hrun, h'⟩
  | stop a => exact stpThr_queued h a hen.2 hen.1.1
  | cont a =>
    rcases cntThr_queued h a hen.2 (fun hr => hself hr.2) with ⟨s', L', hrun, h', _⟩
    exact ⟨s', L', hrun, h'⟩
  | ready a => exact app2ready_queued h a hen.2 (fun hr => hself hr.2)
  | kring =>
    have hexec : exec w s .kring = kring w.fuel s := rfl
    rw [hexec, kring]
    cases hr : s.ringbuf with
    | nil => exact ⟨s, L, rfl, h⟩
    | cons e es =>
      have h0 : Queued w { s with ringbuf := es } L := ⟨{ h.base with
        ring := fun f hf => h.base.ring f (hr ▸ List.mem_cons_of_mem _ hf) }, h.run⟩
      exact handler_queued e h0 (h.base.ring e (hr ▸ List.mem_cons_self))
  | kio =>
    rcases iocomplete_queued w.apps h (fun _ ha => ha) with ⟨s', L', hrun, h'⟩
    exact ⟨{ s' with iocpbufCnt := 0 }, L', by rw [exec, kio, hrun, Option.map_some],
      ⟨{ h'.base with }, h'.run⟩⟩
  | kswitch =>
    rcases kswitch_queued h hen.1 hen.2.2.2 with ⟨L', h'⟩
    exact ⟨_, L', rfl, h'⟩
  | iocp a =>
    refine ⟨_, L, rfl, ?_⟩
    unfold applIocomplete
    split
    · exact h
    · exact ⟨{ h.base with }, h.run⟩
  | ring e =>
    refine ⟨_, L, rfl, ?_⟩
    unfold writeEvnt
    split
    · exact h
    · refine ⟨{ h.base with ring := fun f hf => ?_ }, h.run⟩
      rcases List.mem_append.mp hf with hf | hf
      · exact h.base.ring f hf
      · exact List.mem_singleton.mp hf ▸ hen

/-- The applications of `l` are ready, the first one is running, and the others
    are zombies or stopped. -/
structure Started (w : Apps) (s : State) (l : List Nat) : Prop where
  ready : On s.next 0 (.head .act) l
  notready : s.next (.head .notready) = 0
  suspend : s.next (.head .suspend) = 0
  ne_nil : l ≠ []
  mem : ∀ a ∈ l, a ∈ w.apps ∧ s.status a = .ready
  others : ∀ a ∈ w.apps, a ∉ l → s.status a = .zombie ∨ s.status a = .stopped
  rbits : ∀ a, s.rbits a = 0
  inWait : ∀ a, s.inWait a = false
  ringbuf : s.ringbuf = []
  inKernel : s.inKernel = false

theorem Started.queued {l : List Nat} (h : Started w s l) :
    Queued w s (fun q => if q = .act then l else []) := by
  have hstatus : ∀ a ∈ w.apps, ∀ q, a ∈ (if q = Queue.act then l else []) ↔
    s.status a = q.status := by
    intro a ha q
    by_cases hal : a ∈ l
    · rw [(h.mem a hal).2]
      cases q <;> simp [hal, Queue.status]
    · cases q <;> rcases h.others a ha hal with hs | hs <;> simp [hal, hs, Queue.status]
  have hhead : s.actAppl = l.headD 0 := by
    cases l with
    | nil => exact absurd rfl h.ne_nil
    | cons a l => exact ((on_cons a).mp h.ready).1
  have hin : s.actAppl ∈ l := by
    cases l with
    | nil => exact absurd rfl h.ne_nil
    | cons a l => exact hhead ▸ List.mem_cons_self
  refine ⟨⟨⟨fun q => ?_, fun q r a hq hr => ?_⟩, fun q a hq => ?_, fun a ha _ q => hstatus a ha q,
    fun a _ => ?_, ?_, ?_, ?_, fun a _ => h.rbits a, ?_⟩, fun _ => ⟨?_, .inl (h.mem _ hin).2⟩⟩
  · cases q with
    | act => exact h.ready
    | notready => exact on_nil.mpr h.notready
    | suspend => exact on_nil.mpr h.suspend
  · cases q <;> cases r <;> simp at hq hr ⊢
  · cases q <;> simp at hq
    exact (h.mem a hq).1
  · simp
  · simp
  · simp
  · simp
  · simp [h.ringbuf]
  · exact fun h0 => w.apps_ne (h0 ▸ (h.mem _ hin).1)

/-- The steps at which the running application is not continued. -/
def NotSelfStep (w : Apps) (s : State) (act : SchedAct) (s' : State) : Prop :=
  Step w s act s' ∧ NotSelf s act

end

/-- The lists are consistent and no event is overlooked, at the end of every run
    in which the running application is not continued before it yields. Each
    further step comes to an end, and an application that is stopped while its
    event happens is ready once it is continued. -/
theorem no_wakeup_lost (w : Apps) (s₀ s : State) (l : List Nat) (as : List SchedAct)
    (h₀ : Started w s₀ l) (hrun : Runs.Run (NotSelfStep w) s₀ as s) :
    (∃ L, Lists s.next 0 L ∧
      (∀ a ∈ w.apps, ¬ s.Running a → ∀ q, a ∈ L q ↔ s.status a = q.status) ∧
      (∀ a, s.Running a → a ∈ L .act) ∧
      ∀ a ∈ L .notready, s.rbits a &&& s.hbits a = 0) ∧
    (∀ a ∈ w.apps, ¬ s.Running a → s.rbits a &&& s.hbits a ≠ 0 →
      s.status a = .ready ∨ s.status a = .zombie ∨
        s.status a = .stopped ∧ ∃ s', cntThr w.fuel s a = some s' ∧ s'.status a = .ready) ∧
    ∀ act, Enabled w s act → NotSelf s act → ∃ s', exec w s act = some s' := by
  have hinv : ∃ L, Queued w s L := Runs.run_preserves (NotSelfStep w) (fun s => ∃ L, Queued w s L)
    (fun s act s' hs hstep => by
      rcases hs with ⟨L, hL⟩
      rcases step_queued hL act hstep.1.1 hstep.2 with ⟨s1, L1, hexec, h1⟩
      cases hexec.symm.trans hstep.1.2
      exact ⟨L1, h1⟩) s₀ s as hrun ⟨_, h₀.queued⟩
  rcases hinv with ⟨L, h⟩
  refine ⟨⟨L, h.base.lists, h.base.listed, fun a ha => ?_, h.base.noevent⟩, fun a ha hr hm => ?_,
    fun act hen hself => ?_⟩
  · rcases h.base.head_mem (h.run ha.1).1 with ⟨l, hl⟩
    rw [ha.2, hl]
    exact List.mem_cons_self
  · have hlist := fun q => h.base.listed a ha hr q
    cases hs : s.status a with
    | ready => exact .inl rfl
    | zombie => exact .inr (.inl rfl)
    | waiting => exact absurd (h.base.noevent a ((hlist .notready).mpr hs)) hm
    | suspended =>
      have hr0 := h.base.inwait a (h.base.runs a ((hlist .suspend).mpr hs))
      rw [hr0] at hm
      exact absurd BitVec.zero_and hm
    | stopped =>
      rcases cntThr_queued h a ha (fun e => absurd e hr) with ⟨s', _, hexec, _, _, hst⟩
      refine .inr (.inr ⟨rfl, s', hexec, ?_⟩)
      rw [hst hs, if_pos (.inr hm)]
  · rcases step_queued h act hen hself with ⟨s', _, hexec, _⟩
    exact ⟨s', hexec⟩

theorem demo_ne : 0 ∉ [1, 2] := by decide

theorem demo_lt : [1, 2].length < 3 := by decide

/-- Two applications. -/
def demoApps : Apps := ⟨[1, 2], 3, demo_ne, demo_lt⟩

/-- Application 1 runs, and application 2 is ready. -/
def demoState : State where
  next
    | .head .act => 1
    | .elem 1 => 2
    | _ => 0
  status := fun _ => .ready
  rbits := fun _ => 0
  hbits := fun _ => 0
  unsuspcnt := 3
  unSusp := 3
  iocpbuf := fun _ => false
  iocpbufCnt := 0
  ringbuf := []
  inKernel := false
  inWait := fun _ => false

theorem demoState_started : Started demoApps demoState [1, 2] where
  ready := ⟨⟨rfl, rfl, rfl⟩, by decide⟩
  notready := rfl
  suspend := rfl
  ne_nil := List.cons_ne_nil _ _
  mem := fun a ha => ⟨ha, rfl⟩
  others := fun a ha hn => absurd ha hn
  rbits := fun _ => rfl
  inWait := fun _ => rfl
  ringbuf := rfl
  inKernel := rfl

/-- Application 1 waits, application 2 stops it, makes its event happen and
    continues it. -/
theorem no_wakeup_lost_stopped :
    ∃ s, Runs.Run (NotSelfStep demoApps) demoState
      [.wait 1#16, .kswitch, .stop 1, .event 1 1#16] s ∧ s.status 1 = .stopped ∧
      ∃ s', cntThr 3 s 1 = some s' ∧ s'.status 1 = .ready := by
  have hrun : ∃ s, Runs.Run (NotSelfStep demoApps) demoState
      [.wait 1#16, .kswitch, .stop 1, .event 1 1#16] s ∧ s.status 1 = .stopped ∧
      ¬ s.Running 1 ∧ s.rbits 1 &&& s.hbits 1 ≠ 0 := by
    refine ⟨_, .cons _ _ _ _ _ ⟨⟨⟨rfl, rfl⟩, rfl⟩, trivial⟩
      (.cons _ _ _ _ _ ⟨⟨⟨rfl, rfl, rfl, .inl (by decide)⟩, rfl⟩, trivial⟩
      (.cons _ _ _ _ _ ⟨⟨⟨⟨rfl, rfl⟩, by decide⟩, rfl⟩, trivial⟩
      (.cons _ _ _ _ _ ⟨⟨⟨⟨rfl, rfl⟩, by decide⟩, rfl⟩, trivial⟩ (.nil _)))),
      rfl, by decide, by decide⟩
  rcases hrun with ⟨s, hrun, hs, hr, hm⟩
  have h := no_wakeup_lost demoApps demoState s [1, 2] _ demoState_started hrun
  rcases h.2.1 1 (by decide) hr hm with h1 | h1 | h1
  · rw [hs] at h1
    cases h1
  · rw [hs] at h1
    cases h1
  · exact ⟨s, hrun, hs, h1.2⟩

/-- The running application stops itself and is continued before it yields.
    Application 2 is lost, and the list of application 1 becomes cyclic when the
    same is done once more. -/
theorem continued_self_cyclic :
    (∃ s, Runs.Run (Step demoApps) demoState [.stop 1, .cont 1] s ∧
      s.status 2 = .ready ∧ s.next (.head .act) = 1 ∧ s.next (.elem 1) = 0) ∧
    ∃ s, Runs.Run (Step demoApps) demoState [.stop 1, .cont 1, .stop 1, .cont 1] s ∧
      s.next (.head .act) = 1 ∧ s.next (.elem 1) = 1 := by
  constructor
  · refine ⟨_, .cons _ _ _ _ _ ⟨⟨⟨rfl, rfl⟩, by decide⟩, rfl⟩
      (.cons _ _ _ _ _ ⟨⟨⟨rfl, rfl⟩, by decide⟩, rfl⟩ (.nil _)), rfl, by decide, by decide⟩
  · refine ⟨_, .cons _ _ _ _ _ ⟨⟨⟨rfl, rfl⟩, by decide⟩, rfl⟩
      (.cons _ _ _ _ _ ⟨⟨⟨rfl, rfl⟩, by decide⟩, rfl⟩
      (.cons _ _ _ _ _ ⟨⟨⟨rfl, rfl⟩, by decide⟩, rfl⟩
      (.cons _ _ _ _ _ ⟨⟨⟨rfl, rfl⟩, by decide⟩, rfl⟩ (.nil _)))), by decide, by decide⟩

end Sched

end MagiC
