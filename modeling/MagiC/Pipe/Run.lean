import MagiC.Lib.Fifo
import MagiC.Pipe.Code

/-!
# Interleavings of Pipe Calls

Any number of readers and writers on one device, in any order of turns.

A state holds the pipes, the number of openers and the calls under way. An
action starts a call, lets a call under way take a turn, or opens or closes the
device once more. A suspended call is at its loop head like any other, since
that is where `evnt_IO` returns to, so being woken is nothing but taking
another turn.

A log of what was copied, as the callers see it, and the bytes each call has
moved so far are a record for the statements and not part of the program.

A turn is an operation of a bounded queue on the pipe the call works on, and
leaves every other pipe alone. So the log of a pipe is a run of that queue, and
what holds of a pipe is what `Fifo` says of queues.

## Main definitions

* `bytesOf`: What was moved in one direction through certain descriptors.

## Theorems

* `pipes_fifo`: Pipes neither lose nor reorder bytes.
-/

namespace MagiC

namespace Pipes

open Copy

/-- A call under way: the descriptor's `O_HEAD` flag, the direction, the count
    asked for, the registers, and the bytes moved so far. -/
structure Call where
  head : Bool
  rw : Rw
  count : Nat
  regs : Regs
  moved : List UInt8

/-- Bytes copied in one turn, as the caller's buffer holds them. -/
structure Event where
  head : Bool
  rw : Rw
  bytes : List UInt8

/-- A device, the calls on it by number, and the log of what was copied. -/
structure State where
  refcnt : Nat
  pipe : Side → Pipe
  calls : Nat → Option Call
  log : List Event

/-- What can happen next. -/
inductive Act where
  | start (id : Nat) (head : Bool) (rw : Rw) (buf : Nat → UInt8) (count : Nat)
  | turn (id : Nat) (odd : Bool)
  | opened
  | closed

/-- A device nobody has used yet. -/
def initial (refcnt : Nat) (data : Side → Nat → UInt8) : State :=
  ⟨refcnt, fun x => ⟨0, data x⟩, fun _ => none, []⟩

/-- One turn of a call. -/
def Call.loop (c : Call) (odd : Bool) (refcnt : Nat) (p : Pipe) : Turn :=
  match c.rw with
  | .read => prLoop odd refcnt p c.regs
  | .write => pwLoop odd refcnt p c.regs

/-- `prw_ende`: the count asked for less the count that remains. -/
def Call.result (c : Call) : Nat := c.count - c.regs.d7

/-- Take a call off the list, or put one there. -/
def State.setCall (s : State) (id : Nat) (c : Option Call) : State :=
  { s with calls := Function.update s.calls id c }

/-- The state and the call after a turn that moved `n` bytes. -/
def State.moved (s : State) (x : Side) (c : Call) (p : Pipe) (r : Regs) (n : Nat) :
    State × Call :=
  let bytes := window r.buf c.regs.a5 n
  ({ s with pipe := Function.update s.pipe x p, log := s.log ++ [⟨c.head, c.rw, bytes⟩] },
    { c with regs := r, moved := c.moved ++ bytes })

/-- What an action does, with the call it completes and what that returns.
    Closing stops short of the last opener, with whom the device goes. -/
def exec (kind : Kind) (s : State) : Act → Option (State × Option (Call × Nat))
  | .start id head rw buf count =>
    let c : Call := ⟨head, rw, count, ⟨buf, 0, count⟩, []⟩
    if s.calls id ≠ none then none
    else if count = 0 then some (s, some (c, c.result))
    else some (s.setCall id (some c), none)
  | .turn id odd =>
    match s.calls id with
    | none => none
    | some c =>
      let x := pipeOf kind c.head c.rw
      match c.loop odd s.refcnt (s.pipe x) with
      | .wait => some (s, none)
      | .ende => some (s.setCall id none, some (c, c.result))
      | .moved p r n =>
        let m := s.moved x c p r n
        if r.d7 = 0 then some (m.1.setCall id none, some (m.2, m.2.result))
        else some (m.1.setCall id (some m.2), none)
  | .opened => some ({ s with refcnt := (s.refcnt + 1) % 2 ^ 16 }, none)
  | .closed => if s.refcnt ≤ 1 then none else some ({ s with refcnt := s.refcnt - 1 }, none)

def step (kind : Kind) (s : State) (a : Act) (t : State) : Prop :=
  ∃ done, exec kind s a = some (t, done)

/-- What was moved in direction `rw` through descriptors whose flag satisfies
    `sel`, in order. -/
def bytesOf (rw : Rw) (sel : Bool → Bool) (log : List Event) : List UInt8 :=
  (log.filter (fun e => e.rw = rw ∧ sel e.head)).flatMap Event.bytes

/-- An event as an operation on a pipe, if it concerns that pipe. -/
def opOf (kind : Kind) (x : Side) (e : Event) : Option (Fifo.Op UInt8) :=
  if pipeOf kind e.head e.rw = x then
    some (match e.rw with
      | .read => .pop e.bytes
      | .write => .push e.bytes)
  else none

/-- A call under way has moved what it no longer has to move, and its buffer
    up to the position is what it moved. -/
structure CallOk (c : Call) : Prop where
  pos : c.regs.a5 = c.moved.length
  rest : c.moved.length + c.regs.d7 = c.count
  buf : window c.regs.buf 0 c.moved.length = c.moved

/-- The log of each pipe is a run of a bounded queue that leads to what the
    pipe holds. -/
structure Inv (kind : Kind) (s : State) : Prop where
  fifo : ∀ x, Runs.Run (Fifo.Step 2048) [] (s.log.filterMap (opOf kind x)) (s.pipe x).contents
  calls : ∀ id c, s.calls id = some c → CallOk c

/-- A turn of a reader that moves bytes takes them out of the pipe and puts
    them where the caller's buffer goes on. -/
theorem prLoop_step (odd : Bool) (refcnt : Nat) (p p' : Pipe) (r r' : Regs) (n : Nat)
    (hp : p.len ≤ 2048) (h : prLoop odd refcnt p r = .moved p' r' n) :
    Fifo.Step 2048 p.contents (.pop (window r'.buf r.a5 n)) p'.contents ∧
      r'.a5 = r.a5 + n ∧ r'.d7 + n = r.d7 ∧ window r'.buf 0 r.a5 = window r.buf 0 r.a5 := by
  unfold prLoop at h
  by_cases hempty : p.len = 0
  · rw [if_pos hempty] at h
    split_ifs at h
  · rw [if_neg hempty] at h
    simp only [Turn.moved.injEq] at h
    rcases h with ⟨rfl, rfl, rfl⟩
    generalize hn : (if r.d7 ≤ p.len then r.d7 else p.len) = n
    have hle : n ≤ p.len ∧ n ≤ r.d7 := by
      rw [← hn]
      split_ifs <;> omega
    refine ⟨?_, rfl, by simp only; omega, ?_⟩
    · -- The pipe is what was copied out and what is moved down.
      have hsplit : p.contents = window p.data 0 n ++ window p.data n (p.len - n) := by
        rw [Pipe.contents, show p.len = n + (p.len - n) by omega, window_append, Nat.zero_add,
          Nat.add_sub_cancel_left]
      have hdown : window (if p.len - n = 0 then p.data else vmemcpy 0 n (p.len - n) p.data) 0
          (p.len - n) = window p.data n (p.len - n) := by
        by_cases hz : p.len - n = 0
        · rw [if_pos hz, hz]
          rfl
        · rw [if_neg hz]
          exact vmemcpy_window 0 n (p.len - n) p.data
      simp only [Fifo.Step, Pipe.contents] at hsplit ⊢
      rw [hsplit, ncopyFrom_window odd p.data n 0 r.a5 r.buf (by omega), hdown]
    · exact ncopyFrom_before odd p.data n 0 r.a5 r.buf (by omega) 0 r.a5 (by omega)

theorem pwLoop_step (odd : Bool) (refcnt : Nat) (p p' : Pipe) (r r' : Regs) (n : Nat)
    (hp : p.len ≤ 2048) (h : pwLoop odd refcnt p r = .moved p' r' n) :
    Fifo.Step 2048 p.contents (.push (window r'.buf r.a5 n)) p'.contents ∧
      r'.a5 = r.a5 + n ∧ r'.d7 + n = r.d7 ∧ r'.buf = r.buf := by
  have hfree : (2048 + 2 ^ 16 - p.len) % 2 ^ 16 = 2048 - p.len := by omega
  unfold pwLoop at h
  simp only [hfree] at h
  by_cases hfull : 2048 - p.len = 0 ∨ 2 ^ 15 ≤ 2048 - p.len
  · rw [if_pos hfull] at h
    split_ifs at h
  · rw [if_neg hfull] at h
    simp only [Turn.moved.injEq] at h
    rcases h with ⟨rfl, rfl, rfl⟩
    generalize hn : (if r.d7 ≤ 2048 - p.len then r.d7 else 2048 - p.len) = n
    have hle : n ≤ 2048 - p.len ∧ n ≤ r.d7 := by
      rw [← hn]
      split_ifs <;> omega
    refine ⟨⟨?_, ?_⟩, rfl, by simp only; omega, rfl⟩
    · simp only [Pipe.contents]
      rw [window_append, Nat.zero_add, ncopyFrom_window odd _ n _ p.len _ (by omega),
        ncopyFrom_before odd _ n _ p.len _ (by omega) 0 p.len (by omega)]
    · rw [Pipe.contents, window_length]
      simp only
      omega

theorem prLoop_ende (odd : Bool) (refcnt : Nat) (p : Pipe) (r : Regs)
    (h : prLoop odd refcnt p r = .ende) : p.len = 0 ∧ refcnt ≤ 1 := by
  unfold prLoop at h
  by_cases hempty : p.len = 0
  · rw [if_pos hempty] at h
    by_cases hrc : refcnt ≤ 1
    · exact ⟨hempty, hrc⟩
    · rw [if_neg hrc] at h
      exact absurd h (by simp only [reduceCtorEq, not_false_eq_true])
  · rw [if_neg hempty] at h
    exact absurd h (by simp only [reduceCtorEq, not_false_eq_true])

theorem pwLoop_ende (odd : Bool) (refcnt : Nat) (p : Pipe) (r : Regs) (hp : p.len ≤ 2048)
    (h : pwLoop odd refcnt p r = .ende) : p.len = 2048 ∧ refcnt ≤ 1 := by
  have hfree : (2048 + 2 ^ 16 - p.len) % 2 ^ 16 = 2048 - p.len := by omega
  unfold pwLoop at h
  simp only [hfree] at h
  by_cases hfull : 2048 - p.len = 0 ∨ 2 ^ 15 ≤ 2048 - p.len
  · rw [if_pos hfull] at h
    by_cases hrc : refcnt ≤ 1
    · exact ⟨by omega, hrc⟩
    · rw [if_neg hrc] at h
      exact absurd h (by simp only [reduceCtorEq, not_false_eq_true])
  · rw [if_neg hfull] at h
    exact absurd h (by simp only [reduceCtorEq, not_false_eq_true])

theorem inv_len (kind : Kind) (s : State) (inv : Inv kind s) (x : Side) :
    (s.pipe x).len ≤ 2048 := by
  have := Fifo.run_bounded 2048 _ _ _ (inv.fifo x) (Nat.zero_le _)
  rwa [Pipe.contents, window_length] at this

theorem loop_moved (c : Call) (odd : Bool) (refcnt : Nat) (p p' : Pipe) (r' : Regs) (n : Nat)
    (hp : p.len ≤ 2048) (hc : CallOk c) (h : c.loop odd refcnt p = .moved p' r' n) :
    Fifo.Step 2048 p.contents (match c.rw with
        | .read => .pop (window r'.buf c.regs.a5 n)
        | .write => .push (window r'.buf c.regs.a5 n)) p'.contents ∧
      CallOk { c with regs := r', moved := c.moved ++ window r'.buf c.regs.a5 n } := by
  unfold Call.loop at h
  have hpos := hc.pos
  have hrest := hc.rest
  have hgo : ∀ (ha5 : r'.a5 = c.regs.a5 + n) (hd7 : r'.d7 + n = c.regs.d7)
      (hbuf : window r'.buf 0 c.regs.a5 = window c.regs.buf 0 c.regs.a5),
      CallOk { c with regs := r', moved := c.moved ++ window r'.buf c.regs.a5 n } := by
    intro ha5 hd7 hbuf
    refine ⟨?_, ?_, ?_⟩
    · simp only [List.length_append, window_length]
      omega
    · simp only [List.length_append, window_length]
      omega
    · simp only [List.length_append, window_length]
      rw [window_append, Nat.zero_add, ← hpos, hbuf, hpos, hc.buf]
  cases hrw : c.rw with
  | read =>
    rw [hrw] at h
    rcases prLoop_step odd refcnt p p' c.regs r' n hp h with ⟨hstep, ha5, hd7, hbuf⟩
    exact ⟨hstep, hrw ▸ hgo ha5 hd7 hbuf⟩
  | write =>
    rw [hrw] at h
    rcases pwLoop_step odd refcnt p p' c.regs r' n hp h with ⟨hstep, ha5, hd7, hbuf⟩
    exact ⟨hstep, hrw ▸ hgo ha5 hd7 (by rw [hbuf])⟩

theorem inv_setCall (kind : Kind) (s : State) (inv : Inv kind s) (id : Nat) (c : Option Call)
    (hc : ∀ d, c = some d → CallOk d) : Inv kind (s.setCall id c) := by
  refine ⟨inv.fifo, fun i d hd => ?_⟩
  simp only [State.setCall] at hd
  by_cases hi : i = id
  · rw [hi, Function.update_self] at hd
    exact hc d hd
  · rw [Function.update_of_ne hi] at hd
    exact inv.calls i d hd

theorem inv_moved (kind : Kind) (s : State) (inv : Inv kind s) (c : Call) (odd : Bool) (p : Pipe)
    (r : Regs) (n : Nat) (hc : CallOk c)
    (h : c.loop odd s.refcnt (s.pipe (pipeOf kind c.head c.rw)) = .moved p r n) :
    Inv kind (s.moved (pipeOf kind c.head c.rw) c p r n).1 ∧
      CallOk (s.moved (pipeOf kind c.head c.rw) c p r n).2 := by
  rcases loop_moved c odd s.refcnt _ p r n (inv_len kind s inv _) hc h with ⟨hstep, hcall⟩
  refine ⟨⟨fun x => ?_, inv.calls⟩, hcall⟩
  simp only [State.moved, List.filterMap_append]
  refine Runs.run_append _ _ _ _ _ _ (inv.fifo x) ?_
  by_cases hx : pipeOf kind c.head c.rw = x
  · -- The pipe of the call: one operation more.
    subst hx
    rw [Function.update_self]
    simp only [List.filterMap_cons, opOf, if_true, List.filterMap_nil]
    exact Runs.Run.cons _ _ _ _ _ hstep (Runs.Run.nil _)
  · -- Any other pipe is as it was, and the log says nothing about it.
    rw [Function.update_of_ne (Ne.symm hx)]
    simp only [List.filterMap_cons, opOf, if_neg hx, List.filterMap_nil]
    exact Runs.Run.nil _

/-- What a completed call returns, and why it may be less than was asked for. -/
structure Completed (s : State) (x : Side) (c : Call) (n : Nat) : Prop where
  moved : n = c.moved.length
  buf : window c.regs.buf 0 n = c.moved
  short : n < c.count → s.refcnt ≤ 1 ∧
    (s.pipe x).len = match c.rw with
      | .read => 0
      | .write => 2048

/-- Every action keeps the invariant, and a call it completes returns what it
    moved. -/
theorem exec_inv (kind : Kind) (s t : State) (inv : Inv kind s) (a : Act)
    (done : Option (Call × Nat)) (h : exec kind s a = some (t, done)) :
    Inv kind t ∧ ∀ c n, done = some (c, n) → Completed t (pipeOf kind c.head c.rw) c n := by
  cases a with
  | start id head rw buf count =>
    have hnew : CallOk ⟨head, rw, count, ⟨buf, 0, count⟩, []⟩ :=
      ⟨rfl, Nat.zero_add count, rfl⟩
    simp only [exec] at h
    split_ifs at h with hid hzero
    · simp only [Option.some.injEq, Prod.mk.injEq] at h
      rcases h with ⟨rfl, rfl⟩
      refine ⟨inv, fun c n hcn => ?_⟩
      simp only [Option.some.injEq, Prod.mk.injEq] at hcn
      rcases hcn with ⟨rfl, rfl⟩
      simp only [Call.result, Nat.sub_self]
      refine ⟨rfl, rfl, fun hlt => ?_⟩
      simp only [hzero] at hlt
      exact absurd hlt (Nat.not_lt_zero 0)
    · simp only [Option.some.injEq, Prod.mk.injEq] at h
      rcases h with ⟨rfl, rfl⟩
      refine ⟨inv_setCall kind s inv id _ (fun d hd => ?_), fun c n hcn => ?_⟩
      · rw [← Option.some.inj hd]
        exact hnew
      · exact absurd hcn (by simp only [reduceCtorEq, not_false_eq_true])
  | turn id odd =>
    simp only [exec] at h
    cases hid : s.calls id with
    | none =>
      rw [hid] at h
      exact absurd h (by simp only [reduceCtorEq, not_false_eq_true])
    | some c =>
      rw [hid] at h
      have hc := inv.calls id c hid
      have hrest := hc.rest
      have hlen := inv_len kind s inv (pipeOf kind c.head c.rw)
      simp only at h
      cases hturn : c.loop odd s.refcnt (s.pipe (pipeOf kind c.head c.rw)) with
      | wait =>
        rw [hturn] at h
        simp only [Option.some.injEq, Prod.mk.injEq] at h
        rcases h with ⟨rfl, rfl⟩
        exact ⟨inv, fun c n hcn => absurd hcn (by simp only [reduceCtorEq, not_false_eq_true])⟩
      | ende =>
        rw [hturn] at h
        simp only [Option.some.injEq, Prod.mk.injEq] at h
        rcases h with ⟨rfl, rfl⟩
        refine ⟨inv_setCall kind s inv id none (fun d hd => by cases hd), fun d n hdn => ?_⟩
        simp only [Option.some.injEq, Prod.mk.injEq] at hdn
        rcases hdn with ⟨rfl, rfl⟩
        have hres : c.result = c.moved.length := by
          unfold Call.result
          omega
        refine ⟨hres, by rw [hres]; exact hc.buf, fun _ => ?_⟩
        unfold Call.loop at hturn
        cases hrw : c.rw with
        | read =>
          rw [hrw] at hturn
          exact And.symm (prLoop_ende odd s.refcnt _ c.regs hturn)
        | write =>
          rw [hrw] at hturn hlen
          exact And.symm (pwLoop_ende odd s.refcnt _ c.regs hlen hturn)
      | moved p r n =>
        rw [hturn] at h
        rcases inv_moved kind s inv c odd p r n hc hturn with ⟨hinv, hcall⟩
        have hres := hcall.rest
        simp only at h
        split_ifs at h with hd7
        · simp only [Option.some.injEq, Prod.mk.injEq] at h
          rcases h with ⟨rfl, rfl⟩
          refine ⟨inv_setCall kind _ hinv id none (fun d hd => by cases hd), fun d k hdk => ?_⟩
          simp only [Option.some.injEq, Prod.mk.injEq] at hdk
          rcases hdk with ⟨rfl, rfl⟩
          have hall : Call.result (s.moved (pipeOf kind c.head c.rw) c p r n).2
              = (s.moved (pipeOf kind c.head c.rw) c p r n).2.count := by
            unfold Call.result
            rw [show (s.moved (pipeOf kind c.head c.rw) c p r n).2.regs.d7 = r.d7 from rfl,
              hd7, Nat.sub_zero]
          have hmoved : Call.result (s.moved (pipeOf kind c.head c.rw) c p r n).2
              = (s.moved (pipeOf kind c.head c.rw) c p r n).2.moved.length := by
            rw [hall, ← hres,
              show (s.moved (pipeOf kind c.head c.rw) c p r n).2.regs.d7 = r.d7 from rfl, hd7,
              Nat.add_zero]
          -- Everything was moved, so the call is not short.
          refine ⟨hmoved, by rw [hmoved]; exact hcall.buf, fun hlt => ?_⟩
          rw [hall] at hlt
          exact absurd hlt (Nat.lt_irrefl _)
        · simp only [Option.some.injEq, Prod.mk.injEq] at h
          rcases h with ⟨rfl, rfl⟩
          refine ⟨inv_setCall kind _ hinv id _ (fun d hd => ?_), fun d k hdk => ?_⟩
          · rw [← Option.some.inj hd]
            exact hcall
          · exact absurd hdk (by simp only [reduceCtorEq, not_false_eq_true])
  | opened =>
    simp only [exec, Option.some.injEq, Prod.mk.injEq] at h
    rcases h with ⟨rfl, rfl⟩
    exact ⟨⟨inv.fifo, inv.calls⟩,
      fun c n hcn => absurd hcn (by simp only [reduceCtorEq, not_false_eq_true])⟩
  | closed =>
    simp only [exec] at h
    split_ifs at h
    simp only [Option.some.injEq, Prod.mk.injEq] at h
    rcases h with ⟨rfl, rfl⟩
    exact ⟨⟨inv.fifo, inv.calls⟩,
      fun c n hcn => absurd hcn (by simp only [reduceCtorEq, not_false_eq_true])⟩

theorem pushed_log (kind : Kind) (x : Side) (log : List Event) :
    Fifo.pushed (log.filterMap (opOf kind x))
      = bytesOf .write (fun head => pipeOf kind head .write = x) log := by
  induction log with
  | nil => rfl
  | cons e es ih =>
    rcases e with ⟨head, rw, bytes⟩
    unfold bytesOf at ih ⊢
    rw [List.filterMap_cons, List.filter_cons]
    cases rw with
    | read =>
      simp only [opOf, reduceCtorEq, false_and, decide_false, Bool.false_eq_true, if_false, ← ih]
      split_ifs <;> rfl
    | write =>
      by_cases hx : pipeOf kind head .write = x
      · simp only [opOf, hx, decide_true, and_self, if_true, List.flatMap_cons,
          Fifo.pushed, ih]
      · simp only [opOf, hx, decide_false, Bool.false_eq_true, and_false, if_false, ih]

theorem popped_log (kind : Kind) (x : Side) (log : List Event) :
    Fifo.popped (log.filterMap (opOf kind x))
      = bytesOf .read (fun head => pipeOf kind head .read = x) log := by
  induction log with
  | nil => rfl
  | cons e es ih =>
    rcases e with ⟨head, rw, bytes⟩
    unfold bytesOf at ih ⊢
    rw [List.filterMap_cons, List.filter_cons]
    cases rw with
    | write =>
      simp only [opOf, reduceCtorEq, false_and, decide_false, Bool.false_eq_true, if_false, ← ih]
      split_ifs <;> rfl
    | read =>
      by_cases hx : pipeOf kind head .read = x
      · simp only [opOf, hx, decide_true, and_self, if_true, List.flatMap_cons,
          Fifo.popped, ih]
      · simp only [opOf, hx, decide_false, Bool.false_eq_true, and_false, if_false, ih]

theorem run_inv (kind : Kind) (refcnt : Nat) (data : Side → Nat → UInt8) (s : State)
    (acts : List Act) (hrun : Runs.Run (step kind) (initial refcnt data) acts s) : Inv kind s := by
  refine Runs.run_preserves (step kind) (Inv kind) (fun s a t inv hst => ?_) _ s acts hrun
    ⟨fun x => Runs.Run.nil [], fun id c hc => by cases hc⟩
  rcases hst with ⟨done, h⟩
  exact (exec_inv kind s t inv a done h).1

/-- In every state any interleaving leads to, what was written is what was read
    and behind it what is still in the pipe: all of it for a unidirectional
    pipe, and what one end wrote and the other read for a bidirectional one.
    A pipe never holds more than its buffer has room for, and a call that
    completes next returns what it moved. -/
theorem pipes_fifo (kind : Kind) (refcnt : Nat) (data : Side → Nat → UInt8) (s : State)
    (acts : List Act) (hrun : Runs.Run (step kind) (initial refcnt data) acts s) :
    (match kind with
      | .upipe => bytesOf .write (fun _ => true) s.log
          = bytesOf .read (fun _ => true) s.log ++ (s.pipe .crpipe).contents
      | .bipipe => ∀ head, bytesOf .write (fun h => h = head) s.log
          = bytesOf .read (fun h => h = !head) s.log ++
            (s.pipe (bipipePipe head .write)).contents) ∧
      (∀ x, (s.pipe x).len ≤ 2048) ∧
      ∀ a t c n, exec kind s a = some (t, some (c, n)) →
        Completed t (pipeOf kind c.head c.rw) c n := by
  have inv := run_inv kind refcnt data s acts hrun
  refine ⟨?_, inv_len kind s inv, fun a t c n h => (exec_inv kind s t inv a _ h).2 c n rfl⟩
  have hflow : ∀ x, bytesOf .write (fun head => pipeOf kind head .write = x) s.log
      = bytesOf .read (fun head => pipeOf kind head .read = x) s.log ++ (s.pipe x).contents := by
    intro x
    rw [← pushed_log, ← popped_log, ← Fifo.run_conserves 2048 _ _ _ (inv.fifo x), List.nil_append]
  cases kind with
  | upipe =>
    have := hflow .crpipe
    simpa only [pipeOf, decide_true] using this
  | bipipe =>
    intro head
    have := hflow (bipipePipe head .write)
    simpa only [pipeOf, bipipePipe_write, bipipePipe_opposite] using this

/-- The creator writes three bytes and the client reads two of them. -/
theorem pipes_fifo_creator :
    ∃ s, Runs.Run (step .bipipe) (initial 2 (fun _ _ => 0))
        [.start 0 true .write (fun i => UInt8.ofNat (65 + i)) 3, .turn 0 false,
          .start 1 false .read (fun _ => 0) 2, .turn 1 true] s ∧
      ∀ head, bytesOf .write (fun h => h = head) s.log
        = bytesOf .read (fun h => h = !head) s.log ++
          (s.pipe (bipipePipe head .write)).contents := by
  obtain ⟨s, hrun⟩ : ∃ s, Runs.Run (step .bipipe) (initial 2 (fun _ _ => 0))
      [.start 0 true .write (fun i => UInt8.ofNat (65 + i)) 3, .turn 0 false,
        .start 1 false .read (fun _ => 0) 2, .turn 1 true] s :=
    ⟨_, .cons _ _ _ _ _ ⟨_, rfl⟩ (.cons _ _ _ _ _ ⟨_, rfl⟩ (.cons _ _ _ _ _ ⟨_, rfl⟩
      (.cons _ _ _ _ _ ⟨_, rfl⟩ (.nil _))))⟩
  exact ⟨s, hrun, (pipes_fifo .bipipe 2 _ s _ hrun).1⟩

end Pipes

end MagiC
