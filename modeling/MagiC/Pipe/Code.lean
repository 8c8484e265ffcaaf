import MagiC.Allg.Copy

/-!
# The Pipe Driver

Reading and writing of unidirectional and bidirectional pipes, from
`dev_pipe.s`.

A pipe is a length word and two kilobytes of data that always start at the
front: reading copies from the front and moves the rest down, writing appends.
`prLoop` and `pwLoop` are one turn of the two loops, from the loop head to the
next time the code is there, to the suspension at `evnt_IO`, or to the end of
the call. Between two turns of one call any other call may take its turns.

## Main definitions

* `pwLoop`: One turn of a writing call.
-/

namespace MagiC

namespace Pipes

open Copy

/-- Whether a device is a `UPIPE` or a `BIPIPE`. -/
inductive Kind where
  | upipe
  | bipipe
  deriving DecidableEq

/-- The pipes of a device, of which a `UPIPE` has only the first. -/
inductive Side where
  | crpipe
  | clpipe
  deriving DecidableEq

/-- The direction of a call, the `rwflag`. -/
inductive Rw where
  | read
  | write
  deriving DecidableEq

/-- `pipe_len` and `pipe_data`. -/
structure Pipe where
  len : Nat
  data : Nat → UInt8

/-- What is in the pipe. -/
def Pipe.contents (p : Pipe) : List UInt8 := window p.data 0 p.len

/-- What a call keeps in its registers over its turns: the caller's buffer,
    the position `a5` in it and the remaining count `d7`. -/
structure Regs where
  buf : Nat → UInt8
  a5 : Nat
  d7 : Nat

/-- How a turn of the loop ends: suspended at `evnt_IO`, at `prw_ende` with
    nothing moved, or with `n` bytes moved. -/
inductive Turn where
  | wait
  | ende
  | moved (p : Pipe) (r : Regs) (n : Nat)

/-- `pr_loop`: one turn of a reading call. -/
def prLoop (odd : Bool) (refcnt : Nat) (p : Pipe) (r : Regs) : Turn :=
  if p.len = 0 then if refcnt ≤ 1 then .ende else .wait
  else
    let n := if r.d7 ≤ p.len then r.d7 else p.len
    let buf := ncopyFrom odd p.data n 0 r.a5 r.buf
    let len := p.len - n
    let data := if len = 0 then p.data else vmemcpy 0 n len p.data
    .moved ⟨len, data⟩ ⟨buf, r.a5 + n, r.d7 - n⟩ n

/-- `pw_loop`: one turn of a writing call. The free space is computed as a
    word and tested as a signed one. -/
def pwLoop (odd : Bool) (refcnt : Nat) (p : Pipe) (r : Regs) : Turn :=
  let free := (2048 + 2 ^ 16 - p.len) % 2 ^ 16
  if free = 0 ∨ 2 ^ 15 ≤ free then if refcnt ≤ 1 then .ende else .wait
  else
    let n := if r.d7 ≤ free then r.d7 else free
    let data := ncopyFrom odd r.buf n r.a5 p.len p.data
    .moved ⟨p.len + n, data⟩ ⟨r.buf, r.a5 + n, r.d7 - n⟩ n

/-- `bipipe_pipe`: the creator writes to its own pipe and reads from the
    client's, and the other way round. `head` is the `O_HEAD` flag. -/
def bipipePipe (head : Bool) (rw : Rw) : Side :=
  let regs := if head then (Side.crpipe, Side.clpipe) else (Side.clpipe, Side.crpipe)
  if rw = .write then regs.1 else regs.2

/-- The pipe a call works on. -/
def pipeOf (kind : Kind) (head : Bool) (rw : Rw) : Side :=
  match kind with
  | .upipe => .crpipe
  | .bipipe => bipipePipe head rw

theorem bipipePipe_opposite (w r : Bool) :
    bipipePipe r .read = bipipePipe w .write ↔ r = !w := by
  cases w <;> cases r <;> decide

theorem bipipePipe_write (v w : Bool) : bipipePipe v .write = bipipePipe w .write ↔ v = w := by
  cases v <;> cases w <;> decide

end Pipes

end MagiC
