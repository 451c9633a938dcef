/-
Pipes (`pipe.c`), with the processes that use one.

# Steps

A stretch of `pipewrite` or `piperead` from where `p->lock` is acquired to
where it is released, or given up in `sleep`, is one step. A call is made
in a step of its own, so that other things, a `kill` among them, can come
between it and its first stretch. `sleep` and `wakeup` are the ones of
`proc.c`: a process is asleep on a channel until somebody wakes that
channel or kills the process, and takes its next stretch after that.

# History

`stored` and `returned` are not variables of the program: they are the
bytes that all calls of `pipewrite` have stored and all calls of
`piperead` have returned, in the order of the stretches.
-/
import Xv6Sume32.Lib.Bytes
import Xv6Sume32.Lib.System

namespace Xv6Sume32.Proc

open Lib
open Function (update)

-- ======== the pipe

/-- `PIPESIZE`. -/
def pipeSize : Nat := 512

structure Pipe where
  data : Nat → Byte
  nread : Word
  nwrite : Word
  readopen : Bool
  writeopen : Bool

/-- The pipe that `pipealloc` sets up in a page with these contents. -/
def Pipe.alloc (data : Nat → Byte) : Pipe := ⟨data, 0, 0, true, true⟩

/-- How a stretch ends: the call returns as it should, it returns -1, or
the process sleeps. -/
inductive Stop
  | done
  | refused
  | sleep
deriving DecidableEq

namespace Pipe

variable (killed : Bool)

/-- `p->nwrite == p->nread + PIPESIZE`. -/
def full (p : Pipe) : Prop := p.nwrite = p.nread + BitVec.ofNat 32 pipeSize

instance (p : Pipe) : Decidable p.full := inferInstanceAs (Decidable (_ = _))

/-- `p->data[p->nwrite++ % PIPESIZE] = c`. -/
def store (p : Pipe) (c : Byte) : Pipe :=
  { p with
    data := update p.data (p.nwrite.toNat % pipeSize) c
    nwrite := p.nwrite + 1 }

/-- The loop of `pipewrite` from byte `i` of the buffer on, with `k` bytes
to go: the pipe, the number of the byte it got to, and why it stopped. -/
def writeLoop (addr : Nat → Byte) : Nat → Nat → Pipe → Pipe × Nat × Stop
  | 0, i, p => (p, i, .done)
  | k + 1, i, p =>
      if p.full then
        if p.readopen = false ∨ killed = true then (p, i, .refused) else (p, i, .sleep)
      else writeLoop addr k (i + 1) (p.store (addr i))

/-- The copying loop of `piperead`: the pipe and the bytes. -/
def readLoop : Nat → Pipe → Pipe × List Byte
  | 0, p => (p, [])
  | k + 1, p =>
      if p.nread = p.nwrite then (p, [])
      else
        let (p', bytes) := readLoop k { p with nread := p.nread + 1 }
        (p', p.data (p.nread.toNat % pipeSize) :: bytes)

/-- A stretch of `piperead` for `n` bytes. -/
def readStretch (n : Int) (p : Pipe) : Pipe × List Byte × Stop :=
  if p.nread = p.nwrite ∧ p.writeopen = true then
    if killed = true then (p, [], .refused) else (p, [], .sleep)
  else
    let (p', bytes) := readLoop n.toNat p
    (p', bytes, .done)

end Pipe

-- ======== the processes

/-- What a process is doing: `pipewrite` of the `n` bytes at `addr`, of
which `i` are stored, or `piperead` of up to `n` bytes. -/
inductive Phase
  | idle
  | write (addr : Nat → Byte) (n : Int) (i : Nat)
  | read (n : Int)

/-- The channels `&p->nread` and `&p->nwrite`. -/
inductive Chan
  | nread
  | nwrite
deriving DecidableEq

structure PipeState (P : Type) where
  pipe : Pipe
  freed : Bool
  phase : P → Phase
  chan : P → Option Chan
  killed : P → Bool
  stored : List Byte
  returned : List Byte

inductive PipeEvent (P : Type)
  | write (p : P) (addr : Nat → Byte) (n : Int)
  | read (p : P) (n : Int)
  | run (p : P)
  | close (writable : Bool)
  | kill (p : P)

variable {P : Type} [DecidableEq P]

namespace PipeState

variable (s : PipeState P)

/-- `wakeup(c)`. -/
def wake (c : Chan) (chan : P → Option Chan) : P → Option Chan := fun p =>
  if chan p = some c then none else chan p

/-- A process makes a call. -/
def call (p : P) (ph : Phase) : Option (PipeState P) :=
  match s.phase p with
  | .idle => some { s with phase := update s.phase p ph }
  | _ => none

/-- A stretch of `pipewrite`. -/
def write (p : P) (addr : Nat → Byte) (n : Int) (i : Nat) : PipeState P :=
  let (pipe, i', stop) := s.pipe.writeLoop (s.killed p) addr (n.toNat - i) i
  let stored := s.stored ++ (List.range' i (i' - i)).map addr
  match stop with
  | .done =>
      { s with
        pipe := pipe
        stored := stored
        phase := update s.phase p .idle
        chan := wake .nread s.chan }
  | .refused =>
      { s with
        pipe := pipe
        stored := stored
        phase := update s.phase p .idle }
  | .sleep =>
      { s with
        pipe := pipe
        stored := stored
        phase := update s.phase p (.write addr n i')
        chan := update (wake .nread s.chan) p (some .nwrite) }

/-- A stretch of `piperead`. -/
def read (p : P) (n : Int) : PipeState P :=
  let (pipe, bytes, stop) := s.pipe.readStretch (s.killed p) n
  match stop with
  | .done =>
      { s with
        pipe := pipe
        returned := s.returned ++ bytes
        phase := update s.phase p .idle
        chan := wake .nwrite s.chan }
  | .refused => { s with phase := update s.phase p .idle }
  | .sleep => { s with chan := update s.chan p (some .nread) }

/-- A process that is in a call and not asleep gets `p->lock`. -/
def run (p : P) : Option (PipeState P) :=
  match s.chan p, s.phase p with
  | none, .write addr n i => some (s.write p addr n i)
  | none, .read n => some (s.read p n)
  | _, _ => none

/-- `pipeclose`. -/
def close (writable : Bool) : PipeState P :=
  let s := if writable then
      { s with
        pipe := { s.pipe with writeopen := false }
        chan := wake .nread s.chan }
    else
      { s with
        pipe := { s.pipe with readopen := false }
        chan := wake .nwrite s.chan }
  { s with freed := !s.pipe.readopen && !s.pipe.writeopen }

/-- `kill` of a process. -/
def kill (p : P) : PipeState P :=
  { s with
    killed := update s.killed p true
    chan := update s.chan p none }

end PipeState

/-- A step; a pipe that has been freed is not used any more. -/
def pipeStep (e : PipeEvent P) (s : PipeState P) : Option (PipeState P) :=
  match e with
  | .kill p => some (s.kill p)
  | .write p addr n => if s.freed then none else s.call p (.write addr n 0)
  | .read p n => if s.freed then none else s.call p (.read n)
  | .run p => if s.freed then none else s.run p
  | .close writable => if s.freed then none else some (s.close writable)

/-- A pipe as `pipealloc` returns it, before anybody has used it. -/
def freshPipe (s : PipeState P) : Prop :=
  ∃ data killed, s = {
    pipe := .alloc data
    freed := false
    phase := fun _ => .idle
    chan := fun _ => none
    killed := killed
    stored := []
    returned := [] }

end Xv6Sume32.Proc
