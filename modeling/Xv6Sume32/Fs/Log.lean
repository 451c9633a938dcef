/-
The log of the file system (`log.c`): group commit of concurrent
operations, and recovery.

# Steps

A step is what happens between two points where something else can come
in between: a critical section under `log.lock`, the tests at the start
of `log_write` (made before the lock is taken), or one disk write of
`commit` or `recover_from_log`, which run without the lock. Events name
the step and the process that takes it, so a run is an interleaving. A
`crash` can come at any point; it is the reboot as well, up to and
including `read_head`.

# Blocks

`cache` is what `bread` returns for a block and `disk` what is on the
disk, both for all block numbers: log block `tail` is block
`logStart + tail + 1`, wherever that lies. Only the header block is kept
apart (`head`, the block numbers in it). The file system logs blocks
outside the log (`home`).

# Boundaries

`boundaries`, `boundary` and `durable` are not variables of the program:
they record the contents of the blocks when the last outstanding
operation has ended, and which of these records the header write has made
permanent.
-/
import Xv6Sume32.Lib.System

namespace Xv6Sume32.Fs

open Lib
open Function (update)

-- ======== the layout

/-- `MAXOPBLOCKS`. -/
def maxOpBlocks : Nat := 10

/-- `LOGSIZE`. -/
def logSize : Nat := maxOpBlocks * 3

/-- `nlog` of mkfs, the size of the log on disk with its header. -/
def nlog : Nat := logSize

/-- `sb.logstart` of mkfs. -/
def logStart : Nat := 2

/-- The blocks outside the log. -/
def home (b : Nat) : Prop := b < logStart ∨ logStart + nlog ≤ b

instance (b : Nat) : Decidable (home b) := inferInstanceAs (Decidable (_ ∨ _))

-- ======== the state

/-- Where a process is: in `begin_op`, asleep on `&log` or woken, between
`begin_op` and `end_op` with the blocks it has logged, in `log_write`
behind its tests, or in the `commit` of its `end_op`. -/
inductive Phase
  | idle
  | asleep
  | woken
  | op (used : List Nat)
  | logging (used : List Nat) (b : Nat)
  | commit
deriving DecidableEq

/-- The panics of `log.c`; `overrun` stands for a store behind
`lh.block`. -/
inductive Panic
  | tooBig
  | outsideTrans
  | committing
  | overrun
deriving DecidableEq

/-- The disk writes that are left of `commit` or `recover_from_log`: of
`write_log` or `install_trans` from `tail` on, with the header write
behind. -/
inductive Job
  | none
  | writeLog (tail : Nat)
  | install (tail : Nat)
deriving DecidableEq

/-- The log, the processes and the blocks. -/
structure LogState (P D : Type) where
  /-- `lh.block[0..lh.n)` -/
  block : List Nat
  outstanding : Int
  committing : Bool
  proc : P → Phase
  job : Job
  recovering : Bool
  cache : Nat → D
  disk : Nat → D
  head : List Nat
  panic : Option Panic
  boundary : Nat → D
  durable : Nat → D
  boundaries : List (Nat → D)

/-- The processes that take part, and what they write. -/
inductive Event (P D : Type)
  | beginOp (p : P)
  | check (p : P) (b : Nat)
  | logWrite (p : P) (d : D)
  | endOp (p : P)
  | commitDone (p : P)
  | disk
  | crash

variable {P D : Type} [DecidableEq P]

/-- A fresh file system: nothing logged, nobody in an operation. -/
def LogState.init (blocks : Nat → D) : LogState P D where
  block := []
  outstanding := 0
  committing := false
  proc := fun _ => .idle
  job := .none
  recovering := false
  cache := blocks
  disk := blocks
  head := []
  panic := none
  boundary := blocks
  durable := blocks
  boundaries := [blocks]

namespace LogState

variable (s : LogState P D)

/-- `wakeup(&log)`. -/
def wake (proc : P → Phase) : P → Phase := fun q =>
  match proc q with
  | .asleep => .woken
  | ph => ph

/-- A round of the loop of `begin_op`. -/
def beginOp (p : P) : Option (LogState P D) :=
  match s.proc p with
  | .idle | .woken =>
      if s.committing then
        some { s with proc := update s.proc p .asleep }
      else if (logSize : Int) < s.block.length + (s.outstanding + 1) * maxOpBlocks then
        some { s with proc := update s.proc p .asleep }
      else
        some { s with
          outstanding := s.outstanding + 1
          proc := update s.proc p (.op []) }
  | _ => none

/-- The tests of `log_write` for block `b`, in an operation that logs at
most `bound` different blocks. -/
def check (bound : Nat) (p : P) (b : Nat) : Option (LogState P D) :=
  match s.proc p with
  | .op used =>
      if home b ∧ (b ∈ used ∨ used.length < bound) then
        if logSize ≤ s.block.length ∨ nlog - 1 ≤ s.block.length then
          some { s with panic := some .tooBig }
        else if s.outstanding < 1 then
          some { s with panic := some .outsideTrans }
        else some { s with proc := update s.proc p (.logging used b) }
      else none
  | _ => none

/-- The blocks an operation has logged, one more among them. -/
def note (used : List Nat) (b : Nat) : List Nat :=
  if b ∈ used then used else used ++ [b]

/-- The critical section of `log_write`, for a buffer that now
holds `d`. -/
def logWrite (p : P) (d : D) : Option (LogState P D) :=
  match s.proc p with
  | .logging used b =>
      if b ∈ s.block then
        some { s with
          cache := update s.cache b d
          proc := update s.proc p (.op (note used b)) }
      else if s.block.length < logSize then
        some { s with
          block := s.block ++ [b]
          cache := update s.cache b d
          proc := update s.proc p (.op (note used b)) }
      else some { s with panic := some .overrun }
  | _ => none

/-- The first critical section of `end_op`. -/
def endOp (p : P) : Option (LogState P D) :=
  match s.proc p with
  | .op _ =>
      if s.committing then
        some { s with
          outstanding := s.outstanding - 1
          panic := some .committing }
      else if s.outstanding - 1 = 0 then
        some { s with
          outstanding := 0
          committing := true
          proc := update s.proc p .commit
          -- `commit` does nothing for an empty log
          job := if s.block = [] then .none else .writeLog 0
          boundary := s.cache
          boundaries := s.cache :: s.boundaries }
      else
        some { s with
          outstanding := s.outstanding - 1
          proc := update (wake s.proc) p .idle }
  | _ => none

/-- The second critical section of `end_op`. -/
def commitDone (p : P) : Option (LogState P D) :=
  match s.proc p, s.job with
  | .commit, .none =>
      some { s with
        committing := false
        proc := update (wake s.proc) p .idle }
  | _, _ => none

/-- The next disk write of `commit` or `recover_from_log`. -/
def diskWrite : Option (LogState P D) :=
  match s.job with
  | .none => none
  | .writeLog tail =>
      match s.block[tail]? with
      | some b =>
          some { s with
            cache := update s.cache (logStart + tail + 1) (s.cache b)
            disk := update s.disk (logStart + tail + 1) (s.cache b)
            job := .writeLog (tail + 1) }
      | none =>
          some { s with
            head := s.block
            durable := s.boundary
            job := .install 0 }
  | .install tail =>
      match s.block[tail]? with
      | some b =>
          some { s with
            cache := update s.cache b (s.cache (logStart + tail + 1))
            disk := update s.disk b (s.cache (logStart + tail + 1))
            job := .install (tail + 1) }
      | none =>
          some { s with
            block := []
            head := []
            job := .none
            recovering := false }

/-- A crash and the reboot, up to the header read by
`recover_from_log`. -/
def crash : LogState P D :=
  { s with
    block := s.head
    outstanding := 0
    committing := false
    proc := fun _ => .idle
    job := .install 0
    recovering := true
    cache := s.disk
    panic := none }

/-- Processes run: there was no panic, and recovery is over. -/
def up : Bool := s.panic.isNone && !s.recovering

end LogState

/-- One step. After a panic there is only the crash. -/
def step (bound : Nat) (e : Event P D) (s : LogState P D) : Option (LogState P D) :=
  match e with
  | .beginOp p => if s.up then s.beginOp p else none
  | .check p b => if s.up then s.check bound p b else none
  | .logWrite p d => if s.up then s.logWrite p d else none
  | .endOp p => if s.up then s.endOp p else none
  | .commitDone p => if s.up then s.commitDone p else none
  | .disk => if s.panic.isNone then s.diskWrite else none
  | .crash => some s.crash

end Xv6Sume32.Fs
