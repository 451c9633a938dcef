/-
The process table (`proc.c`): `fork`, `exit`, `wait`, `kill` and what else
changes the state of a process.

# Steps

A critical section of `ptable.lock` is one step, and so is each stretch of
`fork` between two of them: the kernel stack, then the copy of the
address space. Any number of processes can be RUNNING at a time, one on
each CPU. A process that goes on in `wait` after `sleep` does so in the
critical section in which the scheduler chose it.

# Left out

Files, the working directory, the name and the saved registers other than
`eax`, the result of a system call. A page table is the page that `pgdir`
points to. What `kalloc` and `copyuvm` return is part of the event: a page
that is not in use, or nothing.

# History

`forks`, `waits` and `blamed` are not variables of the program: the number
of calls of `fork`, what the calls of `wait` returned, and whether since
the process in a slot was created `kill` has been called with its pid, or
it has faulted in user mode.
-/
import Xv6Sume32.Lib.Bytes
import Xv6Sume32.Lib.System

namespace Xv6Sume32.Proc

open Lib
open Function (update)

-- ======== the table

/-- `NPROC`. -/
def nproc : Nat := 64

instance : NeZero nproc := ⟨by decide⟩

/-- A slot of `ptable.proc`. -/
abbrev Slot := Fin nproc

/-- The address of a page. -/
abbrev Page := Nat

/-- The slot `allocproc` finds for `userinit`. -/
def initproc : Slot := 0

inductive ProcState
  | unused
  | embryo
  | sleeping
  | runnable
  | running
  | zombie
deriving DecidableEq

/-- What a process sleeps on: a process in `wait`, or something else. -/
inductive Channel
  | proc (p : Slot)
  | other (n : Nat)
deriving DecidableEq

/-- `struct proc`. -/
structure ProcSlot where
  state : ProcState
  pid : Word
  parent : Option Slot
  chan : Option Channel
  killed : Bool
  kstack : Option Page
  pgdir : Option Page
  eax : Word

/-- What `fork` does next with the slot it fills. -/
inductive Stage
  | kalloc
  | copy
  | publish
deriving DecidableEq

/-- Where a process is: in `fork`, asleep in `wait`, or anywhere else. -/
inductive Pc
  | user
  | fork (np : Slot) (stage : Stage)
  | wait
deriving DecidableEq

structure Ptable where
  proc : Slot → ProcSlot
  nextpid : Word
  pc : Slot → Pc
  page : Page → Bool
  forks : Nat
  waits : List (Slot × Option Word)
  blamed : Slot → Bool

namespace Ptable

variable (s : Ptable)

def inUse (i : Slot) : Prop := (s.proc i).state ≠ .unused

instance (i : Slot) : Decidable (s.inUse i) := inferInstanceAs (Decidable (¬ _ = _))

def set (i : Slot) (p : ProcSlot) : Ptable := { s with proc := update s.proc i p }

/-- A system call of a process returns. -/
def ret (p : Slot) (v : Word) : Ptable :=
  { s.set p { s.proc p with eax := v } with pc := update s.pc p .user }

def kfree (k : Option Page) : Ptable :=
  match k with
  | some k => { s with page := update s.page k false }
  | none => s

-- ======== fork

/-- The first UNUSED slot. -/
def freeSlot : Option Slot :=
  (List.finRange nproc).find? fun i => decide ((s.proc i).state = .unused)

/-- `fork`, up to the end of the critical section of `allocproc`. -/
def forkAlloc (p : Slot) : Ptable :=
  let s := { s with forks := s.forks + 1 }
  match s.freeSlot with
  | none => s.ret p (-1)
  | some np =>
      { s.set np { s.proc np with state := .embryo, pid := s.nextpid } with
        nextpid := s.nextpid + 1
        pc := update s.pc p (.fork np .kalloc)
        blamed := update s.blamed np false }

/-- The rest of `allocproc`. -/
def forkStack (p np : Slot) (k : Option Page) : Option Ptable :=
  match k with
  | none => some ((s.set np { s.proc np with kstack := none, state := .unused }).ret p (-1))
  | some k =>
      if s.page k then none
      else some
        { s.set np { s.proc np with kstack := some k } with
          page := update s.page k true
          pc := update s.pc p (.fork np .copy) }

/-- `fork` from `copyuvm` on, up to its critical section. -/
def forkCopy (p np : Slot) (d : Option Page) : Option Ptable :=
  match d with
  | none =>
      let s := s.kfree (s.proc np).kstack
      some ((s.set np { s.proc np with
        pgdir := none, kstack := none, state := .unused }).ret p (-1))
  | some d =>
      if s.page d then none
      else some
        { s.set np { s.proc np with pgdir := some d, parent := some p, eax := 0 } with
          page := update s.page d true
          pc := update s.pc p (.fork np .publish) }

/-- The critical section of `fork`. -/
def forkPublish (p np : Slot) : Ptable :=
  (s.set np { s.proc np with state := .runnable }).ret p (s.proc np).pid

-- ======== exit and wait

def wakeup1 (c : Option Channel) : Ptable :=
  { s with proc := fun i =>
      if (s.proc i).state = .sleeping ∧ (s.proc i).chan = c then
        { s.proc i with state := .runnable }
      else s.proc i }

/-- One round of the loop of `exit` that passes children to init. -/
def abandon (p : Slot) (s : Ptable) (i : Slot) : Ptable :=
  if (s.proc i).parent = some p then
    let s := s.set i { s.proc i with parent := some initproc }
    if (s.proc i).state = .zombie then s.wakeup1 (some (.proc initproc)) else s
  else s

/-- The critical section of `exit`. -/
def exit (p : Slot) : Ptable :=
  let s := s.wakeup1 ((s.proc p).parent.map .proc)
  let s := (List.finRange nproc).foldl (abandon p) s
  s.set p { s.proc p with state := .zombie }

/-- What the loop of `wait` finds: a child that has exited, or whether
there are children at all. -/
inductive Scan
  | found (i : Slot)
  | finished (havekids : Bool)

def scan (p : Slot) : List Slot → Bool → Scan
  | [], havekids => .finished havekids
  | i :: is, havekids =>
      if (s.proc i).parent ≠ some p then scan p is havekids
      else if (s.proc i).state = .zombie then .found i
      else scan p is true

/-- What `wait` does with the child it has found; `pgdir` stays. -/
def reap (i : Slot) : Ptable :=
  let s := (s.kfree (s.proc i).kstack).kfree (s.proc i).pgdir
  s.set i { s.proc i with
    kstack := none, pid := 0, parent := none, killed := false, state := .unused }

/-- `wait`, up to where it returns or sleeps. -/
def wait (p : Slot) : Ptable :=
  match s.scan p (List.finRange nproc) false with
  | .found i =>
      let pid := (s.proc i).pid
      { (s.reap i).ret p pid with waits := s.waits ++ [(p, some pid)] }
  | .finished havekids =>
      if !havekids || (s.proc p).killed then
        { s.ret p (-1) with waits := s.waits ++ [(p, none)] }
      else
        { s.set p { s.proc p with chan := some (.proc p), state := .sleeping } with
          pc := update s.pc p .wait }

-- ======== kill and the scheduler

/-- The slot that `kill` stops at. -/
def killTarget (pid : Word) : Option Slot :=
  (List.finRange nproc).find? fun i => decide ((s.proc i).pid = pid)

/-- `kill`, and what it returns. -/
def kill (pid : Word) : Ptable × Word :=
  match s.killTarget pid with
  | none => (s, -1)
  | some i =>
      (s.set i { s.proc i with
        killed := true
        state := if (s.proc i).state = .sleeping then .runnable else (s.proc i).state }, 0)

/-- The scheduler chooses a process, which goes on where it was. -/
def run (p : Slot) : Ptable :=
  let s := s.set p { s.proc p with state := .running, chan := none }
  if s.pc p = .wait then s.wait p else s

/-- A process runs, and not in the middle of `fork`. -/
def free (p : Slot) : Prop := (s.proc p).state = .running ∧ s.pc p = .user

instance (p : Slot) : Decidable (s.free p) := inferInstanceAs (Decidable (_ ∧ _))

end Ptable

/-- What can happen; the pages are those that `kalloc` and `copyuvm`
return. -/
inductive ProcEvent
  | fork (p : Slot)
  | fill (p : Slot) (page : Option Page)
  | exit (p : Slot)
  | wait (p : Slot)
  | kill (p : Slot) (pid : Word)
  | fault (p : Slot)
  | run (p : Slot)
  | yield (p : Slot)
  | sleep (p : Slot) (n : Nat)
  | wakeup (n : Nat)

/-- A step; there is none where the kernel panics because init exits. -/
def procStep (e : ProcEvent) (s : Ptable) : Option Ptable :=
  match e with
  | .fork p => if s.free p then some (s.forkAlloc p) else none
  | .fill p page =>
      if (s.proc p).state = .running then
        match s.pc p with
        | .fork np .kalloc => s.forkStack p np page
        | .fork np .copy => s.forkCopy p np page
        | .fork np .publish => some (s.forkPublish p np)
        | _ => none
      else none
  | .exit p => if s.free p ∧ p ≠ initproc then some (s.exit p) else none
  | .wait p => if s.free p then some (s.wait p) else none
  | .kill p pid =>
      if s.free p then
        let blamed := fun i => s.blamed i || decide (s.inUse i ∧ (s.proc i).pid = pid)
        let r := s.kill pid
        some { r.1.ret p r.2 with blamed := blamed }
      else none
  | .fault p =>
      if s.free p then
        some { s.set p { s.proc p with killed := true } with
          blamed := update s.blamed p true }
      else none
  | .run p => if (s.proc p).state = .runnable then some (s.run p) else none
  | .yield p =>
      if (s.proc p).state = .running then some (s.set p { s.proc p with state := .runnable })
      else none
  | .sleep p n =>
      if s.free p then
        some (s.set p { s.proc p with chan := some (.other n), state := .sleeping })
      else none
  | .wakeup n => some (s.wakeup1 (some (.other n)))

/-- A slot of the table before it is first used. -/
def ProcSlot.zero : ProcSlot := ⟨.unused, 0, none, none, false, none, none, 0⟩

/-- The table as `userinit` leaves it. -/
def Booted (s : Ptable) : Prop :=
  ∃ k d page, k ≠ d ∧ page k = true ∧ page d = true ∧ s = {
    proc := update (fun _ => ProcSlot.zero) initproc
      { ProcSlot.zero with state := .runnable, pid := 1, kstack := some k, pgdir := some d }
    nextpid := 2
    pc := fun _ => .user
    page := page
    forks := 0
    waits := []
    blamed := fun _ => false }

end Xv6Sume32.Proc
