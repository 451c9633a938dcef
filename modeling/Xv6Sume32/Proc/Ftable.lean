/-
Open files (`file.c`, the descriptors of `sysfile.c`, the ends of pipes).

# State

The file table with its entries as `struct file` has them, the descriptors
and the working directory of every process, how many references of each
inode are handed out, and which ends of each pipe are open. A live process
is RUNNABLE here, whatever the scheduler does with it; EMBRYO is the child
of a `fork` that is not finished.

An entry is not cleared when it is freed: `fileclose` sets `ref` and
`type`, and the pointers stay.

# Calls

A system call is one step. `found` is what `namei` or `create` come back
with for the path: an inode, with a reference that the caller owns, and
whether it is a directory; nothing also stands for a path that cannot be
read. The address that `pipe` is given is good or bad, and `fork` finds
pages for the child or does not. Apart from pipes pages are taken and
given back by others, who keep to the allocator's rules (`pages`).

# History

`log` is not a variable of the program. It has an entry for each pipe end
and inode that an entry of the file table was given, and for each call of
`pipeclose` and `iput` by which `fileclose` released it.
-/
import Xv6Sume32.Lib.Refs
import Xv6Sume32.Vm.Machine

namespace Xv6Sume32.Ftable

open Lib
open Proc (Slot initproc nproc ProcState)
open Vm (nofile nfile Ends)

-- ======== the state

abbrev Ino := Nat

/-- `ROOTINO`. -/
def rootino : Ino := 1

inductive FdType
  | fdNone
  | fdPipe
  | fdInode
deriving DecidableEq

/-- `struct file`. -/
structure File where
  type : FdType
  ref : Nat
  readable : Bool
  writable : Bool
  pipe : Option Nat
  ip : Option Ino
  off : Nat
deriving DecidableEq

/-- What an entry can hold: an end of a pipe, with `writable`, or an
inode. -/
inductive Held
  | pipe (k : Nat) (writable : Bool)
  | inode (ip : Ino)
deriving DecidableEq

def File.held (f : File) : Option Held :=
  match f.type with
  | .fdNone => none
  | .fdPipe => f.pipe.map fun k => .pipe k f.writable
  | .fdInode => f.ip.map .inode

/-- A panic; `fault` is the use of a null pointer or of a pipe that has been
freed. -/
inductive Panic
  | filedup
  | fileclose
  | initExiting
  | fault
deriving DecidableEq

structure Sys where
  file : Fin nfile → File
  state : Slot → ProcState
  ofile : Slot × Fin nofile → Option (Fin nfile)
  cwd : Slot → Option Ino
  iref : Ino → Int
  pipe : Nat → Option Ends
  free : List Nat
  log : List (Fin nfile × Bool × Held)

namespace Sys

variable (s : Sys)

def setFile (f : Fin nfile) (file : File) : Sys :=
  { s with file := Function.update s.file f file }

def setFd (p : Slot) (fd : Fin nofile) (f : Option (Fin nfile)) : Sys :=
  { s with ofile := Function.update s.ofile (p, fd) f }

def setCwd (p : Slot) (ip : Option Ino) : Sys :=
  { s with cwd := Function.update s.cwd p ip }

def setState (p : Slot) (st : ProcState) : Sys :=
  { s with state := Function.update s.state p st }

/-- An entry of the history. -/
def note (f : Fin nfile) (took : Bool) (h : Held) : Sys :=
  { s with log := (f, took, h) :: s.log }

-- ======== inodes

/-- A reference is handed out, as `iget` and `idup` do. -/
def idup (ip : Ino) : Sys :=
  { s with iref := Function.update s.iref ip (s.iref ip + 1) }

/-- A reference is given back. -/
def iput (ip : Ino) : Sys :=
  { s with iref := Function.update s.iref ip (s.iref ip - 1) }

-- ======== files

def filealloc : Option (Fin nfile × Sys) :=
  match (List.finRange nfile).find? fun f => decide ((s.file f).ref = 0) with
  | none => none
  | some f => some (f, s.setFile f { s.file f with ref := 1 })

def filedup (f : Fin nfile) : Except Panic Sys :=
  if (s.file f).ref < 1 then .error .filedup
  else .ok (s.setFile f { s.file f with ref := (s.file f).ref + 1 })

def pipeclose (k : Nat) (writable : Bool) : Except Panic Sys :=
  match s.pipe k with
  | none => .error .fault
  | some ends =>
      let ends : Ends := if writable then { ends with writeopen := false }
        else { ends with readopen := false }
      if ends.readopen = false ∧ ends.writeopen = false then
        .ok { s with pipe := Function.update s.pipe k none, free := k :: s.free }
      else .ok { s with pipe := Function.update s.pipe k (some ends) }

/-- The release of what a freed entry held. -/
def release (f : Fin nfile) (ff : File) : Except Panic Sys :=
  match ff.type with
  | .fdNone => .ok s
  | .fdPipe =>
      match ff.pipe with
      | none => .error .fault
      | some k => (s.note f false (.pipe k ff.writable)).pipeclose k ff.writable
  | .fdInode =>
      match ff.ip with
      | none => .error .fault
      | some ip => .ok ((s.note f false (.inode ip)).iput ip)

def fileclose (f : Fin nfile) : Except Panic Sys :=
  let ff := s.file f
  if ff.ref < 1 then .error .fileclose
  else if 1 < ff.ref then .ok (s.setFile f { ff with ref := ff.ref - 1 })
  else (s.setFile f { ff with ref := 0, type := .fdNone }).release f ff

-- ======== descriptors

/-- `argfd`: the descriptor and the file. -/
def argfd (p : Slot) (fd : Int) : Option (Fin nofile × Fin nfile) :=
  if h : 0 ≤ fd ∧ fd < nofile then
    let fd : Fin nofile := ⟨fd.toNat, by omega⟩
    (s.ofile (p, fd)).map fun f => (fd, f)
  else none

def fdalloc (p : Slot) (f : Fin nfile) : Option (Fin nofile × Sys) :=
  match (List.finRange nofile).find? fun fd => decide (s.ofile (p, fd) = none) with
  | none => none
  | some fd => some (fd, s.setFd p fd (some f))

def sysDup (p : Slot) (fd : Int) : Except Panic (Int × Sys) :=
  match s.argfd p fd with
  | none => .ok (-1, s)
  | some (_, f) =>
      match s.fdalloc p f with
      | none => .ok (-1, s)
      | some (fd, s) => do
          let s ← s.filedup f
          .ok (fd, s)

def sysClose (p : Slot) (fd : Int) : Except Panic (Int × Sys) :=
  match s.argfd p fd with
  | none => .ok (-1, s)
  | some (fd, f) => do
      let s ← (s.setFd p fd none).fileclose f
      .ok (0, s)

/-- `O_WRONLY`. -/
def oWronly : Word := 0x001

/-- `O_RDWR`. -/
def oRdwr : Word := 0x002

/-- `O_CREATE`. -/
def oCreate : Word := 0x200

/-- What `sys_open` stores into the entry. -/
def openInode (f : Fin nfile) (ip : Ino) (omode : Word) : Sys :=
  (s.setFile f { s.file f with
    type := .fdInode, ip := some ip, off := 0,
    readable := omode &&& oWronly = 0,
    writable := omode &&& oWronly ≠ 0 ∨ omode &&& oRdwr ≠ 0 }).note f true (.inode ip)

/-- `sys_open`, with the inode the path leads to. -/
def sysOpen (p : Slot) (found : Option (Ino × Bool)) (omode : Word) : Except Panic (Int × Sys) :=
  match found with
  | none => .ok (-1, s)
  | some (ip, dir) =>
      let s := s.idup ip
      if omode &&& oCreate = 0 ∧ dir ∧ omode ≠ 0 then .ok (-1, s.iput ip)
      else
        match s.filealloc with
        | none => .ok (-1, s.iput ip)
        | some (f, s) =>
            match s.fdalloc p f with
            | none => do
                let s ← s.fileclose f
                .ok (-1, s.iput ip)
            | some (fd, s) => .ok (fd, s.openInode f ip omode)

-- ======== pipes

def kalloc : Option (Nat × Sys) :=
  match s.free with
  | [] => none
  | k :: free => some (k, { s with free := free })

/-- What `pipealloc` stores into an entry. -/
def openPipe (f : Fin nfile) (k : Nat) (writable : Bool) : Sys :=
  (s.setFile f { s.file f with
    type := .fdPipe, readable := !writable, writable := writable,
    pipe := some k }).note f true (.pipe k writable)

/-- `pipealloc`: the two files, or nothing. -/
def pipealloc : Except Panic (Sys × Option (Fin nfile × Fin nfile)) :=
  match s.filealloc with
  | none => .ok (s, none)
  | some (f0, s) =>
      match s.filealloc with
      | none => do
          let s ← s.fileclose f0
          .ok (s, none)
      | some (f1, s) =>
          match s.kalloc with
          | none => do
              let s ← s.fileclose f0
              let s ← s.fileclose f1
              .ok (s, none)
          | some (k, s) =>
              let s := { s with pipe := Function.update s.pipe k (some ⟨true, true⟩) }
              .ok ((s.openPipe f0 k false).openPipe f1 k true, some (f0, f1))

/-- `sys_pipe`; `good` is whether the process may be given the descriptors
at the address it passed. -/
def sysPipe (p : Slot) (good : Bool) : Except Panic (Int × Sys) := do
  if ¬ good then .ok (-1, s)
  else
    match ← s.pipealloc with
    | (s, none) => .ok (-1, s)
    | (s, some (rf, wf)) =>
        match s.fdalloc p rf with
        | none => do
            let s ← s.fileclose rf
            let s ← s.fileclose wf
            .ok (-1, s)
        | some (fd0, s) =>
            match s.fdalloc p wf with
            | none => do
                let s ← (s.setFd p fd0 none).fileclose rf
                let s ← s.fileclose wf
                .ok (-1, s)
            | some (_, s) => .ok (0, s)

-- ======== processes

/-- The open files of the child. -/
def dupFiles (p np : Slot) (fds : List (Fin nofile)) : Except Panic Sys :=
  fds.foldlM (fun s fd =>
    match s.ofile (p, fd) with
    | none => .ok s
    | some f => do
        let s ← s.filedup f
        .ok (s.setFd np fd (some f))) s

/-- `fork`; `copied` is whether there are pages for the child, and 0 stands
for its pid. -/
def fork (p : Slot) (copied : Bool) : Except Panic (Int × Sys) :=
  match (List.finRange nproc).find? fun i => decide (s.state i = .unused) with
  | none => .ok (-1, s)
  | some np =>
      if ¬ copied then .ok (-1, s)
      else do
        let s ← (s.setState np .embryo).dupFiles p np (List.finRange nofile)
        match s.cwd p with
        | none => .error .fault
        | some ip => .ok (0, ((s.idup ip).setCwd np (some ip)).setState np .runnable)

/-- The open files of a process that exits. -/
def closeFiles (p : Slot) (fds : List (Fin nofile)) : Except Panic Sys :=
  fds.foldlM (fun s fd =>
    match s.ofile (p, fd) with
    | none => .ok s
    | some f => do
        let s ← s.fileclose f
        .ok (s.setFd p fd none)) s

def exit (p : Slot) : Except Panic (Int × Sys) :=
  if p = initproc then .error .initExiting
  else do
    let s ← s.closeFiles p (List.finRange nofile)
    match s.cwd p with
    | none => .error .fault
    | some ip => .ok (0, ((s.iput ip).setCwd p none).setState p .zombie)

/-- `sys_chdir`, with the inode the path leads to. -/
def sysChdir (p : Slot) (found : Option (Ino × Bool)) : Except Panic (Int × Sys) :=
  match found with
  | none => .ok (-1, s)
  | some (ip, dir) =>
      let s := s.idup ip
      if ¬ dir then .ok (-1, s.iput ip)
      else
        match s.cwd p with
        | none => .error .fault
        | some old => .ok (0, (s.iput old).setCwd p (some ip))

-- ======== steps

inductive Call
  | open_ (found : Option (Ino × Bool)) (omode : Word)
  | dup (fd : Int)
  | pipe (good : Bool)
  | close (fd : Int)
  | fork (copied : Bool)
  | exit
  | chdir (found : Option (Ino × Bool))
  /-- `wait`, with the child it finds. -/
  | wait (child : Slot)

def call (p : Slot) : Call → Except Panic (Int × Sys)
  | .open_ found omode => s.sysOpen p found omode
  | .dup fd => s.sysDup p fd
  | .pipe good => s.sysPipe p good
  | .close fd => s.sysClose p fd
  | .fork copied => s.fork p copied
  | .exit => s.exit p
  | .chdir found => s.sysChdir p found
  | .wait child =>
      if s.state child = .zombie then .ok (0, s.setState child .unused) else .ok (-1, s)

end Sys

/-- A process makes a call, or others use the allocator. -/
inductive Event
  | call (p : Slot) (c : Sys.Call)
  | pages (free : List Nat)

def step : Event → Sys → Option Sys
  | .call p c, s =>
      if s.state p = .runnable then (s.call p c).toOption.map Prod.snd else none
  | .pages free, s =>
      if free.Nodup ∧ ∀ k ∈ free, (s.pipe k).isNone then some { s with free := free } else none

/-- After `userinit`: one process, in the root directory. -/
def booted (free : List Nat) : Sys where
  file := fun _ => ⟨.fdNone, 0, false, false, none, none, 0⟩
  state := fun p => if p = initproc then .runnable else .unused
  ofile := fun _ => none
  cwd := fun p => if p = initproc then some rootino else none
  iref := fun ip => if ip = rootino then 1 else 0
  pipe := fun _ => none
  free := free
  log := []

def Booted (s : Sys) : Prop := ∃ free : List Nat, free.Nodup ∧ s = booted free

end Xv6Sume32.Ftable
