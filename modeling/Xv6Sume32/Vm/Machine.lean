/-
Processes and their address spaces: `exec`, `growproc`, `makex`, `fork`,
`exit`, `wait`, and pipes as far as they take pages.

# State

A process is its kernel stack, its page table and size, its parent and its
open files. A slot of the process table is empty, or has a process that
runs or has exited. Of the file table there is what `fileclose` looks at,
of a pipe whether its two ends are open. The kernel has pages of its own
from when it started: its page table, and the stacks of the other
processors.

# Calls

A system call is one step. The state of processes that wait or have been
killed, pids, names, registers and the files of the file system are left
out: nothing here depends on them but whether a call is made at all. `wait`
is the step that finds a child that has exited; without one it changes
nothing. A store is a process that writes to its own memory.
-/
import Xv6Sume32.Vm.Pages
import Xv6Sume32.Proc.Table

namespace Xv6Sume32.Vm

open Lib
open Function (update)
open Proc (Slot initproc nproc)

-- ======== exec

/-- `ELF_MAGIC`. -/
def elfMagic : Word := 0x464C457F

/-- `MAXARG`. -/
def maxarg : Nat := 32

/-- A word of a structure that has been read. -/
def wordAt (bytes : List Byte) (o : Nat) : Word :=
  ofLe (bytes.getD o 0) (bytes.getD (o + 1) 0) (bytes.getD (o + 2) 0) (bytes.getD (o + 3) 0)

/-- `struct elfhdr`: `magic`, `phoff` and `phnum`. -/
structure Elfhdr where
  magic : Word
  phoff : Nat
  phnum : Nat

def Elfhdr.size : Nat := 52

def Elfhdr.ofBytes (bytes : List Byte) : Elfhdr :=
  ⟨wordAt bytes 0, (wordAt bytes 28).toNat, (ofLe16 (bytes.getD 44 0) (bytes.getD 45 0)).toNat⟩

/-- `struct proghdr`. -/
structure Proghdr where
  type : Nat
  off : Nat
  vaddr : Nat
  filesz : Nat
  memsz : Nat

def Proghdr.size : Nat := 32

def Proghdr.ofBytes (bytes : List Byte) : Proghdr :=
  ⟨(wordAt bytes 0).toNat, (wordAt bytes 4).toNat, (wordAt bytes 8).toNat,
    (wordAt bytes 16).toNat, (wordAt bytes 20).toNat⟩

/-- The loop over the program headers: the size, or nothing. -/
def segLoop (file : List Byte) :
    Nat → Nat → Nat → Kmem → Pgdir → Except VmPanic (Kmem × Pgdir × Option Nat)
  | 0, _, sz, m, pd => .ok (m, pd, some sz)
  | n + 1, off, sz, m, pd =>
      match readi file off Proghdr.size with
      | none => .ok (m, pd, none)
      | some bytes =>
          let ph := Proghdr.ofBytes bytes
          let next := (off + Proghdr.size) % 2 ^ 32
          if ph.type ≠ 1 then segLoop file n next sz m pd
          else if ph.memsz < ph.filesz then .ok (m, pd, none)
          else if 2 ^ 32 ≤ ph.vaddr + ph.memsz then .ok (m, pd, none)
          else do
            let (sz, m, pd) ← allocuvm m pd sz (ph.vaddr + ph.memsz)
            if sz = 0 then .ok (m, pd, none)
            else if ph.vaddr % pgsize ≠ 0 then .ok (m, pd, none)
            else do
              let (m, done) ← loaduvm m pd ph.vaddr file ph.off ph.filesz
              if done then segLoop file n next sz m pd else .ok (m, pd, none)

/-- The loop over the arguments: the stack pointer and the pointers to
them, or nothing. -/
def pushArgs (pd : Pgdir) :
    List (List Byte) → Nat → List Nat → Kmem → Except VmPanic (Kmem × Option (Nat × List Nat))
  | [], sp, ptrs, m => .ok (m, some (sp, ptrs))
  | arg :: argv, sp, ptrs, m =>
      if maxarg ≤ ptrs.length then .ok (m, none)
      else do
        let sp := (sp + 2 ^ 32 - (arg.length + 1)) % 2 ^ 32 / 4 * 4
        let (m, done) ← copyout pd (arg.length + 1) sp (arg ++ [0]) m
        if done then pushArgs pd argv sp (ptrs ++ [sp]) m else .ok (m, none)

/-- The words above the arguments. -/
def ustack (sp : Nat) (ptrs : List Nat) : List Word :=
  [0xFFFFFFFF, BitVec.ofNat 32 ptrs.length, BitVec.ofNat 32 (sp + 2 ^ 32 - (ptrs.length + 1) * 4)]
    ++ ptrs.map (BitVec.ofNat 32) ++ [0]

/-- The stack of the new image. -/
def pushStack (m : Kmem) (pd : Pgdir) (sz : Nat) (argv : List (List Byte)) :
    Except VmPanic (Kmem × Bool) := do
  match ← pushArgs pd argv sz [] m with
  | (m, none) => .ok (m, false)
  | (m, some (sp, ptrs)) =>
      let words := (ustack sp ptrs).flatMap leBytes
      copyout pd words.length ((sp + 2 ^ 32 - words.length) % 2 ^ 32) words m

/-- `exec` from the program headers to where it commits: the size, or
nothing. -/
def loadImage (file : List Byte) (elf : Elfhdr) (argv : List (List Byte)) (m : Kmem) (pd : Pgdir) :
    Except VmPanic (Kmem × Pgdir × Option Nat) := do
  match ← segLoop file elf.phnum elf.phoff 0 m pd with
  | (m, pd, none) => .ok (m, pd, none)
  | (m, pd, some sz) => do
      let (sz, m, pd) ← allocuvm m pd (pgroundup sz) (pgroundup sz + 2 * pgsize)
      if sz = 0 then .ok (m, pd, none)
      else do
        let pd ← clearpteu pd (sz / pgsize - 2)
        let (m, done) ← pushStack m pd sz argv
        .ok (m, pd, if done then some sz else none)

/-- An address space. -/
structure Space where
  pgdir : Pgdir
  sz : Nat

/-- `exec` up to the end of the old address space: the new one, or
nothing. -/
def execImage (m : Kmem) (file : Option (List Byte)) (argv : List (List Byte)) :
    Except VmPanic (Kmem × Option Space) :=
  match file with
  | none => .ok (m, none)
  | some file =>
      match readi file 0 Elfhdr.size with
      | none => .ok (m, none)
      | some bytes =>
          if (Elfhdr.ofBytes bytes).magic ≠ elfMagic then .ok (m, none)
          else do
            match ← setupkvm m with
            | (m, none) => .ok (m, none)
            | (m, some pd) =>
                match ← loadImage file (.ofBytes bytes) argv m pd with
                | (m, pd, none) => do
                    let m ← freevm m pd
                    .ok (m, none)
                | (m, pd, some sz) => .ok (m, some ⟨pd, sz⟩)

/-- `exec`: what it returns, and the address space after it. -/
def exec (m : Kmem) (a : Space) (file : Option (List Byte)) (argv : List (List Byte)) :
    Except VmPanic (Int × Kmem × Space) := do
  match ← execImage m file argv with
  | (m, none) => .ok (-1, m, a)
  | (m, some new) => do
      let m ← freevm m a.pgdir
      .ok (0, m, new)

-- ======== sizes

def growproc (m : Kmem) (a : Space) (n : Word) : Except VmPanic (Int × Kmem × Space) := do
  let newsz := (a.sz + n.toNat) % 2 ^ 32
  if 0 < n.toInt then do
    let (sz, m, pd) ← allocuvm m a.pgdir a.sz newsz
    .ok (if sz = 0 then (-1, m, ⟨pd, a.sz⟩) else (0, m, ⟨pd, sz⟩))
  else if n.toInt < 0 then do
    let (sz, m, pd) ← deallocuvm m a.pgdir a.sz newsz
    .ok (if sz = 0 then (-1, m, ⟨pd, a.sz⟩) else (0, m, ⟨pd, sz⟩))
  else .ok (0, m, a)

/-- `makex`; its `n` is rounded up as an `int`. -/
def makex (m : Kmem) (a : Space) (val n : Word) : Except VmPanic (Int × Kmem × Space) := do
  let k := pgroundup n.toNat
  if 0 < k ∧ k < 2 ^ 31 then do
    let (sz, m, pd) ← allocxuvm m a.pgdir a.sz ((a.sz + k) % 2 ^ 32) val.toNat n.toInt
    .ok (if sz = 0 then (-1, m, ⟨pd, a.sz⟩) else (0, m, ⟨pd, sz⟩))
  else .ok (0, m, a)

/-- `sys_sbrkx`: the size before the call, or -1. -/
def sysSbrkx (m : Kmem) (a : Space) (val n : Word) : Except VmPanic (Int × Kmem × Space) := do
  let (v, m, a') ← makex m a val n
  .ok (if v < 0 then -1 else a.sz, m, a')

-- ======== processes

/-- `NOFILE`. -/
def nofile : Nat := 16

/-- `NFILE`. -/
def nfile : Nat := 100

structure Task where
  kstack : Nat
  space : Space
  parent : Option Slot
  zombie : Bool
  ofile : Fin nofile → Option (Fin nfile)

/-- `struct file`: for a pipe, its page and `writable`. -/
structure File where
  ref : Nat
  pipe : Option (Nat × Bool)

/-- The ends of a pipe that are open: `readopen` and `writeopen`. -/
structure Ends where
  readopen : Bool
  writeopen : Bool

/-- What the kernel has taken for itself: `kpgdir`, and the stacks from
`startothers`. -/
structure Kern where
  kpgdir : Pgdir
  cpus : List Nat

structure Machine where
  kern : Kern
  kmem : Kmem
  proc : Slot → Option Task
  file : Fin nfile → File
  pipe : Nat → Option Ends

namespace Machine

variable (s : Machine)

def setTask (p : Slot) (t : Task) : Machine :=
  { s with proc := update s.proc p (some t) }

def setFile (f : Fin nfile) (file : File) : Machine :=
  { s with file := update s.file f file }

-- ======== files

/-- `filealloc`. -/
def filealloc : Option (Fin nfile × Machine) :=
  match (List.finRange nfile).find? fun f => decide ((s.file f).ref = 0) with
  | none => none
  | some f => some (f, s.setFile f { s.file f with ref := 1 })

def filedup (f : Fin nfile) : Except VmPanic Machine :=
  if (s.file f).ref < 1 then .error .filedup
  else .ok (s.setFile f { s.file f with ref := (s.file f).ref + 1 })

def pipeclose (k : Nat) (writable : Bool) : Except VmPanic Machine :=
  match s.pipe k with
  | none => .error .fault
  | some ends => do
      let ends : Ends := if writable then { ends with writeopen := false }
        else { ends with readopen := false }
      if ends.readopen = false ∧ ends.writeopen = false then do
        let m ← s.kmem.kfree k
        .ok { s with kmem := m, pipe := update s.pipe k none }
      else .ok { s with pipe := update s.pipe k (some ends) }

def fileclose (f : Fin nfile) : Except VmPanic Machine :=
  if (s.file f).ref < 1 then .error .fileclose
  else if 1 < (s.file f).ref then .ok (s.setFile f { s.file f with ref := (s.file f).ref - 1 })
  else
    match (s.file f).pipe with
    | none => .ok (s.setFile f ⟨0, none⟩)
    | some (k, writable) => (s.setFile f ⟨0, none⟩).pipeclose k writable

/-- `fdalloc`. -/
def fdalloc (p : Slot) (t : Task) (f : Fin nfile) : Option (Fin nofile × Task × Machine) :=
  match (List.finRange nofile).find? fun fd => decide (t.ofile fd = none) with
  | none => none
  | some fd =>
      let t := { t with ofile := update t.ofile fd (some f) }
      some (fd, t, s.setTask p t)

/-- `pipealloc`: the two files, or nothing. -/
def pipealloc : Except VmPanic (Machine × Option (Fin nfile × Fin nfile)) :=
  match s.filealloc with
  | none => .ok (s, none)
  | some (f0, s) =>
      match s.filealloc with
      | none => do
          let s ← s.fileclose f0
          .ok (s, none)
      | some (f1, s) =>
          match s.kmem.kalloc with
          | none => do
              let s ← s.fileclose f0
              let s ← s.fileclose f1
              .ok (s, none)
          | some (k, m) =>
              let s := { s with kmem := m, pipe := update s.pipe k (some ⟨true, true⟩) }
              let s := s.setFile f0 { s.file f0 with pipe := some (k, false) }
              .ok (s.setFile f1 { s.file f1 with pipe := some (k, true) }, some (f0, f1))

/-- The kernel stores bytes at an address of the process. -/
def store (pd : Pgdir) : Nat → List Byte → Kmem → Except VmPanic Kmem
  | _, [], m => .ok m
  | va, b :: bytes, m =>
      match pd.ptes (va / pgsize) with
      | none => .error .fault
      | some e =>
          if e.w then
            store pd (va + 1) bytes
              (m.write e.frame (update (m.mem e.frame) (va % pgsize) b))
          else .error .fault

/-- What `argptr` accepts. -/
def argptr (sz i size : Nat) : Prop := i < sz ∧ i + size ≤ sz

instance (sz i size : Nat) : Decidable (argptr sz i size) := inferInstanceAs (Decidable (_ ∧ _))

/-- `sys_pipe`. -/
def sysPipe (p : Slot) (t : Task) (fd : Word) : Except VmPanic (Int × Machine) := do
  if ¬ argptr t.space.sz fd.toNat 8 then .ok (-1, s)
  else
    match ← s.pipealloc with
    | (s, none) => .ok (-1, s)
    | (s, some (rf, wf)) =>
        match s.fdalloc p t rf with
        | none => do
            let s ← s.fileclose rf
            let s ← s.fileclose wf
            .ok (-1, s)
        | some (fd0, t0, s0) =>
            match s0.fdalloc p t0 wf with
            | none => do
                -- the descriptor is taken back
                let s ← s.fileclose rf
                let s ← s.fileclose wf
                .ok (-1, s)
            | some (fd1, _, s) => do
                let m ← store t.space.pgdir fd.toNat
                  (leBytes (BitVec.ofNat 32 fd0) ++ leBytes (BitVec.ofNat 32 fd1)) s.kmem
                .ok (0, { s with kmem := m })

/-- `sys_close`. -/
def sysClose (p : Slot) (t : Task) (fd : Fin nofile) : Except VmPanic (Int × Machine) :=
  match t.ofile fd with
  | none => .ok (-1, s)
  | some f => do
      let s ← (s.setTask p { t with ofile := update t.ofile fd none }).fileclose f
      .ok (0, s)

-- ======== fork, exit, wait

/-- The first UNUSED slot. -/
def freeSlot : Option Slot := (List.finRange nproc).find? fun i => (s.proc i).isNone

/-- The open files of the child of `fork`. -/
def dupAll (ofile : Fin nofile → Option (Fin nfile)) : Except VmPanic Machine :=
  (List.finRange nofile).foldlM (fun s fd =>
    match ofile fd with
    | none => .ok s
    | some f => s.filedup f) s

/-- `fork`: 0 stands for the pid of the child. -/
def fork (p : Slot) (t : Task) : Except VmPanic (Int × Machine) :=
  match s.freeSlot with
  | none => .ok (-1, s)
  | some np =>
      match s.kmem.kalloc with
      | none => .ok (-1, s)
      | some (k, m) => do
          match ← copyuvm m t.space.pgdir t.space.sz with
          | (m, none) => do
              let m ← m.kfree k
              .ok (-1, { s with kmem := m })
          | (m, some d) => do
              let s ← { s with kmem := m }.dupAll t.ofile
              .ok (0, s.setTask np ⟨k, ⟨d, t.space.sz⟩, some p, false, t.ofile⟩)

/-- `exit`. -/
def exit (p : Slot) (t : Task) : Except VmPanic (Int × Machine) := do
  if p = initproc then .error .initExiting
  else do
    let s ← (List.finRange nofile).foldlM (fun (s : Machine) fd =>
      match t.ofile fd with
      | none => .ok s
      | some f => s.fileclose f) s
    let proc := fun i => (s.proc i).map fun (c : Task) =>
      if c.parent = some p then { c with parent := some initproc } else c
    .ok (0, { s with
      proc := update proc p (some { t with zombie := true, ofile := fun _ => none }) })

/-- The child that `wait` finds. -/
def zombieChild (p : Slot) : Option (Slot × Task) :=
  (List.finRange nproc).findSome? fun i =>
    match s.proc i with
    | none => none
    | some c => if c.parent = some p ∧ c.zombie then some (i, c) else none

/-- `wait`. -/
def wait (p : Slot) : Except VmPanic (Int × Machine) :=
  match s.zombieChild p with
  | none => .ok (-1, s)
  | some (i, c) => do
      let m ← s.kmem.kfree c.kstack
      let m ← freevm m c.space.pgdir
      .ok (0, { s with kmem := m, proc := update s.proc i none })

-- ======== steps

/-- What a process can do. -/
inductive Call
  | growproc (n : Word)
  | makex (val n : Word)
  | exec (file : Option (List Byte)) (argv : List (List Byte))
  | fork
  | pipe (fd : Word)
  | close (fd : Fin nofile)
  | exit
  | wait
  | store (va : Nat) (b : Byte)

/-- A call that changes the address space of its process. -/
def onSpace (p : Slot) (t : Task) (r : Except VmPanic (Int × Kmem × Space)) :
    Except VmPanic (Int × Machine) := do
  let (v, m, a) ← r
  .ok (v, { s.setTask p { t with space := a } with kmem := m })

/-- A process writes to a page that is its own, and else does nothing
here. -/
def userStore (t : Task) (va : Nat) (b : Byte) : Machine :=
  match t.space.pgdir.ptes (va / pgsize) with
  | some e =>
      if e.w ∧ e.u then
        { s with kmem :=
            s.kmem.write e.frame (update (s.kmem.mem e.frame) (va % pgsize) b) }
      else s
  | none => s

def call (p : Slot) (t : Task) : Call → Except VmPanic (Int × Machine)
  | .growproc n => s.onSpace p t (growproc s.kmem t.space n)
  | .makex val n => s.onSpace p t (makex s.kmem t.space val n)
  | .exec file argv => s.onSpace p t (exec s.kmem t.space file argv)
  | .fork => s.fork p t
  | .pipe fd => s.sysPipe p t fd
  | .close fd => s.sysClose p t fd
  | .exit => s.exit p t
  | .wait => s.wait p
  | .store va b => .ok (0, s.userStore t va b)

/-- The allocations that will succeed. -/
def withLimit (limit : Nat) : Machine := { s with kmem := { s.kmem with limit := limit } }

end Machine

/-- A process makes a call, in which `limit` allocations succeed if there
are pages enough. -/
structure Event where
  proc : Slot
  limit : Nat
  call : Machine.Call

/-- What happens: a panic, or what the call returns and the state after
it. -/
def Machine.run (s : Machine) (e : Event) : Option (Except VmPanic (Int × Machine)) :=
  match s.proc e.proc with
  | none => none
  | some t => if t.zombie then none else some ((s.withLimit e.limit).call e.proc t e.call)

def vmStep (e : Event) (s : Machine) : Option Machine :=
  match s.run e with
  | some (.ok (_, t)) => some t
  | _ => none

-- ======== boot

/-- `userinit`, with the code of `initcode`. It is taken to get the pages
it needs. -/
def userinit (kern : Kern) (m : Kmem) (init : List Byte) : Except VmPanic Machine :=
  match m.kalloc with
  | none => .error .noMemory
  | some (k, m) => do
      match ← setupkvm m with
      | (_, none) => .error .noMemory
      | (m, some pd) =>
          match m.kalloc with
          | none => .error .noMemory
          | some (f, m) => do
              match ← mappages (m.write f (overwrite (fun _ => 0) 0 init)) pd 0 ⟨f, true, true⟩ with
              | none => .error .noMemory
              | some (m, pd) =>
                  .ok ⟨kern, m, update (fun _ => none) initproc
                    (some ⟨k, ⟨pd, pgsize⟩, none, false, fun _ => none⟩),
                    fun _ => ⟨0, none⟩, fun _ => none⟩

/-- The stacks for `n` more processors. -/
def startothers : Nat → Kmem → Except VmPanic (List Nat × Kmem)
  | 0, m => .ok ([], m)
  | n + 1, m =>
      match m.kalloc with
      | none => .error .noMemory
      | some (k, m) => do
          let (ks, m) ← startothers n m
          .ok (k :: ks, m)

/-- `main` as far as it takes pages. `kinit1` frees the first `low` of them,
up to 4 MB, and `kinit2` the `high` behind. -/
def boot (ncpu first low high : Nat) (mem : Nat → Page) (init : List Byte) :
    Except VmPanic Machine := do
  let top := first + low + high
  let m ← Kmem.freerange ⟨first, top, [], mem, top⟩ first low
  match ← setupkvm m with
  | (_, none) => .error .noMemory
  | (m, some kpgdir) => do
      let (cpus, m) ← startothers (ncpu - 1) m
      let m ← m.freerange (first + low) high
      userinit ⟨kpgdir, cpus⟩ m init

end Xv6Sume32.Vm
