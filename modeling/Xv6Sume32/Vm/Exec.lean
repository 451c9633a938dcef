/-
A call of `exec` with all it touches (`exec.c`).

`Vm.exec` is what a call does to memory. Here there is also the rest of the
process, the inode of the file and the transaction. Of the inode there is
how many references are handed out and how often its lock is held, of the
log how many operations are under way; what others do to them in the
meantime is left out. `freed` has the page directories that `freevm` has
been called for.

The exits to `bad` differ in what there is to give back: a page directory
or none, and the inode, locked and inside the transaction, or not any more.
-/
import Xv6Sume32.Vm.Machine

namespace Xv6Sume32.Vm.Exec

open Lib

structure State where
  kmem : Kmem
  space : Space
  eip : Word
  esp : Word
  name : List Byte
  ofile : Fin nofile → Option (Fin nfile)
  cwd : Nat
  ref : Int
  locked : Int
  ops : Int
  freed : List Nat

variable (s : State)

def beginOp : State := { s with ops := s.ops + 1 }

def endOp : State := { s with ops := s.ops - 1 }

/-- `namei` has found the inode, and it is locked. -/
def ilock : State := { s with ref := s.ref + 1, locked := s.locked + 1 }

def iunlockput : State := { s with ref := s.ref - 1, locked := s.locked - 1 }

def free (pd : Pgdir) : Except VmPanic State := do
  let m ← freevm s.kmem pd
  .ok { s with kmem := m, freed := s.freed ++ [pd.frame] }

/-- What is given back at the label `bad` besides the page directory; `ip`
is whether it is not 0. -/
def leave : Bool → State
  | true => endOp (iunlockput s)
  | false => s

/-- The label `bad`. -/
def bad (pgdir : Option Pgdir) (ip : Bool) : Except VmPanic (Int × State) :=
  match pgdir with
  | none => .ok (-1, leave s ip)
  | some pd => do
      let s ← free s pd
      .ok (-1, leave s ip)

/-- `last`: the path behind its last slash. -/
def lastElem (path : List Byte) : List Byte := (path.reverse.takeWhile (· ≠ 47)).reverse

/-- From where the process is changed on. -/
def commit (path : List Byte) (entry : Word) (pd : Pgdir) (sz sp : Nat) :
    Except VmPanic (Int × State) := do
  let s' ← free { s with
    name := (lastElem path).take 15
    space := ⟨pd, sz⟩
    eip := entry
    esp := BitVec.ofNat 32 sp } s.space.pgdir
  .ok (0, s')

/-- The stack, when the inode has been put. -/
def makeStack (path : List Byte) (argv : List (List Byte)) (entry : Word) (pd : Pgdir) (sz : Nat) :
    Except VmPanic (Int × State) := do
  match ← allocuvm s.kmem pd (pgroundup sz) (pgroundup sz + 2 * pgsize) with
  | (sz, m, pd) =>
    if sz = 0 then bad { s with kmem := m } (some pd) false
    else do
      let pd ← clearpteu pd (sz / pgsize - 2)
      match ← pushArgs pd argv sz [] m with
      | (m, none) => bad { s with kmem := m } (some pd) false
      | (m, some (sp, ptrs)) => do
          let words := (ustack sp ptrs).flatMap leBytes
          let sp := (sp + 2 ^ 32 - words.length) % 2 ^ 32
          match ← copyout pd words.length sp words m with
          | (m, false) => bad { s with kmem := m } (some pd) false
          | (m, true) => commit { s with kmem := m } path entry pd sz sp

/-- `exec` of the path whose file is given, if there is one. -/
def exec (file : Option (List Byte)) (path : List Byte) (argv : List (List Byte)) :
    Except VmPanic (Int × State) :=
  match file with
  | none => .ok (-1, endOp (beginOp s))
  | some file =>
      let s := ilock (beginOp s)
      match readi file 0 Elfhdr.size with
      | none => bad s none true
      | some bytes =>
          if (Elfhdr.ofBytes bytes).magic ≠ elfMagic then bad s none true
          else do
            match ← setupkvm s.kmem with
            | (m, none) => bad { s with kmem := m } none true
            | (m, some pd) =>
                match ← segLoop file (Elfhdr.ofBytes bytes).phnum (Elfhdr.ofBytes bytes).phoff
                  0 m pd with
                | (m, pd, none) => bad { s with kmem := m } (some pd) true
                | (m, pd, some sz) =>
                    makeStack (endOp (iunlockput { s with kmem := m })) path argv
                      (wordAt bytes 24) pd sz

/-- What a call does to memory, `Vm.exec` does. -/
theorem exec_memory (s : State) (file : Option (List Byte)) (path : List Byte)
    (argv : List (List Byte)) :
    (exec s file path argv).map (fun r => (r.1, r.2.kmem, r.2.space))
      = Vm.exec s.kmem s.space file argv := by
  -- the failures from where there is a page directory
  have hbad : ∀ (s : State) (pd : Pgdir) (ip : Bool),
      (bad s (some pd) ip).map (fun r => (r.1, r.2.kmem, r.2.space))
        = freevm s.kmem pd >>= fun m => .ok (-1, m, s.space) := by
    intro s pd ip
    dsimp only [bad, free]
    cases freevm s.kmem pd with
    | error e => rfl
    | ok m => cases ip <;> rfl
  unfold exec Vm.exec execImage
  cases file with
  | none => rfl
  | some file =>
    dsimp only
    cases readi file 0 Elfhdr.size with
    | none => rfl
    | some bytes =>
      dsimp only [ilock, beginOp]
      split
      · rfl
      obtain e | ⟨m, _ | pd⟩ := setupkvm s.kmem
      · rfl
      · rfl
      unfold loadImage
      dsimp only [bind, Except.bind]
      obtain e | ⟨m, pd, _ | sz⟩ := segLoop file _ _ 0 m pd
      · rfl
      · refine (hbad _ pd true).trans ?_
        dsimp only
        cases freevm m pd <;> rfl
      dsimp only [makeStack, iunlockput, endOp, bind, Except.bind]
      obtain e | ⟨sz, m, pd⟩ := allocuvm _ pd (pgroundup sz) _
      · rfl
      dsimp only
      split
      · refine (hbad _ pd false).trans ?_
        dsimp only
        cases freevm m pd <;> rfl
      obtain e | pd := clearpteu pd (sz / pgsize - 2)
      · rfl
      dsimp only [pushStack, bind, Except.bind]
      obtain e | ⟨m, _ | ⟨sp, ptrs⟩⟩ := pushArgs pd argv sz [] m
      · rfl
      · refine (hbad _ pd false).trans ?_
        simp only [Bool.false_eq_true, if_false]
        cases freevm m pd <;> rfl
      dsimp only
      obtain e | ⟨m, _ | _⟩ := copyout pd _ _ _ m
      · rfl
      · refine (hbad _ pd false).trans ?_
        simp only [Bool.false_eq_true, if_false]
        cases freevm m pd <;> rfl
      · simp only [commit, free, bind, Except.bind, if_true]
        cases freevm m s.space.pgdir <;> rfl

-- ======== results

/-- The call has failed: the process is as it was, and nothing is kept. -/
structure Failed (s s' : State) : Prop where
  space : s'.space = s.space
  eip : s'.eip = s.eip
  esp : s'.esp = s.esp
  name : s'.name = s.name
  ofile : s'.ofile = s.ofile
  cwd : s'.cwd = s.cwd
  ref : s'.ref = s.ref
  locked : s'.locked = s.locked
  ops : s'.ops = s.ops

/-- The call has replaced the process, and the old address space has been
freed once. -/
structure Replaced (s s' : State) : Prop where
  freed : s'.freed = s.freed ++ [s.space.pgdir.frame]
  ofile : s'.ofile = s.ofile
  cwd : s'.cwd = s.cwd
  ref : s'.ref = s.ref
  locked : s'.locked = s.locked
  ops : s'.ops = s.ops

def Ends (s : State) (r : Int × State) : Prop :=
  (r.1 = -1 ∧ Failed s r.2) ∨ (r.1 = 0 ∧ Replaced s r.2)

variable {s} {s0 : State} {r : Int × State}

/-- A process with nothing open, before any page has been handed out. -/
def idle : State :=
  ⟨⟨0, 0, [], fun _ _ => 0, 0⟩, ⟨⟨0, fun _ => none, fun _ => none⟩, 0⟩, 0, 0, [], fun _ => none, 1, 1, 0, 0, []⟩

end Xv6Sume32.Vm.Exec
