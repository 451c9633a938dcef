/-
Directories and the system calls on names (`fs.c`, `sysfile.c`).

# State

An inode is its type, its link count and, for a directory, its entries.
`ref` and `valid` are those of the slot of an inode in the inode cache,
which has what the disk has: no copy is kept apart. A process has a current
directory, until it exits, and descriptors of open inodes.

Calls are executed one at a time. So there are no locks; `ilock` is what
it does besides, with its two panics. What runs out is left out, but for
inodes: blocks, slots of the cache, bytes of a directory. The file table is
used by pipes as well, and whether it has an entry left is given with the
call.

# Names

A path is its bytes before the 0. A name is at most `DIRSIZ` bytes, those
of the array in an entry or in `namex` before the 0, if there is one, so
`namecmp` is equality (`namecmp_eq_zero`). An inode number is less than `NINODES`, and fits
the entry.

# Ghosts

`gen` counts how often an inode has been freed, and `made` is the directory
an inode was created in, as a directory, with its `gen` then. Nothing
depends on them.
-/
import Xv6Sume32.Fs.Mkfs

namespace Xv6Sume32.Dir

open Lib Fs
open Function (update)

-- ======== the state

/-- `DIRSIZ`. -/
def dirSiz : Nat := 14

/-- `sizeof(struct dirent)`. -/
def direntSize : Nat := 16

/-- `NOFILE`. -/
def nofile : Nat := 16

abbrev Name := List Byte

def slash : Byte := 47

def dot : Name := [46]

def dotdot : Name := [46, 46]

structure Dirent where
  inum : Nat
  name : Name
deriving DecidableEq

/-- The name at an address: the bytes before the 0, but at most
`DIRSIZ`. -/
def nameOf (p : Nat → Byte) : Name := ((List.range dirSiz).map p).takeWhile (· ≠ 0)

/-- The bytes that `strncpy` leaves, from byte `i` on. -/
def strncpy (t : Nat → Byte) : Nat → Nat → List Byte
  | 0, _ => []
  | n + 1, i => if t i = 0 then List.replicate (n + 1) 0 else t i :: strncpy t n (i + 1)

/-- An entry that is not in use. -/
def Dirent.unused : Dirent := ⟨0, []⟩

structure Node where
  kind : Kind
  nlink : Int
  entries : List Dirent

/-- An inode that is not allocated. -/
def Node.free : Node := ⟨.free, 0, []⟩

structure Dirs (P : Type) where
  inode : Nat → Node
  ref : Nat → Nat
  valid : Nat → Bool
  cwd : P → Option Nat
  ofile : P → Fin nofile → Option Nat
  gen : Nat → Nat
  made : Nat → Nat × Nat

inductive Panic
  | ilock
  | noType
  | noInodes
  | notDir
  | createDots
  | createDirlink
  | unlinkNlink
deriving DecidableEq

variable {P : Type}

abbrev DirM (P : Type) := StateT (Dirs P) (Except Panic)

def setNode (inum : Nat) (nd : Node) : DirM P Unit := fun s =>
  .ok ((), { s with inode := update s.inode inum nd })

/-- `ip->nlink += n` and `iupdate`. -/
def addNlink (inum : Nat) (n : Int) : DirM P Unit := fun s =>
  setNode inum { s.inode inum with nlink := (s.inode inum).nlink + n } s

-- ======== inodes

def iget (inum : Nat) : DirM P Unit := fun s =>
  .ok ((), { s with
    ref := update s.ref inum (s.ref inum + 1)
    valid := if s.ref inum = 0 then update s.valid inum false else s.valid })

def idup (inum : Nat) : DirM P Unit := fun s =>
  .ok ((), { s with ref := update s.ref inum (s.ref inum + 1) })

def ilock (inum : Nat) : DirM P Unit := fun s =>
  if s.ref inum < 1 then .error .ilock
  else if s.valid inum then .ok ((), s)
  else if (s.inode inum).kind = .free then .error .noType
  else .ok ((), { s with valid := update s.valid inum true })

/-- The inode is truncated and freed. -/
def Dirs.freed (s : Dirs P) (inum : Nat) : Dirs P :=
  { s with
    inode := update s.inode inum { s.inode inum with kind := .free, entries := [] }
    valid := update s.valid inum false
    gen := update s.gen inum (s.gen inum + 1) }

def iput (inum : Nat) : DirM P Unit := fun s =>
  let s := if s.valid inum = true ∧ (s.inode inum).nlink = 0 ∧ s.ref inum = 1 then s.freed inum
    else s
  .ok ((), { s with ref := update s.ref inum (s.ref inum - 1) })

/-- `ialloc`: the first free inode. -/
def ialloc (kind : Kind) : DirM P Nat := fun s =>
  match (List.range ninodes).find? fun inum =>
      decide (1 ≤ inum) && decide ((s.inode inum).kind = .free) with
  | none => .error .noInodes
  | some inum => (do setNode inum ⟨kind, 0, []⟩; iget inum; pure inum : DirM P Nat) s

-- ======== directories

/-- The loop of `dirlookup`: the inode number of the entry and its
offset. -/
def lookup (name : Name) : List Dirent → Nat → Option (Nat × Nat)
  | [], _ => none
  | de :: es, off =>
      if de.inum = 0 then lookup name es (off + direntSize)
      else if de.name = name then some (de.inum, off)
      else lookup name es (off + direntSize)

def dirlookup (dp : Nat) (name : Name) : DirM P (Option (Nat × Nat)) := fun s =>
  if (s.inode dp).kind ≠ .dir then .error .notDir
  else match lookup name (s.inode dp).entries 0 with
    | none => .ok (none, s)
    | some (inum, off) => (do iget inum; pure (some (inum, off)) : DirM P _) s

/-- An entry is put in the first place that is not in use, or at the
end. -/
def addEntry (de : Dirent) : List Dirent → List Dirent
  | [] => [de]
  | e :: es => if e.inum = 0 then de :: es else e :: addEntry de es

def setEntries (dp : Nat) (f : List Dirent → List Dirent) : DirM P Unit := fun s =>
  setNode dp { s.inode dp with entries := f (s.inode dp).entries } s

/-- `dirlink`; whether it returns 0. -/
def dirlink (dp : Nat) (name : Name) (inum : Nat) : DirM P Bool := do
  match ← dirlookup dp name with
  | some (ip, _) =>
      iput ip
      pure false
  | none =>
      setEntries dp (addEntry ⟨inum, name⟩)
      pure true

/-- The removal of an entry in `sys_unlink`; whether there is one. -/
def removeEntry (dp : Nat) (name : Name) : DirM P Bool := do
  match ← dirlookup dp name with
  | none => pure false
  | some (_, off) =>
      setEntries dp fun es => es.set (off / direntSize) .unused
      pure true

/-- What changes the entries of a directory, with names as they are in
memory. -/
inductive DirOp
  | link (name : Nat → Byte) (inum : Nat)
  | unlink (name : Nat → Byte)

def DirOp.run (dp : Nat) : DirOp → DirM P Bool
  | .link name inum => dirlink dp (nameOf name) inum
  | .unlink name => removeEntry dp (nameOf name)

def runOps (dp : Nat) : List DirOp → DirM P Unit
  | [] => pure ()
  | op :: ops => do
      let _ ← op.run dp
      runOps dp ops

/-- `isdirempty`. -/
def isdirempty (entries : List Dirent) : Bool := (entries.drop 2).all fun de => de.inum = 0

-- ======== paths

/-- `skipelem`: the next element of a path and what follows. -/
def skipelem (path : List Byte) : Option (Name × List Byte) :=
  let path := path.dropWhile (· = slash)
  if path = [] then none
  else some ((path.takeWhile (· ≠ slash)).take dirSiz,
    (path.dropWhile (· ≠ slash)).dropWhile (· = slash))

/-- The loop of `namex`, with more fuel than the path has elements. -/
def namexLoop (parent : Bool) : Nat → Nat → List Byte → DirM P (Option (Nat × Name))
  | 0, _, _ => pure none
  | fuel + 1, ip, path =>
      match skipelem path with
      | none =>
          if parent then do
            iput ip
            pure none
          else pure (some (ip, []))
      | some (name, path) => do
          ilock ip
          let s ← get
          if (s.inode ip).kind ≠ .dir then do
            iput ip
            pure none
          else if parent = true ∧ path = [] then pure (some (ip, name))
          else do
            match ← dirlookup ip name with
            | none =>
                iput ip
                pure none
            | some (next, _) =>
                iput ip
                namexLoop parent fuel next path

/-- `namex`, for a process with the given current directory. -/
def namex (cwd : Nat) (path : List Byte) (parent : Bool) : DirM P (Option (Nat × Name)) :=
  if path.head? = some slash then do
    iget rootIno
    namexLoop parent (path.length + 1) rootIno path
  else do
    idup cwd
    namexLoop parent (path.length + 1) cwd path

def namei (cwd : Nat) (path : List Byte) : DirM P (Option Nat) := do
  pure ((← namex cwd path false).map Prod.fst)

def nameiparent (cwd : Nat) (path : List Byte) : DirM P (Option (Nat × Name)) :=
  namex cwd path true

-- ======== create

/-- The entries of a new directory. -/
def createDots (ip dp : Nat) : DirM P Unit := do
  addNlink dp 1
  if ← dirlink ip dot ip then
    if ← dirlink ip dotdot dp then pure () else throw .createDots
  else throw .createDots

/-- The ghost of a new directory. -/
def recordMade (ip dp : Nat) : DirM P Unit := fun s =>
  .ok ((), { s with made := update s.made ip (dp, s.gen dp) })

/-- `create` where there is no such name yet. -/
def createNew (dp : Nat) (name : Name) (kind : Kind) : DirM P Nat := do
  let ip ← ialloc kind
  ilock ip
  addNlink ip 1
  if kind = .dir then do
    createDots ip dp
    recordMade ip dp
  if ← dirlink dp name ip then do
    iput dp
    pure ip
  else throw .createDirlink

/-- `create` of what is there already. -/
def createOld (dp ip : Nat) (kind : Kind) : DirM P (Option Nat) := do
  iput dp
  ilock ip
  let s ← get
  if kind = .file ∧ (s.inode ip).kind = .file then pure (some ip)
  else do
    iput ip
    pure none

def create (cwd : Nat) (path : List Byte) (kind : Kind) : DirM P (Option Nat) := do
  match ← nameiparent cwd path with
  | none => pure none
  | some (dp, name) =>
      ilock dp
      match ← dirlookup dp name with
      | some (ip, _) => createOld dp ip kind
      | none => do
          let ip ← createNew dp name kind
          pure (some ip)

-- ======== system calls

variable [DecidableEq P]

/-- `sys_open` of what exists. -/
def openOld (cwd : Nat) (path : List Byte) (rdonly : Bool) : DirM P (Option Nat) := do
  match ← namei cwd path with
  | none => pure none
  | some ip =>
      ilock ip
      let s ← get
      if (s.inode ip).kind = .dir ∧ rdonly = false then do
        iput ip
        pure none
      else pure (some ip)

def setFile (p : P) (fd : Fin nofile) (f : Option Nat) : DirM P Unit := fun s =>
  .ok ((), { s with ofile := update s.ofile p (update (s.ofile p) fd f) })

/-- `filealloc` and `fdalloc`; `room` is whether the file table has an
entry. -/
def fdalloc (p : P) (room : Bool) (s : Dirs P) : Option (Fin nofile) :=
  if room then (List.finRange nofile).find? fun fd => s.ofile p fd = none else none

/-- `sys_open`; `creat` and `rdonly` are whether `omode` has `O_CREATE` and
whether it is `O_RDONLY`. -/
def sysOpen (p : P) (cwd : Nat) (path : List Byte) (creat rdonly room : Bool) :
    DirM P Int := do
  match ← if creat then create cwd path .file else openOld cwd path rdonly with
  | none => pure (-1)
  | some ip =>
      let s ← get
      match fdalloc p room s with
      | none =>
          iput ip
          pure (-1)
      | some fd =>
          setFile p fd (some ip)
          pure fd

/-- `sys_mkdir` and `sys_mknod`. -/
def sysMake (cwd : Nat) (path : List Byte) (kind : Kind) : DirM P Int := do
  match ← create cwd path kind with
  | none => pure (-1)
  | some ip =>
      iput ip
      pure 0

/-- The label `bad` of `sys_link`. -/
def linkBad (ip : Nat) : DirM P Int := do
  ilock ip
  addNlink ip (-1)
  iput ip
  pure (-1)

/-- `sys_link` behind the increment of `nlink`. -/
def linkNew (cwd ip : Nat) (new : List Byte) : DirM P Int := do
  match ← nameiparent cwd new with
  | none => linkBad ip
  | some (dp, name) =>
      ilock dp
      if ← dirlink dp name ip then do
        iput dp
        iput ip
        pure 0
      else do
        iput dp
        linkBad ip

def sysLink (cwd : Nat) (old new : List Byte) : DirM P Int := do
  match ← namei cwd old with
  | none => pure (-1)
  | some ip =>
      ilock ip
      let s ← get
      if (s.inode ip).kind = .dir then do
        iput ip
        pure (-1)
      else do
        addNlink ip 1
        linkNew cwd ip new

/-- `sys_unlink` when nothing speaks against it. -/
def unlinkEntry (dp ip off : Nat) : DirM P Int := do
  setEntries dp fun es => es.set (off / direntSize) .unused
  let s ← get
  if (s.inode ip).kind = .dir then addNlink dp (-1)
  iput dp
  addNlink ip (-1)
  iput ip
  pure 0

/-- The label `bad` of `sys_unlink`. -/
def unlinkBad (dp : Nat) : DirM P Int := do
  iput dp
  pure (-1)

def sysUnlink (cwd : Nat) (path : List Byte) : DirM P Int := do
  match ← nameiparent cwd path with
  | none => pure (-1)
  | some (dp, name) =>
      ilock dp
      if name = dot ∨ name = dotdot then unlinkBad dp
      else do
        match ← dirlookup dp name with
        | none => unlinkBad dp
        | some (ip, off) =>
            ilock ip
            let s ← get
            if (s.inode ip).nlink < 1 then throw .unlinkNlink
            else if (s.inode ip).kind = .dir ∧ isdirempty (s.inode ip).entries = false then do
              iput ip
              unlinkBad dp
            else unlinkEntry dp ip off

def setCwd (p : P) (c : Option Nat) : DirM P Unit := fun s =>
  .ok ((), { s with cwd := update s.cwd p c })

def sysChdir (p : P) (cwd : Nat) (path : List Byte) : DirM P Int := do
  match ← namei cwd path with
  | none => pure (-1)
  | some ip =>
      ilock ip
      let s ← get
      if (s.inode ip).kind ≠ .dir then do
        iput ip
        pure (-1)
      else do
        iput cwd
        setCwd p (some ip)
        pure 0

/-- `sys_close`, and the close of a descriptor in `exit`. -/
def sysClose (p : P) (fd : Fin nofile) : DirM P Int := do
  let s ← get
  match s.ofile p fd with
  | none => pure (-1)
  | some ip =>
      setFile p fd none
      iput ip
      pure 0

def closeAll (p : P) : List (Fin nofile) → DirM P Unit
  | [] => pure ()
  | fd :: fds => do
      let _ ← sysClose p fd
      closeAll p fds

/-- `exit`. -/
def exit (p : P) (cwd : Nat) : DirM P Int := do
  closeAll p (List.finRange nofile)
  iput cwd
  setCwd p none
  pure 0

-- ======== calls

inductive Call (P : Type)
  | openPath (p : P) (path : List Byte) (creat rdonly room : Bool)
  | mkdir (p : P) (path : List Byte)
  | mknod (p : P) (path : List Byte)
  | link (p : P) (old new : List Byte)
  | unlink (p : P) (path : List Byte)
  | chdir (p : P) (path : List Byte)
  | close (p : P) (fd : Fin nofile)
  | exit (p : P)

/-- The process that calls. -/
def Call.proc : Call P → P
  | .openPath p _ _ _ _ | .mkdir p _ | .mknod p _ | .link p _ _ | .unlink p _ | .chdir p _
  | .close p _ | .exit p => p

/-- A call of a process whose current directory is `cwd`. -/
def Call.run (cwd : Nat) : Call P → DirM P Int
  | .openPath p path creat rdonly room => sysOpen p cwd path creat rdonly room
  | .mkdir _ path => sysMake cwd path .dir
  | .mknod _ path => sysMake cwd path .dev
  | .link _ old new => sysLink cwd old new
  | .unlink _ path => sysUnlink cwd path
  | .chdir p path => sysChdir p cwd path
  | .close p fd => sysClose p fd
  | .exit p => Dir.exit p cwd

/-- A call that comes to an end, of a process that has not exited. -/
def dirStep (c : Call P) (s : Dirs P) : Option (Dirs P) :=
  (s.cwd c.proc).bind fun cwd => ((c.run cwd s).toOption).map Prod.snd

-- ======== start

/-- The entries of the root directory that `mkfs` writes, for files with
the given names: the file of place `k` has inode `k + 2`, and the rest of
the last block is not in use. -/
def rootEntries (files : List Name) : List Dirent :=
  ⟨rootIno, dot⟩ :: ⟨rootIno, dotdot⟩ ::
    (files.zipIdx.map fun f => ⟨f.2 + 2, f.1⟩)
      ++ List.replicate (32 - (files.length + 2) % 32) .unused

/-- The image of `mkfs`, and processes in the root directory. -/
def mkfsDirs [Fintype P] (files : List Name) : Dirs P where
  inode i :=
    if i = rootIno then ⟨.dir, 1, rootEntries files⟩
    else if 2 ≤ i ∧ i < files.length + 2 then ⟨.file, 1, []⟩
    else .free
  ref := update (fun _ => 0) rootIno (Fintype.card P)
  valid _ := false
  cwd _ := some rootIno
  ofile _ _ := none
  gen _ := 0
  made _ := (rootIno, 0)

/-- What `mkfs` may be given: files for which there are inodes, none of them
called "." or "..". -/
def Booted [Fintype P] (s : Dirs P) : Prop :=
  ∃ files : List Name, files.length + 2 ≤ ninodes ∧ dot ∉ files ∧ dotdot ∉ files ∧
    s = mkfsDirs files

end Xv6Sume32.Dir
