/-
The inode cache (`iget`, `idup`, `ilock`, `iunlock`, `iput`, `ialloc` of
`fs.c`) over the blocks and inodes on the disk.

# Steps

A critical section of `icache.lock` is one step: the loop of `iget`, the
increment of `idup`, in `iput` the look at `ref` and the decrement. So is a
stretch of a process that has an inode's sleep lock: the read of the inode
by `ilock`, a `readi` or `writei`, a change of fields with its `iupdate`,
the truncation in `iput`. `ialloc` is two steps, the mark on the disk and
the `iget`; which inode it finds free depends on when it looked at which
block, so any that is free may be it.

# References

`P` are the references that are handed out, one by each `iget`, `idup` and
`ialloc` until its `iput` is over. Each stands where the code that has it
is (`Stage`).

# Copies

The copy of an inode that a slot has is what `readi`, `writei` and
`itrunc` work on: they run on the blocks and inodes with this copy in the
place of `mem` and the slot keeps what they leave there. `Dinode` has no
`minor`; it is kept beside, and goes to the disk when `iupdate` does. All
inodes are on the root device. A step that would panic is no step.
-/
import Xv6Sume32.Fs.Inode
import Xv6Sume32.Lib.Refs

namespace Xv6Sume32.Fs

open Lib

-- ======== the state

/-- `NINODE`. -/
def ninode : Nat := 50

/-- `ROOTDEV`. -/
def rootDev : Nat := 1

/-- `struct inode`. -/
structure Inode where
  dev : Nat
  inum : Nat
  ref : Nat
  locked : Bool
  valid : Bool
  copy : Dinode
  minor : Int

/-- Where the holder of a reference is: not in one of these functions, in
`ilock` behind `acquiresleep`, behind `ilock`, in `iput` before and behind
the look at `ref`, and before the decrement. -/
inductive Stage
  | held
  | acquired
  | locked
  | testing
  | freeing
  | dropping
deriving DecidableEq

structure Use where
  stage : Stage
  slot : Fin ninode
  inum : Nat

/-- A reference that is not handed out, that `ialloc` is about to get, or
that is in use. -/
inductive Handle
  | idle
  | allocating (inum : Nat)
  | uses (u : Use)

structure Icache (P : Type) where
  inode : Fin ninode → Inode
  fs : FsState
  minor : Nat → Int
  handle : P → Handle

namespace Icache

variable {P : Type} [DecidableEq P] (s : Icache P)

def setInode (i : Fin ninode) (ip : Inode) : Icache P :=
  { s with inode := Function.update s.inode i ip }

def setHandle (p : P) (h : Handle) : Icache P :=
  { s with handle := Function.update s.handle p h }

-- ======== references

/-- The loop of `iget`: the slot of the inode, or else the first that is
empty. -/
def igetLoop (inum : Nat) :
    List (Fin ninode) → Option (Fin ninode) → Fin ninode ⊕ Option (Fin ninode)
  | [], empty => .inr empty
  | i :: is, empty =>
      if 0 < (s.inode i).ref ∧ (s.inode i).dev = rootDev ∧ (s.inode i).inum = inum then .inl i
      else igetLoop inum is (if empty = none ∧ (s.inode i).ref = 0 then some i else empty)

/-- `iget`. -/
def iget (p : P) (inum : Nat) : Option (Icache P) :=
  match s.igetLoop inum (List.finRange ninode) none with
  | .inl i =>
      some ((s.setInode i { s.inode i with ref := (s.inode i).ref + 1 }).setHandle p
        (.uses ⟨.held, i, inum⟩))
  | .inr none => none
  | .inr (some i) =>
      some ((s.setInode i { s.inode i with
        dev := rootDev, inum := inum, ref := 1, valid := false }).setHandle p
        (.uses ⟨.held, i, inum⟩))

/-- `idup` of the reference of `p`. -/
def idup (p q : P) : Option (Icache P) :=
  match s.handle p, s.handle q with
  | .uses ⟨.held, i, inum⟩, .idle =>
      some ((s.setInode i { s.inode i with ref := (s.inode i).ref + 1 }).setHandle q
        (.uses ⟨.held, i, inum⟩))
  | _, _ => none

/-- `ialloc` up to the `iget`, with the inode it found. -/
def ialloc (sb : Superblock) (p : P) (inum : Nat) (kind : Kind) : Option (Icache P) :=
  match s.handle p with
  | .idle =>
      if 1 ≤ inum ∧ inum < sb.ninodes ∧ (s.fs.disk inum).kind = .free ∧ kind ≠ .free then
        some ({ s with
          fs := { s.fs with
            disk := Function.update s.fs.disk inum (.fresh kind)
            mem := Function.update s.fs.mem inum (.fresh kind) }
          minor := Function.update s.minor inum 0 }.setHandle p (.allocating inum))
      else none
  | _ => none

-- ======== locks

/-- `ilock` up to `acquiresleep`. -/
def ilock (p : P) : Option (Icache P) :=
  match s.handle p with
  | .uses ⟨.held, i, inum⟩ =>
      if (s.inode i).ref < 1 ∨ (s.inode i).locked then none
      else some ((s.setInode i { s.inode i with locked := true }).setHandle p
        (.uses ⟨.acquired, i, inum⟩))
  | _ => none

/-- `ilock` behind `acquiresleep`. -/
def load (p : P) : Option (Icache P) :=
  match s.handle p with
  | .uses ⟨.acquired, i, inum⟩ =>
      if (s.inode i).valid then some (s.setHandle p (.uses ⟨.locked, i, inum⟩))
      else
        let dip := s.fs.disk (s.inode i).inum
        if dip.kind = .free then none
        else some ((s.setInode i { s.inode i with
          copy := dip, minor := s.minor (s.inode i).inum, valid := true }).setHandle p
          (.uses ⟨.locked, i, inum⟩))
  | _ => none

def iunlock (p : P) : Option (Icache P) :=
  match s.handle p with
  | .uses ⟨.locked, i, inum⟩ =>
      if (s.inode i).locked = false ∨ (s.inode i).ref < 1 then none
      else some ((s.setInode i { s.inode i with locked := false }).setHandle p
        (.uses ⟨.held, i, inum⟩))
  | _ => none

-- ======== content

/-- An operation on the copy in slot `i`; `wrote` is whether it called
`iupdate`, given the copy it leaves. -/
def onCopy (sb : Superblock) (devsw : Devsw) (i : Fin ninode) (op : Op)
    (wrote : Dinode → Bool) : Option (Icache P) :=
  let ip := s.inode i
  match op.apply sb (s.fs.setMem ip.inum ip.copy) devsw with
  | .error _ => none
  | .ok fs =>
      some { s.setInode i { ip with copy := fs.mem ip.inum } with
        fs := fs
        minor := if wrote (fs.mem ip.inum) then Function.update s.minor ip.inum ip.minor
          else s.minor }

def readi (sb : Superblock) (devsw : Devsw) (p : P) (off n : Word) : Option (Icache P) :=
  match s.handle p with
  | .uses ⟨.locked, i, _⟩ =>
      s.onCopy sb devsw i (.readi (s.inode i).inum off n) fun _ => false
  | _ => none

/-- `writei`; it calls `iupdate` when the file grows. -/
def writei (sb : Superblock) (devsw : Devsw) (p : P) (off : Word) (src : Buf) :
    Option (Icache P) :=
  match s.handle p with
  | .uses ⟨.locked, i, _⟩ =>
      s.onCopy sb devsw i (.writei (s.inode i).inum off src)
        fun ip => decide ((s.inode i).copy.size < ip.size)
  | _ => none

/-- A change of `major`, `minor` and `nlink`, with `iupdate`. -/
def fields (sb : Superblock) (devsw : Devsw) (p : P) (major minor nlink : Int) :
    Option (Icache P) :=
  match s.handle p with
  | .uses ⟨.locked, i, _⟩ =>
      (s.setInode i { s.inode i with minor := minor }).onCopy sb devsw i
        (.fields (s.inode i).inum major nlink) fun _ => true
  | _ => none

-- ======== iput

/-- `iput` up to the look at `ref`, or to the decrement. -/
def putLock (p : P) : Option (Icache P) :=
  match s.handle p with
  | .uses ⟨.held, i, inum⟩ =>
      if (s.inode i).locked then none
      else if (s.inode i).valid = true ∧ (s.inode i).copy.nlink = 0 then
        some ((s.setInode i { s.inode i with locked := true }).setHandle p
          (.uses ⟨.testing, i, inum⟩))
      else some (s.setHandle p (.uses ⟨.dropping, i, inum⟩))
  | _ => none

/-- The look at `ref`. -/
def putTest (p : P) : Option (Icache P) :=
  match s.handle p with
  | .uses ⟨.testing, i, inum⟩ =>
      if (s.inode i).ref = 1 then some (s.setHandle p (.uses ⟨.freeing, i, inum⟩))
      else some ((s.setInode i { s.inode i with locked := false }).setHandle p
        (.uses ⟨.dropping, i, inum⟩))
  | _ => none

/-- The truncation. -/
def putFree (sb : Superblock) (devsw : Devsw) (p : P) : Option (Icache P) :=
  match s.handle p with
  | .uses ⟨.freeing, i, inum⟩ =>
      (s.onCopy sb devsw i (.iput (s.inode i).inum) fun _ => true).map fun s =>
        (s.setInode i { s.inode i with valid := false, locked := false }).setHandle p
          (.uses ⟨.dropping, i, inum⟩)
  | _ => none

/-- The decrement. -/
def drop (p : P) : Option (Icache P) :=
  match s.handle p with
  | .uses ⟨.dropping, i, _⟩ =>
      some ((s.setInode i { s.inode i with ref := (s.inode i).ref - 1 }).setHandle p .idle)
  | _ => none

end Icache

-- ======== steps

inductive IcacheEvent (P : Type)
  | iget (p : P) (inum : Nat)
  | idup (p q : P)
  | ialloc (p : P) (inum : Nat) (kind : Kind)
  | ilock (p : P)
  | load (p : P)
  | iunlock (p : P)
  | readi (p : P) (off n : Word)
  | writei (p : P) (off : Word) (src : Buf)
  | fields (p : P) (major minor nlink : Int)
  | putLock (p : P)
  | putTest (p : P)
  | putFree (p : P)
  | drop (p : P)

variable {P : Type} [DecidableEq P] (sb : Superblock) (devsw : Devsw)

/-- A step; `iget` is called for any inode, or by `ialloc` for the one it
has found. -/
def icacheStep : IcacheEvent P → Icache P → Option (Icache P)
  | .iget p inum, s =>
      match s.handle p with
      | .idle => s.iget p inum
      | .allocating inum => s.iget p inum
      | .uses _ => none
  | .idup p q, s => s.idup p q
  | .ialloc p inum kind, s => s.ialloc sb p inum kind
  | .ilock p, s => s.ilock p
  | .load p, s => s.load p
  | .iunlock p, s => s.iunlock p
  | .readi p off n, s => s.readi sb devsw p off n
  | .writei p off src, s => s.writei sb devsw p off src
  | .fields p major minor nlink, s => s.fields sb devsw p major minor nlink
  | .putLock p, s => s.putLock p
  | .putTest p, s => s.putTest p
  | .putFree p, s => s.putFree sb devsw p
  | .drop p, s => s.drop p

/-- An empty cache over a disk. -/
def emptyCache (fs : FsState) (minor : Nat → Int) : Icache P where
  inode := fun _ => ⟨0, 0, 0, false, false, .fresh .free, 0⟩
  fs := fs
  minor := minor
  handle := fun _ => .idle

end Xv6Sume32.Fs
