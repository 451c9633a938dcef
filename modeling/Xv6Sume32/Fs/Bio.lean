/-
The buffer cache (`bio.c`) with the disk driver under it (`iderw`,
`ideintr`).

# Steps

A critical section of `bcache.lock` is one step: the two loops of `bget`,
and the second half of `brelse`. So is what a process does between two
points where it may have to wait: taking a buffer's sleep lock, the test of
B_VALID in `bread`, putting a request on the disk queue, going on when it is
done, and storing into a buffer. `ideintr` finishes the request at the head
of the queue. `holdingsleep` tests `locked` only.

# Callers

`P` are the uses of a buffer, from `bread` to `brelse`; a process that has
several buffers at a time is several of them. A caller may store into the
buffer it has as it likes, but after that comes a `bwrite` or a `log_write`
before `brelse`. Of `log_write` there is what it does to the buffer. All
blocks are on the root device, and its disk is there.

# History

`last` is not a variable of the program: for each block the data last
written by `bwrite` or `log_write`, and to begin with what is on the disk.
-/
import Xv6Sume32.Lib.Dll
import Xv6Sume32.Lib.Refs
import Xv6Sume32.Fs.Log

namespace Xv6Sume32.Bio

open Lib

-- ======== the state

/-- `NBUF`. -/
def nbuf : Nat := Fs.maxOpBlocks * 3

/-- `ROOTDEV`. -/
def rootdev : Nat := 1

/-- `struct buf`; B_VALID and B_DIRTY are the flags. -/
structure Buf (D : Type) where
  valid : Bool
  dirty : Bool
  dev : Nat
  blockno : Nat
  locked : Bool
  refcnt : Nat
  data : D

/-- Where a caller is: in `acquiresleep` of `bget`, behind it in `bread`, in
the `iderw` of `bread`, out of `bread` (with data of its own, or not), in
the `iderw` of `bwrite`, behind `releasesleep` in `brelse`. -/
inductive Stage
  | waiting
  | locked
  | reading
  | holding (changed : Bool)
  | writing
  | releasing
deriving DecidableEq

/-- A caller's buffer, and the block it asked for. -/
structure Use where
  stage : Stage
  buf : Fin nbuf
  block : Nat
deriving DecidableEq

structure Bcache (P D : Type) where
  buf : Fin nbuf → Buf D
  list : Dll (Fin nbuf)
  idequeue : List (Fin nbuf)
  disk : Nat → D
  use : P → Option Use
  last : Nat → D

/-- What ends a step: the caller is elsewhere or has to wait, a panic, or a
loop that does not come back to the head. -/
inductive Stop
  | disabled
  | noBuffers
  | bwrite
  | brelse
  | notLocked
  | nothingToDo
  | runaway
deriving DecidableEq

namespace Bcache

variable {P D : Type} [DecidableEq P] (s : Bcache P D)

def setBuf (b : Fin nbuf) (new : Buf D) : Bcache P D :=
  { s with buf := Function.update s.buf b new }

def setUse (p : P) (u : Option Use) : Bcache P D :=
  { s with use := Function.update s.use p u }

-- ======== bget

/-- The critical section of `bget` for block `n`. -/
def bget (p : P) (n : Nat) : Except Stop (Bcache P D) :=
  match s.use p with
  | some _ => .error .disabled
  | none =>
      let cached := fun b => decide ((s.buf b).dev = rootdev ∧ (s.buf b).blockno = n)
      let unused := fun b => decide ((s.buf b).refcnt = 0 ∧ (s.buf b).dirty = false)
      match walk s.list.next cached (nbuf + 1) (s.list.next none) with
      | none => .error .runaway
      | some (some b) =>
          .ok ((s.setBuf b { s.buf b with refcnt := (s.buf b).refcnt + 1 }).setUse p
            (some ⟨.waiting, b, n⟩))
      | some none =>
          match walk s.list.prev unused (nbuf + 1) (s.list.prev none) with
          | none => .error .runaway
          | some none => .error .noBuffers
          | some (some b) =>
              .ok ((s.setBuf b { s.buf b with
                dev := rootdev, blockno := n, valid := false, dirty := false,
                refcnt := 1 }).setUse p (some ⟨.waiting, b, n⟩))

/-- `acquiresleep` of `bget`. -/
def acquiresleep (p : P) : Except Stop (Bcache P D) :=
  match s.use p with
  | some ⟨.waiting, b, n⟩ =>
      if (s.buf b).locked then .error .disabled
      else .ok ((s.setBuf b { s.buf b with locked := true }).setUse p (some ⟨.locked, b, n⟩))
  | _ => .error .disabled

-- ======== the disk

/-- `iderw` up to where it waits. -/
def iderw (b : Fin nbuf) : Except Stop (Bcache P D) :=
  if (s.buf b).locked = false then .error .notLocked
  else if (s.buf b).valid = true ∧ (s.buf b).dirty = false then .error .nothingToDo
  else .ok { s with idequeue := s.idequeue ++ [b] }

/-- `ideintr`, with the transfer. -/
def ideintr : Except Stop (Bcache P D) :=
  match s.idequeue with
  | [] => .error .disabled
  | b :: queue =>
      let n := (s.buf b).blockno
      if (s.buf b).dirty then
        .ok { s.setBuf b { s.buf b with valid := true, dirty := false } with
          idequeue := queue, disk := Function.update s.disk n (s.buf b).data }
      else
        .ok { s.setBuf b { s.buf b with valid := true, dirty := false, data := s.disk n } with
          idequeue := queue }

/-- `iderw` when the request is done. -/
def wake (p : P) : Except Stop (Bcache P D) :=
  match s.use p with
  | some ⟨.reading, b, n⟩ | some ⟨.writing, b, n⟩ =>
      if (s.buf b).valid = true ∧ (s.buf b).dirty = false then
        .ok (s.setUse p (some ⟨.holding false, b, n⟩))
      else .error .disabled
  | _ => .error .disabled

-- ======== the callers

/-- `bread` behind `bget`. -/
def bread (p : P) : Except Stop (Bcache P D) :=
  match s.use p with
  | some ⟨.locked, b, n⟩ =>
      if (s.buf b).valid then .ok (s.setUse p (some ⟨.holding false, b, n⟩))
      else do
        let s ← s.iderw b
        .ok (s.setUse p (some ⟨.reading, b, n⟩))
  | _ => .error .disabled

/-- The caller stores into its buffer. -/
def store (p : P) (d : D) : Except Stop (Bcache P D) :=
  match s.use p with
  | some ⟨.holding _, b, n⟩ =>
      .ok ((s.setBuf b { s.buf b with data := d }).setUse p (some ⟨.holding true, b, n⟩))
  | _ => .error .disabled

def bwrite (p : P) : Except Stop (Bcache P D) :=
  match s.use p with
  | some ⟨.holding _, b, n⟩ =>
      if (s.buf b).locked = false then .error .bwrite
      else do
        let s ← (s.setBuf b { s.buf b with dirty := true }).iderw b
        .ok { s.setUse p (some ⟨.writing, b, n⟩) with
          last := Function.update s.last n (s.buf b).data }
  | _ => .error .disabled

/-- `log_write`: the buffer is pinned. -/
def logWrite (p : P) : Except Stop (Bcache P D) :=
  match s.use p with
  | some ⟨.holding _, b, n⟩ =>
      .ok { (s.setBuf b { s.buf b with dirty := true }).setUse p (some ⟨.holding false, b, n⟩) with
        last := Function.update s.last n (s.buf b).data }
  | _ => .error .disabled

/-- `brelse` up to `releasesleep`. -/
def releasesleep (p : P) : Except Stop (Bcache P D) :=
  match s.use p with
  | some ⟨.holding false, b, n⟩ =>
      if (s.buf b).locked = false then .error .brelse
      else .ok ((s.setBuf b { s.buf b with locked := false }).setUse p (some ⟨.releasing, b, n⟩))
  | _ => .error .disabled

/-- The critical section of `brelse`. -/
def brelse (p : P) : Except Stop (Bcache P D) :=
  match s.use p with
  | some ⟨.releasing, b, _⟩ =>
      let s := (s.setBuf b { s.buf b with refcnt := (s.buf b).refcnt - 1 }).setUse p none
      if (s.buf b).refcnt = 0 then .ok { s with list := (s.list.unlink b).push b } else .ok s
  | _ => .error .disabled

end Bcache

-- ======== steps

inductive Event (P D : Type)
  | bget (p : P) (n : Nat)
  | acquiresleep (p : P)
  | bread (p : P)
  | ideintr
  | wake (p : P)
  | store (p : P) (d : D)
  | bwrite (p : P)
  | logWrite (p : P)
  | releasesleep (p : P)
  | brelse (p : P)

variable {P D : Type} [DecidableEq P]

def act : Event P D → Bcache P D → Except Stop (Bcache P D)
  | .bget p n, s => s.bget p n
  | .acquiresleep p, s => s.acquiresleep p
  | .bread p, s => s.bread p
  | .ideintr, s => s.ideintr
  | .wake p, s => s.wake p
  | .store p d, s => s.store p d
  | .bwrite p, s => s.bwrite p
  | .logWrite p, s => s.logWrite p
  | .releasesleep p, s => s.releasesleep p
  | .brelse p, s => s.brelse p

def step (e : Event P D) (s : Bcache P D) : Option (Bcache P D) := (act e s).toOption

/-- `binit`. -/
def binit : Dll (Fin nbuf) := (List.finRange nbuf).foldl Dll.push Dll.empty

/-- Buffers that have not been used, all zero but for what is in them. -/
def fresh (data : Fin nbuf → D) (disk : Nat → D) : Bcache P D where
  buf := fun b => ⟨false, false, 0, 0, false, 0, data b⟩
  list := binit
  idequeue := []
  disk := disk
  use := fun _ => none
  last := disk

def Fresh (s : Bcache P D) : Prop := ∃ data disk, s = fresh data disk

end Xv6Sume32.Bio
