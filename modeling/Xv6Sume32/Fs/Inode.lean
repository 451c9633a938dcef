/-
Blocks and inodes of the file system (`fs.c`).

# State

The bitmap and the inode table are functions of block and inode numbers;
a data block is its 128 words, which file contents address by bytes
(`byteAt`). Every inode has two copies: `disk`, written by `iupdate`, and
`mem`, the one in the inode cache that the code works on. An operation
that leaves them different is one whose changes are lost when the cache
entry is recycled.

# Index blocks

`addrs[NDIRECT]` is the first-level index block of a file, its entries
are second-level index blocks, and theirs are data blocks.

# Operations

System calls change blocks and inodes through the functions of this file
alone, so a sequence of calls, executed one at a time, is a sequence of
`Op`s. What they do besides (names, descriptors, reference counts) decides
which operations come, and any may come here.
-/
import Xv6Sume32.Lib.Bytes
import Xv6Sume32.Lib.System

namespace Xv6Sume32.Fs

open Lib
open Function (update)

-- ======== constants

/-- `BSIZE`. -/
def bsize : Nat := 512

/-- `NDIRECT`. -/
def ndirect : Nat := 12

/-- `NINDIRECT`. -/
def nindirect : Nat := bsize / 4

/-- `MAXFILE`. -/
def maxFile : Nat := ndirect + nindirect * nindirect

/-- `NDEV`. -/
def ndev : Int := 10

/-- What the superblock says: the number of blocks and of inodes, and
where the metadata ends. -/
structure Superblock where
  size : Nat
  ninodes : Nat
  dataStart : Nat

-- ======== blocks

/-- The words of a block. -/
abbrev Block := Nat → Word

/-- A byte of a block. -/
def byteAt (b : Block) (i : Nat) : Byte := byteOf (b (i / 4)) (i % 4)

/-- The block with given bytes. -/
def ofBytes (f : Nat → Byte) : Block := fun w =>
  ofLe (f (4 * w)) (f (4 * w + 1)) (f (4 * w + 2)) (f (4 * w + 3))

/-- `memmove(bp->data + o, src, m)`. -/
def putBytes (b : Block) (o : Nat) (src : List Byte) : Block :=
  ofBytes fun i => if o ≤ i ∧ i < o + src.length then src.getD (i - o) 0 else byteAt b i

-- ======== inodes

/-- The `type` of an inode, 0 for a free one. -/
inductive Kind
  | free
  | dir
  | file
  | dev
deriving DecidableEq

structure Dinode where
  kind : Kind
  major : Int
  nlink : Int
  size : Nat
  addrs : Nat → Nat

/-- A cleared inode of a type. -/
def Dinode.fresh (kind : Kind) : Dinode := ⟨kind, 0, 0, 0, fun _ => 0⟩

structure FsState where
  used : Nat → Bool
  blk : Nat → Block
  disk : Nat → Dinode
  mem : Nat → Dinode

inductive FsPanic
  | outOfBlocks
  | freeingFree
  | bmapRange
  | noInodes
deriving DecidableEq

variable (sb : Superblock) (s : FsState)

/-- Change the copy of an inode in the cache. -/
def FsState.setMem (inum : Nat) (ip : Dinode) : FsState :=
  { s with mem := update s.mem inum ip }

/-- `ip->addrs[i] = b`. -/
def FsState.setAddr (inum i b : Nat) : FsState :=
  s.setMem inum { s.mem inum with addrs := update (s.mem inum).addrs i b }

def iupdate (inum : Nat) : FsState :=
  { s with disk := update s.disk inum (s.mem inum) }

-- ======== allocation

/-- `balloc`: the first free block, zeroed. -/
def balloc : Except FsPanic (Nat × FsState) :=
  match (List.range sb.size).find? fun b => !s.used b with
  | none => .error .outOfBlocks
  | some b => .ok (b, { s with
      used := update s.used b true
      blk := update s.blk b fun _ => 0 })

def bfree (b : Nat) : Except FsPanic FsState :=
  if s.used b then .ok { s with used := update s.used b false }
  else .error .freeingFree

/-- An entry of the inode, with a block for it if it has none. -/
def addrAlloc (inum i : Nat) : Except FsPanic (Nat × FsState) :=
  if (s.mem inum).addrs i = 0 then do
    let (b, s) ← balloc sb s
    .ok (b, s.setAddr inum i b)
  else .ok ((s.mem inum).addrs i, s)

/-- Entry `j` of index block `a`, with a block for it if it has none. -/
def entryAlloc (a j : Nat) : Except FsPanic (Nat × FsState) :=
  if (s.blk a j).toNat = 0 then do
    let (b, s) ← balloc sb s
    .ok (b, { s with
      blk := update s.blk a (update (s.blk a) j (BitVec.ofNat 32 b)) })
  else .ok ((s.blk a j).toNat, s)

/-- `bmap`: the address of block `bn` of a file. -/
def bmap (inum bn : Nat) : Except FsPanic (Nat × FsState) :=
  if bn < ndirect then addrAlloc sb s inum bn
  else if (bn - ndirect) / nindirect < nindirect then do
    let (a, s) ← addrAlloc sb s inum ndirect
    let (a, s) ← entryAlloc sb s a ((bn - ndirect) / nindirect)
    entryAlloc sb s a ((bn - ndirect) % nindirect)
  else .error .bmapRange

/-- Free a block that an entry may name. -/
def bfreeEntry (b : Nat) : Except FsPanic FsState :=
  if b ≠ 0 then bfree s b else .ok s

/-- `itrunc`. The entries of the first-level index block are freed, those
of the second-level ones are not looked at. -/
def itrunc (inum : Nat) : Except FsPanic FsState := do
  let s ← (List.range ndirect).foldlM (fun s i => do
    let s ← bfreeEntry s ((s.mem inum).addrs i)
    .ok (s.setAddr inum i 0)) s
  let a := (s.mem inum).addrs ndirect
  let s ← if a ≠ 0 then do
      let s ← (List.range nindirect).foldlM (fun s j => bfreeEntry s (s.blk a j).toNat) s
      let s ← bfree s a
      .ok (s.setAddr inum ndirect 0)
    else .ok s
  .ok (iupdate (s.setMem inum { s.mem inum with size := 0 }) inum)

/-- `ialloc`: the first free inode. The caller locks it, which reads it
into the cache. -/
def ialloc (kind : Kind) : Except FsPanic (Nat × FsState) :=
  match (List.range sb.ninodes).find? fun inum =>
      decide (1 ≤ inum) && decide ((s.disk inum).kind = .free) with
  | none => .error .noInodes
  | some inum => .ok (inum, { s with
      disk := update s.disk inum (.fresh kind)
      mem := update s.mem inum (.fresh kind) })

-- ======== reading, writing

/-- What is left of a device that has no driver, or is out of range. -/
def devCall {α : Type} (devsw : Nat → Option α) (major : Int) : Option α :=
  if major < 0 ∨ ndev ≤ major then none else devsw major.toNat

/-- The loop of `readi`, for `n` bytes. -/
def readLoop (inum : Nat) : Nat → Nat → Nat → FsState → Except FsPanic (List Byte × FsState)
  | 0, _, _, s => .ok ([], s)
  | fuel + 1, off, n, s =>
      if n = 0 then .ok ([], s)
      else do
        let (a, s) ← bmap sb s inum (off / bsize)
        let m := min n (bsize - off % bsize)
        let bytes := (List.range m).map fun k => byteAt (s.blk a) (off % bsize + k)
        let (rest, s) ← readLoop inum fuel (off + m) (n - m) s
        .ok (bytes ++ rest, s)

/-- `readi`: the value returned and the bytes read. -/
def readi (devsw : Nat → Option (Nat → Int × List Byte)) (inum off n : Nat) :
    Except FsPanic (Int × List Byte × FsState) :=
  let ip := s.mem inum
  if ip.kind = .dev then
    match devCall devsw ip.major with
    | none => .ok (-1, [], s)
    | some read => .ok ((read n).1, (read n).2, s)
  else if ip.size < off ∨ (off + n) % 2 ^ 32 < off then .ok (-1, [], s)
  else do
    let n := if ip.size < (off + n) % 2 ^ 32 then ip.size - off else n
    let (bytes, s) ← readLoop sb inum n off n s
    .ok (n, bytes, s)

/-- The loop of `writei`. -/
def writeLoop (inum : Nat) : Nat → Nat → List Byte → FsState → Except FsPanic FsState
  | 0, _, _, s => .ok s
  | fuel + 1, off, src, s =>
      if src = [] then .ok s
      else do
        let (a, s) ← bmap sb s inum (off / bsize)
        let m := min src.length (bsize - off % bsize)
        let s := { s with
          blk := update s.blk a (putBytes (s.blk a) (off % bsize) (src.take m)) }
        writeLoop inum fuel (off + m) (src.drop m) s

/-- `writei`, with the value returned. -/
def writei (devsw : Nat → Option (List Byte → Int)) (inum off : Nat) (src : List Byte) :
    Except FsPanic (Int × FsState) :=
  let ip := s.mem inum
  let n := src.length
  if ip.kind = .dev then
    match devCall devsw ip.major with
    | none => .ok (-1, s)
    | some write => .ok (write src, s)
  else if ip.size < off ∨ (off + n) % 2 ^ 32 < off then .ok (-1, s)
  else if maxFile * bsize < (off + n) % 2 ^ 32 then .ok (-1, s)
  else do
    let s ← writeLoop sb inum n off src s
    if 0 < n ∧ (s.mem inum).size < off + n then
      .ok (n, iupdate (s.setMem inum { s.mem inum with size := off + n }) inum)
    else .ok (n, s)

-- ======== operations

/-- The bytes of a buffer, no more than a `uint` counts. -/
abbrev Buf := { src : List Byte // src.length < 2 ^ 32 }

/-- What the system calls do to blocks and inodes: `create` allocates an
inode and sets its fields, `read`, `write` and the directory functions
read and write, `link` and `unlink` change link counts, `iput` frees an
inode without links, and a cache entry may be recycled and read again. -/
inductive Op
  | ialloc (kind : Kind)
  | readi (inum : Nat) (off n : Word)
  | writei (inum : Nat) (off : Word) (src : Buf)
  | fields (inum : Nat) (major nlink : Int)
  | iput (inum : Nat)
  | reload (inum : Nat)

/-- The device functions. -/
structure Devsw where
  read : Nat → Option (Nat → Int × List Byte)
  write : Nat → Option (List Byte → Int)

/-- An operation; those on a free inode do not come. -/
def Op.apply (devsw : Devsw) : Op → Except FsPanic FsState
  | .ialloc kind => do
      let (_, s) ← Fs.ialloc sb s kind
      .ok s
  | .readi inum off n =>
      if (s.mem inum).kind = .free then .ok s
      else do
        let (_, _, s) ← Fs.readi sb s devsw.read inum off.toNat n.toNat
        .ok s
  | .writei inum off src =>
      if (s.mem inum).kind = .free then .ok s
      else do
        let (_, s) ← Fs.writei sb s devsw.write inum off.toNat src.val
        .ok s
  | .fields inum major nlink =>
      if (s.mem inum).kind = .free then .ok s
      else .ok (iupdate
        (s.setMem inum { s.mem inum with major := major, nlink := nlink }) inum)
  | .iput inum =>
      if (s.mem inum).kind = .free ∨ (s.mem inum).nlink ≠ 0 then .ok s
      else do
        let s ← itrunc s inum
        .ok (iupdate (s.setMem inum { s.mem inum with kind := .free }) inum)
  | .reload inum => .ok (s.setMem inum (s.disk inum))

/-- A step that does not panic. -/
def opStep (devsw : Devsw) (op : Op) (s : FsState) : Option FsState :=
  (op.apply sb s devsw).toOption

end Xv6Sume32.Fs
