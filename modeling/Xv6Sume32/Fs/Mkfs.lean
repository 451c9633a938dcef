/-
`mkfs`: the first image of the file system (`mkfs.c`), and what the kernel
reads in it.

# The image

The image is a file on the host. `rsect` of a sector behind its end ends
the program, `wsect` makes the file longer. A sector is its 128 words; the
words and halfwords of the structures are those that `xint` and `xshort`
put into it, low byte first.

# Input

A file is its name and what `read` returns until it returns 0. Files that
cannot be opened, and what is printed, are left out.

# The kernel's side

`Image.kernel` is the state of the kernel model when nothing has been read
but the image: the bitmap, the inodes in the inode blocks, the blocks. The
blocks have no other reader than `readi` and `bmap`.
-/
import Xv6Sume32.Fs.Inode
import Xv6Sume32.Fs.Log

namespace Xv6Sume32.Fs

open Lib

-- ======== layout

/-- `FSSIZE`. -/
def fssize : Nat := 1000

/-- `NINODES`. -/
def ninodes : Nat := 200

/-- The words of a `struct dinode`. -/
def dinodeWords : Nat := 16

/-- `IPB`. -/
def ipb : Nat := bsize / (4 * dinodeWords)

/-- `BPB`. -/
def bpb : Nat := bsize * 8

def nbitmap : Nat := fssize / bpb + 1

def ninodeblocks : Nat := ninodes / ipb + 1

def inodeStart : Nat := 2 + nlog

def bmapStart : Nat := 2 + nlog + ninodeblocks

def nmeta : Nat := 2 + nlog + ninodeblocks + nbitmap

/-- `ROOTINO`. -/
def rootIno : Nat := 1

/-- `IBLOCK`. -/
def iblock (inum : Nat) : Nat := inum / ipb + inodeStart

-- ======== image

/-- Why `mkfs` ends early: a short read, or an assertion. -/
inductive MkfsExit
  | read
  | assertion
deriving DecidableEq

structure Image where
  len : Nat
  blk : Nat → Block

/-- `sec * BSIZE` is computed in 32 bits. -/
def sector (sec : Nat) : Nat := sec * bsize % 2 ^ 32 / bsize

def Image.rsect (img : Image) (sec : Nat) : Except MkfsExit Block :=
  if sector sec < img.len then .ok (img.blk (sector sec)) else .error .read

def Image.wsect (img : Image) (sec : Nat) (buf : Block) : Image :=
  ⟨max img.len (sector sec + 1), Function.update img.blk (sector sec) buf⟩

-- ======== inodes

/-- The words of a `struct dinode`: `type` and `major`, `minor` and
`nlink`, `size`, and the addresses. -/
abbrev Din := Nat → Word

namespace Din

def size (din : Din) : Nat := (din 2).toNat

def addr (din : Din) (k : Nat) : Nat := (din (3 + k)).toNat

def setSize (din : Din) (n : Nat) : Din := Function.update din 2 (BitVec.ofNat 32 n)

def setAddr (din : Din) (k b : Nat) : Din := Function.update din (3 + k) (BitVec.ofNat 32 b)

/-- A new inode with one link. -/
def alloc (type : BitVec 16) : Din :=
  Function.update (Function.update (fun _ => 0) 0 (0#16 ++ type)) 1 (1#16 ++ 0#16)

end Din

/-- The words of an inode in its block. -/
def dinIn (buf : Block) (inum : Nat) : Din := fun w => buf (dinodeWords * (inum % ipb) + w)

/-- The block with an inode put into it. -/
def putDin (buf : Block) (inum : Nat) (din : Din) : Block := fun w =>
  if dinodeWords * (inum % ipb) ≤ w ∧ w < dinodeWords * (inum % ipb) + dinodeWords then
    din (w - dinodeWords * (inum % ipb))
  else buf w

-- ======== program

structure Mkfs where
  img : Image
  freeinode : Nat
  freeblock : Nat

namespace Mkfs

variable (m : Mkfs)

def rsect (sec : Nat) : Except MkfsExit Block := m.img.rsect sec

def wsect (sec : Nat) (buf : Block) : Mkfs := { m with img := m.img.wsect sec buf }

def rinode (inum : Nat) : Except MkfsExit Din := do
  let buf ← m.rsect (iblock inum)
  .ok (dinIn buf inum)

def winode (inum : Nat) (din : Din) : Except MkfsExit Mkfs := do
  let buf ← m.rsect (iblock inum)
  .ok (m.wsect (iblock inum) (putDin buf inum din))

def ialloc (type : BitVec 16) : Except MkfsExit (Nat × Mkfs) := do
  let inum := m.freeinode
  let m ← { m with freeinode := m.freeinode + 1 }.winode inum (.alloc type)
  .ok (inum, m)

/-- `if(din.addrs[k] == 0) din.addrs[k] = freeblock++`. -/
def addAddr (din : Din) (k : Nat) : Din × Mkfs :=
  if din.addr k = 0 then
    (din.setAddr k m.freeblock, { m with freeblock := m.freeblock + 1 })
  else (din, m)

/-- Read an index block and take an entry, with a block for it if it has
none. -/
def addEntry (addr j : Nat) : Except MkfsExit (Nat × Mkfs) := do
  let indirect ← m.rsect addr
  if indirect j = 0 then
    let indirect := Function.update indirect j (BitVec.ofNat 32 m.freeblock)
    .ok ((indirect j).toNat, { m with freeblock := m.freeblock + 1 }.wsect addr indirect)
  else .ok ((indirect j).toNat, m)

/-- The first part of a round of `iappend`: the block for block `fbn` of
the file. -/
def place (din : Din) (fbn : Nat) : Except MkfsExit (Nat × Din × Mkfs) :=
  if fbn < ndirect then
    let (din, m) := m.addAddr din fbn
    .ok (din.addr fbn, din, m)
  else do
    let (din, m) := m.addAddr din ndirect
    let (addr, m) ← m.addEntry (din.addr ndirect) ((fbn - ndirect) / nindirect)
    let (x, m) ← m.addEntry addr ((fbn - ndirect) % nindirect)
    .ok (x, din, m)

/-- The loop of `iappend`, with the inode and the end of the file. -/
def appendLoop : Nat → Nat → List Byte → Din → Mkfs → Except MkfsExit (Din × Nat × Mkfs)
  | 0, off, _, din, m => .ok (din, off, m)
  | fuel + 1, off, p, din, m =>
      if p = [] then .ok (din, off, m)
      else if maxFile ≤ off / bsize then .error .assertion
      else do
        let (x, din, m) ← m.place din (off / bsize)
        let n1 := min p.length ((off / bsize + 1) * bsize - off)
        let buf ← m.rsect x
        let m := m.wsect x (putBytes buf (off - off / bsize * bsize) (p.take n1))
        appendLoop fuel (off + n1) (p.drop n1) din m

def iappend (inum : Nat) (p : List Byte) : Except MkfsExit Mkfs := do
  let din ← m.rinode inum
  let (din, off, m) ← appendLoop p.length din.size p din m
  m.winode inum (din.setSize off)

/-- The bitmap that `balloc` builds. -/
def bitmap (used : Nat) : Nat → Byte :=
  (List.range used).foldl (fun buf i =>
    Function.update buf (i / 8) (buf (i / 8) ||| 1#8 <<< (i % 8))) fun _ => 0

def balloc (used : Nat) : Except MkfsExit Mkfs :=
  if bpb ≤ used then .error .assertion else .ok (m.wsect bmapStart (ofBytes (bitmap used)))

end Mkfs

-- ======== main

/-- A `struct dirent`. -/
def dirent (inum : Nat) (name : List Byte) : List Byte :=
  [BitVec.ofNat 8 inum, BitVec.ofNat 8 (inum / 256)] ++
    (name.take 14 ++ List.replicate (14 - name.length) 0)

/-- What one call of `read` returns. -/
abbrev Chunk := { buf : List Byte // 0 < buf.length ∧ buf.length ≤ bsize }

structure InputFile where
  name : List Byte
  reads : List Chunk

def InputFile.bytes (f : InputFile) : List Byte := (f.reads.map (·.val)).flatten

/-- `T_DIR` and `T_FILE`. -/
def tDir : BitVec 16 := 1

@[inherit_doc tDir]
def tFile : BitVec 16 := 2

namespace Mkfs

/-- The image of zeroes with the superblock. -/
def start : Mkfs :=
  let img : Image :=
    (List.range fssize).foldl (fun img i => Image.wsect img i fun _ => 0) ⟨0, fun _ _ => 0⟩
  let sb := [fssize, fssize - nmeta, ninodes, nlog, 2, inodeStart, bmapStart]
  ⟨img.wsect 1 fun w => BitVec.ofNat 32 (sb.getD w 0), 1, nmeta⟩

/-- The body of the loop over the input files. -/
def addFile (m : Mkfs) (f : InputFile) : Except MkfsExit Mkfs := do
  if 47#8 ∈ f.name then .error .assertion
  else do
    let name := if f.name.head? = some 95#8 then f.name.tail else f.name
    let (inum, m) ← m.ialloc tFile
    let m ← m.iappend rootIno (dirent inum name)
    f.reads.foldlM (fun m chunk => m.iappend inum chunk.val) m

/-- The size of the root directory, rounded up. -/
def fixRoot (m : Mkfs) : Except MkfsExit Mkfs := do
  let din ← m.rinode rootIno
  m.winode rootIno (din.setSize ((din.size / bsize + 1) * bsize))

end Mkfs

open Mkfs in
/-- `main`, for a list of input files. -/
def mkfs (files : List InputFile) : Except MkfsExit Mkfs := do
  let (ino, m) ← start.ialloc tDir
  if ino ≠ rootIno then .error .assertion
  else do
    let m ← m.iappend rootIno (dirent rootIno [46])
    let m ← m.iappend rootIno (dirent rootIno [46, 46])
    let m ← files.foldlM addFile m
    let m ← m.fixRoot
    m.balloc m.freeblock

-- ======== the kernel's side

def kindOf (type : BitVec 16) : Kind :=
  if type = 0 then .free else if type = 1 then .dir else if type = 3 then .dev else .file

/-- What the kernel makes of the words of an inode. -/
def inodeOf (din : Din) : Dinode where
  kind := kindOf ((din 0).extractLsb' 0 16)
  major := ((din 0).extractLsb' 16 16).toInt
  nlink := ((din 1).extractLsb' 16 16).toInt
  size := din.size
  addrs := fun k => if k ≤ ndirect then din.addr k else 0

namespace Image

variable (img : Image)

/-- The inode with a number, wherever that is. -/
def inodeAt (inum : Nat) : Dinode := inodeOf (dinIn (img.blk (iblock inum)) inum)

/-- The inodes of the inode blocks. -/
def inodes (inum : Nat) : Dinode :=
  if inum < ninodeblocks * ipb then img.inodeAt inum else .fresh .free

/-- The bit of a block. -/
def used (b : Nat) : Bool :=
  (byteAt (img.blk (b / bpb + bmapStart)) (b % bpb / 8)).getLsbD (b % 8)

def kernel : FsState := ⟨img.used, img.blk, img.inodes, img.inodes⟩

end Image

/-- The superblock of the image. -/
def imageSb : Superblock := ⟨fssize, ninodes, nmeta⟩

end Xv6Sume32.Fs
