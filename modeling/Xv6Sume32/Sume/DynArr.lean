/-
Growable arrays (`dyn_arr.c`).

Memory is a list of blocks, each given out by one call of `malloc`, and a
pointer to the start of a block is its number. A new block has the
requested length and unknown contents (`junk`); which calls of `malloc`
return 0 is unknown as well (`grants`). A write that does not lie inside
the block it is made to ends the model, since it changes something the
model does not have.

Sizes are 32-bit words. The parameter `n` of `memmove` is an `int`, so
that a length of two gigabytes or more copies nothing.
-/
import Xv6Sume32.Lib.Bytes
import Xv6Sume32.Lib.Loop

namespace Xv6Sume32.Sume.DynArr

open Lib

/-- How a call stops early. -/
inductive Fault
  /-- It returns -1. -/
  | failed
  /-- It writes outside a block. -/
  | outside
deriving DecidableEq, Repr

/-- A block of memory. -/
structure Block where
  len : Nat
  bytes : Nat → Byte

/-- `struct dyn_arr`; a null pointer is `none`. -/
structure Arr where
  data : Option Nat
  size : Word
  maxSz : Word

/-- The memory and the array in it. -/
structure State where
  blocks : List Block
  /-- the number of calls of `malloc` so far -/
  calls : Nat
  arr : Arr

def pageSz : Word := 4096

variable (grants : Nat → Bool) (junk : Nat → Byte)

/-- `malloc(n)` -/
def malloc (blocks : List Block) (calls : Nat) (n : Word) : Option Nat × List Block :=
  if grants calls then (some blocks.length, blocks ++ [⟨n.toNat, junk⟩]) else (none, blocks)

/-- `memmove(dst + off, src, n)` -/
def memmove (blocks : List Block) (dst : Option Nat) (off : Nat) (src : Nat → Byte) (n : Word) :
    Except Fault (List Block) :=
  if n.toInt ≤ 0 then .ok blocks
  else
    match dst with
    | none => .error .outside
    | some b =>
        match blocks[b]? with
        | none => .error .outside
        | some blk =>
            if off + n.toNat ≤ blk.len then
              .ok (blocks.set b { blk with
                bytes := fun j => if off ≤ j ∧ j < off + n.toNat then src (j - off) else blk.bytes j })
            else .error .outside

/-- The bytes a pointer leads to. -/
def bytesAt (blocks : List Block) (ptr : Option Nat) : Nat → Byte :=
  match ptr.bind fun b => blocks[b]? with
  | none => fun _ => 0
  | some blk => blk.bytes

/-- `make_dyn_arr` -/
def makeDynArr (sz : Word) : State :=
  let (data, blocks) := malloc grants junk [] 0 sz
  ⟨blocks, 1, ⟨data, 0, sz⟩⟩

/-- The first statement of `append_dyn_arr`, for a string that does not
fit. The new block is filled and then forgotten. -/
def grow (s : State) (sz : Word) : Except Fault (List Block × Nat) :=
  if s.arr.maxSz < s.arr.size + sz then
    match malloc grants junk s.blocks s.calls (s.arr.maxSz + pageSz) with
    | (none, _) => .error .failed
    | (some b, blocks) => do
        let blocks ← memmove blocks (some b) 0 (bytesAt s.blocks s.arr.data) s.arr.size
        .ok (blocks, s.calls + 1)
  else .ok (s.blocks, s.calls)

/-- `append_dyn_arr` -/
def appendDynArr (s : State) (dat : Nat → Byte) (sz : Word) : Except Fault State := do
  let (blocks, calls) ← grow grants junk s sz
  let blocks ← memmove blocks s.arr.data s.arr.size.toNat dat sz
  .ok ⟨blocks, calls, { s.arr with size := s.arr.size + sz }⟩

/-- The arguments of a call of `append_dyn_arr`. -/
structure Arg where
  dat : Nat → Byte
  sz : Word

/-- The string that is appended. -/
def Arg.bytes (a : Arg) : List Byte := (List.range a.sz.toNat).map a.dat

/-- A new array, and one call after another. -/
def run (cap : Word) (args : List Arg) : Except Fault State :=
  args.foldlM (fun s a => appendDynArr grants junk s a.dat a.sz) (makeDynArr grants junk cap)

end Xv6Sume32.Sume.DynArr
