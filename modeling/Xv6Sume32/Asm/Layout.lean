/-
Where the compiler puts what: the output of `to_asm` as a function of the
instruction list.

The C code keeps its knowledge in tables and counters that two passes
fill and read. This file states what they amount to for a program whose
instructions are `ts`: where the code of instruction `k` starts (`pos`),
what the compile-time height `stkh` is there (`track`), where a branch to
the block opened at `j` goes (`finalEnv`), and the operations that make
up the code of `k` (`codeOf`). That the passes compute exactly this is
Asm/Proofs/Passes.lean; everything about runs of the code is proved from
here.

# Sizes before addresses

The length of an instruction's code does not depend on any address or
height in it (`Item.Uniform`), so `pos` is defined with all addresses
zero, and the addresses from `pos`.
-/
import Xv6Sume32.Asm.ToAsm
import Xv6Sume32.Sume.Program

namespace Xv6Sume32.Asm

open Lib X86 Sume

-- ======== encoder calls

/-- The operations a list of encoder calls amounts to when it is written
at offset `p` with height `h`. -/
def resolve (base : Word) : List Item → Nat → Int → List Op
  | [], _, _ => []
  | it :: its, p, h =>
      let o := it (base + BitVec.ofNat 32 p) h
      o :: resolve base its (p + o.bytes.length) (h + o.counts)

/-- The bytes of a list of operations. -/
def bytesOf (os : List Op) : List Byte := os.flatMap Op.bytes

/-- The length of the code of encoder calls, and what it does to
`stkh`. -/
def size (items : List Item) : Nat :=
  (items.map fun it => (it 0 0).bytes.length).sum
def net (items : List Item) : Int :=
  (items.map fun it => (it 0 0).counts).sum

-- ======== the code of a token

/-- The addresses the code refers to: of `trapret`, of the target of a
branch to the block opened at a position, of a function by number. -/
structure Env where
  trapret : Word
  target : Nat → Word
  entry : Nat → Word

/-- The compile-time height: `stkh`, and the `stk_height` entries of the
open blocks, innermost first. -/
structure Track where
  stkh : Int
  hts : List Int

/-- The function instruction `k` stands in. -/
def fnSig (ts : List Sume.Instr) (k : Nat) : Option Sig :=
  (sigsOf ts)[declsBefore ts k - 1]?

/-- The displacement of local `iv` from EBP. -/
def slotDis (g : Sig) (iv : Word) : Word :=
  4 * (BitVec.ofNat 32 g.params.length + BitVec.ofNat 32 g.locals.length
    - iv + 1)

/-- The code of a `ret`. -/
def retItems (g : Sig) : List Item :=
  (if g.rt ≠ 0 then [pop .eax] else []) ++ [fixed (.mov .esp .ebp), fixed .ret]

/-- The code of a `call` up to the instruction that transfers
control. -/
def callItems (f : Sig) (entry : Word) : List Item :=
  [ fixed (.subImm .esp (BitVec.ofNat 32 f.locals.length)), pushNil .ebp,
    fixed (.mov .ebp .esp), fixed (.subImm .ebp 4), call entry ]

/-- The code of a `call` behind the return. -/
def returnItems (f : Sig) : List Item :=
  [ popNil .ebp,
    fixed (.addImm .esp
      (BitVec.ofNat 32 (4 * (f.params.length + f.locals.length)))) ]
    ++ (if f.rt ≠ 0 then [push .eax] else [])

/-- The code of instruction `k`. -/
def tokenItems (env : Env) (ts : List Sume.Instr) (k : Nat) (tr : Track)
    (i : Sume.Instr) : List Item :=
  match i.token with
  | .iConst => [fixed (.movImm .eax i.arg), push .eax]
  | .getL =>
      match fnSig ts k with
      | none => []
      | some g => [fixed (.movFromDisEbp .eax (slotDis g i.arg)), push .eax]
  | .setL =>
      match fnSig ts k with
      | none => []
      | some g => [pop .eax, fixed (.movDisEbp (slotDis g i.arg) .eax)]
  | .block | .loop | .vDeclfn | .iDeclfn => []
  | .br =>
      match (openAt ts k)[i.arg.toInt.toNat]? with
      | none => []
      | some j => [dropAll, jmp (env.target j)]
  | .brIf =>
      match (openAt ts k)[i.arg.toInt.toNat]? with
      | none => []
      | some j => [pop .eax, fixed (.test .eax .eax), fixed (.jzRel 0 17),
          dropAll, jmp (env.target j)]
  | .ret =>
      match fnSig ts k with
      | none => []
      | some g => retItems g
  | .end_ =>
      match tr.hts with
      | own :: parent :: _ =>
          [fixed (.addImm .esp (BitVec.ofInt 32 (4 * (own - parent))))]
      | _ => []
  | .call =>
      match sigNum (sigsOf ts) i.arg.toInt with
      | none => []
      | some f => callItems f (env.entry i.arg.toInt.toNat) ++ returnItems f
  | t => plainItems env.trapret t

/-- What an instruction does to the compile-time height. A declaration
records height 0 and keeps `stkh`; the `end` of a block sets it to the
entry height of the enclosing block. -/
def trackStep (ts : List Sume.Instr) (k : Nat) (tr : Track)
    (i : Sume.Instr) : Track :=
  match i.token with
  | .block | .loop => ⟨tr.stkh, tr.stkh :: tr.hts⟩
  | .vDeclfn | .iDeclfn => ⟨tr.stkh, 0 :: tr.hts⟩
  | .end_ =>
      match tr.hts with
      | _ :: parent :: rest => ⟨parent, parent :: rest⟩
      | _ => ⟨tr.stkh, tr.hts.tail⟩
  | .call =>
      match sigNum (sigsOf ts) i.arg.toInt with
      | none => tr
      | some f =>
          ⟨tr.stkh - f.params.length + (if f.rt ≠ 0 then 1 else 0), tr.hts⟩
  | _ => ⟨tr.stkh + net (tokenItems ⟨0, fun _ => 0, fun _ => 0⟩ ts k tr i),
      tr.hts⟩

/-- The compile-time height before instruction `k`. -/
def track (ts : List Sume.Instr) : Nat → Track
  | 0 => ⟨0, []⟩
  | k + 1 =>
      match ts[k]? with
      | none => track ts k
      | some i => trackStep ts k (track ts k) i

-- ======== positions

/-- Where `goodret`, `trapret` and the first token's code start. -/
def goodretPos : Nat := 57
def trapretPos : Nat := 66
def startPos : Nat := 94

/-- Where the code of instruction `k` starts. -/
def pos (ts : List Sume.Instr) : Nat → Nat
  | 0 => startPos
  | k + 1 =>
      match ts[k]? with
      | none => pos ts k
      | some i => pos ts k
          + size (tokenItems ⟨0, fun _ => 0, fun _ => 0⟩ ts k (track ts k) i)

/-- Where a branch to the block opened at `j` goes: to a loop's first
instruction, behind a block's `end`. -/
def targetPos (ts : List Sume.Instr) (j : Nat) : Nat :=
  if ts[j]?.map Sume.Instr.token = some .loop then pos ts j
  else (closeOf ts j).elim 0 fun e => pos ts (e + 1)

/-- The addresses after the first pass. -/
def finalEnv (ts : List Sume.Instr) : Env where
  trapret := BitVec.ofNat 32 trapretPos
  target := fun j => BitVec.ofNat 32 (targetPos ts j)
  entry := fun n => BitVec.ofNat 32 ((declPos ts n).elim 0 (pos ts))

/-- The operations of instruction `k`. -/
def codeOf (ts : List Sume.Instr) (k : Nat) (i : Sume.Instr) : List Op :=
  resolve 0 (tokenItems (finalEnv ts) ts k (track ts k) i) (pos ts k)
    (track ts k).stkh

/-- The operations in front of the first token. -/
def headerOps (localN : Nat) : List Op :=
  resolve 0 (prelude (BitVec.ofNat 32 startPos) localN) 0 0
    ++ resolve 0 goodret goodretPos 0
    ++ resolve 0 (trapret (BitVec.ofNat 32 goodretPos)) trapretPos 0

/-- The number of locals of the first function. -/
def mainLocals (ts : List Sume.Instr) : Nat :=
  ((sigsOf ts)[0]?).elim 0 fun g => g.locals.length

/-- The code in front of instruction `k`. -/
def written (ts : List Sume.Instr) : Nat → List Byte
  | 0 => bytesOf (headerOps (mainLocals ts))
  | k + 1 =>
      match ts[k]? with
      | none => written ts k
      | some i => written ts k ++ bytesOf (codeOf ts k i)

end Xv6Sume32.Asm
