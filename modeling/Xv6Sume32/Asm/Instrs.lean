/-
The instruction encoders (`instrs.c`).

Each C function writes an instruction's bytes through its last argument
and returns their number; here it returns the bytes. `push_r32` and
`pop_r32` also move the height counter their second argument points to,
either the compiler's `stkh` or a dummy `nil`; `Counter` says which.

`Op` has one constructor for each encoder of `instrs.h`: what the
compiler emits is a list of these, `Op.bytes` is the encoder's output,
`Op.counts` what it does to `stkh`, and `Op.instr` the instruction the
encoder is named for. That the bytes decode to it is
Asm/Proofs/Encode.lean.
-/
import Xv6Sume32.X86.Decode

namespace Xv6Sume32.Asm

open Lib X86

-- ======== building blocks

/-- `modrm`. -/
def modrm (mod regop rm : Nat) : Byte :=
  BitVec.ofNat 8 (((mod &&& 3) <<< 6) ||| ((regop &&& 7) <<< 3) ||| (rm &&& 7))

/-- `op_imm32`. -/
def opImm32 (op : Byte) (imm : Word) : List Byte := op :: leBytes imm

/-- `op_modrm_imm32`. -/
def opModrmImm32 (op mod : Byte) (imm : Word) : List Byte :=
  op :: mod :: leBytes imm

/-- `op_modrm_ib`. -/
def opModrmIb (op mod : Byte) (imm : Word) : List Byte :=
  [op, mod, imm.setWidth 8]

/-- `op_modrm`. -/
def opModrm (op mod : Byte) : List Byte := [op, mod]

/-- `op_op_modrm`. -/
def opOpModrm (op0 op1 mod : Byte) : List Byte := [op0, op1, mod]

/-- `op_rel32`: the distance counts from the instruction's first byte,
the processor's from behind it. -/
def opRel32 (op : Byte) (rel : Word) : List Byte := op :: leBytes (rel - 5)

/-- `op_op_rel32`. -/
def opOpRel32 (op0 op1 : Byte) (rel : Word) : List Byte :=
  op0 :: op1 :: leBytes (rel - 6)

-- ======== the encoders

def addR32Imm (r0 : Reg) (imm : Word) : List Byte :=
  if r0 = .eax then opImm32 0x05 imm
  else opModrmImm32 0x81 (modrm 3 0 r0.code) imm

def addR32R32 (r0 r1 : Reg) : List Byte :=
  opModrm 0x03 (modrm 3 r0.code r1.code)

def andR32R32 (r0 r1 : Reg) : List Byte :=
  opModrm 0x23 (modrm 3 r0.code r1.code)

def bsfR32R32 (r0 r1 : Reg) : List Byte :=
  opOpModrm 0x0f 0xbc (modrm 3 r0.code r1.code)

def bsrR32R32 (r0 r1 : Reg) : List Byte :=
  opOpModrm 0x0f 0xbd (modrm 3 r0.code r1.code)

def callRel (start stop : Word) : List Byte := opRel32 0xe8 (stop - start)

def cmpR32R32 (r0 r1 : Reg) : List Byte :=
  opModrm 0x39 (modrm 3 r1.code r0.code)

def divR32 (r0 : Reg) : List Byte := opModrm 0xf7 (modrm 3 6 r0.code)

def idivR32 (r0 : Reg) : List Byte := opModrm 0xf7 (modrm 3 7 r0.code)

def jaeRel (start stop : Word) : List Byte :=
  opOpRel32 0x0f 0x83 (stop - start)

def jbRel (start stop : Word) : List Byte :=
  opOpRel32 0x0f 0x82 (stop - start)

def jzRel (start stop : Word) : List Byte :=
  opOpRel32 0x0f 0x84 (stop - start)

def jneRel (start stop : Word) : List Byte :=
  opOpRel32 0x0f 0x85 (stop - start)

def jmpRel (start stop : Word) : List Byte := opRel32 0xe9 (stop - start)

def movR8R8 (r0 r1 : Reg8) : List Byte :=
  opModrm 0x88 (modrm 3 r1.code r0.code)

def movR32R32 (r0 r1 : Reg) : List Byte :=
  opModrm 0x89 (modrm 3 r1.code r0.code)

def movDisEbpR32 (dis : Word) (r1 : Reg) : List Byte :=
  opModrmImm32 0x89 (modrm 2 r1.code Reg.ebp.code) dis

def movR32DisEbp (r0 : Reg) (dis : Word) : List Byte :=
  opModrmImm32 0x8b (modrm 2 r0.code Reg.ebp.code) dis

def movR32Ar32 (r0 r1 : Reg) : List Byte :=
  opModrm 0x8b (modrm 0 r0.code r1.code)

def movAr32R8 (r0 : Reg) (r1 : Reg8) : List Byte :=
  opModrm 0x88 (modrm 0 r1.code r0.code)

def movAr32R32 (r0 r1 : Reg) : List Byte :=
  opModrm 0x89 (modrm 0 r1.code r0.code)

def movR32Imm (r0 : Reg) (imm : Word) : List Byte :=
  opImm32 (BitVec.ofNat 8 (0xb8 + r0.code)) imm

def movsxR32Ar8 (r0 r1 : Reg) : List Byte :=
  opOpModrm 0x0f 0xbe (modrm 0 r0.code r1.code)

def movsxR32Ar16 (r0 r1 : Reg) : List Byte :=
  opOpModrm 0x0f 0xbf (modrm 0 r0.code r1.code)

def movzxR32Ar8 (r0 r1 : Reg) : List Byte :=
  opOpModrm 0x0f 0xb6 (modrm 0 r0.code r1.code)

def movzxR32Ar16 (r0 r1 : Reg) : List Byte :=
  opOpModrm 0x0f 0xb7 (modrm 0 r0.code r1.code)

def mulR32 (r0 : Reg) : List Byte := opModrm 0xf7 (modrm 3 4 r0.code)

def orR32R32 (r0 r1 : Reg) : List Byte :=
  opModrm 0x0b (modrm 3 r0.code r1.code)

def pushR32 (r0 : Reg) : List Byte := [BitVec.ofNat 8 (0x50 + r0.code)]

def popR32 (r0 : Reg) : List Byte := [BitVec.ofNat 8 (0x58 + r0.code)]

def retFn : List Byte := [0xc3]

def rolR32 (r0 : Reg) : List Byte := opModrm 0xd3 (modrm 3 0 r0.code)

def rorR32 (r0 : Reg) : List Byte := opModrm 0xd3 (modrm 3 1 r0.code)

def sarR32 (r0 : Reg) : List Byte := opModrm 0xd3 (modrm 3 7 r0.code)

def shrR32 (r0 : Reg) : List Byte := opModrm 0xd3 (modrm 3 5 r0.code)

def shlR32Imm (r0 : Reg) (imm : Word) : List Byte :=
  opModrmIb 0xc1 (modrm 3 4 r0.code) imm

def shlR32 (r0 : Reg) : List Byte := opModrm 0xd3 (modrm 3 4 r0.code)

/-- The opcode a `set…_r8` encoder uses for its condition. -/
def setOpcode : Cc → Byte
  | .o => 0x90 | .no => 0x91 | .b => 0x92 | .ae => 0x93
  | .e => 0x94 | .ne => 0x95 | .be => 0x96 | .a => 0x97
  | .s => 0x98 | .ns => 0x99 | .l => 0x9c | .ge => 0x9d
  | .le => 0x9e | .g => 0x9f

/-- The ten `set…_r8` encoders, which differ in the opcode alone. -/
def setR8 (cc : Cc) (r0 : Reg8) : List Byte :=
  opOpModrm 0x0f (setOpcode cc) (modrm 3 0 r0.code)

def setaR8 : Reg8 → List Byte := setR8 .a
def setaeR8 : Reg8 → List Byte := setR8 .ae
def setbR8 : Reg8 → List Byte := setR8 .b
def setbeR8 : Reg8 → List Byte := setR8 .be
def setgR8 : Reg8 → List Byte := setR8 .g
def setgeR8 : Reg8 → List Byte := setR8 .ge
def setlR8 : Reg8 → List Byte := setR8 .l
def setleR8 : Reg8 → List Byte := setR8 .le
def setneR8 : Reg8 → List Byte := setR8 .ne
def setzR8 : Reg8 → List Byte := setR8 .e

def subR32Imm (r0 : Reg) (imm : Word) : List Byte :=
  if r0 = .eax then opImm32 0x2d imm
  else opModrmImm32 0x81 (modrm 3 5 r0.code) imm

def subR32R32 (r0 r1 : Reg) : List Byte :=
  opModrm 0x2b (modrm 3 r0.code r1.code)

def testR32R32 (r0 r1 : Reg) : List Byte :=
  opModrm 0x85 (modrm 3 r0.code r1.code)

def xorR32R32 (r0 r1 : Reg) : List Byte :=
  opModrm 0x33 (modrm 3 r0.code r1.code)

-- ======== operations

/-- The counter a `push_r32` or `pop_r32` moves. -/
inductive Counter
  | stkh | nil
deriving DecidableEq, Repr

/-- A call of an encoder with its arguments. -/
inductive Op
  | addImm (r0 : Reg) (imm : Word) | add (r0 r1 : Reg) | and (r0 r1 : Reg)
  | bsf (r0 r1 : Reg) | bsr (r0 r1 : Reg)
  | callRel (start stop : Word) | cmp (r0 r1 : Reg)
  | div (r0 : Reg) | idiv (r0 : Reg)
  | jaeRel (start stop : Word) | jbRel (start stop : Word)
  | jzRel (start stop : Word) | jneRel (start stop : Word)
  | jmpRel (start stop : Word)
  | mov8 (r0 r1 : Reg8) | mov (r0 r1 : Reg)
  | movDisEbp (dis : Word) (r1 : Reg) | movFromDisEbp (r0 : Reg) (dis : Word)
  | movFromAr32 (r0 r1 : Reg) | movAr8 (r0 : Reg) (r1 : Reg8)
  | movAr32 (r0 r1 : Reg) | movImm (r0 : Reg) (imm : Word)
  | movsx8 (r0 r1 : Reg) | movsx16 (r0 r1 : Reg)
  | movzx8 (r0 r1 : Reg) | movzx16 (r0 r1 : Reg)
  | mul (r0 : Reg) | or (r0 r1 : Reg)
  | push (r0 : Reg) (c : Counter) | pop (r0 : Reg) (c : Counter) | ret
  | rol (r0 : Reg) | ror (r0 : Reg) | sar (r0 : Reg) | shr (r0 : Reg)
  | shlImm (r0 : Reg) (imm : Word) | shl (r0 : Reg)
  | set (cc : Cc) (r0 : Reg8)
  | subImm (r0 : Reg) (imm : Word) | sub (r0 r1 : Reg)
  | test (r0 r1 : Reg) | xor (r0 r1 : Reg)
deriving DecidableEq, Repr

/-- The bytes the encoder writes. -/
def Op.bytes : Op → List Byte
  | .addImm r i => addR32Imm r i | .add r s => addR32R32 r s
  | .and r s => andR32R32 r s | .bsf r s => bsfR32R32 r s
  | .bsr r s => bsrR32R32 r s | .callRel a b => Asm.callRel a b
  | .cmp r s => cmpR32R32 r s | .div r => divR32 r | .idiv r => idivR32 r
  | .jaeRel a b => Asm.jaeRel a b | .jbRel a b => Asm.jbRel a b
  | .jzRel a b => Asm.jzRel a b | .jneRel a b => Asm.jneRel a b
  | .jmpRel a b => Asm.jmpRel a b | .mov8 r s => movR8R8 r s
  | .mov r s => movR32R32 r s | .movDisEbp d r => movDisEbpR32 d r
  | .movFromDisEbp r d => movR32DisEbp r d
  | .movFromAr32 r s => movR32Ar32 r s | .movAr8 r s => movAr32R8 r s
  | .movAr32 r s => movAr32R32 r s | .movImm r i => movR32Imm r i
  | .movsx8 r s => movsxR32Ar8 r s | .movsx16 r s => movsxR32Ar16 r s
  | .movzx8 r s => movzxR32Ar8 r s | .movzx16 r s => movzxR32Ar16 r s
  | .mul r => mulR32 r | .or r s => orR32R32 r s
  | .push r _ => pushR32 r | .pop r _ => popR32 r | .ret => retFn
  | .rol r => rolR32 r | .ror r => rorR32 r | .sar r => sarR32 r
  | .shr r => shrR32 r | .shlImm r i => shlR32Imm r i | .shl r => shlR32 r
  | .set cc r => setR8 cc r | .subImm r i => subR32Imm r i
  | .sub r s => subR32R32 r s | .test r s => testR32R32 r s
  | .xor r s => xorR32R32 r s

/-- What the encoder does to `stkh`. -/
def Op.counts : Op → Int
  | .push _ .stkh => 1
  | .pop _ .stkh => -1
  | _ => 0

/-- The memory operand `[r]`. -/
def at_ (r : Reg) : Addr := ⟨some r, none, 0⟩

/-- The memory operand `[ebp + dis]`. -/
def ebpDis (dis : Word) : Addr := ⟨some .ebp, none, dis⟩

/-- The instruction the encoder is named for. -/
def Op.instr : Op → Instr
  | .addImm r i => .aluRmI .add (.reg r) i
  | .add r s => .aluRRm .add r (.reg s) | .and r s => .aluRRm .and r (.reg s)
  | .bsf r s => .bsf r (.reg s) | .bsr r s => .bsr r (.reg s)
  | .callRel a b => .call (b - a - 5) | .cmp r s => .aluRmR .cmp (.reg r) s
  | .div r => .div (.reg r) | .idiv r => .idiv (.reg r)
  | .jaeRel a b => .jcc .ae (b - a - 6) | .jbRel a b => .jcc .b (b - a - 6)
  | .jzRel a b => .jcc .e (b - a - 6) | .jneRel a b => .jcc .ne (b - a - 6)
  | .jmpRel a b => .jmp (b - a - 5)
  | .mov8 r s => .movRm8R8 (.reg r) s | .mov r s => .movRmR (.reg r) s
  | .movDisEbp d r => .movRmR (.mem (ebpDis d)) r
  | .movFromDisEbp r d => .movRRm r (.mem (ebpDis d))
  | .movFromAr32 r s => .movRRm r (.mem (at_ s))
  | .movAr8 r s => .movRm8R8 (.mem (at_ r)) s
  | .movAr32 r s => .movRmR (.mem (at_ r)) s
  | .movImm r i => .movRI r i
  | .movsx8 r s => .movsx8 r (.mem (at_ s))
  | .movsx16 r s => .movsx16 r (.mem (at_ s))
  | .movzx8 r s => .movzx8 r (.mem (at_ s))
  | .movzx16 r s => .movzx16 r (.mem (at_ s))
  | .mul r => .mul (.reg r) | .or r s => .aluRRm .or r (.reg s)
  | .push r _ => .push r | .pop r _ => .pop r | .ret => .ret
  | .rol r => .shiftCl .rol (.reg r) | .ror r => .shiftCl .ror (.reg r)
  | .sar r => .shiftCl .sar (.reg r) | .shr r => .shiftCl .shr (.reg r)
  | .shlImm r i => .shiftI .shl (.reg r) (i.setWidth 8)
  | .shl r => .shiftCl .shl (.reg r)
  | .set cc r => .setcc cc (.reg r)
  | .subImm r i => .aluRmI .sub (.reg r) i
  | .sub r s => .aluRRm .sub r (.reg s)
  | .test r s => .testRmR (.reg s) r
  | .xor r s => .aluRRm .xor r (.reg s)

end Xv6Sume32.Asm
