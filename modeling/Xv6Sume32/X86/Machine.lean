/-
A 32-bit x86 machine: the registers, the flags, a flat memory and the
meaning of the integer instructions a small code generator emits.

# What is modelled, and what stops the machine

`exec` gives each instruction its effect as the processor manual
describes it, with addresses and arithmetic modulo `2 ^ 32`. It is
partial: a divide error (`#DE`) has no successor state, and neither has
a conditional that reads flags the manual leaves undefined. The flags
are therefore an `Option`: instructions that define all four of CF, ZF,
SF and OF set them, the shifts, multiplications, divisions and bit scans
leave them `none`. A run of this machine is thus never the artefact of a
flag the hardware does not promise.

Memory is fully mapped and writable; which bytes a program may touch is
a property to prove about its runs, not a fault of the machine.
-/
import Xv6Sume32.Lib.Memory

namespace Xv6Sume32.X86

open Lib

-- ======== the state

/-- The eight general registers, in encoding order. -/
inductive Reg
  | eax | ecx | edx | ebx | esp | ebp | esi | edi
deriving DecidableEq, Repr

/-- The eight byte registers, in encoding order. -/
inductive Reg8
  | al | cl | dl | bl | ah | ch | dh | bh
deriving DecidableEq, Repr

/-- The four flags the conditional instructions read. -/
structure Flags where
  cf : Bool
  zf : Bool
  sf : Bool
  of : Bool
deriving DecidableEq, Repr

/-- The machine state. `flags` is `none` after an instruction that
leaves some flag undefined. -/
structure Machine where
  reg : Reg → Word
  eip : Word
  flags : Option Flags
  mem : Mem

/-- Write a register. -/
def Machine.set (m : Machine) (r : Reg) (v : Word) : Machine :=
  { m with reg := fun q => if q = r then v else m.reg q }

@[simp] theorem Machine.set_reg (m : Machine) (r q : Reg) (v : Word) :
    (m.set r v).reg q = if q = r then v else m.reg q := rfl
@[simp] theorem Machine.set_eip (m : Machine) (r : Reg) (v : Word) : (m.set r v).eip = m.eip := rfl
@[simp] theorem Machine.set_flags (m : Machine) (r : Reg) (v : Word) :
    (m.set r v).flags = m.flags := rfl
@[simp] theorem Machine.set_mem (m : Machine) (r : Reg) (v : Word) : (m.set r v).mem = m.mem := rfl

-- ======== instructions

/-- The two-operand arithmetic group. -/
inductive Alu
  | add | or | and | sub | xor | cmp
deriving DecidableEq, Repr

/-- The shift and rotate group. -/
inductive Shift
  | rol | ror | shl | shr | sar
deriving DecidableEq, Repr

/-- The condition codes, parity apart. -/
inductive Cc
  | o | no | b | ae | e | ne | be | a | s | ns | l | ge | le | g
deriving DecidableEq, Repr

/-- A memory operand: base, scaled index and displacement. -/
structure Addr where
  base : Option Reg
  index : Option (Reg × Nat)
  disp : Word
deriving DecidableEq, Repr

/-- A 32-bit register-or-memory operand. -/
inductive RM
  | reg (r : Reg)
  | mem (a : Addr)
deriving DecidableEq, Repr

/-- An 8-bit register-or-memory operand. -/
inductive RM8
  | reg (r : Reg8)
  | mem (a : Addr)
deriving DecidableEq, Repr

/-- The instructions. -/
inductive Instr
  | aluRmR (op : Alu) (dst : RM) (src : Reg)
  | aluRRm (op : Alu) (dst : Reg) (src : RM)
  | aluRmI (op : Alu) (dst : RM) (imm : Word)
  | testRmR (a : RM) (b : Reg)
  | movRmR (dst : RM) (src : Reg)
  | movRRm (dst : Reg) (src : RM)
  | movRm8R8 (dst : RM8) (src : Reg8)
  | movRI (dst : Reg) (imm : Word)
  | movzx8 (dst : Reg) (src : RM8)
  | movzx16 (dst : Reg) (src : RM)
  | movsx8 (dst : Reg) (src : RM8)
  | movsx16 (dst : Reg) (src : RM)
  | mul (src : RM)
  | div (src : RM)
  | idiv (src : RM)
  | shiftCl (op : Shift) (dst : RM)
  | shiftI (op : Shift) (dst : RM) (count : Byte)
  | bsf (dst : Reg) (src : RM)
  | bsr (dst : Reg) (src : RM)
  | setcc (cc : Cc) (dst : RM8)
  | jcc (cc : Cc) (rel : Word)
  | jmp (rel : Word)
  | call (rel : Word)
  | ret
  | push (r : Reg)
  | pop (r : Reg)
deriving DecidableEq, Repr

-- ======== operands

/-- The effective address of a memory operand. -/
def Machine.ea (m : Machine) (a : Addr) : Word :=
  (match a.base with | some r => m.reg r | none => 0)
    + (match a.index with
        | some (r, k) => m.reg r * BitVec.ofNat 32 k
        | none => 0)
    + a.disp

/-- The register that holds a byte register, and the byte's index. -/
def Reg8.home : Reg8 → Reg × Nat
  | .al => (.eax, 0) | .cl => (.ecx, 0) | .dl => (.edx, 0)
  | .bl => (.ebx, 0) | .ah => (.eax, 1) | .ch => (.ecx, 1)
  | .dh => (.edx, 1) | .bh => (.ebx, 1)

/-- Replace byte `i` of a word, `i` being 0 or 1. -/
def setByte (w : Word) (i : Nat) (b : Byte) : Word :=
  if i = 0 then ofLe b (byteOf w 1) (byteOf w 2) (byteOf w 3)
  else ofLe (byteOf w 0) b (byteOf w 2) (byteOf w 3)

/-- Read a byte register. -/
def Machine.reg8 (m : Machine) (r : Reg8) : Byte :=
  byteOf (m.reg r.home.1) r.home.2

/-- Write a byte register. -/
def Machine.set8 (m : Machine) (r : Reg8) (b : Byte) : Machine :=
  m.set r.home.1 (setByte (m.reg r.home.1) r.home.2 b)

/-- Read a 32-bit operand. -/
def Machine.read (m : Machine) : RM → Word
  | .reg r => m.reg r
  | .mem a => m.mem.load32 (m.ea a)

/-- Write a 32-bit operand. -/
def Machine.write (m : Machine) (dst : RM) (v : Word) : Machine :=
  match dst with
  | .reg r => m.set r v
  | .mem a => { m with mem := m.mem.store32 (m.ea a) v }

/-- Read the low 16 bits of an operand. -/
def Machine.read16 (m : Machine) : RM → BitVec 16
  | .reg r => (m.reg r).setWidth 16
  | .mem a => m.mem.load16 (m.ea a)

/-- Read an 8-bit operand. -/
def Machine.read8 (m : Machine) : RM8 → Byte
  | .reg r => m.reg8 r
  | .mem a => m.mem (m.ea a)

/-- Write an 8-bit operand. -/
def Machine.write8 (m : Machine) (dst : RM8) (b : Byte) : Machine :=
  match dst with
  | .reg r => m.set8 r b
  | .mem a => { m with mem := m.mem.store8 (m.ea a) b }

-- ======== flags

/-- The flags of a result whose carry and overflow are clear. -/
def logicFlags (r : Word) : Flags := ⟨false, r == 0, r.msb, false⟩

/-- The result and flags of a two-operand arithmetic instruction. -/
def Alu.eval (op : Alu) (a b : Word) : Word × Flags :=
  match op with
  | .add =>
      let r := a + b
      (r, ⟨decide (2 ^ 32 ≤ a.toNat + b.toNat), r == 0, r.msb,
        (a.msb == b.msb) && (r.msb != a.msb)⟩)
  | .or => (a ||| b, logicFlags (a ||| b))
  | .and => (a &&& b, logicFlags (a &&& b))
  | .xor => (a ^^^ b, logicFlags (a ^^^ b))
  | .sub | .cmp =>
      let r := a - b
      (r, ⟨decide (a.toNat < b.toNat), r == 0, r.msb,
        (a.msb != b.msb) && (r.msb != a.msb)⟩)

/-- The condition a code stands for. -/
def Cc.holds (cc : Cc) (f : Flags) : Bool :=
  match cc with
  | .o => f.of | .no => !f.of
  | .b => f.cf | .ae => !f.cf
  | .e => f.zf | .ne => !f.zf
  | .be => f.cf || f.zf | .a => !f.cf && !f.zf
  | .s => f.sf | .ns => !f.sf
  | .l => f.sf != f.of | .ge => f.sf == f.of
  | .le => f.zf || (f.sf != f.of) | .g => !f.zf && (f.sf == f.of)

/-- A shift or rotate by a count already reduced modulo 32. -/
def Shift.eval (op : Shift) (a : Word) (n : Nat) : Word :=
  match op with
  | .rol => a.rotateLeft n
  | .ror => a.rotateRight n
  | .shl => a <<< n
  | .shr => a >>> n
  | .sar => a.sshiftRight n

-- ======== execution

/-- Push a word: the stack grows down. -/
def Machine.pushWord (m : Machine) (v : Word) : Machine :=
  { m with mem := m.mem.store32 (m.reg .esp - 4) v }.set .esp (m.reg .esp - 4)

/-- The effect of a two-operand arithmetic instruction; `cmp` keeps its
destination. -/
def Machine.alu (m : Machine) (op : Alu) (dst : RM) (a b : Word) : Machine :=
  let r := op.eval a b
  let m' := { m with flags := some r.2 }
  if op = .cmp then m' else m'.write dst r.1

/-- The word a 64-bit value keeps in its high half. -/
def hiWord (n : Nat) : Word := BitVec.ofNat 32 (n / 2 ^ 32)

/-- Unsigned division of EDX:EAX; no result on a divide error. -/
def Machine.divStep (m : Machine) (d : Word) : Option Machine :=
  let n := (m.reg .edx).toNat * 2 ^ 32 + (m.reg .eax).toNat
  if d.toNat = 0 ∨ 2 ^ 32 ≤ n / d.toNat then none
  else some { ((m.set .eax (BitVec.ofNat 32 (n / d.toNat))).set .edx
      (BitVec.ofNat 32 (n % d.toNat))) with flags := none }

/-- Signed division of EDX:EAX, truncating toward zero; no result on a
divide error. -/
def Machine.idivStep (m : Machine) (d : Word) : Option Machine :=
  let n : Int := (m.reg .edx ++ m.reg .eax).toInt
  let q := n.tdiv d.toInt
  if d.toInt = 0 ∨ q < -(2 ^ 31) ∨ 2 ^ 31 ≤ q then none
  else some { ((m.set .eax (BitVec.ofInt 32 q)).set .edx
      (BitVec.ofInt 32 (n.tmod d.toInt))) with flags := none }

/-- The index of the lowest set bit, for a nonzero word. -/
def lowBit (w : Word) : Nat := ((List.range 32).find? (w.getLsbD ·)).getD 0

/-- The index of the highest set bit, for a nonzero word. -/
def highBit (w : Word) : Nat :=
  ((List.range 32).reverse.find? (w.getLsbD ·)).getD 0

/-- The effect of an instruction `len` bytes long. A scan of zero keeps
its destination, as the hardware does. -/
def exec (i : Instr) (len : Nat) (m₀ : Machine) : Option Machine :=
  let m := { m₀ with eip := m₀.eip + BitVec.ofNat 32 len }
  match i with
  | .aluRmR op dst src => some (m.alu op dst (m.read dst) (m.reg src))
  | .aluRRm op dst src => some (m.alu op (.reg dst) (m.reg dst) (m.read src))
  | .aluRmI op dst imm => some (m.alu op dst (m.read dst) imm)
  | .testRmR a b =>
      some { m with flags := some (logicFlags (m.read a &&& m.reg b)) }
  | .movRmR dst src => some (m.write dst (m.reg src))
  | .movRRm dst src => some (m.set dst (m.read src))
  | .movRm8R8 dst src => some (m.write8 dst (m.reg8 src))
  | .movRI dst imm => some (m.set dst imm)
  | .movzx8 dst src => some (m.set dst ((m.read8 src).setWidth 32))
  | .movzx16 dst src => some (m.set dst ((m.read16 src).setWidth 32))
  | .movsx8 dst src => some (m.set dst ((m.read8 src).signExtend 32))
  | .movsx16 dst src => some (m.set dst ((m.read16 src).signExtend 32))
  | .mul src =>
      let p := (m.reg .eax).toNat * (m.read src).toNat
      some { ((m.set .eax (BitVec.ofNat 32 p)).set .edx (hiWord p)) with
        flags := none }
  | .div src => m.divStep (m.read src)
  | .idiv src => m.idivStep (m.read src)
  | .shiftCl op dst =>
      some { (m.write dst (op.eval (m.read dst) ((m.reg .ecx).toNat % 32)))
        with flags := none }
  | .shiftI op dst count =>
      some { (m.write dst (op.eval (m.read dst) (count.toNat % 32)))
        with flags := none }
  | .bsf dst src =>
      let v : Word := m.read src
      some { (if v = 0 then m else m.set dst (BitVec.ofNat 32 (lowBit v)))
        with flags := none }
  | .bsr dst src =>
      let v : Word := m.read src
      some { (if v = 0 then m else m.set dst (BitVec.ofNat 32 (highBit v)))
        with flags := none }
  | .setcc cc dst =>
      m.flags.map fun f => m.write8 dst (if cc.holds f then 1 else 0)
  | .jcc cc rel =>
      m.flags.map fun f =>
        if cc.holds f then { m with eip := m.eip + rel } else m
  | .jmp rel => some { m with eip := m.eip + rel }
  | .call rel =>
      let m' := m.pushWord m.eip
      some { m' with eip := m.eip + rel }
  | .ret =>
      let ra := m.mem.load32 (m.reg .esp)
      some { (m.set .esp (m.reg .esp + 4)) with eip := ra }
  | .push r => some (m.pushWord (m.reg r))
  | .pop r =>
      let v := m.mem.load32 (m.reg .esp)
      some ((m.set .esp (m.reg .esp + 4)).set r v)

end Xv6Sume32.X86
