/-
Instruction decoding by the IA-32 encoding rules, and one step of the
machine: fetch the bytes at EIP, decode, execute.

The ModRM byte is decoded in full, with its two exceptions that make
register numbers mean something else in a memory operand: `rm = 4`
announces a SIB byte whatever the mode, and `rm = 5` without
displacement is an absolute address instead of `[ebp]`.

`Decodes bs i` is the form in which the encoders are later shown
correct: whatever memory holds after the bytes `bs`, decoding there
yields `i` and consumes exactly `bs`.
-/
import Xv6Sume32.X86.Machine

namespace Xv6Sume32.X86

open Lib

-- ======== register

/-- The register a three-bit field names. -/
def Reg.ofCode (c : BitVec 3) : Reg :=
  match c.toNat with
  | 0 => .eax | 1 => .ecx | 2 => .edx | 3 => .ebx
  | 4 => .esp | 5 => .ebp | 6 => .esi | _ => .edi

/-- The byte register a three-bit field names. -/
def Reg8.ofCode (c : BitVec 3) : Reg8 :=
  match c.toNat with
  | 0 => .al | 1 => .cl | 2 => .dl | 3 => .bl
  | 4 => .ah | 5 => .ch | 6 => .dh | _ => .bh

/-- The number of a register. -/
def Reg.code : Reg → Nat
  | .eax => 0 | .ecx => 1 | .edx => 2 | .ebx => 3
  | .esp => 4 | .ebp => 5 | .esi => 6 | .edi => 7

/-- The number of a byte register. -/
def Reg8.code : Reg8 → Nat
  | .al => 0 | .cl => 1 | .dl => 2 | .bl => 3
  | .ah => 4 | .ch => 5 | .dh => 6 | .bh => 7

@[simp] theorem Reg.ofCode_code (r : Reg) : Reg.ofCode (BitVec.ofNat 3 r.code) = r := by
  cases r <;> rfl

@[simp] theorem Reg8.ofCode_code (r : Reg8) : Reg8.ofCode (BitVec.ofNat 3 r.code) = r := by
  cases r <;> rfl

-- ======== ModRM

/-- A decoded ModRM operand: a register number, or memory. -/
inductive Rm
  | reg (c : BitVec 3)
  | mem (a : Addr)
deriving DecidableEq

def Rm.rm32 : Rm → RM
  | .reg c => .reg (Reg.ofCode c)
  | .mem a => .mem a

def Rm.rm8 : Rm → RM8
  | .reg c => .reg (Reg8.ofCode c)
  | .mem a => .mem a

/-- The 32-bit little-endian immediate at offset `k`. -/
def imm32 (b : Nat → Byte) (k : Nat) : Word :=
  ofLe (b k) (b (k + 1)) (b (k + 2)) (b (k + 3))

/-- Base and index of a SIB byte, with the number of displacement bytes
it adds by itself (`base = 5` in mode 0 means a bare displacement). -/
def decodeSib (s : Byte) (mode : BitVec 2) :
    Option Reg × Option (Reg × Nat) × Nat :=
  let base := s.extractLsb' 0 3
  let index := s.extractLsb' 3 3
  let scale := 2 ^ (s.extractLsb' 6 2).toNat
  let idx := if index = 4 then none else some (Reg.ofCode index, scale)
  if base = 5 ∧ mode = 0 then (none, idx, 4)
  else (some (Reg.ofCode base), idx, 0)

/-- Decode the ModRM byte at offset `k` with what follows it: the
register field, the operand and the number of bytes used. -/
def decodeRm (b : Nat → Byte) (k : Nat) : BitVec 3 × Rm × Nat :=
  let mode := (b k).extractLsb' 6 2
  let reg := (b k).extractLsb' 3 3
  let rm := (b k).extractLsb' 0 3
  if mode = 3 then (reg, .reg rm, 1)
  else
    let (base, index, used, own) :=
      if rm = 4 then
        let (base, index, d) := decodeSib (b (k + 1)) mode
        (base, index, 2, d)
      else if rm = 5 ∧ mode = 0 then (none, none, 1, 4)
      else (some (Reg.ofCode rm), none, 1, 0)
    let width := if mode = 1 then 1 else if mode = 2 then 4 else own
    let disp : Word :=
      if width = 0 then 0
      else if width = 1 then (b (k + used)).signExtend 32
      else imm32 b (k + used)
    (reg, .mem ⟨base, index, disp⟩, used + width)

-- ======== opcodes

/-- The arithmetic operation of an opcode block or extension field. -/
def Alu.ofCode (n : Nat) : Option Alu :=
  match n with
  | 0 => some .add | 1 => some .or | 4 => some .and
  | 5 => some .sub | 6 => some .xor | 7 => some .cmp
  | _ => none

/-- The shift operation of an extension field. -/
def Shift.ofCode (n : Nat) : Option Shift :=
  match n with
  | 0 => some .rol | 1 => some .ror | 4 => some .shl
  | 5 => some .shr | 7 => some .sar
  | _ => none

/-- The condition of the low opcode nibble. -/
def Cc.ofCode (n : Nat) : Option Cc :=
  match n with
  | 0x0 => some .o | 0x1 => some .no | 0x2 => some .b | 0x3 => some .ae
  | 0x4 => some .e | 0x5 => some .ne | 0x6 => some .be | 0x7 => some .a
  | 0x8 => some .s | 0x9 => some .ns | 0xc => some .l | 0xd => some .ge
  | 0xe => some .le | 0xf => some .g
  | _ => none

/-- The two-byte opcodes, after the escape byte `0f`. -/
def decode0f (b : Nat → Byte) : Option (Instr × Nat) :=
  let (reg, rm, n) := decodeRm b 2
  match (b 1).toNat with
  | 0xb6 => some (.movzx8 (Reg.ofCode reg) rm.rm8, 2 + n)
  | 0xb7 => some (.movzx16 (Reg.ofCode reg) rm.rm32, 2 + n)
  | 0xbe => some (.movsx8 (Reg.ofCode reg) rm.rm8, 2 + n)
  | 0xbf => some (.movsx16 (Reg.ofCode reg) rm.rm32, 2 + n)
  | 0xbc => some (.bsf (Reg.ofCode reg) rm.rm32, 2 + n)
  | 0xbd => some (.bsr (Reg.ofCode reg) rm.rm32, 2 + n)
  | op =>
      if op / 16 = 8 then
        (Cc.ofCode (op % 16)).map fun cc => (.jcc cc (imm32 b 2), 6)
      else if op / 16 = 9 then
        (Cc.ofCode (op % 16)).map fun cc => (.setcc cc rm.rm8, 2 + n)
      else none

/-- The unary group `f7`. -/
def decodeF7 (ext : BitVec 3) (rm : RM) : Option Instr :=
  match ext.toNat with
  | 4 => some (.mul rm)
  | 6 => some (.div rm)
  | 7 => some (.idiv rm)
  | _ => none

/-- Decode the instruction whose bytes are `b 0, b 1, …`, with its
length; `none` outside the modelled subset. -/
def decode (b : Nat → Byte) : Option (Instr × Nat) :=
  let (reg, rm, n) := decodeRm b 1
  match (b 0).toNat with
  | 0x0f => decode0f b
  | 0x81 => (Alu.ofCode reg.toNat).map fun op =>
      (.aluRmI op rm.rm32 (imm32 b (1 + n)), 5 + n)
  | 0x85 => some (.testRmR rm.rm32 (Reg.ofCode reg), 1 + n)
  | 0x88 => some (.movRm8R8 rm.rm8 (Reg8.ofCode reg), 1 + n)
  | 0x89 => some (.movRmR rm.rm32 (Reg.ofCode reg), 1 + n)
  | 0x8b => some (.movRRm (Reg.ofCode reg) rm.rm32, 1 + n)
  | 0xc1 => (Shift.ofCode reg.toNat).map fun op =>
      (.shiftI op rm.rm32 (b (1 + n)), 2 + n)
  | 0xc3 => some (.ret, 1)
  | 0xd3 => (Shift.ofCode reg.toNat).map fun op =>
      (.shiftCl op rm.rm32, 1 + n)
  | 0xe8 => some (.call (imm32 b 1), 5)
  | 0xe9 => some (.jmp (imm32 b 1), 5)
  | 0xf7 => (decodeF7 reg rm.rm32).map fun i => (i, 1 + n)
  | op =>
      if op / 8 = 10 then some (.push (Reg.ofCode (.ofNat 3 op)), 1)
      else if op / 8 = 11 then some (.pop (Reg.ofCode (.ofNat 3 op)), 1)
      else if op / 8 = 23 then
        some (.movRI (Reg.ofCode (.ofNat 3 op)) (imm32 b 1), 5)
      else if op < 64 ∧ op % 8 = 1 then
        (Alu.ofCode (op / 8)).map fun a =>
          (.aluRmR a rm.rm32 (Reg.ofCode reg), 1 + n)
      else if op < 64 ∧ op % 8 = 3 then
        (Alu.ofCode (op / 8)).map fun a =>
          (.aluRRm a (Reg.ofCode reg) rm.rm32, 1 + n)
      else if op < 64 ∧ op % 8 = 5 then
        (Alu.ofCode (op / 8)).map fun a =>
          (.aluRmI a (.reg .eax) (imm32 b 1), 5)
      else none

-- ======== step

/-- The bytes at EIP. -/
def Machine.fetch (m : Machine) (i : Nat) : Byte :=
  m.mem (m.eip + BitVec.ofNat 32 i)

/-- One instruction of the machine. -/
def step (m : Machine) : Option Machine :=
  match decode m.fetch with
  | some (i, len) => exec i len m
  | none => none

/-- The bytes `bs` encode `i`, whatever follows them. -/
def Decodes (bs : List Byte) (i : Instr) : Prop :=
  ∀ b : Nat → Byte, (∀ k (h : k < bs.length), b k = bs[k]) →
    decode b = some (i, bs.length)

/-- The instruction the machine is about to execute. -/
def Machine.next (m : Machine) : Option Instr := (decode m.fetch).map (·.1)

/-- Where the bytes of an instruction lie at EIP, the decoder finds
it. -/
theorem Decodes.fetch {bs : List Byte} {i : Instr} {m : Machine}
    (h : Decodes bs i) (hat : BytesAt m.mem m.eip bs) : decode m.fetch = some (i, bs.length) :=
  h m.fetch fun k hk => hat k hk

/-- A step over laid-out code executes the instruction there. -/
theorem Decodes.step {bs : List Byte} {i : Instr} {m : Machine}
    (h : Decodes bs i) (hat : BytesAt m.mem m.eip bs) : step m = exec i bs.length m := by
  unfold X86.step
  rw [h.fetch hat]

end Xv6Sume32.X86
