/-
The sume32 instruction set (`sume_tokens.h`) and the conventions of the
tool chain's C code that every stage shares.

# How C functions stop

The verifier's functions return -1 to reject their input, and index
fixed-size global tables with numbers taken from that input. Both
matter: `Stop.reject` is a returned -1, `Stop.undefined` an access outside
a table or through a null pointer, from which on the C program has no
defined behaviour. A stage that runs to its end is `.ok`, so "verify
accepts" always means: it returned 0 and every access it made on the
way was inside its table.

# Types on the operand stack

The type of an operand is the C `char` the verifier stores for it: the
two-bit code of a packed type list, 1 for int and 2 for float. Result
types are 0 (void) or `INT_T`.
-/
import Xv6Sume32.Lib.Bytes
import Xv6Sume32.Lib.Loop

namespace Xv6Sume32.Sume

open Lib

/-- How a function of the tool chain stops early. -/
inductive Stop
  | reject
  | undefined
deriving DecidableEq, Repr

/-- The result of a C function that can reject its input or leave the
defined behaviour. -/
abbrev Res (α : Type) := Except Stop α

/-- `if (!c) return -1;` -/
def require (c : Bool) : Res Unit := if c then .ok () else .error .reject

/-- An access at an index that has to satisfy `c`. -/
def inRange (c : Bool) : Res Unit := if c then .ok () else .error .undefined

@[simp] theorem require_eq_ok {c : Bool} {u : Unit} : require c = .ok u ↔ c = true := by
  cases c <;> simp [require]

@[simp] theorem inRange_eq_ok {c : Bool} {u : Unit} : inRange c = .ok u ↔ c = true := by
  cases c <;> simp [inRange]

theorem require_decide {p : Prop} [Decidable p] {u : Unit} : require (decide p) = .ok u ↔ p := by
  rw [require_eq_ok, decide_eq_true_eq]

theorem inRange_decide {p : Prop} [Decidable p] {u : Unit} : inRange (decide p) = .ok u ↔ p := by
  rw [inRange_eq_ok, decide_eq_true_eq]

/-- What a computation returns when it is known to return. -/
theorem exists_ok {α : Type} {x : Res α} (h : x.toOption.isSome = true) : ∃ a, x = .ok a := by
  cases x with
  | ok a => exact ⟨a, rfl⟩
  | error e => cases h

-- ======== types

/-- The type of an operand, as the C `char` that stands for it. -/
abbrev Ty := Byte

/-- `INT_T`. -/
def intT : Ty := 1

/-- `VOD_T`, the result type of a function without result. -/
def vodT : Ty := 0

-- ======== tokens

/-- The instruction tokens, `enum instr_token`. -/
inductive Token
  | iConst | iClz | iCtz | iPopcnt
  | iAdd | iAnd | iDivS | iDivU | iMul | iOr | iRemS | iRemU
  | iRotl | iRotr | iShl | iShrS | iShrU | iSub | iXor | iEqz
  | iEq | iGeS | iGeU | iGtS | iGtU | iLeS | iLeU | iLtS | iLtU | iNe
  | iLd32 | iLd16S | iLd16U | iLd8S | iLd8U | iMemsz
  | str32 | str16 | str8 | getL | setL
  | trap | block | loop | br | brIf | ret | end_ | call
  | vDeclfn | iDeclfn
deriving DecidableEq, Repr

/-- The token a program byte stands for. The C code compares the
sign-extended byte with the enumeration, so bytes from `33` on have
none. -/
def Token.ofByte (b : Byte) : Option Token :=
  match b.toNat with
  | 0x00 => some .iConst | 0x01 => some .iClz | 0x02 => some .iCtz
  | 0x03 => some .iPopcnt | 0x04 => some .iAdd | 0x05 => some .iAnd
  | 0x06 => some .iDivS | 0x07 => some .iDivU | 0x08 => some .iMul
  | 0x09 => some .iOr | 0x0a => some .iRemS | 0x0b => some .iRemU
  | 0x0c => some .iRotl | 0x0d => some .iRotr | 0x0e => some .iShl
  | 0x0f => some .iShrS | 0x10 => some .iShrU | 0x11 => some .iSub
  | 0x12 => some .iXor | 0x13 => some .iEqz | 0x14 => some .iEq
  | 0x15 => some .iGeS | 0x16 => some .iGeU | 0x17 => some .iGtS
  | 0x18 => some .iGtU | 0x19 => some .iLeS | 0x1a => some .iLeU
  | 0x1b => some .iLtS | 0x1c => some .iLtU | 0x1d => some .iNe
  | 0x1e => some .iLd32 | 0x1f => some .iLd16S | 0x20 => some .iLd16U
  | 0x21 => some .iLd8S | 0x22 => some .iLd8U | 0x23 => some .iMemsz
  | 0x24 => some .str32 | 0x25 => some .str16 | 0x26 => some .str8
  | 0x27 => some .getL | 0x28 => some .setL | 0x29 => some .trap
  | 0x2a => some .block | 0x2b => some .loop | 0x2c => some .br
  | 0x2d => some .brIf | 0x2e => some .ret | 0x2f => some .end_
  | 0x30 => some .call | 0x31 => some .vDeclfn | 0x32 => some .iDeclfn
  | _ => none

/-- The byte of the token `end`, which the verifier compares program
bytes with directly. -/
def endByte : Byte := 0x2f

/-- Only the byte `2f` is the token `end`. -/
theorem ofByte_eq_end {b : Byte} : Token.ofByte b = some .end_ ↔ b = endByte := by
  revert b
  decide

/-- What follows a token in the program text. -/
inductive Operand
  | none
  | int
  | types
deriving DecidableEq, Repr

/-- The operand of each token: a 32-bit integer, two packed type lists,
or nothing. -/
def Token.operand : Token → Operand
  | .iConst | .getL | .setL | .br | .brIf | .call => .int
  | .vDeclfn | .iDeclfn => .types
  | _ => .none

/-- The result type a declaration token declares. -/
def Token.declRt : Token → Ty
  | .iDeclfn => intT
  | _ => vodT

end Xv6Sume32.Sume
