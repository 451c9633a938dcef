/-
What the operators of sume32 compute.

The repository has no interpreter; a program means what the token names
say. Values are 32-bit words and wrap around; shifts and rotations count
modulo 32. `Arith` collects the operators for which the compiler has more
than one instruction to choose, `Arith.sume` is what their names stand
for.
-/
import Xv6Sume32.Sume.Verif
import Xv6Sume32.Sume.Program

namespace Xv6Sume32.Sume

open Lib

-- ======== operators

/-- The operators a code generator may get wrong. -/
structure Arith where
  clz : Word → Word
  ctz : Word → Word
  popcnt : Word → Word
  divS : Word → Word → Option Word
  remS : Word → Word → Option Word

/-- The operators their names stand for. Signed division rounds toward
zero; its one overflow is an error like division by zero. -/
def Arith.sume : Arith where
  clz w := BitVec.ofNat 32
    ((List.range 32).reverse.takeWhile fun i => !w.getLsbD i).length
  ctz w := BitVec.ofNat 32 ((List.range 32).takeWhile fun i => !w.getLsbD i).length
  popcnt w := BitVec.ofNat 32 ((List.range 32).filter fun i => w.getLsbD i).length
  divS a b :=
    if b = 0 ∨ (a = BitVec.intMin 32 ∧ b = -1) then none else some (a.sdiv b)
  remS a b := if b = 0 then none else some (a.srem b)

/-- The word of a truth value. -/
def truth (b : Bool) : Word := if b then 1 else 0

/-- The operators of one operand. -/
def Arith.unary (ar : Arith) (t : Token) (a : Word) : Word :=
  match t with
  | .iClz => ar.clz a
  | .iCtz => ar.ctz a
  | .iPopcnt => ar.popcnt a
  | _ => truth (a == 0)

/-- The operators of two operands, `b` on top; no result when a division
has none. Shifts and rotations count modulo 32. -/
def Arith.binary (ar : Arith) (t : Token) (a b : Word) : Option Word :=
  match t with
  | .iAdd => some (a + b)
  | .iAnd => some (a &&& b)
  | .iDivS => ar.divS a b
  | .iDivU => if b = 0 then none else some (a / b)
  | .iMul => some (a * b)
  | .iOr => some (a ||| b)
  | .iRemS => ar.remS a b
  | .iRemU => if b = 0 then none else some (a % b)
  | .iRotl => some (a.rotateLeft (b.toNat % 32))
  | .iRotr => some (a.rotateRight (b.toNat % 32))
  | .iShl => some (a <<< (b.toNat % 32))
  | .iShrS => some (a.sshiftRight (b.toNat % 32))
  | .iShrU => some (a >>> (b.toNat % 32))
  | .iSub => some (a - b)
  | .iXor => some (a ^^^ b)
  | .iEq => some (truth (a == b))
  | .iGeS => some (truth (decide (b.toInt ≤ a.toInt)))
  | .iGeU => some (truth (decide (b.toNat ≤ a.toNat)))
  | .iGtS => some (truth (decide (b.toInt < a.toInt)))
  | .iGtU => some (truth (decide (b.toNat < a.toNat)))
  | .iLeS => some (truth (decide (a.toInt ≤ b.toInt)))
  | .iLeU => some (truth (decide (a.toNat ≤ b.toNat)))
  | .iLtS => some (truth (decide (a.toInt < b.toInt)))
  | .iLtU => some (truth (decide (a.toNat < b.toNat)))
  | _ => some (truth (a != b))

end Xv6Sume32.Sume
