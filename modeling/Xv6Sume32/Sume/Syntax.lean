/-
What the texts of a program look like, and its binary encoding.

`Renders ts text` says that `text` is a way to write the instructions
`ts`. A gap is any run of whitespace and comments; a mnemonic is followed
by a gap that is not empty, a numeral by whitespace, and everything else
may be written without gaps. At the end of the text a comment needs no
newline and a mnemonic nothing behind it.

The encoding of an instruction is its token's byte and its operand: a
word in four little-endian bytes, or two type lists. A type list is a
sequence of two-bit codes, four to a byte from the low bits on, with the
code 0 behind the last type (`pack`).
-/
import Xv6Sume32.Sume.ToIr
import Xv6Sume32.Sume.Program

namespace Xv6Sume32.Sume

open Lib ToIr

-- ======== encoding

/-- The byte of a token. -/
def Token.toByte (t : Token) : Byte := BitVec.ofNat 8 t.ctorIdx

/-- Four two-bit codes in a byte. -/
def codeByte (c0 c1 c2 c3 : Ty) : Byte := c0 ||| c1 <<< 2 ||| c2 <<< 4 ||| c3 <<< 6

/-- Byte `j` of a packed type list. -/
def packByte (tys : List Ty) (j : Nat) : Byte :=
  codeByte (tys.getD (4 * j) 0) (tys.getD (4 * j + 1) 0) (tys.getD (4 * j + 2) 0)
    (tys.getD (4 * j + 3) 0)

/-- A packed type list. -/
def pack (tys : List Ty) : List Byte := (List.range (tys.length / 4 + 1)).map (packByte tys)

/-- The bytes of an instruction. -/
def encode (i : Instr) : List Byte :=
  i.token.toByte ::
    match i.token.operand with
    | .none => []
    | .int => leBytes i.arg
    | .types => pack i.params ++ pack i.locals

/-- The bytes of a program. -/
def encodeAll (ts : List Instr) : List Byte := ts.flatMap encode

-- ======== gaps

/-- Whitespace and comments. -/
inductive Gap : List Byte → Prop
  | nil : Gap []
  | ws {c g} (hc : isWhitespace c = true) (hg : Gap g) : Gap (c :: g)
  | comment {body g} (hb : ch '\n' ∉ body) (hg : Gap g) :
      Gap (ch ';' :: (body ++ ch '\n' :: g))

/-- What may stand behind the last instruction: a gap, and perhaps a
comment that the text ends in. -/
def EndGap (text : List Byte) : Prop :=
  Gap text ∨ ∃ g body, Gap g ∧ ch '\n' ∉ body ∧ text = g ++ ch ';' :: body

/-- A text in front of which a mnemonic ends. -/
def Parted (text : List Byte) : Prop :=
  ∀ c, text.head? = some c → c = ch ';' ∨ isWhitespace c = true

/-- A text in front of which a numeral ends. -/
def Spaced (text : List Byte) : Prop := ∀ c, text.head? = some c → isWhitespace c = true

-- ======== operands

/-- The radixes and their marks. -/
inductive Radix
  | dec | bin | oct | hex | hexH

def Radix.base : Radix → Nat
  | .dec => 10
  | .bin => 2
  | .oct => 8
  | .hex | .hexH => 16

def Radix.mark : Radix → List Byte
  | .dec => []
  | .bin => chars "b"
  | .oct => chars "o"
  | .hex => chars "x"
  | .hexH => chars "h"

/-- A character is the digit of a value, letters in either case. -/
def IsDigit (c : Byte) (v : Nat) : Prop :=
  v < 10 ∧ c = BitVec.ofNat 8 (48 + v)
    ∨ 10 ≤ v ∧ v < 36 ∧ (c = BitVec.ofNat 8 (65 + (v - 10)) ∨ c = BitVec.ofNat 8 (97 + (v - 10)))

/-- The value of a row of digits, the most significant first. -/
def digitsValue (base : Nat) (vs : List Nat) : Nat := vs.foldl (fun a v => a * base + v) 0

/-- A numeral: a sign or none, the mark of the radix and at least one
digit, all below the radix. Its word is the signed value modulo
`2 ^ 32`. -/
def Numeral (text : List Byte) (w : Word) : Prop :=
  ∃ (neg : Bool) (r : Radix) (cs : List Byte) (vs : List Nat),
    vs ≠ [] ∧ List.Forall₂ IsDigit cs vs ∧ (∀ v ∈ vs, v < r.base)
      ∧ text = (if neg then chars "-" else []) ++ (r.mark ++ cs)
      ∧ w = BitVec.ofInt 32
          (if neg then -(digitsValue r.base vs : Int) else digitsValue r.base vs)

/-- The names of the types. -/
def TypeWord (w : List Byte) (t : Ty) : Prop :=
  w = chars "int" ∧ t = 1 ∨ w = chars "flt" ∧ t = 2

/-- Type names, with gaps behind them. -/
inductive TypeWords : List Byte → List Ty → Prop
  | nil : TypeWords [] []
  | cons {w t g text tys} (hw : TypeWord w t) (hg : Gap g) (h : TypeWords text tys) :
      TypeWords (w ++ (g ++ text)) (t :: tys)

/-- A type list in parentheses. -/
def TypeList (text : List Byte) (tys : List Ty) : Prop :=
  ∃ g body, Gap g ∧ TypeWords body tys ∧ text = ch '(' :: (g ++ (body ++ [ch ')']))

-- ======== programs

/-- The entry of `instrs` for a token. -/
def mnemonic (t : Token) : List Byte := chars (instrs.getD t.ctorIdx "")

/-- The ways to write a program. -/
inductive Renders : List Instr → List Byte → Prop
  | done {g} (hg : EndGap g) : Renders [] g
  | plain {t g rest ts} (ht : t.operand = .none) (hg : Gap g) (hsep : Parted rest)
      (h : Renders ts rest) :
      Renders ({ token := t } :: ts) (g ++ (mnemonic t ++ rest))
  | int {t g g' num w rest ts} (ht : t.operand = .int) (hg : Gap g) (hg' : Gap g')
      (hne : g' ≠ []) (hn : Numeral num w) (hsep : Spaced rest) (h : Renders ts rest) :
      Renders ({ token := t, arg := w } :: ts)
        (g ++ (mnemonic t ++ (g' ++ (num ++ rest))))
  | decl {t g g₁ g₂ text₁ text₂ ps ls rest ts} (ht : t.operand = .types) (hg : Gap g)
      (hg₁ : Gap g₁) (hne : g₁ ≠ []) (hp : TypeList text₁ ps) (hg₂ : Gap g₂)
      (hl : TypeList text₂ ls) (h : Renders ts rest) :
      Renders ({ token := t, params := ps, locals := ls } :: ts)
        (g ++ (mnemonic t ++ (g₁ ++ (text₁ ++ (g₂ ++ (text₂ ++ rest))))))

end Xv6Sume32.Sume
