/-
The assembler (`to_ir.c`): from the text of a program to its bytes.

The text is a list of bytes and `place` an index into it, shared by all
scanners. A scanner that stops at the end of the text may leave `place`
one behind it (`getLine` after a comment that no newline ends).

`char` is signed, as the digits are compared (`charToInt`). The buffer
for one instruction, `instr_buf`, lives as long as the loop of
`parse_sume` and is not cleared between instructions: packed type lists
are written two bits at a time over what is there. `append_dyn_arr` is
list append; how the array grows is its own business.
-/
import Xv6Sume32.Sume.Token

namespace Xv6Sume32.Sume.ToIr

open Lib

-- ======== characters

/-- A character of the text. -/
def ch (c : Char) : Byte := BitVec.ofNat 8 c.toNat

/-- The characters of a string. -/
def chars (s : String) : List Byte := s.toList.map ch

def isWhitespace (c : Byte) : Bool :=
  c == ch ' ' || c == ch '\t' || c == ch '\n'
    -- `\v` and `\f`
    || c == 0x0b || c == 0x0c || c == ch '\r'

/-- The value of a digit in radix 36 at most. -/
def charToInt (c : Byte) : Option Int :=
  if c.toInt - 48 < 0 then none
  else if c.toInt - 48 < 10 then some (c.toInt - 48)
  else if c.toInt - 65 + 10 < 10 then none
  else if c.toInt - 65 + 10 < 36 then some (c.toInt - 65 + 10)
  else if c.toInt - 97 + 10 < 10 then none
  else if c.toInt - 97 + 10 < 36 then some (c.toInt - 97 + 10)
  else none

-- ======== mnemonics

/-- The table `instrs` of `sume_strs.h`. -/
def instrs : List String :=
  ["i.const", "i.clz", "i.ctz", "i.popcnt", "i.add", "i.and", "i.div.s", "i.div.u",
    "i.mul", "i.or", "i.rem.s", "i.rem.u", "i.rotl", "i.rotr", "i.shl", "i.shr.s",
    "i.shr.u", "i.sub", "i.xor", "i.eqz", "i.eq", "i.ge.s", "i.ge.u", "i.gt.s",
    "i.gt.u", "i.le.s", "i.le.u", "i.lt.s", "i.lt.u", "i.ne", "i.ld32", "i.ld16.s",
    "i.ld16.u", "i.ld8.s", "i.ld8.u", "i.memsz", "str32", "str16", "str8", "get_l",
    "set_l", "trap", "block", "loop", "br", "br_if", "ret", "end", "call", "v.declfn",
    "i.declfn"]

/-- `is_prefix`: the word starts with the mnemonic, and ends there or
goes on with a comment or whitespace. -/
def isPrefix : List Byte → List Byte → Bool
  | [], [] => true
  | [], c :: _ => c == ch ';' || isWhitespace c
  | _ :: _, [] => false
  | p :: ps, c :: cs => p == c && isPrefix ps cs

/-- The first entry of the table, from entry `i` on, that the word starts
with: its number and length. -/
def findToken (word : List Byte) : List String → Nat → Option (Nat × Nat)
  | [], _ => none
  | s :: ss, i =>
      if isPrefix (chars s) word then some (i, (chars s).length)
      else findToken word ss (i + 1)

-- ======== the scanners

variable (prog : List Byte)

/-- The number of the mnemonic at `place` and the place behind it. -/
def getNextInstrToken (place : Nat) : Option (Nat × Nat) :=
  (findToken (prog.drop place) instrs 0).map fun r => (r.1, place + r.2)

/-- The loop of `get_line`. -/
def getLineLoop : Nat → Nat → Nat
  | 0, place => place
  | fuel + 1, place =>
      match prog[place]? with
      | none => place
      | some c => if c ≠ ch '\n' then getLineLoop fuel (place + 1) else place

/-- The start of the next line. -/
def getLine (place : Nat) : Nat := getLineLoop prog prog.length place + 1

/-- The loop of `consume_whitespace`. -/
def consumeLoop : Nat → Nat → Nat
  | 0, place => place
  | fuel + 1, place =>
      match prog[place]? with
      | none => place
      | some c =>
          if c = ch ';' then consumeLoop fuel (getLine prog (place + 1))
          else if isWhitespace c then consumeLoop fuel (place + 1)
          else place

def consumeWhitespace (place : Nat) : Nat := consumeLoop prog prog.length place

def getChar (place : Nat) : Res (Byte × Nat) :=
  match prog[place]? with
  | none => .error .reject
  | some c => .ok (c, place + 1)

-- -------- numerals

/-- The sign of a numeral, and the character behind it. -/
def getSign (place : Nat) : Res (Bool × Byte × Nat) := do
  let (cur, place) ← getChar prog place
  if cur = ch '-' then do
    let (cur, place) ← getChar prog place
    .ok (true, cur, place)
  else .ok (false, cur, place)

/-- The radix that `cur` announces, and the character of the first
digit. -/
def getRadix (cur : Byte) (place : Nat) : Res (Nat × Byte × Nat) :=
  if cur = ch 'b' then do
    let (cur, place) ← getChar prog place
    .ok (2, cur, place)
  else if cur = ch 'o' then do
    let (cur, place) ← getChar prog place
    .ok (8, cur, place)
  else if cur = ch 'x' ∨ cur = ch 'h' then do
    let (cur, place) ← getChar prog place
    .ok (16, cur, place)
  else .ok (10, cur, place)

/-- The digits behind the first. The whitespace that ends a numeral is
read with it. -/
def getIntLoop (radix : Nat) : Nat → Word → Nat → Res (Word × Nat)
  | 0, w, place => .ok (w, place)
  | fuel + 1, w, place =>
      match prog[place]? with
      | none => .ok (w, place)
      | some cur =>
          if isWhitespace cur then .ok (w, place + 1)
          else
            match charToInt cur with
            | none => .error .reject
            | some v =>
                if (radix : Int) ≤ v then .error .reject
                else getIntLoop radix fuel
                  (w * BitVec.ofNat 32 radix + BitVec.ofInt 32 v) (place + 1)

/-- `get_int`. The first digit is not compared with the radix. -/
def getInt (place : Nat) : Res (Word × Nat) := do
  let (neg, cur, place) ← getSign prog place
  let (radix, cur, place) ← getRadix prog cur place
  match charToInt cur with
  | none => .error .reject
  | some v => do
      let (w, place) ← getIntLoop prog radix prog.length (BitVec.ofInt 32 v) place
      .ok (if neg then -w else w, place)

-- -------- type lists

/-- The size of `instr_buf`. -/
def instrBufSz : Nat := 100

/-- Set code `pos` of the type list that starts at index `base` of the
buffer. -/
def setCode (buf : Nat → Byte) (base pos : Nat) (t : Byte) : Res (Nat → Byte) := do
  inRange (base + pos / 4 < instrBufSz)
  .ok (Function.update buf (base + pos / 4)
    ((buf (base + pos / 4) &&& ~~~ ((3 : Byte) <<< (pos % 4 * 2))) ||| (t <<< (pos % 4 * 2))))

/-- The type whose name is at `place`. -/
def typeAt (place : Nat) : Option Ty :=
  if prog[place]? = some (ch 'i') ∧ prog[place + 1]? = some (ch 'n')
      ∧ prog[place + 2]? = some (ch 't') then some 1
  else if prog[place]? = some (ch 'f') ∧ prog[place + 1]? = some (ch 'l')
      ∧ prog[place + 2]? = some (ch 't') then some 2
  else none

/-- The loop of `get_type_list`, with the number of types stored. The
closing parenthesis is looked for before the end of the text is. -/
def getTypeListLoop (base : Nat) :
    Nat → Nat → (Nat → Byte) → Nat → Res (Nat × (Nat → Byte) × Nat)
  | 0, _, _, _ => .error .undefined
  | fuel + 1, place, buf, n =>
      match prog[place]? with
      | none => .error .undefined
      | some c =>
          if c = ch ')' then .ok (place, buf, n)
          else if prog.length ≤ place + 3 then .error .reject
          else
            match typeAt prog place with
            | none => .error .reject
            | some t => do
                let buf ← setCode buf base n t
                getTypeListLoop base fuel (consumeWhitespace prog (place + 3)) buf (n + 1)

/-- Clear `k` codes from `pos` on. -/
def zeroCodes (base : Nat) : Nat → Nat → (Nat → Byte) → Res (Nat → Byte)
  | 0, _, buf => .ok buf
  | k + 1, pos, buf => do
      let buf ← setCode buf base pos 0
      zeroCodes base k (pos + 1) buf

/-- `get_type_list` into the buffer from index `base` on: the place
behind the list, the buffer and the number of bytes. -/
def getTypeList (place : Nat) (buf : Nat → Byte) (base : Nat) :
    Res (Nat × (Nat → Byte) × Nat) := do
  let (cur, place) ← getChar prog place
  require (cur = ch '(')
  let (place, buf, n) ←
    getTypeListLoop prog base (prog.length + 1) (consumeWhitespace prog place) buf 0
  -- the terminator, and the rest of its byte
  let buf ← zeroCodes base (4 * (n / 4 + 1) - n) n buf
  .ok (place + 1, buf, n / 4 + 1)

-- ======== parse_sume

/-- The variables of `parse_sume`, and the bytes appended so far. -/
structure ParseState where
  place : Nat
  buf : Nat → Byte
  out : List Byte

/-- The first `n` bytes of the buffer. -/
def bufBytes (buf : Nat → Byte) (n : Nat) : List Byte := (List.range n).map buf

/-- `memmove(instr_buf+1, &iv, sizeof(iv))`. -/
def putWord (buf : Nat → Byte) (w : Word) : Nat → Byte := fun j =>
  if 1 ≤ j ∧ j < 5 then byteOf w (j - 1) else buf j

/-- The rest of a round of the loop of `parse_sume`, at a character that
is no whitespace. -/
def parseInstr (s : ParseState) : Res ParseState :=
  match getNextInstrToken prog s.place with
  | none => .error .reject
  | some (tkn, place) =>
      let buf := Function.update s.buf 0 (BitVec.ofNat 8 tkn)
      match (Token.ofByte (BitVec.ofNat 8 tkn)).map Token.operand with
      | some .int => do
          let (iv, place) ← getInt prog (consumeWhitespace prog place)
          let buf := putWord buf iv
          .ok ⟨place, buf, s.out ++ bufBytes buf 5⟩
      | some .types => do
          let (place, buf, n) ← getTypeList prog (consumeWhitespace prog place) buf 1
          let (place, buf, m) ← getTypeList prog (consumeWhitespace prog place) buf (1 + n)
          .ok ⟨place, buf, s.out ++ bufBytes buf (1 + n + m)⟩
      | _ => .ok ⟨place, buf, s.out ++ bufBytes buf 1⟩

/-- The loop of `parse_sume`. -/
def parseLoop : Nat → ParseState → Res (List Byte)
  | 0, s => .ok s.out
  | fuel + 1, s =>
      let s := { s with place := consumeWhitespace prog s.place }
      if prog.length ≤ s.place then .ok s.out
      else do
        let s ← parseInstr prog s
        parseLoop fuel s

/-- `parse_sume` with a buffer that holds `buf` at first. -/
def parseSume (buf : Nat → Byte) : Res (List Byte) :=
  parseLoop prog (prog.length + 1) ⟨0, buf, []⟩

end Xv6Sume32.Sume.ToIr
