/-
The assembler over memory: which characters it reads and where it writes.

`ToIr` has the text as a list, so that no scanner can look behind its
end unnoticed, and it does not tell a read behind the end from a write
behind `instr_buf`. Here the same functions run over memory. `prog` is a
pointer, `prog_len` the length that was passed, and what stands behind
the text is memory like any other.

Memory may be partial. A read of a byte it does not have is a fault of
its own, so that running in the memory that holds the text and nothing
else (`textMem`) shows whether a run reads anything else. Reads are made
in the order and under the tests of the source: `a && b` reads for `b`
only if `a` holds.
-/
import Xv6Sume32.Sume.ToIr

namespace Xv6Sume32.Sume.Reader

open Lib
open ToIr (ch chars isWhitespace charToInt instrs instrBufSz ParseState bufBytes putWord)

/-- How a run of the assembler stops early. -/
inductive Fault
  /-- It returns -1. -/
  | reject
  /-- It reads a byte at an index that memory does not have. -/
  | outside (i : Nat)
  /-- It writes into `instr_buf` at an index behind its end. -/
  | overflow (i : Nat)
deriving DecidableEq, Repr

abbrev Run (α : Type) := Except Fault α

/-- The bytes from `prog` on. -/
abbrev Mem := Nat → Option Byte

/-- The memory that holds the text and nothing else. -/
def textMem (prog : List Byte) : Mem := fun i => prog[i]?

variable (mem : Mem)

/-- `prog[i]` -/
def read (i : Nat) : Run Byte :=
  match mem i with
  | none => .error (.outside i)
  | some c => .ok c

-- ======== mnemonics

/-- The characters from `i` on are those of a word, compared one by one
up to the first difference. -/
def isWord : List Byte → Nat → Run Bool
  | [], _ => .ok true
  | p :: ps, i => do
      let c ← read mem i
      if p = c then isWord ps (i + 1) else .ok false

/-- `is_prefix` for the word at `place` with `wordLen` characters. -/
def isPrefix (pre : List Byte) (place wordLen : Nat) : Run Bool := do
  if wordLen < pre.length then .ok false
  else if ← isWord mem pre place then
    if pre.length = wordLen then .ok true
    else do
      let c ← read mem (place + pre.length)
      .ok (c == ch ';' || isWhitespace c)
  else .ok false

/-- The search of `get_next_instr_token` from entry `i` of the table
on. -/
def findToken (place wordLen : Nat) : List String → Nat → Run (Option (Nat × Nat))
  | [], _ => .ok none
  | s :: ss, i => do
      if ← isPrefix mem (chars s) place wordLen then .ok (some (i, (chars s).length))
      else findToken place wordLen ss (i + 1)

variable (len : Nat)

def getNextInstrToken (place : Nat) : Run (Option (Nat × Nat)) := do
  let r ← findToken mem place (len - place) instrs 0
  .ok (r.map fun r => (r.1, place + r.2))

-- ======== whitespace

/-- The loop of `get_line`. -/
def getLineLoop : Nat → Nat → Run Nat
  | 0, place => .ok place
  | fuel + 1, place =>
      if place < len then do
        let c ← read mem place
        if c ≠ ch '\n' then getLineLoop fuel (place + 1) else .ok place
      else .ok place

def getLine (place : Nat) : Run Nat := do
  let place ← getLineLoop mem len len place
  .ok (place + 1)

/-- The loop of `consume_whitespace`. -/
def consumeLoop : Nat → Nat → Run Nat
  | 0, place => .ok place
  | fuel + 1, place =>
      if place < len then do
        let c ← read mem place
        if c = ch ';' then do
          let place ← getLine mem len (place + 1)
          consumeLoop fuel place
        else if isWhitespace c then consumeLoop fuel (place + 1)
        else .ok place
      else .ok place

def consumeWhitespace (place : Nat) : Run Nat := consumeLoop mem len len place

def getChar (place : Nat) : Run (Byte × Nat) :=
  if len ≤ place then .error .reject
  else do
    let c ← read mem place
    .ok (c, place + 1)

-- ======== numerals

/-- The sign of a numeral, and the character behind it. -/
def getSign (place : Nat) : Run (Bool × Byte × Nat) := do
  let (cur, place) ← getChar mem len place
  if cur = ch '-' then do
    let (cur, place) ← getChar mem len place
    .ok (true, cur, place)
  else .ok (false, cur, place)

/-- The radix that `cur` announces, and the character of the first
digit. -/
def getRadix (cur : Byte) (place : Nat) : Run (Nat × Byte × Nat) :=
  if cur = ch 'b' then do
    let (cur, place) ← getChar mem len place
    .ok (2, cur, place)
  else if cur = ch 'o' then do
    let (cur, place) ← getChar mem len place
    .ok (8, cur, place)
  else if cur = ch 'x' ∨ cur = ch 'h' then do
    let (cur, place) ← getChar mem len place
    .ok (16, cur, place)
  else .ok (10, cur, place)

/-- The digits behind the first. -/
def getIntLoop (radix : Nat) : Nat → Word → Nat → Run (Word × Nat)
  | 0, w, place => .ok (w, place)
  | fuel + 1, w, place =>
      -- `get_char` fails at the end, which ends the loop
      if len ≤ place then .ok (w, place)
      else do
        let cur ← read mem place
        if isWhitespace cur then .ok (w, place + 1)
        else
          match charToInt cur with
          | none => .error .reject
          | some v =>
              if (radix : Int) ≤ v then .error .reject
              else
                getIntLoop radix fuel (w * BitVec.ofNat 32 radix + BitVec.ofInt 32 v) (place + 1)

def getInt (place : Nat) : Run (Word × Nat) := do
  let (neg, cur, place) ← getSign mem len place
  let (radix, cur, place) ← getRadix mem len cur place
  match charToInt cur with
  | none => .error .reject
  | some v => do
      let (w, place) ← getIntLoop mem len radix len (BitVec.ofInt 32 v) place
      .ok (if neg then -w else w, place)

-- ======== type lists

/-- Set code `pos` of the type list that starts at index `base` of the
buffer. -/
def setCode (buf : Nat → Byte) (base pos : Nat) (t : Byte) : Run (Nat → Byte) :=
  if base + pos / 4 < instrBufSz then
    .ok (Function.update buf (base + pos / 4)
      ((buf (base + pos / 4) &&& ~~~ ((3 : Byte) <<< (pos % 4 * 2))) ||| (t <<< (pos % 4 * 2))))
  else .error (.overflow (base + pos / 4))

/-- The type whose name is at `place`. -/
def typeAt (place : Nat) : Run (Option Ty) := do
  if ← isWord mem (chars "int") place then .ok (some 1)
  else if ← isWord mem (chars "flt") place then .ok (some 2)
  else .ok none

/-- The loop of `get_type_list`, with the number of types stored. The
closing parenthesis is looked for without a test for the end of the
text. -/
def getTypeListLoop (base : Nat) :
    Nat → Nat → (Nat → Byte) → Nat → Run (Nat × (Nat → Byte) × Nat)
  | 0, _, _, _ => .error .reject
  | fuel + 1, place, buf, n => do
      let c ← read mem place
      if c = ch ')' then .ok (place, buf, n)
      else if len ≤ place + 3 then .error .reject
      else
        match ← typeAt mem place with
        | none => .error .reject
        | some t => do
            let buf ← setCode buf base n t
            let place ← consumeWhitespace mem len (place + 3)
            getTypeListLoop base fuel place buf (n + 1)

/-- Clear `k` codes from `pos` on. -/
def zeroCodes (base : Nat) : Nat → Nat → (Nat → Byte) → Run (Nat → Byte)
  | 0, _, buf => .ok buf
  | k + 1, pos, buf => do
      let buf ← setCode buf base pos 0
      zeroCodes base k (pos + 1) buf

def getTypeList (place : Nat) (buf : Nat → Byte) (base : Nat) :
    Run (Nat × (Nat → Byte) × Nat) := do
  let (cur, place) ← getChar mem len place
  if cur ≠ ch '(' then .error .reject
  else do
    let place ← consumeWhitespace mem len place
    let (place, buf, n) ← getTypeListLoop mem len base (len + 1) place buf 0
    -- the terminator, and the rest of its byte
    let buf ← zeroCodes base (4 * (n / 4 + 1) - n) n buf
    .ok (place + 1, buf, n / 4 + 1)

-- ======== parse_sume

/-- The rest of a round of the loop of `parse_sume`, at a character that
is no whitespace. -/
def parseInstr (s : ParseState) : Run ParseState := do
  match ← getNextInstrToken mem len s.place with
  | none => .error .reject
  | some (tkn, place) =>
      let buf := Function.update s.buf 0 (BitVec.ofNat 8 tkn)
      match (Token.ofByte (BitVec.ofNat 8 tkn)).map Token.operand with
      | some .int => do
          let place ← consumeWhitespace mem len place
          let (iv, place) ← getInt mem len place
          let buf := putWord buf iv
          .ok ⟨place, buf, s.out ++ bufBytes buf 5⟩
      | some .types => do
          let place ← consumeWhitespace mem len place
          let (place, buf, n) ← getTypeList mem len place buf 1
          let place ← consumeWhitespace mem len place
          let (place, buf, m) ← getTypeList mem len place buf (1 + n)
          .ok ⟨place, buf, s.out ++ bufBytes buf (1 + n + m)⟩
      | _ => .ok ⟨place, buf, s.out ++ bufBytes buf 1⟩

/-- The loop of `parse_sume`. -/
def parseLoop : Nat → ParseState → Run (List Byte)
  | 0, s => .ok s.out
  | fuel + 1, s => do
      let place ← consumeWhitespace mem len s.place
      if len ≤ place then .ok s.out
      else do
        let s ← parseInstr mem len { s with place }
        parseLoop fuel s

/-- `parse_sume` with a buffer that holds `buf` at first. -/
def parseSume (buf : Nat → Byte) : Run (List Byte) :=
  parseLoop mem len (len + 1) ⟨0, buf, []⟩

end Xv6Sume32.Sume.Reader
