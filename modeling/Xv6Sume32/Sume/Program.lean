/-
A sume32 program as its list of instructions, with the block structure
and the control-flow paths that list determines.

The C code has no such list: every pass walks the bytes by itself. This
file is the common reading the passes are compared with. `decode` splits
the bytes into instructions; everything after it speaks about positions
in the resulting list.

# Blocks

`openAt ts k` lists the positions of the declarations, blocks and loops
that are open before instruction `k`, innermost first. `closeOf ts j` is
the position of the `end` that closes the one opened at `j`.

# Paths

A path of a function is a sequence of `PathState`s: a position, the
types of the operands, and for every enclosing block or loop the
position where it was opened with the operand height at its entry.
`PathStep` says which states follow each other: most instructions pop
and push (`effect`), `end` and a branch cut the operands back to the
entry height of the block they leave, a branch to a loop goes back to
its first instruction, a branch to a block behind its `end`. A path does
not check types; that the operands of a verified program always have the
right ones is a theorem.
-/
import Xv6Sume32.Sume.FromIr

namespace Xv6Sume32.Sume

open Lib

-- ======== instructions

/-- An instruction: its token and the operands that follow it. -/
structure Instr where
  token : Token
  arg : Word := 0
  params : List Ty := []
  locals : List Ty := []
deriving DecidableEq, Repr

/-- The instruction at a place of the program and the place behind
it. -/
def instrAt (prog : List Byte) (place : Nat) : Res (Instr × Nat) :=
  match prog[place]? with
  | none => .error .undefined
  | some b =>
      match Token.ofByte b with
      | none => .error .reject
      | some t =>
          match t.operand with
          | .none => .ok ({ token := t }, place + 1)
          | .int => do
              let (v, p) ← getInt prog (place + 1)
              .ok ({ token := t, arg := v }, p)
          | .types => do
              let (ps, p) ← getTypeList prog (place + 1)
              let (ls, p) ← getTypeList prog p
              .ok ({ token := t, params := ps, locals := ls }, p)

/-- The instructions from a place to the end of the program. -/
def decodeFrom (prog : List Byte) : Nat → Nat → Res (List Instr)
  | 0, _ => .ok []
  | fuel + 1, place =>
      if place < prog.length then do
        let (i, p) ← instrAt prog place
        let is ← decodeFrom prog fuel p
        .ok (i :: is)
      else .ok []

/-- The instructions of a program. -/
def decode (prog : List Byte) : Res (List Instr) :=
  decodeFrom prog prog.length 0

/-- The place of instruction `k`. -/
def placeOf (prog : List Byte) (k : Nat) : Res Nat :=
  iterate (fun place => (instrAt prog place).map Prod.snd) k 0

-- ======== signatures

/-- A declared function. -/
structure Sig where
  rt : Ty
  params : List Ty
  locals : List Ty
deriving DecidableEq, Repr

/-- A function declaration. -/
def Token.isDecl : Token → Bool
  | .vDeclfn | .iDeclfn => true
  | _ => false

/-- The declared functions, in order. -/
def sigsOf (ts : List Instr) : List Sig :=
  (ts.filter fun i => i.token.isDecl).map fun i =>
    ⟨i.token.declRt, i.params, i.locals⟩

/-- The number of functions declared before instruction `k`. -/
def declsBefore (ts : List Instr) (k : Nat) : Nat :=
  (sigsOf (ts.take k)).length

/-- The type of local `lnum`, parameters first. -/
def Sig.localT (g : Sig) (lnum : Int) : Option Ty :=
  if lnum < 0 then none else (g.params ++ g.locals)[lnum.toNat]?

/-- The types a result pushes. -/
def Sig.results (g : Sig) : List Ty := if g.rt = 0 then [] else [g.rt]

/-- The function an operand names. -/
def sigNum (sigs : List Sig) (n : Int) : Option Sig :=
  if n < 0 then none else sigs[n.toNat]?

-- ======== blocks

/-- The tokens an `end` closes. -/
def Token.opens : Token → Bool
  | .block | .loop | .vDeclfn | .iDeclfn => true
  | _ => false

/-- The positions open before instruction `k`, innermost first. -/
def openAt (ts : List Instr) : Nat → List Nat
  | 0 => []
  | k + 1 =>
      match ts[k]? with
      | none => openAt ts k
      | some i =>
          if i.token.opens then k :: openAt ts k
          else if i.token = .end_ then (openAt ts k).tail
          else openAt ts k

/-- Instruction `e` is the `end` of the block opened at `j`. -/
def Closes (ts : List Instr) (j e : Nat) : Prop :=
  ts[e]?.map Instr.token = some .end_ ∧ (openAt ts e).head? = some j

instance (ts : List Instr) (j e : Nat) : Decidable (Closes ts j e) :=
  inferInstanceAs (Decidable (_ ∧ _))

/-- The position of the `end` of the block opened at `j`. -/
def closeOf (ts : List Instr) (j : Nat) : Option Nat :=
  (List.range ts.length).find? fun e => decide (Closes ts j e)

-- ======== paths

/-- How many operands an instruction pops and which types it pushes,
for those that go on to the next instruction and leave the enclosing
blocks alone; `none` when an operand names no local or function. -/
def effect (sigs : List Sig) (g : Sig) (i : Instr) : Option (Nat × List Ty) :=
  match i.token with
  | .iConst | .iMemsz => some (0, [intT])
  | .iClz | .iCtz | .iPopcnt | .iEqz
  | .iLd32 | .iLd16S | .iLd16U | .iLd8S | .iLd8U => some (1, [intT])
  | .iAdd | .iAnd | .iDivS | .iDivU | .iMul | .iOr | .iRemS | .iRemU
  | .iRotl | .iRotr | .iShl | .iShrS | .iShrU | .iSub | .iXor
  | .iEq | .iGeS | .iGeU | .iGtS | .iGtU | .iLeS | .iLeU | .iLtS | .iLtU
  | .iNe => some (2, [intT])
  | .str32 | .str16 | .str8 => some (2, [])
  | .getL => (g.localT i.arg.toInt).map fun t => (0, [t])
  | .setL => some (1, [])
  | .call => (sigNum sigs i.arg.toInt).map fun f =>
      (f.params.length, f.results)
  | .trap | .block | .loop | .br | .brIf | .ret | .end_
  | .vDeclfn | .iDeclfn => none

/-- A point of a path through a function body. -/
structure PathState where
  pc : Nat
  stk : List Ty
  labels : List (Nat × Nat)

/-- The lowest `h` operands. -/
def cut {α : Type} (h : Nat) (stk : List α) : List α :=
  stk.drop (stk.length - h)

/-- Where a branch to the `n`-th enclosing block goes: the position, the
entry height and the blocks that enclose the target. -/
def branch (ts : List Instr) (labels : List (Nat × Nat)) (n : Nat) :
    Option (Nat × Nat × List (Nat × Nat)) :=
  match labels.drop n with
  | [] => none
  | (j, h) :: ls =>
      if ts[j]?.map Instr.token = some .loop then
        some (j + 1, h, (j, h) :: ls)
      else (closeOf ts j).map fun e => (e + 1, h, ls)

/-- The successors of a point of a path in a function with signature
`g`. -/
inductive PathStep (ts : List Instr) (g : Sig) : PathState → PathState → Prop
  | op {pc stk ls i n push} (hi : ts[pc]? = some i)
      (he : effect (sigsOf ts) g i = some (n, push))
      (hn : n ≤ stk.length) :
      PathStep ts g ⟨pc, stk, ls⟩ ⟨pc + 1, push ++ stk.drop n, ls⟩
  | enter {pc stk ls i} (hi : ts[pc]? = some i)
      (ht : i.token = .block ∨ i.token = .loop) :
      PathStep ts g ⟨pc, stk, ls⟩ ⟨pc + 1, stk, (pc, stk.length) :: ls⟩
  | leave {pc stk ls i j h} (hi : ts[pc]? = some i)
      (ht : i.token = .end_) :
      PathStep ts g ⟨pc, stk, (j, h) :: ls⟩ ⟨pc + 1, cut h stk, ls⟩
  | br {pc stk ls i pc' h ls'} (hi : ts[pc]? = some i)
      (ht : i.token = .br) (h0 : 0 ≤ i.arg.toInt)
      (hb : branch ts ls i.arg.toInt.toNat = some (pc', h, ls')) :
      PathStep ts g ⟨pc, stk, ls⟩ ⟨pc', cut h stk, ls'⟩
  | brIf {pc t stk ls i pc' h ls'} (hi : ts[pc]? = some i)
      (ht : i.token = .brIf) (h0 : 0 ≤ i.arg.toInt)
      (hb : branch ts ls i.arg.toInt.toNat = some (pc', h, ls')) :
      PathStep ts g ⟨pc, t :: stk, ls⟩ ⟨pc', cut h stk, ls'⟩
  | brIfNot {pc t stk ls i} (hi : ts[pc]? = some i)
      (ht : i.token = .brIf) :
      PathStep ts g ⟨pc, t :: stk, ls⟩ ⟨pc + 1, stk, ls⟩

/-- The points on the paths of the function declared at `d`. -/
inductive FnPath (ts : List Instr) (d : Nat) (g : Sig) : PathState → Prop
  | start : FnPath ts d g ⟨d + 1, [], []⟩
  | step {st st'} : FnPath ts d g st → PathStep ts g st st' →
      FnPath ts d g st'

/-- Position `d` declares the function with signature `g`. -/
def Declares (ts : List Instr) (d : Nat) (g : Sig) : Prop :=
  ∃ i, ts[d]? = some i ∧ i.token.isDecl = true
    ∧ g = ⟨i.token.declRt, i.params, i.locals⟩

/-- The position of the declaration of function `n`. -/
def declPos (ts : List Instr) (n : Nat) : Option Nat :=
  (List.range ts.length).find? fun d =>
    decide (ts[d]?.map (fun i => i.token.isDecl) = some true
      ∧ declsBefore ts d = n)

end Xv6Sume32.Sume
