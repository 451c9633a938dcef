/-
The verifier (`verif.c`): one linear pass over the program that keeps a
stack of operand types and a stack of frames.

# The tables

`stack` and `frames` are global arrays of 4096 and 64 entries, indexed
with the `int` counters `stk_pos` and `cur_frame` that start at -1. The
counters are integers here and the arrays functions on integers, every
access guarded by its bound.

# The uninitialised variable

`verify` declares `fnum` inside its loop without an initialiser, stores
into it when it meets a `call`, and reads it when it meets a `ret`. What
the read finds is the content of the variable's stack slot: the operand
of the last `call` token scanned before, in whatever function, or what
the slot held when `verify` was entered. `slot` is that initial content,
a parameter of the run.
-/
import Xv6Sume32.Sume.FromIr

namespace Xv6Sume32.Sume

open Lib

-- ======== the state

/-- `struct stack_frame`. -/
structure StackFrame where
  bottom : Int
  top : Int

/-- The verifier's variables. -/
structure VState where
  place : Nat
  stack : Int → Ty
  stkPos : Int
  frames : Int → StackFrame
  curFrame : Int
  curFn : Int
  prevFnNum : Int
  fnum : Int

/-- The number of entries of `stack`. -/
def stackSz : Int := 4096

/-- The number of entries of `frames`. -/
def framesSz : Int := 64

/-- The variables on entry. -/
def VState.init (slot : Int) : VState where
  place := 0
  stack := fun _ => 0
  stkPos := -1
  frames := fun _ => ⟨0, 0⟩
  curFrame := -1
  curFn := -1
  prevFnNum := -1
  fnum := slot

-- ======== stack operations

/-- `push_t`. -/
def pushT (type : Ty) (s : VState) : Res VState := do
  require (s.stkPos ≠ -1)
  require (s.stkPos < stackSz)
  inRange (0 ≤ s.stkPos)
  .ok { s with
    stack := fun i => if i = s.stkPos then type else s.stack i
    stkPos := s.stkPos + 1 }

/-- `pop_t`: the popped type, where the C function returns -1 the
computation rejects; no caller goes on after a -1. -/
def popT (s : VState) : Res (Ty × VState) := do
  require (s.curFrame ≠ -1)
  inRange (0 ≤ s.curFrame ∧ s.curFrame < framesSz)
  require (s.stkPos ≠ (s.frames s.curFrame).bottom)
  inRange (0 ≤ s.stkPos - 1 ∧ s.stkPos - 1 < stackSz)
  .ok (s.stack (s.stkPos - 1), { s with stkPos := s.stkPos - 1 })

/-- `if (pop_t() != type) return -1;` -/
def popExpect (type : Ty) (s : VState) : Res VState := do
  let (t, s) ← popT s
  require (t = type)
  .ok s

/-- `push_frame`. -/
def pushFrame (s : VState) : Res VState := do
  require (s.curFrame ≠ 63)
  if 0 ≤ s.curFrame then
    inRange (s.curFrame + 1 < framesSz)
    .ok { s with
      frames := fun i =>
        if i = s.curFrame then ⟨(s.frames i).bottom, s.stkPos⟩
        else if i = s.curFrame + 1 then ⟨s.stkPos, (s.frames i).top⟩
        else s.frames i
      curFrame := s.curFrame + 1 }
  else .ok { s with curFrame := s.curFrame + 1 }

/-- `pop_frame`. -/
def popFrame (s : VState) : Res VState := do
  require (s.curFrame ≠ -1)
  if s.curFrame - 1 ≠ -1 then
    inRange (0 ≤ s.curFrame - 1 ∧ s.curFrame - 1 < framesSz)
    .ok { s with
      curFrame := s.curFrame - 1
      stkPos := (s.frames (s.curFrame - 1)).top }
  else .ok { s with curFrame := s.curFrame - 1, stkPos := -1 }

/-- `is_in_fn`. -/
def VState.isInFn (s : VState) : Bool := 0 ≤ s.curFrame

-- ======== table access

/-- `fn_infos[k]`. -/
def FnTable.fnAt (tab : FnTable) (k : Int) : Res FnInfo := do
  inRange (0 ≤ k ∧ k < fnInfosSz)
  .ok (tab.fns k.toNat)

/-- `types[i]` for a type list the table points to. -/
def FnTable.typeAt (tab : FnTable) (types : Option Nat) (i : Nat) :
    Res Ty :=
  match types with
  | none => .error .undefined
  | some off => do
      inRange (off + i < heapSz)
      .ok (tab.heap (off + i))

/-- `get_local_t` for the function `curFn`; -1 rejects at both uses. -/
def getLocalT (tab : FnTable) (curFn lnum : Int) : Res Ty := do
  require (0 ≤ lnum)
  let fn ← tab.fnAt curFn
  if lnum < fn.paramN then tab.typeAt fn.paramT lnum.toNat
  else do
    require (lnum - fn.paramN < fn.localN)
    tab.typeAt fn.localT (lnum - fn.paramN).toNat

/-- The argument loop of `call`: pop parameter types from the last of
the first `n` down to the first. -/
def popParams (tab : FnTable) (fn : FnInfo) : Nat → VState → Res VState
  | 0, s => .ok s
  | n + 1, s => do
      let (t, s) ← popT s
      let p ← tab.typeAt fn.paramT n
      require (t = p)
      popParams tab fn n s

-- ======== the loop

/-- The groups of `case` labels in the switch of `verify`. -/
inductive VCase
  | const | unary | binary | memsz | store | trap | open_ | ret | end_
  | getL | call | setL | br | brIf | declfn
deriving DecidableEq, Repr

/-- The group a token's label belongs to. -/
def Token.vcase : Token → VCase
  | .iConst => .const
  | .iClz | .iCtz | .iPopcnt | .iEqz
  | .iLd32 | .iLd16S | .iLd16U | .iLd8S | .iLd8U => .unary
  | .iAdd | .iAnd | .iDivS | .iDivU | .iMul | .iOr | .iRemS | .iRemU
  | .iRotl | .iRotr | .iShl | .iShrS | .iShrU | .iSub | .iXor
  | .iEq | .iGeS | .iGeU | .iGtS | .iGtU | .iLeS | .iLeU | .iLtS | .iLtU
  | .iNe => .binary
  | .iMemsz => .memsz
  | .str32 | .str16 | .str8 => .store
  | .trap => .trap
  | .block | .loop => .open_
  | .ret => .ret
  | .end_ => .end_
  | .getL => .getL
  | .call => .call
  | .setL => .setL
  | .br => .br
  | .brIf => .brIf
  | .vDeclfn | .iDeclfn => .declfn

variable (prog : List Byte)

/-- `if (place >= prog_len) return -1; if (prog[place] != end) return -1;` -/
def requireEnd (place : Nat) : Res Unit :=
  match prog[place]? with
  | none => .error .reject
  | some b => require (b = endByte)

/-- `get_type_list` as `verify` calls it: a -1 leaves `place` where it
was and is ignored. -/
def skipTypeList (place : Nat) : Res Nat :=
  match getTypeList prog place with
  | .ok (_, p) => .ok p
  | .error .reject => .ok place
  | .error .undefined => .error .undefined

/-- The body of a case of the switch, with `place` behind the token. -/
def verifyCase (tab : FnTable) (numFns : Nat) (c : VCase) (s : VState) :
    Res VState :=
  match c with
  | .const => do
      require s.isInFn
      let (_, place) ← getInt prog s.place
      pushT intT { s with place := place }
  | .unary => do
      require s.isInFn
      let s ← popExpect intT s
      pushT intT s
  | .binary => do
      require s.isInFn
      let s ← popExpect intT s
      let s ← popExpect intT s
      pushT intT s
  | .memsz => do
      require s.isInFn
      pushT intT s
  | .store => do
      require s.isInFn
      let (_, s) ← popT s
      popExpect intT s
  | .trap => do
      require s.isInFn
      requireEnd prog s.place
      .ok s
  | .open_ => do
      require s.isInFn
      pushFrame s
  | .ret => do
      require s.isInFn
      requireEnd prog s.place
      -- the type checked is that of `fn_infos[fnum]`, not of `cur_fn`
      let fn ← tab.fnAt s.fnum
      let s ← if fn.rt ≠ 0 then popExpect fn.rt s else .ok s
      requireEnd prog s.place
      .ok s
  | .end_ => popFrame s
  | .getL => do
      require s.isInFn
      let (v, place) ← getInt prog s.place
      let type ← getLocalT tab s.curFn v.toInt
      pushT type { s with place := place }
  | .call => do
      require s.isInFn
      let (v, place) ← getInt prog s.place
      let fnum := v.toInt
      require (0 ≤ fnum ∧ fnum < numFns)
      let fn ← tab.fnAt fnum
      let s ← popParams tab fn fn.paramN { s with place := place, fnum := fnum }
      if fn.rt ≠ 0 then pushT fn.rt s else .ok s
  | .setL => do
      require s.isInFn
      let (v, place) ← getInt prog s.place
      let (type, s) ← popT { s with place := place }
      let t ← getLocalT tab s.curFn v.toInt
      require (type = t)
      .ok s
  | .br => do
      require s.isInFn
      let (v, place) ← getInt prog s.place
      require (0 ≤ v.toInt)
      require (v.toInt < s.curFrame)
      requireEnd prog place
      .ok { s with place := place }
  | .brIf => do
      require s.isInFn
      let (v, place) ← getInt prog s.place
      require (0 ≤ v.toInt)
      require (v.toInt < s.curFrame)
      popExpect intT { s with place := place }
  | .declfn => do
      require (!s.isInFn)
      let s ← pushFrame s
      let place ← skipTypeList prog s.place
      let place ← skipTypeList prog place
      .ok { s with
        place := place
        prevFnNum := s.prevFnNum + 1
        stkPos := 0
        curFn := s.prevFnNum + 1 }

/-- One round of the loop of `verify`. -/
def verifyStep (tab : FnTable) (numFns : Nat) (s : VState) : Res VState :=
  match prog[s.place]? with
  | none => .error .undefined
  | some b =>
      match Token.ofByte b with
      | none => .error .reject
      | some t =>
          verifyCase prog tab numFns t.vcase { s with place := s.place + 1 }

/-- `verify` with freshly zeroed tables: the state in which it returns
0. -/
def verify (slot : Int) : Res VState := do
  let pop ← populateFns prog FnTable.empty
  require ((pop.tab.fns 0).paramN = 0)
  whileLt prog.length VState.place (verifyStep prog pop.tab pop.fnNum)
    prog.length (VState.init slot)

/-- `verify` accepts the program when its stack slot of `fnum` starts
out as `slot`. -/
def Accepts (slot : Int) : Prop := ∃ s, verify prog slot = .ok s

/-- The state of `verify` when it has scanned `k` tokens. -/
def verifyAt (slot : Int) (k : Nat) : Res VState := do
  let pop ← populateFns prog FnTable.empty
  iterate (verifyStep prog pop.tab pop.fnNum) k (VState.init slot)

end Xv6Sume32.Sume
