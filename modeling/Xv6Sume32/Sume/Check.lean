/-
The verification algorithm on instruction lists: what `verify` does,
without its bytes, counters and arrays.

A `View` is what the verifier's tables mean at a token boundary: the
operand types as a list, and for every open frame the operand height at
which it was opened. `check` is one token of the scan on views. The
array program refines it step by step (Proofs/Refine.lean), and every
property of accepted programs is proved about `check`.

`last` is the content of the slot of `fnum`: a `ret` is checked against
the function it names, whichever function is being scanned.
-/
import Xv6Sume32.Sume.Verif
import Xv6Sume32.Sume.Program

namespace Xv6Sume32.Sume

open Lib

/-- The verifier's state at a token boundary: operand types top first,
entry heights of the open frames innermost first (none outside a
function, the function's own frame last), the number of functions begun
and the function `fnum` names. -/
structure View where
  stk : List Ty
  hts : List Nat
  fns : Nat
  last : Int

/-- The state before the first token. -/
def View.init (slot : Int) : View := ⟨[], [], 0, slot⟩

namespace View

variable (v : View)

/-- Push a type inside a function, if the table has room. -/
def push (t : Ty) : Option View :=
  if v.hts ≠ [] ∧ v.stk.length < 4096 then
    some { v with stk := t :: v.stk }
  else none

/-- Pop a type that lies above the innermost frame's entry height. -/
def pop : Option (Ty × View) :=
  match v.hts, v.stk with
  | h :: _, t :: rest =>
      if h ≠ v.stk.length then some (t, { v with stk := rest }) else none
  | _, _ => none

/-- Pop a given type. -/
def popExpect (t : Ty) : Option View := do
  let (t', v') ← v.pop
  if t' = t then some v' else none

/-- Pop a list of types, the first from the top. -/
def popList : List Ty → View → Option View
  | [], v => some v
  | t :: ts, v => do
      let v' ← v.popExpect t
      popList ts v'

/-- Open a block or loop. -/
def enter : Option View :=
  if v.hts ≠ [] ∧ v.hts.length < 64 then
    some { v with hts := v.stk.length :: v.hts }
  else none

/-- Close the innermost frame. -/
def leave : Option View :=
  match v.hts with
  | [] => none
  | [_] => some { v with stk := [], hts := [] }
  | h :: h' :: hs => some { v with stk := cut h v.stk, hts := h' :: hs }

/-- Begin a function. -/
def begin : Option View :=
  if v.hts = [] then
    some { v with stk := [], hts := [0], fns := v.fns + 1 }
  else none

/-- The signature of the function being scanned. -/
def sig (sigs : List Sig) : Option Sig := sigs[v.fns - 1]?

/-- A branch operand names a block or loop. -/
def labelOk (n : Int) : Prop := 0 ≤ n ∧ n < v.hts.length - 1

instance (n : Int) : Decidable (v.labelOk n) :=
  inferInstanceAs (Decidable (_ ∧ _))

/-- The result type `fn_infos[fnum].rt`; entries past the declared
functions are zero, and an index outside the table is undefined. -/
def retT (sigs : List Sig) : Option Ty :=
  if 0 ≤ v.last ∧ v.last < 64 then
    some ((sigs[v.last.toNat]?).elim 0 Sig.rt)
  else none

end View

/-- The tokens that verify wants an `end` to follow. -/
def Token.needsEnd : Token → Bool
  | .trap | .ret | .br => true
  | _ => false

/-- One token of the verification. -/
def check (sigs : List Sig) (v : View) (i : Instr) : Option View :=
  match i.token.vcase with
  | .const | .memsz => v.push intT
  | .unary => do
      let v ← v.popExpect intT
      v.push intT
  | .binary => do
      let v ← v.popExpect intT
      let v ← v.popExpect intT
      v.push intT
  | .store => do
      let (_, v) ← v.pop
      v.popExpect intT
  | .trap => if v.hts ≠ [] then some v else none
  | .open_ => v.enter
  | .ret =>
      if v.hts ≠ [] then do
        let t ← v.retT sigs
        if t ≠ 0 then v.popExpect t else some v
      else none
  | .end_ => v.leave
  | .getL => do
      let g ← v.sig sigs
      let t ← g.localT i.arg.toInt
      v.push t
  | .call =>
      if v.hts ≠ [] then do
        let f ← sigNum sigs i.arg.toInt
        let v ← View.popList f.params.reverse { v with last := i.arg.toInt }
        if f.rt ≠ 0 then v.push f.rt else some v
      else none
  | .setL => do
      let (t, v) ← v.pop
      let g ← v.sig sigs
      let t' ← g.localT i.arg.toInt
      if t = t' then some v else none
  | .br => if v.labelOk i.arg.toInt then some v else none
  | .brIf => if v.labelOk i.arg.toInt then v.popExpect intT else none
  | .declfn => v.begin

/-- The verification of the first tokens of a program. -/
def checkAll (sigs : List Sig) : View → List Instr → Option View
  | v, [] => some v
  | v, i :: is => do
      let v' ← check sigs v i
      checkAll sigs v' is

/-- The view before instruction `k`. -/
def viewAt (slot : Int) (ts : List Instr) (k : Nat) : Option View :=
  checkAll (sigsOf ts) (View.init slot) (ts.take k)

end Xv6Sume32.Sume
