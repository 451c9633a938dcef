/-
Reading the binary format (`from_ir.c`) and the two passes that collect
the declared functions (`populate_fns.c`).

The program text is a list of bytes; `place` is an index into it. A
program sits in the memory of one user process, below two gigabytes, so
`place` never wraps and is a natural number.

# Packed type lists

`getTypeList` reads two-bit codes, four to a byte, up to the zero code
that ends the list. Every code is stored into a 64-byte buffer of the
caller before the next is read: the 65th store is outside the buffer.

# The function table

`fn_infos` has 64 entries, and the type lists they point to are copied
one after the other into `heap`, 4096 bytes long. A pointer into the
heap is its offset, a null pointer `none`; both tables start zeroed.
`memcmp` is the user library's (`ulib.c`), which returns 1 when the
bytes agree and 0 when they differ.
-/
import Xv6Sume32.Sume.Token
import Xv6Sume32.Lib.Loop

namespace Xv6Sume32.Sume

open Lib

variable (prog : List Byte)

-- ======== reading operands

/-- `get_int`: the four little-endian bytes at `place`. The test wants a
byte to follow the operand as well. -/
def getInt (place : Nat) : Res (Word × Nat) :=
  if prog.length ≤ place + 4 then .error .reject
  else .ok (ofLe (prog.getD place 0) (prog.getD (place + 1) 0)
      (prog.getD (place + 2) 0) (prog.getD (place + 3) 0), place + 4)

/-- The `pos`-th two-bit code of the type list at `place`, when its byte
is inside the program. -/
def typeCode (place pos : Nat) : Option Ty :=
  prog[place + pos / 4]?.map fun b : Byte => (b >>> (2 * (pos % 4))) &&& 3

/-- The size of the buffers type lists are read into. -/
def typeBufSz : Nat := 64

/-- The loop of `get_type_list` from code `pos` on, with the codes
stored so far. The buffer bounds the rounds, so the fuel never ends a
list that fits. -/
def getTypeListLoop (place : Nat) : Nat → Nat → List Ty → Res (List Ty × Nat)
  | 0, _, _ => .error .undefined
  | fuel + 1, pos, acc =>
      match typeCode prog place pos with
      | none => .error .reject
      | some t =>
          if t = 0 then .ok (acc, place + (pos / 4 + 1))
          else do
            inRange (pos < typeBufSz)
            getTypeListLoop place fuel (pos + 1) (acc ++ [t])

/-- `get_type_list`: the types and the place after the list. -/
def getTypeList (place : Nat) : Res (List Ty × Nat) :=
  getTypeListLoop prog place (typeBufSz + 1) 0 []

-- ======== the function table

/-- `struct fn_info`. -/
structure FnInfo where
  rt : Ty
  paramT : Option Nat
  paramN : Nat
  localT : Option Nat
  localN : Nat

/-- The zeroed entry. -/
def FnInfo.zero : FnInfo := ⟨0, none, 0, none, 0⟩

/-- `fn_infos` together with the heap its type lists live in. -/
structure FnTable where
  fns : Nat → FnInfo
  heap : Nat → Ty
  heapPos : Nat

/-- The tables as the program starts. -/
def FnTable.empty : FnTable := ⟨fun _ => FnInfo.zero, fun _ => 0, 0⟩

/-- The number of entries of `fn_infos`. -/
def fnInfosSz : Nat := 64

/-- The size of `heap`. -/
def heapSz : Nat := 4096

/-- `memcmp` of the user library: 0 when a byte differs, 1 when the
ranges agree. -/
def memcmp : List Ty → List Ty → Int
  | a :: as, b :: bs => if a ≠ b then 0 else memcmp as bs
  | _, _ => 1

/-- The `n` heap bytes from `off`. -/
def FnTable.slice (tab : FnTable) (off n : Nat) : List Ty :=
  (List.range n).map fun i => tab.heap (off + i)

/-- Replace one entry of the function table. -/
def FnTable.setFn (tab : FnTable) (k : Nat) (fn : FnInfo) : FnTable :=
  { tab with fns := fun j => if j = k then fn else tab.fns j }

/-- `memmove(heap+heap_pos, ts, n); heap_pos += n;` -/
def FnTable.append (tab : FnTable) (ts : List Ty) : Res FnTable := do
  inRange (ts.length = 0 ∨ tab.heapPos + ts.length ≤ heapSz)
  .ok { tab with
    heap := fun j =>
      if tab.heapPos ≤ j ∧ j < tab.heapPos + ts.length then
        ts.getD (j - tab.heapPos) 0
      else tab.heap j
    heapPos := tab.heapPos + ts.length }

/-- `add_fn_params` for entry `k`: record the list, or compare it with
the one recorded before. -/
def addFnParams (tab : FnTable) (k : Nat) (ts : List Ty) : Res FnTable :=
  match (tab.fns k).paramT with
  | some off => do
      require (ts.length = (tab.fns k).paramN)
      require (memcmp (tab.slice off ts.length) ts = 0)
      .ok tab
  | none =>
      (tab.setFn k { tab.fns k with
        paramT := some tab.heapPos, paramN := ts.length }).append ts

/-- `add_fn_locals` for entry `k`. -/
def addFnLocals (tab : FnTable) (k : Nat) (ts : List Ty) : Res FnTable :=
  match (tab.fns k).localT with
  | some off => do
      require (ts.length = (tab.fns k).localN)
      require (memcmp (tab.slice off ts.length) ts = 0)
      .ok tab
  | none =>
      (tab.setFn k { tab.fns k with
        localT := some tab.heapPos, localN := ts.length }).append ts

-- ======== populate_fns

/-- The variables of `populate_fns`. -/
structure PopState where
  place : Nat
  fnNum : Nat
  tab : FnTable

/-- `add_fn`, with `place` already behind the token. -/
def addFn (rt : Ty) (s : PopState) : Res PopState := do
  inRange (s.fnNum < fnInfosSz)
  let tab := s.tab.setFn s.fnNum { s.tab.fns s.fnNum with rt := rt }
  let (ps, place) ← getTypeList prog s.place
  let tab ← addFnParams tab s.fnNum ps
  let (ls, place) ← getTypeList prog place
  let tab ← addFnLocals tab s.fnNum ls
  .ok ⟨place, s.fnNum + 1, tab⟩

/-- One round of the loop of `populate_fns`. -/
def populateStep (s : PopState) : Res PopState :=
  match prog[s.place]? with
  | none => .error .undefined
  | some b =>
      match Token.ofByte b with
      | none => .error .reject
      | some t =>
          let s := { s with place := s.place + 1 }
          match t.operand with
          | .none => .ok s
          | .int => do
              let (_, place) ← getInt prog s.place
              .ok { s with place := place }
          | .types => addFn prog t.declRt s

/-- `populate_fns` on tables that may hold an earlier run's entries. -/
def populateFns (tab : FnTable) : Res PopState :=
  whileLt prog.length PopState.place (populateStep prog) prog.length
    ⟨0, 0, tab⟩

/-- The state of `populate_fns` on empty tables when it has read `k`
tokens. -/
def populateAt (k : Nat) : Res PopState :=
  iterate (populateStep prog) k ⟨0, 0, FnTable.empty⟩

-- ======== asm_populate_fns

/-- `struct asm_fn_info`. -/
structure AsmFnInfo where
  rt : Ty
  fnAddr : Word
  paramN : Nat
  localN : Nat

/-- The variables of `asm_populate_fns`. -/
structure AsmPopState where
  place : Nat
  fnNum : Nat
  fns : Nat → AsmFnInfo

/-- `asm_add_fn`, with `place` already behind the token. -/
def asmAddFn (rt : Ty) (s : AsmPopState) : Res AsmPopState := do
  inRange (s.fnNum < fnInfosSz)
  let (ps, place) ← getTypeList prog s.place
  let (ls, place) ← getTypeList prog place
  .ok ⟨place, s.fnNum + 1, fun j =>
    if j = s.fnNum then
      ⟨rt, (s.fns j).fnAddr, ps.length, ls.length⟩
    else s.fns j⟩

/-- One round of the loop of `asm_populate_fns`. -/
def asmPopulateStep (s : AsmPopState) : Res AsmPopState :=
  match prog[s.place]? with
  | none => .error .undefined
  | some b =>
      match Token.ofByte b with
      | none => .error .reject
      | some t =>
          let s := { s with place := s.place + 1 }
          match t.operand with
          | .none => .ok s
          | .int => do
              let (_, place) ← getInt prog s.place
              .ok { s with place := place }
          | .types => asmAddFn prog t.declRt s

/-- `asm_populate_fns` on a zeroed table. -/
def asmPopulateFns : Res AsmPopState :=
  whileLt prog.length AsmPopState.place (asmPopulateStep prog) prog.length
    ⟨0, 0, fun _ => ⟨0, 0, 0, 0⟩⟩

/-- The state of `asm_populate_fns` when it has read `k` tokens. -/
def asmPopulateAt (k : Nat) : Res AsmPopState :=
  iterate (asmPopulateStep prog) k ⟨0, 0, fun _ => ⟨0, 0, 0, 0⟩⟩

end Xv6Sume32.Sume
