/-
The compiler (`to_asm.c`): two linear passes over the program that write
x86 code into a buffer.

# Emission

The C code writes each instruction with an encoder at `buf+asm_i` and
advances `asm_i` by the length returned. An `Item` is such a call; its
arguments may use the address `base_addr+asm_i` it is written at and the
value of `stkh` at that point, which is what the jumps and the stack
adjustments of `br` and `br_if` do. `assemble` runs a list of them. The
buffer is the list of bytes written so far, `asm_i` its length.

# The passes

`populate_infos` runs twice over the same tables. The first run
(`gen_info` 1) records where functions and blocks lie and what `stkh` is
at their entry, and jumps to whatever the tables hold; the second
rewrites the same bytes with the final addresses. Only the bytes of the
second run are the result; a buffer too small for either run is outside
the model, as is every table index out of range.

A failing `get_int` leaves `iv` with what it held before; the compiler
does not look, the model stops. A failing `asm_populate_fns` leaves the
tables half filled; here too the model stops.
-/
import Xv6Sume32.Asm.Instrs
import Xv6Sume32.Sume.Verif

namespace Xv6Sume32.Asm

open Lib X86 Sume

-- ======== emission

/-- An encoder call, given the address it writes at and `stkh`. -/
abbrev Item := Word → Int → Op

/-- Run encoder calls, the bytes so far and `stkh` passed along. -/
def assemble (base : Word) : List Item → List Byte × Int → List Byte × Int
  | [], s => s
  | it :: its, (buf, stkh) =>
      let o := it (base + BitVec.ofNat 32 buf.length) stkh
      assemble base its (buf ++ o.bytes, stkh + o.counts)

/-- An encoder call with fixed arguments. -/
def fixed (o : Op) : Item := fun _ _ => o

/-- `push_r32(r, &stkh, …)` and `pop_r32(r, &stkh, …)`. -/
def push (r : Reg) : Item := fixed (.push r .stkh)
def pop (r : Reg) : Item := fixed (.pop r .stkh)

/-- `push_r32(r, &nil, …)` and `pop_r32(r, &nil, …)`. -/
def pushNil (r : Reg) : Item := fixed (.push r .nil)
def popNil (r : Reg) : Item := fixed (.pop r .nil)

/-- `jae_rel(base_addr+asm_i, stop, …)`. -/
def jae (stop : Word) : Item := fun here _ => .jaeRel here stop

/-- `jmp_rel(base_addr+asm_i, stop, …)`. -/
def jmp (stop : Word) : Item := fun here _ => .jmpRel here stop

/-- `call_rel(base_addr+asm_i, stop, …)`. -/
def call (stop : Word) : Item := fun here _ => .callRel here stop

/-- `add_r32_imm(ESP, 4*(stkh), …)`. -/
def dropAll : Item := fun _ stkh => .addImm .esp (BitVec.ofInt 32 (4 * stkh))

-- ======== the frame

/-- `prelude`. -/
def prelude (startAddr : Word) (localN : Nat) : List Item :=
  [ pushNil .ebp, fixed (.mov .ebp .esp),
    pushNil .ebx, pushNil .esi, pushNil .edi,
    fixed (.movFromDisEbp .edi (8 + 0)), fixed (.movFromDisEbp .esi (8 + 4)),
    fixed (.movFromDisEbp .eax (8 + 8)), fixed (.subImm .eax 4),
    fixed (.mov .ebp .eax), fixed (.movAr32 .eax .esp),
    fixed (.mov .esp .eax), fixed (.mov .ebp .esp),
    fixed (.subImm .esp (BitVec.ofNat 32 (4 * localN))),
    pushNil .ebp, fixed (.mov .ebp .esp), fixed (.subImm .ebp 4),
    call startAddr ]

/-- `goodret`. -/
def goodret : List Item :=
  [ popNil .esp, popNil .esp, popNil .edi, popNil .esi, popNil .ebx,
    popNil .ebp, fixed (.xor .eax .eax), fixed .ret ]

/-- `trapret`: the exit test compares with the address of `goodret` as
an immediate. -/
def trapret (goodretAddr : Word) : List Item :=
  [ fixed (.mov .esp .ebp), fixed (.movImm .ebx goodretAddr),
    -- unwind:
    popNil .eax, popNil .esp, fixed (.cmp .eax .ebx),
    fixed (.jneRel 0 (-4)),
    popNil .esp, popNil .edi, popNil .esi, popNil .ebx, popNil .ebp,
    fixed (.movImm .eax (-1)), fixed .ret ]

-- ======== the tokens

/-- `pop_r32(EBX), pop_r32(EAX)`, the operation, `push_r32(r)`. -/
def binary (ops : List Op) (r : Reg) : List Item :=
  [pop .ebx, pop .eax] ++ ops.map fixed ++ [push r]

/-- A shift or rotate by a count popped into EBX. -/
def shift (o : Op) : List Item := binary [.mov .ecx .ebx, o] .eax

/-- A comparison that leaves 0 or 1 in ECX. -/
def compare (cc : Cc) : List Item :=
  binary [.xor .ecx .ecx, .cmp .eax .ebx, .set cc .cl] .ecx

/-- A heap access at the index in EAX: the scaled index is compared with
the size in ESI, the base in EDI added. -/
def bounded (trapretAddr : Word) (scale : List Op) (access : Op) :
    List Item :=
  scale.map fixed ++
    [fixed (.cmp .eax .esi), jae trapretAddr, fixed (.add .eax .edi),
      fixed access]

/-- A load. -/
def load (trapretAddr : Word) (scale : List Op) (access : Op) : List Item :=
  [pop .eax] ++ bounded trapretAddr scale access ++ [push .eax]

/-- A store. -/
def store (trapretAddr : Word) (scale : List Op) (access : Op) : List Item :=
  [pop .ebx, pop .eax] ++ bounded trapretAddr scale access

/-- The code of the tokens that read neither an operand nor a table. -/
def plainItems (trapretAddr : Word) : Token → List Item
  | .iClz => binary [.bsf .eax .eax] .eax
  | .iCtz => binary [.bsr .eax .eax] .eax
  | .iPopcnt => []
  | .iAdd => binary [.add .eax .ebx] .eax
  | .iAnd => binary [.and .eax .ebx] .eax
  | .iDivS => binary [.xor .edx .edx, .idiv .ebx] .eax
  | .iDivU => binary [.xor .edx .edx, .div .ebx] .eax
  | .iMul => binary [.mul .ebx] .eax
  | .iOr => binary [.or .eax .ebx] .eax
  | .iRemS => binary [.xor .edx .edx, .idiv .ebx] .edx
  | .iRemU => binary [.xor .edx .edx, .div .ebx] .edx
  | .iRotl => shift (.rol .eax)
  | .iRotr => shift (.ror .eax)
  | .iShl => shift (.shl .eax)
  | .iShrS => shift (.sar .eax)
  | .iShrU => shift (.shr .eax)
  | .iSub => binary [.sub .eax .ebx] .eax
  | .iXor => binary [.xor .eax .ebx] .eax
  | .iEqz => [pop .eax, fixed (.xor .ecx .ecx), fixed (.test .eax .eax),
      fixed (.set .e .cl), push .ecx]
  | .iEq => compare .e
  | .iGeS => compare .ge
  | .iGeU => compare .ae
  | .iGtS => compare .g
  | .iGtU => compare .a
  | .iLeS => compare .le
  | .iLeU => compare .be
  | .iLtS => compare .l
  | .iLtU => compare .b
  | .iNe => compare .ne
  | .iLd32 => load trapretAddr [.shlImm .eax 2] (.movFromAr32 .eax .eax)
  | .iLd16S => load trapretAddr [.shlImm .eax 1] (.movsx16 .eax .eax)
  | .iLd16U => load trapretAddr [.shlImm .eax 1] (.movzx16 .eax .eax)
  | .iLd8S => load trapretAddr [] (.movsx8 .eax .eax)
  | .iLd8U => load trapretAddr [] (.movzx8 .eax .eax)
  | .iMemsz => [push .esi]
  | .str32 => store trapretAddr [.shlImm .eax 2] (.movAr32 .eax .ebx)
  | .str16 => []
  | .str8 => store trapretAddr [] (.movAr8 .eax .bl)
  | .trap => [jmp trapretAddr]
  | _ => []

/-- `struct asm_blk_info`. -/
structure BlkInfo where
  brAddr : Word
  stkHeight : Int

/-- The variables of `populate_infos` and the tables it works on. -/
structure AsmState where
  place : Nat
  buf : List Byte
  curFn : Int
  curBlk : Int
  curBlkH : Int
  stkh : Int
  blkStk : Int → Int
  fns : Int → AsmFnInfo
  blks : Int → BlkInfo

/-- The number of entries of `blk_infos`. -/
def blkInfosSz : Int := 256

/-- The number of entries of `cur_blk_stk`. -/
def curBlkStkSz : Int := 64

section Pass

variable (prog : List Byte) (base : Word) (cap : Nat)

/-- Append code to the buffer. -/
def emit (items : List Item) (s : AsmState) : Res AsmState := do
  let r := assemble base items (s.buf, s.stkh)
  inRange (r.1.length ≤ cap)
  .ok { s with buf := r.1, stkh := r.2 }

/-- The operand of a token. -/
def operand (place : Nat) : Res (Word × Nat) :=
  match getInt prog place with
  | .ok r => .ok r
  | .error _ => .error .undefined

/-- `fn_infos[k]`. -/
def AsmState.fnAt (s : AsmState) (k : Int) : Res AsmFnInfo := do
  inRange (0 ≤ k ∧ k < fnInfosSz)
  .ok (s.fns k)

/-- `blk_infos[cur_blk_stk[cur_blk_h-n]]`. -/
def AsmState.blkAt (s : AsmState) (n : Int) : Res BlkInfo := do
  inRange (0 ≤ s.curBlkH - n ∧ s.curBlkH - n < curBlkStkSz)
  let blkN := s.blkStk (s.curBlkH - n)
  inRange (0 ≤ blkN ∧ blkN < blkInfosSz)
  .ok (s.blks blkN)

/-- Open a block, a loop or a function: the next entry of the tables. -/
def AsmState.openBlk (s : AsmState) : Res AsmState := do
  let blk := s.curBlk + 1
  let h := s.curBlkH + 1
  inRange (0 ≤ h ∧ h < curBlkStkSz)
  .ok { s with
    curBlk := blk, curBlkH := h
    blkStk := fun i => if i = h then blk else s.blkStk i }

/-- Record the innermost block when `gen_info` is set. -/
def AsmState.record (s : AsmState) (gen : Bool) (info : BlkInfo) :
    Res AsmState :=
  if gen then do
    inRange (0 ≤ s.curBlk ∧ s.curBlk < blkInfosSz)
    .ok { s with blks := fun i => if i = s.curBlk then info else s.blks i }
  else .ok s

/-- Record the current function's address when `gen_info` is set. -/
def AsmState.recordFn (s : AsmState) (gen : Bool) (addr : Word) :
    Res AsmState :=
  if gen then do
    inRange (0 ≤ s.curFn ∧ s.curFn < (fnInfosSz : Int))
    .ok { s with fns := fun k =>
      if k = s.curFn then { s.fns k with fnAddr := addr } else s.fns k }
  else .ok s

/-- The displacement of local `iv` from EBP. -/
def localDis (fn : AsmFnInfo) (iv : Word) : Word :=
  4 * (BitVec.ofNat 32 fn.paramN + BitVec.ofNat 32 fn.localN - iv + 1)

/-- The case `end`: a block's code drops what it holds above its
parent. -/
def endCase (gen : Bool) (s : AsmState) : Res AsmState :=
  if 0 < s.curBlkH then do
    let own ← s.blkAt 0
    let parent ← s.blkAt 1
    let s := { s with stkh := parent.stkHeight }
    let s ← emit base cap [fixed (.addImm .esp
      (BitVec.ofInt 32 (4 * (own.stkHeight - parent.stkHeight))))] s
    let blkN := s.blkStk s.curBlkH
    let s := if gen ∧ own.brAddr = 0 then
        { s with blks := fun i =>
            if i = blkN then
              { own with brAddr := base + BitVec.ofNat 32 s.buf.length }
            else s.blks i }
      else s
    .ok { s with curBlkH := s.curBlkH - 1 }
  else .ok { s with curBlkH := s.curBlkH - 1 }

/-- The body of a case of the switch, with `place` behind the token. -/
def asmCase (gen : Bool) (trapretAddr : Word) (t : Token) (s : AsmState) :
    Res AsmState :=
  match t with
  | .iConst => do
      let (iv, place) ← operand prog s.place
      emit base cap [fixed (.movImm .eax iv), push .eax]
        { s with place := place }
  | .getL => do
      let (iv, place) ← operand prog s.place
      let fn ← s.fnAt s.curFn
      emit base cap [fixed (.movFromDisEbp .eax (localDis fn iv)), push .eax]
        { s with place := place }
  | .setL => do
      let (iv, place) ← operand prog s.place
      let fn ← s.fnAt s.curFn
      emit base cap [pop .eax, fixed (.movDisEbp (localDis fn iv) .eax)]
        { s with place := place }
  | .block => do
      let s ← s.openBlk
      s.record gen ⟨0, s.stkh⟩
  | .loop => do
      let s ← s.openBlk
      s.record gen ⟨base + BitVec.ofNat 32 s.buf.length, s.stkh⟩
  | .br => do
      let (iv, place) ← operand prog s.place
      let blk ← s.blkAt iv.toInt
      emit base cap [dropAll, jmp blk.brAddr] { s with place := place }
  | .brIf => do
      let (iv, place) ← operand prog s.place
      let blk ← s.blkAt iv.toInt
      emit base cap [pop .eax, fixed (.test .eax .eax),
        fixed (.jzRel 0 17), dropAll, jmp blk.brAddr] { s with place := place }
  | .ret => do
      let fn ← s.fnAt s.curFn
      emit base cap ((if fn.rt ≠ 0 then [pop .eax] else [])
        ++ [fixed (.mov .esp .ebp), fixed .ret]) s
  | .end_ => endCase base cap gen s
  | .call => do
      let (iv, place) ← operand prog s.place
      let fn ← s.fnAt iv.toInt
      -- the callee's locals are counted in bytes here, in words below
      let s ← emit base cap
        [ fixed (.subImm .esp (BitVec.ofNat 32 fn.localN)), pushNil .ebp,
          fixed (.mov .ebp .esp), fixed (.subImm .ebp 4), call fn.fnAddr,
          popNil .ebp,
          fixed (.addImm .esp
            (BitVec.ofNat 32 (4 * (fn.paramN + fn.localN)))) ]
        { s with place := place }
      let s := { s with stkh := s.stkh - fn.paramN }
      emit base cap (if fn.rt ≠ 0 then [push .eax] else []) s
  | .vDeclfn | .iDeclfn => do
      let s ← { s with curFn := s.curFn + 1 }.openBlk
      let place ← skipTypeList prog s.place
      let place ← skipTypeList prog place
      let s ← { s with place := place }.recordFn gen
        (base + BitVec.ofNat 32 s.buf.length)
      s.record gen ⟨-1, 0⟩
  | t => emit base cap (plainItems trapretAddr t) s

/-- One round of the loop of `populate_infos`. -/
def asmStep (gen : Bool) (trapretAddr : Word) (s : AsmState) :
    Res AsmState :=
  match prog[s.place]? with
  | none => .error .undefined
  | some b =>
      match Token.ofByte b with
      | none => .ok { s with place := s.place + 1 }
      | some t =>
          asmCase prog base cap gen trapretAddr t { s with place := s.place + 1 }

/-- What `populate_infos` leaves in the global variables. -/
structure Globals where
  goodretAddr : Word
  trapretAddr : Word
  startAddr : Word
  fns : Int → AsmFnInfo
  blks : Int → BlkInfo

/-- The code in front of the first token, and the globals it sets. -/
def header (g : Globals) : List Byte × Globals :=
  let pre := (assemble base (prelude g.startAddr (g.fns 0).localN) ([], 0)).1
  let g := { g with goodretAddr := BitVec.ofNat 32 pre.length }
  let good := (assemble base goodret (pre, 0)).1
  let g := { g with trapretAddr := BitVec.ofNat 32 good.length }
  let all := (assemble base (trapret g.goodretAddr) (good, 0)).1
  (all, { g with startAddr := BitVec.ofNat 32 all.length })

/-- The state before the first token. -/
def passInit (g : Globals) : AsmState where
  place := 0
  buf := (header base g).1
  curFn := -1
  curBlk := -1
  curBlkH := -1
  stkh := 0
  blkStk := fun _ => 0
  fns := g.fns
  blks := g.blks

/-- `populate_infos`. -/
def populateInfos (gen : Bool) (g : Globals) : Res (Globals × List Byte) := do
  let h := header base g
  inRange (h.1.length ≤ cap)
  let s ← whileLt prog.length AsmState.place
    (asmStep prog base cap gen h.2.trapretAddr) prog.length (passInit base g)
  .ok ({ h.2 with fns := s.fns, blks := s.blks }, s.buf)

/-- The globals before the first run, the function table filled in. -/
def globalsInit : Res Globals := do
  let fs ← asmPopulateFns prog
  .ok ⟨0, 0, 0, fun k => fs.fns k.toNat, fun _ => ⟨0, 0⟩⟩

/-- `to_asm` into a buffer of `cap` bytes. -/
def toAsm : Res (List Byte) := do
  let g ← globalsInit prog
  let (g, _) ← populateInfos prog base cap true g
  let (_, code) ← populateInfos prog base cap false g
  .ok code

/-- The state of the second run when it has read `k` tokens; the length
of its buffer is where the code of the next one starts. -/
def asmAt (k : Nat) : Res AsmState := do
  let g ← globalsInit prog
  let (g, _) ← populateInfos prog base cap true g
  iterate (asmStep prog base cap false (header base g).2.trapretAddr) k
    (passInit base g)

/-- The same for the first run. -/
def asmGenAt (k : Nat) : Res AsmState := do
  let g ← globalsInit prog
  iterate (asmStep prog base cap true (header base g).2.trapretAddr) k
    (passInit base g)

end Pass

end Xv6Sume32.Asm
