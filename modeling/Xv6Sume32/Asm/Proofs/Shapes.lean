/-
The code of each token, written out.

`codeOf` gives the operations of an instruction through encoder calls that
still have to be resolved to a position and a height. The lemmas here are
the results for each kind of token, with the jumps' own positions filled
in; the proofs about runs start from them.
-/
import Xv6Sume32.Asm.Proofs.Exec

namespace Xv6Sume32.Asm

open Lib X86 Sume
open BitVec (ofNat ofInt)

variable {ts : List Sume.Instr} {k : Nat} {i : Sume.Instr}

variable {w p j : Nat} {h : Int} {t : Token} {os : List Op} {r : Reg} {g : Sig}

-- ======== resolution

theorem resolve_map_fixed {base : Word} : ∀ {os : List Op} {p : Nat} {h : Int},
    resolve base (os.map fixed) p h = os := by
  intro os
  induction os with
  | nil =>
    intro p h
    rfl
  | cons o os ih =>
    intro p h
    show o :: resolve base (os.map fixed) _ _ = _
    rw [ih]

theorem size_map_fixed (os : List Op) : size (os.map fixed) = (bytesOf os).length := by
  have hlen : (bytesOf (resolve 0 (os.map fixed) 0 0)).length = size (os.map fixed) :=
    resolve_length (uniform_map os)
  rw [resolve_map_fixed] at hlen
  exact hlen.symm

-- ======== heap accesses

/-- The tokens that access the heap, with the width of their cells. -/
def heapWidth : Token → Option Nat
  | .iLd32 | .str32 => some 4
  | .iLd16S | .iLd16U => some 2
  | .iLd8S | .iLd8U | .str8 => some 1
  | _ => none

/-- The scaling of the index, by the exponent of the width. -/
def scaleOps (n : Nat) : List Op :=
  if n = 0 then [] else [.shlImm .eax (ofNat 32 n)]

/-- The exponent of the width. -/
def heapShift : Token → Nat
  | .iLd32 | .str32 => 2
  | .iLd16S | .iLd16U => 1
  | _ => 0

/-- The instruction that accesses the cell. -/
def heapOp : Token → Op
  | .iLd32 => .movFromAr32 .eax .eax
  | .iLd16S => .movsx16 .eax .eax
  | .iLd16U => .movzx16 .eax .eax
  | .iLd8S => .movsx8 .eax .eax
  | .iLd8U => .movzx8 .eax .eax
  | .str32 => .movAr32 .eax .ebx
  | _ => .movAr8 .eax .bl

/-- The operands a heap access pops, in order. -/
def heapPops : Token → List Op
  | .str32 | .str8 => [.pop .ebx .stkh, .pop .eax .stkh]
  | _ => [.pop .eax .stkh]

/-- What follows the access: a load pushes what it read. -/
def heapTail : Token → List Op
  | .str32 | .str8 => []
  | _ => [.push .eax .stkh]

/-- The code of a heap access at `p`. -/
def heapCode (t : Token) (p : Nat) : List Op :=
  let q := p + (bytesOf (heapPops t ++ scaleOps (heapShift t))).length
  heapPops t ++ (scaleOps (heapShift t) ++ (.cmp .eax .esi
    :: .jaeRel (ofNat 32 (q + 2)) (ofNat 32 trapretPos)
    :: .add .eax .edi :: heapOp t :: heapTail t))

theorem resolve_bounded {w : Word} {scale : List Op} {acc : Op} :
    resolve 0 (bounded w scale acc) p h = scale ++ [.cmp .eax .esi,
          .jaeRel (ofNat 32 (p + (bytesOf scale).length + 2)) w, .add .eax .edi, acc] := by
  unfold bounded
  rw [resolve_append (uniform_map _), resolve_map_fixed, size_map_fixed]
  show scale ++ [_, Op.jaeRel (0#32 + ofNat 32 _) w, _, _] = _
  rw [BitVec.zero_add]
  rfl

theorem heapWidth_plain (hw : heapWidth t = some w) :
    plainToken t = true := by
  cases t <;> first | rfl | cases hw

/-- The code of a heap access, its jump resolved. -/
theorem resolve_heap (hw : heapWidth t = some w) :
    resolve 0 (plainItems (ofNat 32 trapretPos) t) p h = heapCode t p := by
  have hload : ∀ scale acc, resolve 0 (load (ofNat 32 trapretPos) scale acc) p h
      = [.pop .eax .stkh] ++ (scale ++ [.cmp .eax .esi,
          .jaeRel (ofNat 32 (p + 1 + (bytesOf scale).length + 2))
            (ofNat 32 trapretPos), .add .eax .edi, acc] ++ [.push .eax .stkh]) := by
    intro scale acc
    unfold load
    rw [List.append_assoc, resolve_append (by exact uniform_map [.pop .eax .stkh]),
      resolve_append (uniform_bounded _ _ _), resolve_bounded]
    rfl
  have hstore : ∀ scale acc, resolve 0 (store (ofNat 32 trapretPos) scale acc) p h
      = [.pop .ebx .stkh, .pop .eax .stkh] ++ (scale ++ [.cmp .eax .esi,
          .jaeRel (ofNat 32 (p + 2 + (bytesOf scale).length + 2))
            (ofNat 32 trapretPos), .add .eax .edi, acc]) := by
    intro scale acc
    unfold store
    rw [resolve_append (by exact uniform_map [.pop .ebx .stkh, .pop .eax .stkh]), resolve_bounded]
    rfl
  cases t <;> first | cases hw; done | skip
  all_goals first | exact hload _ _ | exact hstore _ _

theorem codeOf_heap {ts : List Sume.Instr} {k : Nat} {i : Sume.Instr}
    (hw : heapWidth i.token = some w) : codeOf ts k i = heapCode i.token (pos ts k) := by
  unfold codeOf
  rw [tokenItems_plain (heapWidth_plain hw)]
  exact resolve_heap hw

-- ======== computing

/-- The tokens whose code pops two operands, `i_clz` and `i_ctz` among
them: what it executes between the pops and the push, and the register it
pushes. -/
def binaryOps : Token → Option (List Op × Reg)
  | .iClz => some ([.bsf .eax .eax], .eax)
  | .iCtz => some ([.bsr .eax .eax], .eax)
  | .iAdd => some ([.add .eax .ebx], .eax)
  | .iAnd => some ([.and .eax .ebx], .eax)
  | .iDivS => some ([.xor .edx .edx, .idiv .ebx], .eax)
  | .iDivU => some ([.xor .edx .edx, .div .ebx], .eax)
  | .iMul => some ([.mul .ebx], .eax)
  | .iOr => some ([.or .eax .ebx], .eax)
  | .iRemS => some ([.xor .edx .edx, .idiv .ebx], .edx)
  | .iRemU => some ([.xor .edx .edx, .div .ebx], .edx)
  | .iRotl => some ([.mov .ecx .ebx, .rol .eax], .eax)
  | .iRotr => some ([.mov .ecx .ebx, .ror .eax], .eax)
  | .iShl => some ([.mov .ecx .ebx, .shl .eax], .eax)
  | .iShrS => some ([.mov .ecx .ebx, .sar .eax], .eax)
  | .iShrU => some ([.mov .ecx .ebx, .shr .eax], .eax)
  | .iSub => some ([.sub .eax .ebx], .eax)
  | .iXor => some ([.xor .eax .ebx], .eax)
  | .iEq => some ([.xor .ecx .ecx, .cmp .eax .ebx, .set .e .cl], .ecx)
  | .iGeS => some ([.xor .ecx .ecx, .cmp .eax .ebx, .set .ge .cl], .ecx)
  | .iGeU => some ([.xor .ecx .ecx, .cmp .eax .ebx, .set .ae .cl], .ecx)
  | .iGtS => some ([.xor .ecx .ecx, .cmp .eax .ebx, .set .g .cl], .ecx)
  | .iGtU => some ([.xor .ecx .ecx, .cmp .eax .ebx, .set .a .cl], .ecx)
  | .iLeS => some ([.xor .ecx .ecx, .cmp .eax .ebx, .set .le .cl], .ecx)
  | .iLeU => some ([.xor .ecx .ecx, .cmp .eax .ebx, .set .be .cl], .ecx)
  | .iLtS => some ([.xor .ecx .ecx, .cmp .eax .ebx, .set .l .cl], .ecx)
  | .iLtU => some ([.xor .ecx .ecx, .cmp .eax .ebx, .set .b .cl], .ecx)
  | .iNe => some ([.xor .ecx .ecx, .cmp .eax .ebx, .set .ne .cl], .ecx)
  | _ => none

theorem codeOf_binary (h : binaryOps i.token = some (os, r)) :
    codeOf ts k i = [.pop .ebx .stkh, .pop .eax .stkh] ++ os ++ [.push r .stkh] := by
  have hplain : plainToken i.token = true := by
    cases ht : i.token <;> rw [ht] at h <;> first | rfl | cases h
  have hitems : ∀ w, plainItems w i.token
      = ([Op.pop .ebx .stkh, .pop .eax .stkh] ++ os ++ [Op.push r .stkh]).map fixed := by
    intro w
    cases ht : i.token <;> rw [ht] at h <;> first | (cases h; rfl) | cases h
  unfold codeOf
  rw [tokenItems_plain hplain, hitems, resolve_map_fixed]

/-- Every operation between the pops and the push is quiet. -/
theorem binaryOps_quiet
    (h : binaryOps t = some (os, r)) : ∀ o ∈ os, o.quiet = true := by
  cases t <;> first | (cases h; decide) | cases h

theorem codeOf_eqz (ht : i.token = .iEqz) :
    codeOf ts k i = [.pop .eax .stkh, .xor .ecx .ecx, .test .eax .eax,
      .set .e .cl, .push .ecx .stkh] := by
  unfold codeOf tokenItems
  rw [ht]
  rfl

theorem codeOf_memsz (ht : i.token = .iMemsz) : codeOf ts k i = [.push .esi .stkh] := by
  unfold codeOf tokenItems
  rw [ht]
  rfl

theorem codeOf_const (ht : i.token = .iConst) :
    codeOf ts k i = [.movImm .eax i.arg, .push .eax .stkh] := by
  unfold codeOf tokenItems
  rw [ht]
  rfl

theorem codeOf_getL (ht : i.token = .getL) (hg : fnSig ts k = some g) : codeOf ts k i
      = [.movFromDisEbp .eax (slotDis g i.arg), .push .eax .stkh] := by
  unfold codeOf tokenItems
  rw [ht]
  simp only [hg]
  rfl

theorem codeOf_setL (ht : i.token = .setL) (hg : fnSig ts k = some g) : codeOf ts k i
      = [.pop .eax .stkh, .movDisEbp (slotDis g i.arg) .eax] := by
  unfold codeOf tokenItems
  rw [ht]
  simp only [hg]
  rfl

/-- The tokens the compiler emits nothing for, the bounds of blocks and
functions apart. -/
theorem codeOf_silent (ht : i.token = .iPopcnt ∨ i.token = .str16) : codeOf ts k i = [] := by
  unfold codeOf tokenItems
  rcases ht with ht | ht <;> rw [ht] <;> rfl

-- ======== control

theorem codeOf_trap (ht : i.token = .trap) : codeOf ts k i
      = [.jmpRel (ofNat 32 (pos ts k)) (ofNat 32 trapretPos)] := by
  unfold codeOf tokenItems
  rw [ht]
  show [Op.jmpRel (0#32 + ofNat 32 (pos ts k)) _] = _
  rw [BitVec.zero_add]
  rfl

theorem codeOf_br (ht : i.token = .br) (hj : (openAt ts k)[i.arg.toInt.toNat]? = some j) :
    codeOf ts k i = [.addImm .esp (ofInt 32 (4 * (track ts k).stkh)),
          .jmpRel (ofNat 32 (pos ts k + 6)) (ofNat 32 (targetPos ts j))] := by
  unfold codeOf tokenItems
  rw [ht]
  simp only [hj]
  show [_, Op.jmpRel (0#32 + ofNat 32 (pos ts k + 6)) _] = _
  rw [BitVec.zero_add]
  show [Op.addImm .esp (ofInt 32 (4 * (track ts k).stkh)), _] = _
  rfl

theorem codeOf_brIf (ht : i.token = .brIf)
    (hj : (openAt ts k)[i.arg.toInt.toNat]? = some j) : codeOf ts k i
      = [.pop .eax .stkh, .test .eax .eax, .jzRel 0 17,
          .addImm .esp (ofInt 32 (4 * ((track ts k).stkh - 1))),
          .jmpRel (ofNat 32 (pos ts k + 15)) (ofNat 32 (targetPos ts j))] := by
  unfold codeOf tokenItems
  rw [ht]
  simp only [hj]
  show [_, _, _, Op.addImm .esp (ofInt 32 (4 * ((track ts k).stkh + -1 + 0 + 0))),
    Op.jmpRel (0#32 + ofNat 32 (pos ts k + 1 + 2 + 6 + 6)) _] = _
  rw [BitVec.zero_add, Int.add_zero, Int.add_zero]
  rfl

theorem codeOf_ret (ht : i.token = .ret) (hg : fnSig ts k = some g) :
    codeOf ts k i = (if g.rt ≠ 0 then [.pop .eax .stkh] else []) ++ [.mov .esp .ebp, .ret] := by
  unfold codeOf tokenItems
  rw [ht]
  simp only [hg]
  unfold retItems
  split <;> rfl

theorem codeOf_end {j' : Nat} {rest : List Nat} (ht : i.token = .end_)
    (ho : openAt ts k = j :: j' :: rest) : codeOf ts k i = [.addImm .esp (ofInt 32
      (4 * (entryHeight ts j - entryHeight ts j')))] := by
  have hts := track_hts ts k
  rw [ho] at hts
  unfold codeOf tokenItems
  rw [ht]
  simp only [hts, List.map_cons]
  rfl

/-- The `end` of a function has no code. -/
theorem codeOf_end_fn (ht : i.token = .end_)
    (ho : (openAt ts k).length ≤ 1) : codeOf ts k i = [] := by
  have hts := track_hts ts k
  unfold codeOf tokenItems
  rw [ht]
  cases hop : openAt ts k with
  | nil =>
    rw [hop] at hts
    simp only [hts]
    rfl
  | cons a as =>
    rw [hop] at hts ho
    obtain rfl : as = [] := by simpa using ho
    simp only [hts]
    rfl

/-- Where the code of a function starts, by its number. -/
def entryPos (ts : List Sume.Instr) (n : Nat) : Nat :=
  (declPos ts n).elim 0 (pos ts)

/-- The operations of a `call` up to the transfer of control, at `p`. -/
def callOps (f : Sig) (p n : Nat) (ts : List Sume.Instr) : List Op :=
  [.subImm .esp (ofNat 32 f.locals.length), .push .ebp .nil,
    .mov .ebp .esp, .subImm .ebp 4,
    .callRel (ofNat 32 (p + 15)) (ofNat 32 (entryPos ts n))]

/-- The operations of a `call` behind the return. -/
def returnOps (f : Sig) : List Op :=
  [.pop .ebp .nil, .addImm .esp
      (ofNat 32 (4 * (f.params.length + f.locals.length)))]
    ++ if f.rt ≠ 0 then [.push .eax .stkh] else []

theorem codeOf_call {f : Sig} (ht : i.token = .call)
    (hf : sigNum (sigsOf ts) i.arg.toInt = some f) :
    codeOf ts k i = callOps f (pos ts k) i.arg.toInt.toNat ts ++ returnOps f := by
  unfold codeOf tokenItems
  rw [ht]
  simp only [hf]
  rw [resolve_append (uniform_callItems f _)]
  congr 1
  · show [_, _, _, _, Op.callRel (0#32 + ofNat 32 (pos ts k + 6 + 1 + 2 + 6)) _] = _
    rw [BitVec.zero_add]
    rfl
  · unfold returnItems returnOps
    split <;> rfl

theorem pos_succ_code (hi : ts[k]? = some i) :
    pos ts (k + 1) = pos ts k + (bytesOf (codeOf ts k i)).length := by
  rw [pos_succ hi (finalEnv ts)]
  unfold codeOf
  rw [resolve_length (uniform_tokenItems _ _ _ _ _)]

/-- The signature the compiler looks up is that of the function a path is
in. -/
theorem fnSig_path {slot : Int} {d : Nat} {st : PathState} {v : View}
    (hp : PathInv slot ts d g st v) : fnSig ts st.pc = some g := by
  unfold fnSig
  rw [← viewAt_fns hp.bound hp.view]
  exact hp.sig

end Xv6Sume32.Asm
