/-
The encoders write the instructions they are named for.

`Op.decodes` is the result the rest of the compiler proof uses: whatever
follows an operation's bytes in memory, the processor decodes them to
`Op.instr` and nothing else. It holds for every register and immediate,
with the exception ModRM makes: `[esp]` and `[ebp]` cannot be encoded in
mode 0, and `mov_r32_ar32` and its kin do not look (`Op.Plain`).

The ModRM byte is taken apart once, by its three fields; each encoder is
then its opcode and one of three shapes of operand.
-/
import Xv6Sume32.Asm.Instrs

namespace Xv6Sume32.Asm

open Lib X86

variable {r m : Nat} {o : Op}

-- ======== the fields

private theorem modrm_fields : ∀ (md : Fin 4) (r m : Fin 8),
    (modrm md r m).extractLsb' 6 2 = BitVec.ofNat 2 md
      ∧ (modrm md r m).extractLsb' 3 3 = BitVec.ofNat 3 r
      ∧ (modrm md r m).extractLsb' 0 3 = BitVec.ofNat 3 m := by
  decide

/-- The three fields of a ModRM byte. -/
theorem modrm_extract {md : Nat} (hd : md < 4) (hr : r < 8) (hm : m < 8) :
    (modrm md r m).extractLsb' 6 2 = BitVec.ofNat 2 md
      ∧ (modrm md r m).extractLsb' 3 3 = BitVec.ofNat 3 r
      ∧ (modrm md r m).extractLsb' 0 3 = BitVec.ofNat 3 m :=
  modrm_fields ⟨md, hd⟩ ⟨r, hr⟩ ⟨m, hm⟩

theorem Reg.code_lt (r : Reg) : r.code < 8 := by
  cases r <;> decide

theorem Reg8.code_lt (r : Reg8) : r.code < 8 := by
  cases r <;> decide

-- ======== the operands

variable {b : Nat → Byte} {k : Nat}

/-- Mode 3: a register operand. -/
theorem decodeRm_reg (h : b k = modrm 3 r m) (hr : r < 8) (hm : m < 8) :
    decodeRm b k = (BitVec.ofNat 3 r, .reg (BitVec.ofNat 3 m), 1) := by
  obtain ⟨h1, h2, h3⟩ := modrm_extract (show 3 < 4 by decide) hr hm
  unfold decodeRm
  rw [h, h1, h2, h3]
  rfl

/-- Mode 2 with `ebp`: a 32-bit displacement follows. -/
theorem decodeRm_ebp (h : b k = modrm 2 r Reg.ebp.code) (hr : r < 8) : decodeRm b k
      = (BitVec.ofNat 3 r, .mem (ebpDis (imm32 b (k + 1))), 5) := by
  obtain ⟨h1, h2, h3⟩ := modrm_extract (show 2 < 4 by decide) hr (Reg.code_lt .ebp)
  unfold decodeRm
  rw [h, h1, h2, h3]
  rfl

/-- Mode 0: the memory a register points to, `esp` and `ebp` apart. -/
theorem decodeRm_at {s : Reg} (h : b k = modrm 0 r s.code)
    (hr : r < 8) (h4 : s ≠ .esp) (h5 : s ≠ .ebp) :
    decodeRm b k = (BitVec.ofNat 3 r, .mem (at_ s), 1) := by
  obtain ⟨h1, h2, h3⟩ := modrm_extract (show 0 < 4 by decide) hr (Reg.code_lt s)
  unfold decodeRm
  rw [h, h1, h2, h3]
  cases s <;> first | rfl | exact absurd rfl h4 | exact absurd rfl h5

/-- The immediate of four bytes laid out by `memmove`. -/
theorem imm32_leBytes {w : Word} (h : ∀ i (hi : i < 4),
    b (k + i) = (leBytes w).get ⟨i, hi⟩) : imm32 b k = w := by
  have h0 : b k = byteOf w 0 := h 0 (by omega)
  have h1 : b (k + 1) = byteOf w 1 := h 1 (by omega)
  have h2 : b (k + 2) = byteOf w 2 := h 2 (by omega)
  have h3 : b (k + 3) = byteOf w 3 := h 3 (by omega)
  unfold imm32
  rw [h0, h1, h2, h3]
  exact ofLe_byteOf w

-- ======== the result

/-- The operations whose `[r32]` operand is a plain one. -/
def Op.Plain : Op → Prop
  | .movFromAr32 _ s | .movsx8 _ s | .movsx16 _ s | .movzx8 _ s
  | .movzx16 _ s => s ≠ .esp ∧ s ≠ .ebp
  | .movAr8 r _ | .movAr32 r _ => r ≠ .esp ∧ r ≠ .ebp
  | _ => True

instance (o : Op) : Decidable o.Plain := by
  cases o <;> unfold Op.Plain <;> infer_instance

section Shapes

variable {op op0 op1 md : Byte} {imm : Word} {i : Instr}

theorem decodes_single (h : ∀ b : Nat → Byte, b 0 = op → decode b = some (i, 1)) : Decodes [op] i :=
  fun b hb => h b (hb 0 Nat.one_pos)

theorem decodes_opModrm (h : ∀ b : Nat → Byte, b 0 = op → b 1 = md → decode b = some (i, 2)) :
    Decodes (opModrm op md) i := by
  intro b hb
  exact h b (hb 0 (Nat.succ_pos _)) (hb 1 (by simp [opModrm]))

theorem decodes_opOpModrm (h : ∀ b : Nat → Byte, b 0 = op0 → b 1 = op1 → b 2 = md →
      decode b = some (i, 3)) : Decodes (opOpModrm op0 op1 md) i := by
  intro b hb
  exact h b (hb 0 (Nat.succ_pos _)) (hb 1 (by simp [opOpModrm])) (hb 2 (by simp [opOpModrm]))

theorem decodes_opImm32 (h : ∀ b : Nat → Byte, b 0 = op → imm32 b 1 = imm →
      decode b = some (i, 5)) : Decodes (opImm32 op imm) i := by
  intro b hb
  refine h b (hb 0 (Nat.succ_pos _)) (imm32_leBytes fun j hj => ?_)
  rw [Nat.add_comm]
  exact hb (j + 1) (by simp [opImm32]; omega)

theorem decodes_opModrmImm32 (h : ∀ b : Nat → Byte, b 0 = op → b 1 = md → imm32 b 2 = imm →
      decode b = some (i, 6)) : Decodes (opModrmImm32 op md imm) i := by
  intro b hb
  refine h b (hb 0 (Nat.succ_pos _)) (hb 1 (by simp [opModrmImm32])) (imm32_leBytes fun j hj => ?_)
  rw [Nat.add_comm]
  exact hb (j + 2) (by simp [opModrmImm32]; omega)

/-- Two opcode bytes and a distance are laid out as an opcode, a byte
and an immediate. -/
theorem decodes_opOpRel32 {rel : Word}
    (h : ∀ b : Nat → Byte, b 0 = op0 → b 1 = op1 → imm32 b 2 = rel - 6 → decode b = some (i, 6)) :
    Decodes (opOpRel32 op0 op1 rel) i :=
  decodes_opModrmImm32 h

end Shapes

/-- Every operation's bytes decode to the instruction its encoder is
named for, whatever follows them. -/
theorem Op.decodes (o : Op) (hp : o.Plain) : Decodes o.bytes o.instr := by
  have hr := Reg.code_lt
  have hr8 := Reg8.code_lt
  cases o
  case addImm r imm | subImm r imm =>
    show Decodes (if r = .eax then _ else _) _
    split
    · next h =>
      rw [h]
      refine decodes_opImm32 fun b h0 hi => ?_
      simp [decode, h0, hi, Alu.ofCode, Op.instr]
    · refine decodes_opModrmImm32 fun b h0 h1 hi => ?_
      simp [decode, h0, decodeRm_reg h1 (by decide) (hr _), hi, Op.instr, Alu.ofCode, Rm.rm32]
  case add r s | and r s | or r s | sub r s | xor r s | cmp r s | mov r s
      | test r s =>
    refine decodes_opModrm fun b h0 h1 => ?_
    simp [decode, h0, decodeRm_reg h1 (hr _) (hr _), Op.instr, Alu.ofCode, Rm.rm32]
  case mov8 r s =>
    refine decodes_opModrm fun b h0 h1 => ?_
    simp [decode, h0, decodeRm_reg h1 (hr8 _) (hr8 _), Op.instr, Rm.rm8]
  case bsf r s | bsr r s =>
    refine decodes_opOpModrm fun b h0 h1 h2 => ?_
    simp [decode, decode0f, h0, h1, decodeRm_reg h2 (hr _) (hr _), Op.instr, Rm.rm32]
  case mul r | div r | idiv r =>
    refine decodes_opModrm fun b h0 h1 => ?_
    simp [decode, h0, decodeRm_reg h1 (by decide) (hr _), decodeF7, Op.instr, Rm.rm32]
  case rol r | ror r | sar r | shr r | shl r =>
    refine decodes_opModrm fun b h0 h1 => ?_
    simp [decode, h0, decodeRm_reg h1 (by decide) (hr _), Shift.ofCode, Op.instr, Rm.rm32]
  case shlImm r imm =>
    refine decodes_opOpModrm fun b h0 h1 h2 => ?_
    simp [decode, h0, decodeRm_reg h1 (by decide) (hr _), Shift.ofCode, h2, Op.instr, Rm.rm32]
  case callRel a c | jmpRel a c =>
    refine decodes_opImm32 fun b h0 hi => ?_
    simp [decode, h0, hi, Op.instr]
  case jaeRel a c | jbRel a c | jzRel a c | jneRel a c =>
    refine decodes_opOpRel32 fun b h0 h1 hi => ?_
    simp [decode, decode0f, h0, h1, hi, Op.instr, Cc.ofCode]
  case set cc r =>
    refine decodes_opOpModrm fun b h0 h1 h2 => ?_
    cases cc <;>
      simp [decode, decode0f, h0, h1, setOpcode,
        decodeRm_reg h2 (by decide) (hr8 _), Op.instr, Cc.ofCode, Rm.rm8]
  case push r c | pop r c =>
    refine decodes_single fun b h0 => ?_
    cases r <;> simp [decode, h0, Op.instr, Reg.code] <;> rfl
  case ret =>
    refine decodes_single fun b h0 => ?_
    simp [decode, h0, Op.instr]
  case movImm r imm =>
    refine decodes_opImm32 fun b h0 hi => ?_
    cases r <;> simp [decode, h0, hi, Op.instr, Reg.code] <;> rfl
  case movDisEbp d r | movFromDisEbp r d =>
    refine decodes_opModrmImm32 fun b h0 h1 hi => ?_
    simp [decode, h0, decodeRm_ebp h1 (hr _), hi, Op.instr, Rm.rm32]
  case movFromAr32 r s | movAr32 r s =>
    refine decodes_opModrm fun b h0 h1 => ?_
    simp [decode, h0, decodeRm_at h1 (hr _) hp.1 hp.2, Op.instr, Rm.rm32]
  case movAr8 r s =>
    refine decodes_opModrm fun b h0 h1 => ?_
    simp [decode, h0, decodeRm_at h1 (hr8 _) hp.1 hp.2, Op.instr, Rm.rm8]
  case movsx8 r s | movsx16 r s | movzx8 r s | movzx16 r s =>
    refine decodes_opOpModrm fun b h0 h1 h2 => ?_
    simp [decode, decode0f, h0, h1, decodeRm_at h2 (hr _) hp.1 hp.2, Op.instr, Rm.rm8, Rm.rm32]

-- ======== what the encoders return

/-- The length the encoder returns. -/
def Op.len : Op → Nat
  | .addImm r _ | .subImm r _ => if r = .eax then 5 else 6
  | .callRel .. | .jmpRel .. | .movImm .. => 5
  | .jaeRel .. | .jbRel .. | .jzRel .. | .jneRel .. | .movDisEbp .. | .movFromDisEbp .. => 6
  | .bsf .. | .bsr .. | .movsx8 .. | .movsx16 .. | .movzx8 .. | .movzx16 .. | .shlImm ..
  | .set .. => 3
  | .push .. | .pop .. | .ret => 1
  | _ => 2

theorem Op.bytes_length (o : Op) : o.bytes.length = o.len := by
  cases o
  case addImm r imm | subImm r imm => cases r <;> rfl
  all_goals rfl

theorem Op.len_pos (o : Op) : 0 < o.len := by
  cases o
  case addImm r imm | subImm r imm => cases r <;> exact Nat.succ_pos _
  all_goals exact Nat.succ_pos _

-- ======== the operands they are given

/-- The instruction `i` is the one the encoder is named for, with the
operands it was given. A shift takes a byte; the operands of `test` have
no order. -/
def Op.Names : Op → Instr → Prop
  | .shlImm r imm, i => ∃ c : Byte, c.toNat = imm.toNat ∧ i = .shiftI .shl (.reg r) c
  | .test r s, i => i = .testRmR (.reg r) s ∨ i = .testRmR (.reg s) r
  | o, i => i = o.instr

/-- The operations whose operands can be encoded the way the encoder does
it. -/
def Op.Fits : Op → Prop
  | .shlImm _ imm => imm.toNat < 256
  | o => o.Plain

theorem Op.Fits.plain (h : o.Fits) : o.Plain := by
  cases o <;> first | exact h | trivial

theorem Op.names_instr (h : o.Fits) : o.Names o.instr := by
  cases o
  case shlImm r imm => exact ⟨_, (BitVec.toNat_setWidth ..).trans (Nat.mod_eq_of_lt h), rfl⟩
  case test r s => exact .inr rfl
  all_goals rfl

/-- Bytes with zeros behind them. -/
def padded (bs : List Byte) (k : Nat) : Byte := bs.getD k 0

theorem padded_eq {bs : List Byte} {k : Nat} (h : k < bs.length) : padded bs k = bs[k] := by
  unfold padded
  rw [List.getD_eq_getElem?_getD, List.getElem?_eq_getElem h]
  rfl

/-- Zeros behind a mode-0 operand of `esp` or `ebp` are taken for a part
of it. -/
theorem decode_odd : ∀ r : Fin 8, ∀ s ∈ [Reg.esp, .ebp],
    (∀ op ∈ [0x88, 0x89, 0x8b],
      (decode (padded (opModrm op (modrm 0 r s.code)))).map (·.2) ≠ some 2) ∧
    ∀ op ∈ [0xb6, 0xb7, 0xbe, 0xbf],
      (decode (padded (opOpModrm 0x0f op (modrm 0 r s.code)))).map (·.2) ≠ some 3 := by
  decide +kernel

theorem Op.plain_of_decodes {i : Instr} (h : Decodes o.bytes i) : o.Plain := by
  have hlen : (decode (padded o.bytes)).map (·.2) = some o.bytes.length := by
    rw [h _ fun k hk => padded_eq hk]
    rfl
  have hodd : ∀ {s : Reg}, ¬(s ≠ .esp ∧ s ≠ .ebp) → s ∈ [Reg.esp, .ebp] := by
    intro s
    cases s <;> decide
  cases o <;> try trivial
  case movFromAr32 r s | movAr32 s r =>
    exact by_contra fun hs =>
      (decode_odd ⟨_, Reg.code_lt r⟩ s (hodd hs)).1 _ (by decide) hlen
  case movAr8 s r =>
    exact by_contra fun hs =>
      (decode_odd ⟨_, Reg8.code_lt r⟩ s (hodd hs)).1 _ (by decide) hlen
  case movsx8 r s | movsx16 r s | movzx8 r s | movzx16 r s =>
    exact by_contra fun hs =>
      (decode_odd ⟨_, Reg.code_lt r⟩ s (hodd hs)).2 _ (by decide) hlen

theorem Op.fits_of_names {i : Instr} (h : Decodes o.bytes i) (hn : o.Names i) :
    o.Fits := by
  have hp := Op.plain_of_decodes h
  cases o <;> try exact hp
  case shlImm r imm =>
    obtain ⟨c, hc, -⟩ := hn
    exact hc.symm.trans_lt c.isLt

-- ======== one behind the other

/-- The instructions in the first `n` bytes, decoded from the first on. -/
def sweep (b : Nat → Byte) : Nat → Nat → Option (List Instr)
  | _, 0 => some []
  | 0, _ + 1 => none
  | fuel + 1, n + 1 =>
      match decode b with
      | some (i, len) =>
          if len ≤ n + 1 then (sweep (fun k => b (len + k)) fuel (n + 1 - len)).map (i :: ·)
          else none
      | none => none

theorem sweep_add {b : Nat → Byte} {i : Instr} {len fuel n : Nat}
    (hdec : decode b = some (i, len + 1)) : sweep b (fuel + 1) (len + 1 + n) =
      (sweep (fun k => b (len + 1 + k)) fuel n).map (i :: ·) := by
  rw [Nat.add_right_comm, sweep, hdec]
  dsimp only
  rw [if_pos (by omega), show len + n + 1 - (len + 1) = n by omega]

theorem sweep_ops {os : List Op} (hf : ∀ o ∈ os, o.Fits) {b : Nat → Byte} {fuel : Nat}
    (hb : ∀ k (h : k < (os.flatMap Op.bytes).length), b k = (os.flatMap Op.bytes)[k])
    (hfuel : (os.flatMap Op.bytes).length ≤ fuel) :
    sweep b fuel (os.flatMap Op.bytes).length = some (os.map Op.instr) := by
  induction os generalizing b fuel with
  | nil =>
    show sweep b fuel 0 = some []
    unfold sweep
    rfl
  | cons o os ih =>
    obtain ⟨ho, hos⟩ := List.forall_mem_cons.1 hf
    have hlen : ((o :: os).flatMap Op.bytes).length =
        o.bytes.length + (os.flatMap Op.bytes).length := List.length_append
    have hdec : decode b = some (o.instr, o.bytes.length) :=
      o.decodes ho.plain b fun k hk =>
        (hb k (by omega)).trans (List.getElem_append_left hk)
    have hrest : ∀ k (h : k < (os.flatMap Op.bytes).length),
        b (o.bytes.length + k) = (os.flatMap Op.bytes)[k] := by
      intro k hk
      refine (hb _ (by omega)).trans ((List.getElem_append_right (by omega)).trans ?_)
      simp only [Nat.add_sub_cancel_left]
      rfl
    obtain ⟨len, hl⟩ : ∃ len, o.bytes.length = len + 1 :=
      Nat.exists_eq_succ_of_ne_zero (by have := o.len_pos; rw [o.bytes_length]; omega)
    rw [hl] at hdec hrest hlen
    obtain ⟨f, rfl⟩ : ∃ f, fuel = f + 1 := Nat.exists_eq_succ_of_ne_zero (by omega)
    rw [hlen, sweep_add hdec, ih hos hrest (by omega)]
    rfl

/-- An encoder is right exactly where its operands fit, and any encoder
calls with operands that fit are read back one by one. -/
theorem Op.encoded_iff (o : Op) (os : List Op) (b : Nat → Byte) :
    ((o.bytes.length = o.len ∧ ∃ i, Decodes o.bytes i ∧ o.Names i) ↔ o.Fits) ∧
    ((∀ o ∈ os, o.Fits) →
      (∀ k (h : k < (os.flatMap Op.bytes).length), b k = (os.flatMap Op.bytes)[k]) →
      ∃ is, sweep b (os.flatMap Op.bytes).length (os.flatMap Op.bytes).length = some is ∧
        List.Forall₂ Op.Names os is) := by
  refine ⟨⟨fun ⟨_, i, hi, hn⟩ => Op.fits_of_names hi hn, fun h => ?_⟩,
    fun hf hb => ⟨_, sweep_ops hf hb (Nat.le_refl _), ?_⟩⟩
  · exact ⟨o.bytes_length, o.instr, o.decodes h.plain, Op.names_instr h⟩
  · rw [List.forall₂_map_right_iff, List.forall₂_same]
    exact fun o ho => Op.names_instr (hf o ho)

/-- `mov eax, [ebp]` comes out as the start of a load from an absolute
address, four bytes longer. -/
theorem movR32Ar32_ebp_misread : movR32Ar32 .eax .ebp = [0x8b, 0x05] ∧
    decode (padded [0x8b, 0x05]) = some (.movRRm .eax (.mem ⟨none, none, 0⟩), 6) ∧
    ¬∃ i, Decodes (movR32Ar32 .eax .ebp) i :=
  ⟨by decide, by decide +kernel, fun ⟨_, hi⟩ =>
    (Op.plain_of_decodes (o := .movFromAr32 .eax .ebp) hi).2 rfl⟩

end Xv6Sume32.Asm
