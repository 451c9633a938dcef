/-
Where the jumps and calls of the output lead.

The two runs of `populate_infos` put the code of a token at the same
offset, so the addresses the first run records are those of the second
run's code. Here that is read off the final bytes: the instruction at a
jump's offset is decoded and its displacement added up (`LeadsTo`).

# Blocks without an end

`verify` does not ask that what is open at the end of the program be
closed. A branch to a block that is never closed has no target: the
block's `br_addr` keeps the 0 that marks it as a block, and the jump leads
to the first byte of the output. Likewise an empty program has a prelude
that calls nothing. `Resolved` is the layout as it should be; it holds
for exactly the programs that have a function and close the blocks they
branch to.
-/
import Xv6Sume32.Asm.Proofs.Shapes

namespace Xv6Sume32.Asm

open Lib X86 Sume
open BitVec (ofNat ofInt)

-- ======== displacements

/-- The instruction at offset `x` of the code is a jump or call, made by
`mk` from its displacement, and leads to offset `y`. -/
def LeadsTo (code : List Byte) (x : Nat) (mk : Word → X86.Instr) (y : Nat) :
    Prop :=
  ∃ rel len, X86.decode (fun n => code.getD (x + n) 0) = some (mk rel, len)
    ∧ ofNat 32 (x + len) + rel = ofNat 32 y

/-- The decoder finds the operation at an offset. -/
theorem decode_at {code : List Byte} (pre : List Byte) (o : Op) (post : List Byte)
    (hp : o.Plain) (hcode : code = pre ++ (o.bytes ++ post)) :
    X86.decode (fun n => code.getD (pre.length + n) 0) = some (o.instr, o.bytes.length) := by
  refine Op.decodes o hp _ fun k hk => ?_
  rw [hcode, List.getD_eq_getElem?_getD, List.getElem?_append_right (by omega),
    Nat.add_sub_cancel_left, List.getElem?_append_left hk, List.getElem?_eq_getElem hk]
  rfl

section Layout

variable {ts : List Sume.Instr} {k : Nat} {i : Sume.Instr} {post : List Op} {o : Op}

/-- An operation of a token in the output. -/
theorem decode_token (pre : List Op) (hi : ts[k]? = some i) (h : codeOf ts k i = pre ++ o :: post) :
    X86.decode (fun n => (written ts ts.length).getD (pos ts k + (bytesOf pre).length + n) 0)
      = some (o.instr, o.bytes.length) := by
  obtain ⟨rest, hsplit⟩ := written_split hi
  have hcode : written ts ts.length = (written ts k ++ bytesOf pre)
      ++ (o.bytes ++ (bytesOf post ++ rest)) := by
    rw [hsplit, h, bytesOf_append, bytesOf_cons]
    simp only [List.append_assoc]
  have hp : o.Plain := codeOf_plain o (by rw [h]; simp)
  have hlen : (written ts k ++ bytesOf pre).length = pos ts k + (bytesOf pre).length := by
    rw [List.length_append, written_length]
  rw [← hlen]
  exact decode_at _ _ _ hp hcode

theorem leads_jmp {y : Nat} (pre : List Op) (hi : ts[k]? = some i)
    (h : codeOf ts k i = pre ++ .jmpRel (ofNat 32 (pos ts k
      + (bytesOf pre).length)) (ofNat 32 y) :: post) :
    LeadsTo (written ts ts.length) (pos ts k + (bytesOf pre).length) .jmp y := by
  refine ⟨_, 5, decode_token pre hi h, ?_⟩
  rw [BitVec.ofNat_add _ 5]
  bv_omega

theorem leads_call {y : Nat} (pre : List Op) (hi : ts[k]? = some i)
    (h : codeOf ts k i = pre ++ .callRel (ofNat 32 (pos ts k
      + (bytesOf pre).length)) (ofNat 32 y) :: post) :
    LeadsTo (written ts ts.length) (pos ts k + (bytesOf pre).length) .call y := by
  refine ⟨_, 5, decode_token pre hi h, ?_⟩
  rw [BitVec.ofNat_add _ 5]
  bv_omega

theorem leads_jae {y : Nat} (pre : List Op) (hi : ts[k]? = some i)
    (h : codeOf ts k i = pre ++ .jaeRel (ofNat 32 (pos ts k
      + (bytesOf pre).length)) (ofNat 32 y) :: post) :
    LeadsTo (written ts ts.length) (pos ts k + (bytesOf pre).length) (.jcc .ae) y := by
  refine ⟨_, 6, decode_token pre hi h, ?_⟩
  rw [BitVec.ofNat_add _ 6]
  bv_omega

end Layout

-- ======== the layout

/-- The offset of the bounds check in the code of a heap access. -/
def boundAt (t : Token) : Nat :=
  (bytesOf (heapPops t ++ scaleOps (heapShift t))).length + 2

/-- Where a branch to the block or loop opened at `j` should lead. -/
def BranchTarget (ts : List Sume.Instr) (start : Nat → Nat) (j y : Nat) : Prop :=
  (ts[j]?.map Sume.Instr.token = some .loop ∧ y = start (j + 1))
    ∨ (ts[j]?.map Sume.Instr.token = some .block
      ∧ ∃ e, Closes ts j e ∧ y = start (e + 1))

/-- Every jump and call of the output leads where it should; `start k` is
the offset of the code of instruction `k`. -/
structure Resolved (ts : List Sume.Instr) (code : List Byte)
    (start : Nat → Nat) : Prop where
  main : ∃ d g, Declares ts d g ∧ declsBefore ts d = 0
    ∧ LeadsTo code 52 .call (start (d + 1))
  call : ∀ k i, ts[k]? = some i → i.token = .call →
    ∃ d g, Declares ts d g ∧ (declsBefore ts d : Int) = i.arg.toInt
      ∧ LeadsTo code (start k + 15) .call (start (d + 1))
  br : ∀ k i, ts[k]? = some i → i.token = .br →
    ∃ j y, (openAt ts k)[i.arg.toInt.toNat]? = some j
      ∧ BranchTarget ts start j y ∧ LeadsTo code (start k + 6) .jmp y
  brIf : ∀ k i, ts[k]? = some i → i.token = .brIf →
    LeadsTo code (start k + 3) (.jcc .e) (start (k + 1))
      ∧ ∃ j y, (openAt ts k)[i.arg.toInt.toNat]? = some j
        ∧ BranchTarget ts start j y ∧ LeadsTo code (start k + 15) .jmp y
  bound : ∀ k i w, ts[k]? = some i → heapWidth i.token = some w →
    LeadsTo code (start k + boundAt i.token) (.jcc .ae) trapretPos
  trap : ∀ k i, ts[k]? = some i → i.token = .trap →
    LeadsTo code (start k) .jmp trapretPos
  exit : ∃ pre post, code = pre ++ (bytesOf (resolve 0
      (trapret (ofNat 32 goodretPos)) trapretPos 0) ++ post)
    ∧ pre.length = trapretPos

/-- The blocks that branches name are closed. -/
def BranchesClosed (ts : List Sume.Instr) : Prop :=
  ∀ k i j, ts[k]? = some i → (i.token = .br ∨ i.token = .brIf) →
    (openAt ts k)[i.arg.toInt.toNat]? = some j →
    ts[j]?.map Sume.Instr.token = some .block → ∃ e, Closes ts j e

section Accepted

variable {prog : List Byte} {slot : Int} {ts : List Sume.Instr}

/-- The offset a branch is compiled to is its target's, if that has an
end. -/
theorem branchTarget_closed {j : Nat} {i' : Sume.Instr} (hi' : ts[j]? = some i')
    (hb : i'.token = .block ∨ i'.token = .loop)
    (hclosed : ts[j]?.map Sume.Instr.token = some .block → ∃ e, Closes ts j e) :
    BranchTarget ts (pos ts) j (targetPos ts j) := by
  unfold targetPos
  rcases hb with hb | hb
  · have htok : ts[j]?.map Sume.Instr.token = some .block := by
      rw [hi', Option.map_some, hb]
    obtain ⟨e, he⟩ := hclosed htok
    refine Or.inr ⟨htok, e, he, ?_⟩
    rw [if_neg (by rw [htok]; simp), closeOf_of_closes he]
    rfl
  · have htok : ts[j]?.map Sume.Instr.token = some .loop := by
      rw [hi', Option.map_some, hb]
    refine Or.inl ⟨htok, ?_⟩
    rw [if_pos htok, pos_succ_code hi', codeOf_opens (by rw [hb]; rfl)]
    rfl

theorem branchTarget_of (hclosed : BranchesClosed ts) {k j : Nat}
    {i : Sume.Instr} (hi : ts[k]? = some i) (ht : i.token = .br ∨ i.token = .brIf)
    (hj : (openAt ts k)[i.arg.toInt.toNat]? = some j) {i' : Sume.Instr}
    (hi' : ts[j]? = some i') (hb : i'.token = .block ∨ i'.token = .loop) :
    BranchTarget ts (pos ts) j (targetPos ts j) :=
  branchTarget_closed hi' hb (hclosed k i j hi ht hj)

/-- The code of a declared function starts where it is declared. -/
theorem entryPos_eq {d : Nat} {g : Sig} (hd : Declares ts d g) :
    entryPos ts (declsBefore ts d) = pos ts (d + 1) := by
  obtain ⟨i, hi, hdec, -⟩ := id hd
  unfold entryPos
  rw [declPos_eq hd, pos_succ_code hi, codeOf_opens (isDecl_opens hdec)]
  rfl

-- ======== header

/-- The prelude with its call. -/
theorem prelude_call (n : Nat) : ∃ pre, resolve 0 (prelude (ofNat 32 startPos) n) 0 0
        = pre ++ [.callRel (ofNat 32 52) (ofNat 32 startPos)]
      ∧ (bytesOf pre).length = 52 :=
  ⟨resolve 0 ((prelude (ofNat 32 startPos) n).take 17) 0 0, rfl, rfl⟩

theorem leads_main (ts : List Sume.Instr) : LeadsTo (written ts ts.length) 52 .call startPos := by
  obtain ⟨post, hw⟩ := written_header ts
  obtain ⟨pre, hpre, hlen⟩ := prelude_call (mainLocals ts)
  have hdec := decode_at (bytesOf pre) (.callRel (ofNat 32 52) (ofNat 32 startPos))
    (bytesOf (resolve 0 goodret goodretPos 0)
      ++ (bytesOf (resolve 0 (trapret (ofNat 32 goodretPos)) trapretPos 0)
        ++ post)) trivial (show written ts ts.length = _ by
      rw [hw, headerOps, hpre]
      simp only [bytesOf_append, bytesOf_cons, List.append_assoc]
      rfl)
  rw [hlen] at hdec
  exact ⟨_, 5, hdec, rfl⟩

end Accepted

-- ======== the result

section Final

variable {prog : List Byte} {slot : Int}

theorem resolved_of_closed {ts : List Sume.Instr} (hacc : Accepted prog slot ts)
    (hfn : sigsOf ts ≠ []) (hclosed : BranchesClosed ts) :
    Resolved ts (written ts ts.length) (pos ts) where
  main := by
    obtain ⟨g, hg⟩ : ∃ g, (sigsOf ts)[0]? = some g :=
      ⟨_, List.getElem?_eq_getElem (List.length_pos_iff.2 hfn)⟩
    obtain ⟨d, hd, h0⟩ := exists_declares hg
    have hne : ts ≠ [] := by
      rintro rfl
      exact hfn rfl
    obtain ⟨i, hi⟩ : ∃ i, ts[0]? = some i :=
      ⟨_, List.getElem?_eq_getElem (List.length_pos_iff.2 hne)⟩
    cases hdec : i.token.isDecl with
    | false => exact absurd rfl (hacc.inFn hi hdec)
    | true =>
      have hd' : Declares ts 0 _ := ⟨i, hi, hdec, rfl⟩
      obtain rfl : d = 0 := hd.unique hd' (by rw [h0]; rfl)
      have hstart : pos ts (0 + 1) = startPos := by
        rw [pos_succ_code hi, codeOf_opens (isDecl_opens hdec)]
        rfl
      refine ⟨0, g, hd, h0, ?_⟩
      rw [hstart]
      exact leads_main ts
  call k i hi ht := by
    obtain ⟨f, hf⟩ := accepted_callee hacc hi ht
    have hcode := codeOf_call (k := k) ht hf
    unfold sigNum at hf
    split at hf
    case isTrue => cases hf
    case isFalse hn =>
    obtain ⟨d, hd, hnum⟩ := exists_declares hf
    refine ⟨d, f, hd, by rw [hnum]; omega, ?_⟩
    rw [← hnum, callOps, entryPos_eq hd] at hcode
    exact leads_call [.subImm .esp (ofNat 32 f.locals.length),
      .push .ebp .nil, .mov .ebp .esp, .subImm .ebp 4] hi hcode
  br k i hi ht := by
    obtain ⟨j, i', -, hj, hi', hb⟩ := accepted_label hacc hi (Or.inl ht)
    exact ⟨j, _, hj, branchTarget_of hclosed hi (Or.inl ht) hj hi' hb,
      leads_jmp [.addImm .esp (ofInt 32 (4 * (track ts k).stkh))]
        hi (codeOf_br ht hj)⟩
  brIf k i hi ht := by
    obtain ⟨j, i', -, hj, hi', hb⟩ := accepted_label hacc hi (Or.inr ht)
    have hcode := codeOf_brIf ht hj
    refine ⟨?_, j, _, hj, branchTarget_of hclosed hi (Or.inr ht) hj hi' hb,
      leads_jmp [.pop .eax .stkh, .test .eax .eax, .jzRel 0 17,
        .addImm .esp (ofInt 32 (4 * ((track ts k).stkh - 1)))]
        hi hcode⟩
    refine ⟨_, 6, decode_token [.pop .eax .stkh, .test .eax .eax] hi hcode,
      ?_⟩
    have hlen : pos ts (k + 1) = pos ts k + 3 + 6 + 11 := pos_succ_code hi |>.trans (by rw [hcode]; rfl)
    rw [hlen, BitVec.ofNat_add _ 11]
    rfl
  bound k i w hi hw := by
    have hsplit : codeOf ts k i = (heapPops i.token ++ scaleOps (heapShift i.token)
        ++ [.cmp .eax .esi]) ++ .jaeRel (ofNat 32 (pos ts k
          + boundAt i.token)) (ofNat 32 trapretPos)
        :: .add .eax .edi :: heapOp i.token :: heapTail i.token := by
      rw [codeOf_heap hw, heapCode]
      simp only [List.append_assoc, List.cons_append, List.nil_append]
      rfl
    have hlen : boundAt i.token = (bytesOf (heapPops i.token
        ++ scaleOps (heapShift i.token) ++ [.cmp .eax .esi])).length := by
      rw [bytesOf_append _ [_], List.length_append]
      rfl
    rw [hlen] at hsplit ⊢
    exact leads_jae _ hi hsplit
  trap k i hi ht := leads_jmp [] hi (codeOf_trap ht)
  exit := by
    obtain ⟨post, hw⟩ := written_header ts
    refine ⟨bytesOf (resolve 0 (prelude (ofNat 32 startPos) (mainLocals ts)) 0 0
      ++ resolve 0 goodret goodretPos 0), post, ?_, ?_⟩
    · rw [hw, headerOps, bytesOf_append _ (resolve 0 (trapret _) _ _),
        List.append_assoc]
    · rw [bytesOf_append, List.length_append, resolve_length (uniform_prelude _ _),
        resolve_length uniform_goodret, size_prelude, size_goodret]

/-- In the output every jump and call leads where it should, if and only
if the program has a function and closes the blocks it branches to. The
offsets of the code are those of both runs. -/
theorem layout_resolved_iff {cap : Nat} {code : List Byte}
    (h : Accepts prog slot) (hcap : cap < 2 ^ 32)
    (hcode : toAsm prog 0 cap = .ok code) :
    ∃ ts start, Sume.decode prog = .ok ts
      ∧ (∀ k, k ≤ ts.length → ∃ s s', asmGenAt prog 0 cap k = .ok s
        ∧ asmAt prog 0 cap k = .ok s' ∧ s.buf.length = start k
        ∧ s'.buf.length = start k)
      ∧ (Resolved ts code start ↔ sigsOf ts ≠ [] ∧ BranchesClosed ts) := by
  obtain ⟨ts, hacc⟩ := h.accepted
  refine ⟨ts, pos ts, hacc.decode, fun k hk => ?_, fun hr => ⟨?_, ?_⟩,
    fun ⟨hfn, hclosed⟩ => ?_⟩
  · obtain ⟨s, s', hs, hs', hgen, hrep⟩ := toAsm_states hacc hcap hcode k hk
    exact ⟨s, s', hs, hs', hgen.len, hrep.len⟩
  · obtain ⟨d, g, hd, -⟩ := hr.main
    intro hnil
    have hsig := hd.sig
    rw [hnil] at hsig
    cases hsig
  · intro k i j hi ht hj hb
    have htarget : ∃ y, BranchTarget ts (pos ts) j y := by
      rcases ht with ht | ht
      · obtain ⟨j', y, hj', hy, -⟩ := hr.br k i hi ht
        obtain rfl : j = j' := Option.some.inj (hj.symm.trans hj')
        exact ⟨y, hy⟩
      · obtain ⟨-, j', y, hj', hy, -⟩ := hr.brIf k i hi ht
        obtain rfl : j = j' := Option.some.inj (hj.symm.trans hj')
        exact ⟨y, hy⟩
    obtain ⟨y, ⟨hl, -⟩ | ⟨-, e, he, -⟩⟩ := htarget
    · rw [hb] at hl
      cases hl
    · exact ⟨e, he⟩
  · have hne : ts ≠ [] := by
      rintro rfl
      exact hfn rfl
    rw [(toAsm_layout hacc hne hcap hcode).1]
    exact resolved_of_closed hacc hfn hclosed

/-- The program `v_declfn () () block trap end end`: no branch, all is
closed. -/
theorem layout_resolved_iff_block :
    ∃ code ts start, toAsm [0x31, 0, 0, 0x2a, 0x29, 0x2f, 0x2f] 0 4096 = .ok code
      ∧ Accepts [0x31, 0, 0, 0x2a, 0x29, 0x2f, 0x2f] 0
      ∧ Sume.decode [0x31, 0, 0, 0x2a, 0x29, 0x2f, 0x2f] = .ok ts
      ∧ (Resolved ts code start ↔ sigsOf ts ≠ [] ∧ BranchesClosed ts) := by
  obtain ⟨code, hcode⟩ := exists_ok
    (x := toAsm [0x31, 0, 0, 0x2a, 0x29, 0x2f, 0x2f] 0 4096) (by decide +kernel)
  have hacc : Accepts [0x31, 0, 0, 0x2a, 0x29, 0x2f, 0x2f] 0 := ⟨_, rfl⟩
  obtain ⟨ts, start, hts, -, hiff⟩ := layout_resolved_iff hacc (by decide) hcode
  exact ⟨code, ts, start, hcode, hacc, hts, hiff⟩

/-- The program `v_declfn () () block block br 1 end`: the outer block has
no end, and the branch to it leads to the first byte of the output. -/
theorem unclosed_branch_to_zero :
    Accepts [0x31, 0, 0, 0x2a, 0x2a, 0x2c, 1, 0, 0, 0, 0x2f] 0
      ∧ ∃ ts code s,
        Sume.decode [0x31, 0, 0, 0x2a, 0x2a, 0x2c, 1, 0, 0, 0, 0x2f] = .ok ts
        ∧ toAsm [0x31, 0, 0, 0x2a, 0x2a, 0x2c, 1, 0, 0, 0, 0x2f] 0 4096 = .ok code
        ∧ asmAt [0x31, 0, 0, 0x2a, 0x2a, 0x2c, 1, 0, 0, 0, 0x2f] 0 4096 3 = .ok s
        ∧ ts[3]? = some ⟨.br, 1, [], []⟩ ∧ (openAt ts 3)[1]? = some 1
        ∧ ts[1]?.map Sume.Instr.token = some .block ∧ (¬ ∃ e, Closes ts 1 e)
        ∧ LeadsTo code (s.buf.length + 6) .jmp 0
        ∧ ∀ start, ¬ Resolved ts code start := by
  have hacc : Accepts [0x31, 0, 0, 0x2a, 0x2a, 0x2c, 1, 0, 0, 0, 0x2f] 0 := ⟨_, rfl⟩
  obtain ⟨code, hcode⟩ := exists_ok
    (x := toAsm [0x31, 0, 0, 0x2a, 0x2a, 0x2c, 1, 0, 0, 0, 0x2f] 0 4096)
    (by decide +kernel)
  have hd : Sume.decode [0x31, 0, 0, 0x2a, 0x2a, 0x2c, 1, 0, 0, 0, 0x2f]
      = .ok [⟨.vDeclfn, 0, [], []⟩, ⟨.block, 0, [], []⟩, ⟨.block, 0, [], []⟩,
        ⟨.br, 1, [], []⟩, ⟨.end_, 0, [], []⟩] := rfl
  have hopen : ¬ ∃ e, Closes [⟨.vDeclfn, 0, [], []⟩, ⟨.block, 0, [], []⟩,
      ⟨.block, 0, [], []⟩, ⟨.br, 1, [], []⟩, ⟨.end_, 0, [], []⟩] 1 e := by
    rintro ⟨e, he⟩
    have := closeOf_of_closes he
    cases this
  obtain ⟨hlay, hat⟩ :=
    toAsm_layout (hacc.accepted_decode hd) (by simp) (by decide) hcode
  obtain ⟨s, hs, hrep, -⟩ := hat 3 (by decide)
  refine ⟨hacc, _, code, s, hd, hcode, hs, rfl, rfl, rfl, hopen, ?_, ?_⟩
  · rw [hrep.len, hlay]
    exact leads_jmp (k := 3) [.addImm .esp (ofInt 32 (4 * 0))] rfl rfl
  · intro start hr
    obtain ⟨j, y, hj, hy, -⟩ := hr.br 3 _ rfl rfl
    cases hj
    obtain ⟨hl, -⟩ | ⟨-, e, he, -⟩ := hy
    · cases hl
    · exact hopen ⟨e, he⟩

end Final

end Xv6Sume32.Asm
