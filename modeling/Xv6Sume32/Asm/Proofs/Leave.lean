/-
Leaving a block: what branches and block ends do to the stack.

A frame's operands lie below EBP, so the operand height is a distance:
ESP is EBP less four times the height. The verifier cuts the operands
back to the entry height of the block it leaves. The code raises ESP by a
number of its own: a branch by the whole compile-time height, an `end` by
the difference of two recorded heights, its block's and the parent's.

# When the two agree

`released` is that number and `Balanced` says it is the number of
operands above the entry height, modulo `2 ^ 30` because ESP wraps around.
It holds when the compile-time height is the verifier's and every block
is entered with an empty operand stack and left with one
(`balanced_of_clean`); it fails for a branch out of a block that was
entered over an operand.
-/
import Xv6Sume32.Asm.Proofs.Arith
import Xv6Sume32.Asm.Proofs.Heights
import Xv6Sume32.Asm.Proofs.Targets

namespace Xv6Sume32.Asm

open Lib X86 Sume
open BitVec (ofNat ofInt)

variable {prog : List Byte} {slot : Int} {ts : List Sume.Instr} {k n : Nat}
  {i : Sume.Instr} {a : Word} {m : Machine}

variable {os : List Op} {v : View} {j : Nat}

-- ======== heights

theorem ofInt_eq_zero_iff (x : Int) : ofInt 32 x = 0 ↔ (2 ^ 32 : Int) ∣ x := by
  rw [← BitVec.toNat_inj, BitVec.toNat_ofInt]
  simp
  omega

/-- The stack pointer raised by `r` words is `h` words below the base
exactly when `r` words lie between. -/
theorem esp_eq_iff (base : Word) (H r h : Int) :
    base - ofInt 32 (4 * H) + ofInt 32 (4 * r) = base - ofInt 32 (4 * h)
      ↔ (2 ^ 30 : Int) ∣ r + h - H := by
  have hsum : ofInt 32 (4 * (r + h - H)) = ofInt 32 (4 * r) + ofInt 32 (4 * h)
        - ofInt 32 (4 * H) := by
    rw [BitVec.sub_eq_add_neg, ← BitVec.ofInt_neg, ← BitVec.ofInt_add, ← BitVec.ofInt_add]
    congr 1
    ring
  have hdvd : (2 ^ 30 : Int) ∣ r + h - H ↔ (2 ^ 32 : Int) ∣ 4 * (r + h - H) := by
    omega
  rw [hdvd, ← ofInt_eq_zero_iff, hsum]
  bv_omega

-- ======== the statement

/-- Instruction `k` leaves the `n` innermost blocks and the one around
them: a branch by its operand, the `end` of a block that one. -/
def Leaves (ts : List Sume.Instr) (k : Nat) (i : Sume.Instr) (n : Nat) : Prop :=
  ((i.token = .br ∨ i.token = .brIf) ∧ n = i.arg.toInt.toNat)
    ∨ (i.token = .end_ ∧ n = 0 ∧ 2 ≤ (openAt ts k).length)

/-- Where control goes: behind an `end`, to the target of a branch. -/
def Destination (ts : List Sume.Instr) (k : Nat) (i : Sume.Instr) (n y : Nat) :
    Prop :=
  if i.token = .end_ then y = pos ts (k + 1)
  else ∃ j, (openAt ts k)[n]? = some j ∧ BranchTarget ts (pos ts) j y

/-- Executing the code of instruction `k`, loaded at `a`, leads to the
destination with `h` operands on the stack, and no byte has changed. -/
def Restores (ts : List Sume.Instr) (k : Nat) (i : Sume.Instr) (n : Nat) (a : Word)
    (h : Int) (m : Machine) : Prop :=
  ∃ m' y, runN X86.step (codeOf ts k i).length m = some m'
    ∧ Destination ts k i n y ∧ m'.eip = a + ofNat 32 y
    ∧ m'.reg .esp = m'.reg .ebp - ofInt 32 (4 * h)
    ∧ m'.reg .ebp = m.reg .ebp ∧ m'.mem = m.mem

/-- The words by which the code of instruction `k` raises ESP. -/
def released (ts : List Sume.Instr) (k : Nat) (i : Sume.Instr) : Int :=
  if i.token = .end_ then
    match openAt ts k with
    | j :: j' :: _ => entryHeight ts j - entryHeight ts j'
    | _ => 0
  else (track ts k).stkh

/-- The words released are those between height `H` and entry height `h`,
and the block a branch leaves has an end to go to. -/
structure Balanced (ts : List Sume.Instr) (k : Nat) (i : Sume.Instr) (n : Nat)
    (H h : Int) : Prop where
  words : (2 ^ 30 : Int) ∣ released ts k i + h - H
  closed : i.token ≠ .end_ → ∀ j, (openAt ts k)[n]? = some j →
    ts[j]?.map Sume.Instr.token = some .block → ∃ e, Closes ts j e

-- ======== execution

theorem CodeAt.after {o : Op} {t : Machine}
    (h : CodeAt m.mem m.eip (o :: os)) (hmem : t.mem = m.mem)
    (heip : t.eip = m.eip + ofNat 32 o.bytes.length) : CodeAt t.mem t.eip os := by
  rw [hmem, heip]
  exact h.tail

/-- Raising ESP. -/
theorem addImm_esp (w : Word) (m : Machine) :
    ∃ t, (Op.addImm .esp w).exec m = some t ∧ t.mem = m.mem
      ∧ t.eip = m.eip + ofNat 32 (Op.addImm .esp w).bytes.length
      ∧ t.reg .esp = m.reg .esp + w ∧ t.reg .ebp = m.reg .ebp :=
  ⟨_, rfl, rfl, rfl, rfl, rfl⟩

/-- The last two operations of a branch. -/
theorem branch_run {w here stop : Word}
    (hc : CodeAt m.mem m.eip [.addImm .esp w, .jmpRel here stop]) (heip : m.eip + 6 = a + here) :
    ∃ t, runN X86.step 2 m = some t ∧ t.mem = m.mem ∧ t.eip = a + stop
      ∧ t.reg .esp = m.reg .esp + w ∧ t.reg .ebp = m.reg .ebp := by
  obtain ⟨t, ht, hmem, hip, hsp, hbp⟩ := addImm_esp w m
  have hc' := hc.after hmem hip
  obtain ⟨u, hu, hmem', hip', hreg⟩ : ∃ u, (Op.jmpRel here stop).exec t = some u
      ∧ u.mem = t.mem ∧ u.eip = t.eip + 5 + (stop - here - 5) ∧ u.reg = t.reg :=
    ⟨_, rfl, rfl, rfl, rfl⟩
  refine ⟨u, ?_, hmem'.trans hmem, ?_, ?_, ?_⟩
  · rw [runN_succ (hc.step.trans ht), runN_succ (hc'.step.trans hu)]
    rfl
  · rw [hip']
    exact jump_target 5 (hip.trans heip)
  · rw [hreg, hsp]
  · rw [hreg, hbp]

/-- The first three operations of a conditional branch that is taken. -/
theorem taken_run (hc : CodeAt m.mem m.eip (.pop .eax .stkh :: .test .eax .eax
      :: .jzRel 0 17 :: os)) (hne : stackWord m 0 ≠ 0) :
    ∃ t, runN X86.step 3 m = some t ∧ CodeAt t.mem t.eip os ∧ t.mem = m.mem
      ∧ t.eip = m.eip + 9 ∧ t.reg .esp = m.reg .esp + 4 ∧ t.reg .ebp = m.reg .ebp := by
  obtain ⟨t1, h1, hm1, hi1, hax, hsp, hbp⟩ : ∃ t, (Op.pop .eax .stkh).exec m = some t
      ∧ t.mem = m.mem ∧ t.eip = m.eip + 1 ∧ t.reg .eax = m.mem.load32 (m.reg .esp)
      ∧ t.reg .esp = m.reg .esp + 4 ∧ t.reg .ebp = m.reg .ebp := ⟨_, rfl, rfl, rfl, rfl, rfl, rfl⟩
  have hc1 := hc.after hm1 hi1
  obtain ⟨t2, h2, hm2, hi2, hreg, hfl⟩ : ∃ t, (Op.test .eax .eax).exec t1 = some t
      ∧ t.mem = t1.mem ∧ t.eip = t1.eip + 2 ∧ t.reg = t1.reg
      ∧ t.flags = some (logicFlags (t1.reg .eax &&& t1.reg .eax)) := ⟨_, rfl, rfl, rfl, rfl, rfl⟩
  have hc2 := hc1.after hm2 hi2
  have hz : Cc.holds .e (logicFlags (t1.reg .eax &&& t1.reg .eax)) = false := by
    rw [BitVec.and_self, hax]
    refine beq_false_of_ne fun h => hne ?_
    exact (congrArg m.mem.load32 (BitVec.add_zero _)).trans h
  obtain ⟨t3, h3, hm3, hi3, hreg3⟩ : ∃ t, (Op.jzRel 0 17).exec t2 = some t
      ∧ t.mem = t2.mem ∧ t.eip = t2.eip + 6 ∧ t.reg = t2.reg := by
    refine ⟨{ t2 with eip := t2.eip + 6 }, ?_, rfl, rfl, rfl⟩
    show t2.flags.map _ = _
    rw [hfl, Option.map_some, hz]
    rfl
  refine ⟨t3, ?_, hc2.after hm3 hi3, ?_, ?_, ?_, ?_⟩
  · rw [runN_succ (hc.step.trans h1), runN_succ (hc1.step.trans h2), runN_succ (hc2.step.trans h3)]
    rfl
  · rw [hm3, hm2, hm1]
  · rw [hi3, hi2, hi1]
    simp only [BitVec.add_assoc]
    rfl
  · rw [hreg3, hreg, hsp]
  · rw [hreg3, hreg, hbp]

-- ======== the code of the tokens

/-- Where the code of instruction `k` leads. -/
def leavesTo (ts : List Sume.Instr) (k : Nat) (i : Sume.Instr) (n : Nat) : Nat :=
  if i.token = .end_ then pos ts (k + 1)
  else ((openAt ts k)[n]?).elim 0 (targetPos ts)

theorem ofInt_four_sub (x : Int) :
    (4 : Word) + ofInt 32 (4 * (x - 1)) = ofInt 32 (4 * x) := by
  rw [show (4 : Word) = ofInt 32 4 from rfl, ← BitVec.ofInt_add]
  congr 1
  ring

section Accepted

variable (hacc : Accepted prog slot ts) {H h : Int}

include hacc

/-- What the code does, whatever the heights are. -/
theorem leave_run (hi : ts[k]? = some i) (hl : Leaves ts k i n)
    (hmem : BytesAt m.mem a (written ts ts.length))
    (heip : m.eip = a + ofNat 32 (pos ts k))
    (htaken : i.token = .brIf → stackWord m 0 ≠ 0) :
    ∃ t, runN X86.step (codeOf ts k i).length m = some t ∧ t.mem = m.mem
      ∧ t.eip = a + ofNat 32 (leavesTo ts k i n)
      ∧ t.reg .esp = m.reg .esp + ofInt 32 (4 * released ts k i)
      ∧ t.reg .ebp = m.reg .ebp := by
  have hc := codeAt_token hmem hi
  rw [← heip] at hc
  have hat : ∀ x : Nat, m.eip + ofNat 32 x = a + ofNat 32 (pos ts k + x) := by
    intro x
    rw [heip, BitVec.add_assoc, ← BitVec.ofNat_add]
  unfold leavesTo released
  rcases hl with ⟨ht | ht, rfl⟩ | ⟨ht, rfl, hdepth⟩
  · obtain ⟨j, -, -, hj, -⟩ := accepted_label hacc hi (Or.inl ht)
    rw [codeOf_br ht hj] at hc ⊢
    rw [if_neg (by rw [ht]; decide), if_neg (by rw [ht]; decide), hj]
    exact branch_run hc (hat 6)
  · obtain ⟨j, -, -, hj, -⟩ := accepted_label hacc hi (Or.inr ht)
    rw [codeOf_brIf ht hj] at hc ⊢
    rw [if_neg (by rw [ht]; decide), if_neg (by rw [ht]; decide), hj]
    obtain ⟨t, hrun, hct, htm, hip, hsp, hbp⟩ := taken_run hc (htaken ht)
    obtain ⟨u, hrun', hum, huip, husp, hubp⟩ :=
      branch_run (a := a) hct (by rw [hip, BitVec.add_assoc]; exact hat 15)
    refine ⟨u, (runN_add hrun).trans hrun', hum.trans htm, huip, ?_, hubp.trans hbp⟩
    rw [husp, hsp, BitVec.add_assoc, ofInt_four_sub]
  · obtain ⟨j, j', rest, ho⟩ : ∃ j j' rest, openAt ts k = j :: j' :: rest := by
      match hop : openAt ts k with
      | [] | [_] => rw [hop] at hdepth; simp at hdepth
      | j :: j' :: rest => exact ⟨j, j', rest, rfl⟩
    rw [pos_succ_code hi, codeOf_end ht ho] at *
    rw [if_pos ht, if_pos ht, ho]
    obtain ⟨t, hrun, htm, hip, hsp, hbp⟩ := addImm_esp
      (ofInt 32 (4 * (entryHeight ts j - entryHeight ts j'))) m
    refine ⟨t, ?_, htm, ?_, hsp, hbp⟩
    · exact (runN_succ (hc.step.trans hrun)).trans rfl
    · rw [hip, hat]
      rfl

/-- The code restores the stack exactly when it releases the operands
above the entry height. -/
theorem restores_iff (hi : ts[k]? = some i) (hl : Leaves ts k i n)
    (hmem : BytesAt m.mem a (written ts ts.length)) (heip : m.eip = a + ofNat 32 (pos ts k))
    (htaken : i.token = .brIf → stackWord m 0 ≠ 0)
    (hesp : m.reg .esp = m.reg .ebp - ofInt 32 (4 * H)) :
    Restores ts k i n a h m ↔ Balanced ts k i n H h := by
  obtain ⟨t, hrun, htm, hip, hsp, hbp⟩ := leave_run hacc hi hl hmem heip htaken
  rw [hesp] at hsp
  constructor
  · rintro ⟨t', y, hrun', hdest, -, hsp', hbp', -⟩
    obtain rfl := Option.some.inj (hrun.symm.trans hrun')
    refine ⟨?_, fun hne j hj hblock => ?_⟩
    · rw [hsp, hbp'] at hsp'
      exact (esp_eq_iff _ _ _ _).1 hsp'
    · unfold Destination at hdest
      rw [if_neg hne] at hdest
      obtain ⟨j', hj', htarget⟩ := hdest
      obtain rfl : j = j' := Option.some.inj (hj.symm.trans hj')
      rcases htarget with ⟨hloop, -⟩ | ⟨-, e, he, -⟩
      · rw [hblock] at hloop
        cases hloop
      · exact ⟨e, he⟩
  · intro hbal
    refine ⟨t, leavesTo ts k i n, hrun, ?_, hip, ?_, hbp, htm⟩
    · unfold Destination leavesTo
      rcases hl with ⟨ht, rfl⟩ | ⟨ht, -⟩
      · have hne : i.token ≠ .end_ := by
          rcases ht with ht | ht <;> rw [ht] <;> decide
        obtain ⟨j, i', -, hj, hi', hb⟩ := accepted_label hacc hi ht
        rw [if_neg hne, if_neg hne, hj]
        exact ⟨j, rfl, branchTarget_closed hi' hb (hbal.closed hne j hj)⟩
      · rw [if_pos ht, if_pos ht]
    · rw [hsp, hbp]
      exact (esp_eq_iff _ _ _ _).2 hbal.words

-- ======== clean programs

omit hacc in
/-- The programs whose blocks are closed, entered with an empty operand
stack and left with one, and whose compile-time heights are the
verifier's. -/
structure Clean (slot : Int) (ts : List Sume.Instr) : Prop where
  fit : HeightsFit ts
  closed : BranchesClosed ts
  entered : ∀ j i v, ts[j]? = some i → i.token = .block ∨ i.token = .loop →
    viewAt slot ts j = some v → v.stk = []
  left : ∀ k i v, ts[k]? = some i → i.token = .end_ → 2 ≤ (openAt ts k).length →
    (∀ j p, k = j + 1 → ts[j]? = some p → p.token.needsEnd = false) →
    viewAt slot ts k = some v → v.stk = []

omit hacc in
/-- Instruction `k` does not stand behind a `ret`. -/
def NotBehindRet (ts : List Sume.Instr) (k : Nat) : Prop :=
  ∀ j p, k = j + 1 → ts[j]? = some p → p.token ≠ .ret

/-- Only an `end` stands behind a `ret`. -/
theorem notBehindRet (hi : ts[k]? = some i) (he : i.token ≠ .end_) :
    NotBehindRet ts k := by
  rintro j p rfl hp hret
  obtain ⟨i', hi', he'⟩ := hacc.ends j p hp (by rw [hret]; rfl)
  obtain rfl := Option.some.inj (hi.symm.trans hi')
  exact he he'

/-- What is open in a clean program was entered with nothing on the
stack. -/
theorem Clean.entry (hclean : Clean slot ts) (hk : k ≤ ts.length)
    (hv : viewAt slot ts k = some v) (hj : (openAt ts k)[n]? = some j) :
    v.hts[n]? = some 0 ∧ ∃ vj, viewAt slot ts j = some vj ∧ vj.stk = [] := by
  obtain ⟨p, vj, hf⟩ := (viewAt_nested hk hv).frame n j hj
  have hnil : vj.stk = [] := by
    rcases opens_cases hf.opens with hb | hd
    · exact hclean.entered j p vj hf.instr hb hf.view
    · obtain ⟨w, w', hw, hok, -, hc⟩ := hacc.check hf.instr
      obtain rfl := Option.some.inj (hf.view.symm.trans hw)
      exact hok.empty (check_decl hd hc).1
  refine ⟨?_, vj, hf.view, hnil⟩
  rw [hf.height, hnil]
  rfl

omit hacc in
/-- Behind the `end` of a block the compile-time height is the recorded
one of the parent. -/
theorem track_end {j' : Nat} {rest : List Nat} (hi : ts[k]? = some i)
    (he : i.token = .end_) (ho : openAt ts k = j :: j' :: rest) :
    (track ts (k + 1)).stkh = entryHeight ts j' := by
  have hhts := track_hts ts k
  rw [ho] at hhts
  rw [track_succ hi]
  unfold trackStep
  simp only [he, hhts, List.map_cons]

/-- Branches move what the verifier moves. -/
theorem moved_branch (hi : ts[k]? = some i) (ht : i.token = .br ∨ i.token = .brIf) :
    moved ts k i = if i.token = .brIf then -1 else 0 := by
  obtain ⟨j, -, -, hj, -⟩ := accepted_label hacc hi ht
  unfold moved dropped
  rcases ht with ht | ht
  · rw [codeOf_br ht hj, if_neg (by rw [ht]; decide), if_neg (by rw [ht]; decide)]
    rfl
  · rw [codeOf_brIf ht hj, if_neg (by rw [ht]; decide), if_pos ht]
    rfl

/-- Both heights move together at the tokens that are counted right,
those that end or begin something and `ret` apart. -/
theorem height_step (hi : ts[k]? = some i) {v' : View}
    (hv : viewAt slot ts k = some v) (hv' : viewAt slot ts (k + 1) = some v')
    (hd : i.token.isDecl = false) (he : i.token ≠ .end_) (hr : i.token ≠ .ret)
    (hm : miscounted i.token = false) :
    (track ts (k + 1)).stkh - (track ts k).stkh
      = (v'.stk.length : Int) - v.stk.length := by
  have hk : k < ts.length := (List.getElem?_eq_some_iff.1 hi).1
  have hc : Sume.check (sigsOf ts) v i = some v' := by
    rw [← viewAt_succ hv hi]
    exact hv'
  have hin := check_inFn hd hc
  have hok := viewAt_ok (by omega) hv
  rw [track_moved hacc hi he]
  by_cases hb : i.token = .block ∨ i.token = .loop
  · obtain ⟨-, rfl⟩ := check_enter hb hc
    rw [moved_opens (by rcases hb with hb | hb <;> rw [hb] <;> rfl)]
    show _ = (v.stk.length : Int) - v.stk.length
    omega
  by_cases hbr : i.token = .br
  · unfold Sume.check at hc
    rw [hbr] at hc
    have hc : (if v.labelOk i.arg.toInt then some v else none) = some v' := hc
    obtain ⟨-, hvv⟩ := Option.ite_none_right_eq_some.1 hc
    cases hvv
    rw [moved_branch hacc hi (Or.inl hbr), if_neg (by rw [hbr]; decide)]
    omega
  by_cases hbi : i.token = .brIf
  · have habove := check_brIf hok hbi hc
    obtain ⟨h₀, hmem⟩ := List.exists_mem_of_ne_nil _ hin
    have hroom := habove.room h₀ hmem
    have hlen := congrArg List.length habove.stk
    rw [List.length_append, List.length_drop, List.length_nil] at hlen
    rw [moved_branch hacc hi (Or.inr hbi), if_pos hbi]
    omega
  have hcmp : comparedToken i.token = true := by
    cases ht : i.token <;> rw [ht] at hd he hr hb hbr hbi <;>
      first | rfl | (cases hd; done) | (exfalso; tauto)
  obtain ⟨s, s', hs, hs', hiff⟩ := verified_moves hacc hi hcmp
  have hmoves := hiff.2 hm
  obtain ⟨t, w, ht, hw, hrep, -⟩ := hacc.view k (by omega)
  obtain ⟨t', w', ht', hw', hrep', -⟩ := hacc.view (k + 1) hk
  obtain rfl : s = t := Except.ok.inj (hs.symm.trans ht)
  obtain rfl : s' = t' := Except.ok.inj (hs'.symm.trans ht')
  obtain rfl : v = w := Option.some.inj (hv.symm.trans hw)
  obtain rfl : v' = w' := Option.some.inj (hv'.symm.trans hw')
  have hopens : i.token.opens = false := by
    cases ht : i.token <;> rw [ht] at hcmp <;> first | rfl | cases hcmp
  obtain ⟨_, _, habove, -, -⟩ := check_above hok hc hopens he
  rw [hrep.pos_of hin, hrep'.pos_of (by rw [habove.hts]; exact hin)] at hmoves
  omega

/-- So height 0 is what the compiler records for it, if the compile-time
height was the verifier's there. -/
theorem Clean.recorded (hclean : Clean slot ts) (hk : k ≤ ts.length)
    (hv : viewAt slot ts k = some v) (hj : (openAt ts k)[n]? = some j)
    (htrack : ∀ {w : View}, viewAt slot ts j = some w → w.hts ≠ [] →
      NotBehindRet ts j → (track ts j).stkh = w.stk.length) :
    entryHeight ts j = 0 := by
  obtain ⟨p, hp, hpo⟩ := openAt_instr (List.mem_of_getElem? hj)
  rcases opens_cases hpo with hb | hpd
  · obtain ⟨-, vj, hvj, hnil⟩ := hclean.entry hacc hk hv hj
    have hbd : p.token.isDecl = false := by
      rcases hb with hb | hb <;> rw [hb] <;> rfl
    have hbe : p.token ≠ .end_ := by
      rcases hb with hb | hb <;> rw [hb] <;> decide
    obtain ⟨w, w', hw, -, -, hcw⟩ := hacc.check hp
    obtain rfl := Option.some.inj (hvj.symm.trans hw)
    rw [entryHeight_block hp hbd,
      htrack hvj (check_inFn hbd hcw) (notBehindRet hacc hp hbe), hnil]
    rfl
  · exact entryHeight_decl hp hpd

/-- In a clean program the compile-time height is the verifier's, except
behind a `ret`. -/
theorem Clean.track_height (hclean : Clean slot ts) :
    ∀ {k : Nat} {v : View}, k ≤ ts.length → viewAt slot ts k = some v →
      v.hts ≠ [] → NotBehindRet ts k → (track ts k).stkh = v.stk.length := by
  intro k
  induction k using Nat.strongRecOn with
  | _ k ih =>
  intro v' hk hv' hne hret
  cases k with
  | zero =>
    cases hv'
    exact absurd rfl hne
  | succ k =>
    have hi : ts[k]? = some ts[k] := List.getElem?_eq_getElem hk
    generalize ts[k] = i at hi
    obtain ⟨v, hv, hc⟩ := viewAt_prev hi hv'
    by_cases hd : i.token.isDecl = true
    · obtain ⟨-, rfl⟩ := check_decl hd hc
      exact (starts_iff hacc).2 hclean.fit.ends k i hi hd
    have hd : i.token.isDecl = false := by simpa using hd
    by_cases he : i.token = .end_
    · -- back in the parent, which was entered at height 0
      have hlen := (viewAt_nested (by omega) hv).length
      rcases check_end he hc with ⟨h₀, hh, rfl⟩ | ⟨h₀, h₁, hs, hh, rfl⟩
      · exact absurd rfl hne
      rw [hh] at hlen
      obtain ⟨j, j', rest, ho⟩ : ∃ j j' rest, openAt ts k = j :: j' :: rest := by
        match hop : openAt ts k with
        | [] | [_] => rw [hop] at hlen; simp at hlen
        | j :: j' :: rest => exact ⟨j, j', rest, rfl⟩
      have hj' : (openAt ts k)[1]? = some j' := by rw [ho]; rfl
      have hentry := (hclean.entry hacc (by omega) hv
        (show (openAt ts k)[0]? = some j by rw [ho]; rfl)).1
      rw [hh] at hentry
      obtain rfl : h₀ = 0 := Option.some.inj hentry
      have hlt := openAt_lt (List.mem_of_getElem? hj')
      rw [track_end hi he ho, cut_zero]
      exact hclean.recorded hacc (by omega) hv hj'
        fun hw => ih j' (by omega) (by omega) hw
    have hprev := ih k (by omega) (by omega) hv (check_inFn hd hc)
      (notBehindRet hacc hi he)
    have hstep := height_step hacc hi hv hv' hd he (hret k i rfl hi)
      (hclean.fit.tokens i (List.mem_of_getElem? hi))
    omega

/-- Clean programs are balanced at every branch and at every `end` of a
block that is not behind a `br`, a `ret` or a `trap`. -/
theorem balanced_of_clean (hclean : Clean slot ts) (hi : ts[k]? = some i)
    (hl : Leaves ts k i n) {vj : View}
    (hfalls : i.token = .end_ → ∀ p q, k = p + 1 → ts[p]? = some q →
      q.token.needsEnd = false)
    (hv : viewAt slot ts k = some v) (hj : (openAt ts k)[n]? = some j)
    (hvj : viewAt slot ts j = some vj) :
    Balanced ts k i n v.stk.length vj.stk.length := by
  have hk : k < ts.length := (List.getElem?_eq_some_iff.1 hi).1
  have hlt := openAt_lt (List.mem_of_getElem? hj)
  obtain ⟨-, w, hw, hnil⟩ := hclean.entry hacc (by omega) hv hj
  obtain rfl := Option.some.inj (hvj.symm.trans hw)
  refine ⟨?_, fun hne j' hj' => ?_⟩
  · have hzero : released ts k i + (vj.stk.length : Int) - v.stk.length = 0 := by
      rw [hnil]
      unfold released
      rcases hl with ⟨ht, -⟩ | ⟨ht, rfl, hdepth⟩
      · have hne : i.token ≠ .end_ := by
          rcases ht with ht | ht <;> rw [ht] <;> decide
        have hd : i.token.isDecl = false := by
          rcases ht with ht | ht <;> rw [ht] <;> rfl
        obtain ⟨u', -, -, hc⟩ := hacc.check_at hi hv
        rw [if_neg hne, hclean.track_height hacc (by omega) hv (check_inFn hd hc)
          (notBehindRet hacc hi hne)]
        simp
      · have hrec : ∀ n j : Nat, (openAt ts k)[n]? = some j →
            entryHeight ts j = 0 := by
          intro n j hj
          have hlt := openAt_lt (List.mem_of_getElem? hj)
          exact hclean.recorded hacc (by omega) hv hj
            fun hw => hclean.track_height hacc (by omega) hw
        rw [if_pos ht, hclean.left k i v hi ht hdepth (fun p q => hfalls ht p q) hv]
        match hop : openAt ts k with
        | [] | [_] => rfl
        | j₀ :: j₁ :: rest =>
          show entryHeight ts j₀ - entryHeight ts j₁ + 0 - 0 = 0
          rw [hrec 0 j₀ (by rw [hop]; rfl), hrec 1 j₁ (by rw [hop]; rfl)]
          rfl
    rw [hzero]
    exact Int.dvd_zero _
  · rcases hl with ⟨ht, rfl⟩ | ⟨ht, -⟩
    · exact hclean.closed k i j' hi ht hj'
    · exact absurd ht hne

end Accepted

-- ======== the result

/-- A branch that is taken and the `end` of a block restore the operand
stack of the block's entry exactly when the words their code releases are
the operands above it. Before the code ESP is at the verifier's height. -/
theorem leaving_restores_iff {cap : Nat} {code : List Byte}
    (h : Accepts prog slot) (hcap : cap < 2 ^ 32)
    (hcode : toAsm prog 0 cap = .ok code) (hts : Sume.decode prog = .ok ts)
    (hi : ts[k]? = some i) (hl : Leaves ts k i n) :
    ∃ j s sj c, (openAt ts k)[n]? = some j ∧ verifyAt prog slot k = .ok s
      ∧ verifyAt prog slot j = .ok sj ∧ asmAt prog 0 cap k = .ok c
      ∧ ∀ (a : Word) (m : Machine), BytesAt m.mem a code →
        m.eip = a + ofNat 32 c.buf.length →
        m.reg .esp = m.reg .ebp - ofInt 32 (4 * s.stkPos) →
        (i.token = .brIf → stackWord m 0 ≠ 0) →
        (Restores ts k i n a sj.stkPos m
          ↔ Balanced ts k i n s.stkPos sj.stkPos) := by
  have hacc : Accepted prog slot ts := h.accepted_decode hts
  have hk : k < ts.length := lt_length hi
  have hne : ts ≠ [] := by
    rintro rfl
    cases hi
  obtain ⟨j, hj⟩ : ∃ j, (openAt ts k)[n]? = some j := by
    rcases hl with ⟨ht, rfl⟩ | ⟨-, rfl, hdepth⟩
    · obtain ⟨j, -, -, hj, -⟩ := accepted_label hacc hi ht
      exact ⟨j, hj⟩
    · exact ⟨_, List.getElem?_eq_getElem (by omega)⟩
  have hlt := openAt_lt (List.mem_of_getElem? hj)
  obtain ⟨s, -, hs, -⟩ := hacc.view k (by omega)
  obtain ⟨sj, -, hsj, -⟩ := hacc.view j (by omega)
  obtain ⟨-, c, -, hc, -, hrep⟩ := toAsm_states hacc hcap hcode k (by omega)
  refine ⟨j, s, sj, c, hj, hs, hsj, hc, fun a m hmem heip hesp htaken => ?_⟩
  rw [(toAsm_layout hacc hne hcap hcode).1] at hmem
  rw [hrep.len] at heip
  exact restores_iff hacc hi hl hmem heip htaken hesp

/-- The program `v_declfn () () i_const 5 block br 0 end trap end`. -/
def overOperand : List Byte :=
  [0x31, 0, 0, 0, 5, 0, 0, 0, 0x2a, 0x2c, 0, 0, 0, 0, 0x2f, 0x29, 0x2f]

/-- The branch of `overOperand`. -/
theorem leaving_restores_iff_branch :
    ∃ code ts i j s sj c, toAsm overOperand 0 4096 = .ok code
      ∧ Accepts overOperand 0 ∧ Sume.decode overOperand = .ok ts
      ∧ ts[3]? = some i ∧ Leaves ts 3 i 0
      ∧ (openAt ts 3)[0]? = some j ∧ verifyAt overOperand 0 3 = .ok s
      ∧ verifyAt overOperand 0 j = .ok sj ∧ asmAt overOperand 0 4096 3 = .ok c
      ∧ ∀ (a : Word) (m : Machine), BytesAt m.mem a code →
        m.eip = a + ofNat 32 c.buf.length →
        m.reg .esp = m.reg .ebp - ofInt 32 (4 * s.stkPos) →
        (i.token = .brIf → stackWord m 0 ≠ 0) →
        (Restores ts 3 i 0 a sj.stkPos m
          ↔ Balanced ts 3 i 0 s.stkPos sj.stkPos) := by
  have hacc : Accepts overOperand 0 := ⟨_, rfl⟩
  obtain ⟨code, hcode⟩ := exists_ok (x := toAsm overOperand 0 4096) (by decide +kernel)
  have hts : Sume.decode overOperand = .ok [⟨.vDeclfn, 0, [], []⟩, ⟨.iConst, 5, [], []⟩,
      ⟨.block, 0, [], []⟩, ⟨.br, 0, [], []⟩, ⟨.end_, 0, [], []⟩, ⟨.trap, 0, [], []⟩,
      ⟨.end_, 0, [], []⟩] := rfl
  have hl : Leaves [⟨.vDeclfn, 0, [], []⟩, ⟨.iConst, 5, [], []⟩,
      ⟨.block, 0, [], []⟩, ⟨.br, 0, [], []⟩, ⟨.end_, 0, [], []⟩, ⟨.trap, 0, [], []⟩,
      ⟨.end_, 0, [], []⟩] 3 ⟨.br, 0, [], []⟩ 0 := Or.inl ⟨Or.inl rfl, rfl⟩
  obtain ⟨j, s, sj, c, hj, hs, hsj, hc, hiff⟩ :=
    leaving_restores_iff hacc (by decide) hcode hts rfl hl
  exact ⟨code, _, _, j, s, sj, c, hcode, hacc, hts, rfl, hl, hj, hs, hsj, hc, hiff⟩

/-- The code of `overOperand` at address 0, before instruction `k` with `h`
operands on a stack whose frame is at 8192. -/
def overOperandMachine (k : Nat) (h : Int) : Machine where
  reg := fun r =>
    if r = .ebp then 8192
    else if r = .esp then 8192 - ofInt 32 (4 * h) else 0
  eip := ofNat 32 ((asmAt overOperand 0 4096 k).toOption.elim 0
    fun s => s.buf.length)
  flags := none
  mem := loadedAtZero ((toAsm overOperand 0 4096).toOption.getD []) fun _ => 0

/-- In `overOperand` the block is entered over one operand. The branch out
of it drops that operand too: ESP is back at EBP. -/
theorem branch_drops_operand_below :
    (verify overOperand 0).toOption.isSome = true
      ∧ (verifyAt overOperand 0 2).toOption.map VState.stkPos = some 1
      ∧ (verifyAt overOperand 0 3).toOption.map VState.stkPos = some 1
      ∧ (overOperandMachine 3 1).reg .esp = 8188
      ∧ (runN X86.step 2 (overOperandMachine 3 1)).map
        (fun m => (m.reg .ebp, m.reg .esp)) = some (8192, 8192) := by
  decide +kernel

/-- In a clean program every branch that is taken, and every `end` of a
block that is fallen into, go where they should with the operand stack of
the block's entry. -/
theorem clean_leaves_restore {cap : Nat} {code : List Byte}
    (h : Accepts prog slot) (hcap : cap < 2 ^ 32)
    (hcode : toAsm prog 0 cap = .ok code) (hts : Sume.decode prog = .ok ts)
    (hclean : Clean slot ts) (hi : ts[k]? = some i) (hl : Leaves ts k i n)
    (hfalls : i.token = .end_ → ∀ p q, k = p + 1 → ts[p]? = some q →
      q.token.needsEnd = false) :
    ∃ j s sj c, (openAt ts k)[n]? = some j ∧ verifyAt prog slot k = .ok s
      ∧ verifyAt prog slot j = .ok sj ∧ asmAt prog 0 cap k = .ok c
      ∧ ∀ (a : Word) (m : Machine), BytesAt m.mem a code →
        m.eip = a + ofNat 32 c.buf.length →
        m.reg .esp = m.reg .ebp - ofInt 32 (4 * s.stkPos) →
        (i.token = .brIf → stackWord m 0 ≠ 0) → Restores ts k i n a sj.stkPos m := by
  have hacc : Accepted prog slot ts := h.accepted_decode hts
  have hk : k < ts.length := lt_length hi
  obtain ⟨s, v, hs, hv, hrep, -⟩ := hacc.view k (by omega)
  have hnest := viewAt_nested (by omega) hv
  -- what is left lies in another frame
  have hdeep : n + 1 < v.hts.length := by
    rcases hl with ⟨ht, rfl⟩ | ⟨-, rfl, hdepth⟩
    · obtain ⟨_, -, -, hc⟩ := hacc.check_at hi hv
      obtain ⟨h0, h1⟩ := check_label ht hc
      omega
    · rw [hnest.length]
      exact hdepth
  obtain ⟨j, hj⟩ : ∃ j, (openAt ts k)[n]? = some j :=
    ⟨_, List.getElem?_eq_getElem (by rw [← hnest.length]; omega)⟩
  obtain ⟨_, vj, hf⟩ := hnest.frame n j hj
  obtain ⟨sj, w, hsj, hw, hrepj, -⟩ := hacc.view j (Nat.le_of_lt (hf.before.trans hk))
  obtain rfl := Option.some.inj (hf.view.symm.trans hw)
  have hout : vj.hts ≠ [] := by
    rw [hf.outer]
    exact fun he => absurd (List.drop_eq_nil_iff.1 he) (by omega)
  obtain ⟨-, c, -, hc, -, hpass⟩ := toAsm_states hacc hcap hcode k (by omega)
  refine ⟨j, s, sj, c, hj, hs, hsj, hc, fun a m hmem heip hesp htaken => ?_⟩
  rw [(toAsm_layout hacc (List.ne_nil_of_length_pos (by omega)) hcap hcode).1] at hmem
  rw [hpass.len] at heip
  refine (restores_iff hacc hi hl hmem heip htaken hesp).2 ?_
  rw [hrep.pos_of (List.ne_nil_of_length_pos (by omega)), hrepj.pos_of hout]
  exact balanced_of_clean hacc hclean hi hl hfalls hv hj hf.view

/-- The program `v_declfn () () block end trap end`. -/
def cleanBlock : List Sume.Instr :=
  [⟨.vDeclfn, 0, [], []⟩, ⟨.block, 0, [], []⟩, ⟨.end_, 0, [], []⟩, ⟨.trap, 0, [], []⟩,
    ⟨.end_, 0, [], []⟩]

theorem clean_cleanBlock : Clean 0 cleanBlock := by
  have hcases : ∀ {k : Nat} {i : Sume.Instr}, cleanBlock[k]? = some i → k < 5 := lt_length
  refine ⟨⟨by decide, fun d i hi hd => ?_⟩, fun k i j hi ht => ?_, fun j i v hi ht hv => ?_,
    fun k i v hi ht hd _ hv => ?_⟩
  all_goals have hlt := hcases hi
  · have hd4 : d < 4 := by omega
    interval_cases d <;> cases hi <;> cases hd
  · interval_cases k <;> cases hi <;> simp at ht
  · interval_cases j <;> cases hi <;> simp at ht
    cases hv
    rfl
  · interval_cases k <;> cases hi <;> simp at ht
    · cases hv
      rfl
    · exact absurd hd (by decide)

/-- The `end` of the block. -/
theorem clean_leaves_restore_end :
    ∃ code sj c, toAsm [0x31, 0, 0, 0x2a, 0x2f, 0x29, 0x2f] 0 4096 = .ok code
      ∧ verifyAt [0x31, 0, 0, 0x2a, 0x2f, 0x29, 0x2f] 0 1 = .ok sj
      ∧ asmAt [0x31, 0, 0, 0x2a, 0x2f, 0x29, 0x2f] 0 4096 2 = .ok c
      ∧ ∀ (a : Word) (m : Machine), BytesAt m.mem a code →
        m.eip = a + ofNat 32 c.buf.length → m.reg .esp = m.reg .ebp - ofInt 32 (4 * 0) →
        Restores cleanBlock 2 ⟨.end_, 0, [], []⟩ 0 a sj.stkPos m := by
  obtain ⟨code, hcode⟩ :=
    exists_ok (x := toAsm [0x31, 0, 0, 0x2a, 0x2f, 0x29, 0x2f] 0 4096) (by decide +kernel)
  obtain ⟨j, s, sj, c, hj, hs, hsj, hc, h⟩ := clean_leaves_restore
    (show Accepts _ 0 from ⟨_, rfl⟩) (by decide) hcode rfl clean_cleanBlock (k := 2) rfl
    (.inr ⟨rfl, rfl, by decide⟩) fun _ p q hp hq => (by cases hp; cases hq; rfl)
  cases hj
  cases hs
  exact ⟨code, sj, c, hcode, hsj, hc, fun a m hm he hesp => h a m hm he hesp nofun⟩

end Xv6Sume32.Asm
