/-
What control does inside the code of a function.

The paths of a function body (Sume/Proofs/Reach.lean) are followed by the
machine: from the first instruction of a function's code, every step
stays in that code, or goes to the trap exit, to the entry of a function
by a `call` that will return into the code, or executes a `ret`. When no
path reaches the `end` that closes the function, no step falls out of the
code behind it.

# A closed set of offsets

The machine's stack is not looked at here, so nothing can be said about
what a `ret` returns to. `Enclosed` therefore speaks about single steps:
there is a set of offsets into the output that contains the function's
entry, lies within the function's code, and is left by no step but those
three. The set is that of the instruction boundaries in the code of the
instructions on paths.
-/
import Xv6Sume32.Asm.Proofs.Shapes
import Xv6Sume32.Sume.Proofs.Reach

namespace Xv6Sume32.Asm

open Lib X86 Sume
open BitVec (ofNat)

variable {m m' : Machine} {os : List Op} {k j x : Nat}

-- ======== the property

/-- How a step from inside the code of a function may go on, `B` being
the offsets that belong to the function and `entry` where each function's
code starts. -/
def StaysOr (B : Nat → Prop) (isEntry : Nat → Prop) (base : Word)
    (m m' : Machine) : Prop :=
  (∃ y, B y ∧ m'.eip = base + ofNat 32 y)
    ∨ m'.eip = base + ofNat 32 trapretPos
    ∨ (∃ rel x y, m.next = some (.call rel) ∧ isEntry x
        ∧ m'.eip = base + ofNat 32 x ∧ B y
        ∧ m'.mem.load32 (m'.reg .esp) = base + ofNat 32 y)
    ∨ m.next = some .ret

/-- Control that enters the code `[lo, hi)` at `lo` stays in it until it
traps, calls or returns. -/
def Enclosed (code : List Byte) (isEntry : Nat → Prop) (lo hi : Nat) :
    Prop :=
  ∃ B : Nat → Prop, B lo ∧ (∀ x, B x → lo ≤ x ∧ x < hi)
    ∧ ∀ x, B x → ∀ (base : Word) (m m' : Machine), BytesAt m.mem base code →
      m.eip = base + ofNat 32 x → step m = some m' →
      StaysOr B isEntry base m m'

/-- An offset where the code of some function starts. -/
def FnEntry (prog : List Byte) (cap : Nat) (ts : List Sume.Instr) (x : Nat) :
    Prop :=
  ∃ d g s, Declares ts d g ∧ asmAt prog 0 cap d = .ok s ∧ s.buf.length = x

/-- The code of every function encloses control. -/
def CodeEncloses (prog : List Byte) (cap : Nat) (code : List Byte)
    (ts : List Sume.Instr) : Prop :=
  ∀ d g e, Declares ts d g → Closes ts d e →
    ∃ s s', asmAt prog 0 cap d = .ok s ∧ asmAt prog 0 cap e = .ok s'
      ∧ Enclosed code (FnEntry prog cap ts) s.buf.length s'.buf.length

-- ======== single operations

/-- The operations that go on with the one behind them. -/
def Op.flows : Op → Bool
  | .callRel _ _ | .jaeRel _ _ | .jbRel _ _ | .jzRel _ _ | .jneRel _ _
  | .jmpRel _ _ | .ret => false
  | _ => true

theorem Op.exec_flows {o : Op} (hf : o.flows = true) (h : o.exec m = some m') :
    m'.eip = m.eip + ofNat 32 o.bytes.length := by
  cases o
  case div r =>
    have h : Machine.divStep _ _ = some m' := h
    unfold Machine.divStep at h
    dsimp only at h
    split at h
    · cases h
    · cases h
      rfl
  case idiv r =>
    have h : Machine.idivStep _ _ = some m' := h
    unfold Machine.idivStep at h
    dsimp only at h
    split at h
    · cases h
    · cases h
      rfl
  case bsf r s | bsr r s =>
    cases h
    show Machine.eip (if _ then _ else _) = _
    split <;> rfl
  case set cc r =>
    obtain ⟨f, -, hf⟩ := Option.map_eq_some_iff.1 h
    rw [← hf]
    rfl
  case callRel | jaeRel | jbRel | jzRel | jneRel | jmpRel | ret => cases hf
  all_goals
    cases h
    rfl

-- ======== operations in the code

/-- What an operation in the code of instruction `k`, behind `pre` and in
front of `post`, does to control. -/
inductive Control (ts : List Sume.Instr) (k : Nat) (i : Sume.Instr)
    (pre : List Op) : Op → List Op → Prop
  | flows {o post} (ho : o.flows = true)
      (hlast : post = [] → i.token.falls = true
        ∨ (i.token = .end_ ∧ 2 ≤ (openAt ts k).length)) :
      Control ts k i pre o post
  | bound {post} (hpost : post ≠ []) :
      Control ts k i pre (.jaeRel (ofNat 32 (pos ts k
        + (bytesOf pre).length)) (ofNat 32 trapretPos)) post
  | trap {post} :
      Control ts k i pre (.jmpRel (ofNat 32 (pos ts k
        + (bytesOf pre).length)) (ofNat 32 trapretPos)) post
  | branch {j post} (ht : i.token = .br ∨ i.token = .brIf)
      (hj : (openAt ts k)[i.arg.toInt.toNat]? = some j) :
      Control ts k i pre (.jmpRel (ofNat 32 (pos ts k
        + (bytesOf pre).length)) (ofNat 32 (targetPos ts j))) post
  | skip {post} (hpost : post ≠ []) (ht : i.token = .brIf)
      (hlen : (bytesOf (.jzRel 0 17 :: post)).length = 17) :
      Control ts k i pre (.jzRel 0 17) post
  | call {n f post} (hpost : post ≠ []) (hf : (sigsOf ts)[n]? = some f) :
      Control ts k i pre (.callRel (ofNat 32 (pos ts k
        + (bytesOf pre).length)) (ofNat 32 (entryPos ts n))) post
  | ret {post} : Control ts k i pre .ret post

section Code

variable {prog : List Byte} {slot : Int} {ts : List Sume.Instr} {d : Nat}
  {g : Sig} {st : PathState} {v : View} {i : Sume.Instr} {pre post : List Op}
  {o : Op}

theorem mem_of_split (h : os = pre ++ o :: post) : o ∈ os := by
  rw [h]
  simp

/-- Code that consists of operations that flow. -/
theorem control_flows (hall : ∀ o ∈ codeOf ts k i, o.flows = true)
    (hf : i.token.falls = true ∨ (i.token = .end_ ∧ 2 ≤ (openAt ts k).length))
    (h : codeOf ts k i = pre ++ o :: post) : Control ts k i pre o post :=
  .flows (hall o (mem_of_split h)) fun _ => hf

/-- A list with one distinguished element, split anywhere. -/
theorem split_at {A B : List Op} {c : Op} (h : A ++ c :: B = pre ++ o :: post) :
    (o ∈ A ∧ post ≠ []) ∨ (pre = A ∧ o = c ∧ post = B) ∨ o ∈ B := by
  rcases List.append_eq_append_iff.1 h with ⟨as, hpre, hc⟩ | ⟨bs, hA, hc⟩
  · cases as with
    | nil =>
      cases hc
      exact Or.inr (Or.inl ⟨by simpa using hpre, rfl, rfl⟩)
    | cons x xs =>
      obtain ⟨-, hB⟩ := List.cons.inj hc
      refine Or.inr (Or.inr ?_)
      rw [hB]
      simp
  · cases bs with
    | nil =>
      cases hc
      exact Or.inr (Or.inl ⟨by simpa using hA.symm, rfl, rfl⟩)
    | cons x xs =>
      obtain ⟨rfl, hpost⟩ := List.cons.inj hc
      refine Or.inl ⟨?_, ?_⟩
      · rw [hA]
        simp
      · rw [hpost]
        simp

/-- The tokens that compute: their code goes straight through. -/
def straight (t : Token) : Bool :=
  (binaryOps t).isSome
    || t ∈ [Token.iConst, .iEqz, .iMemsz, .getL, .setL]

theorem binary_flows {r : Reg} (h : binaryOps i.token = some (os, r)) :
    ∀ o ∈ codeOf ts k i, o.flows = true := by
  have hos : ∀ o ∈ os, o.flows = true := by
    intro o ho
    have := binaryOps_quiet h o ho
    cases o <;> first | rfl | cases this
  rw [codeOf_binary h]
  intro o ho
  rcases List.mem_append.1 ho with ho | ho
  · rcases List.mem_append.1 ho with ho | ho
    · rcases List.mem_cons.1 ho with rfl | ho
      · rfl
      · rw [List.mem_singleton.1 ho]
        rfl
    · exact hos o ho
  · rw [List.mem_singleton.1 ho]
    rfl

theorem straight_flows (hs : straight i.token = true)
    (hg : fnSig ts k = some g) : ∀ o ∈ codeOf ts k i, o.flows = true := by
  cases hbin : binaryOps i.token with
  | some p => exact binary_flows hbin
  | none =>
    have hmem : i.token ∈ [Token.iConst, .iEqz, .iMemsz, .getL, .setL] := by
      unfold straight at hs
      rw [hbin] at hs
      simpa using hs
    simp only [List.mem_cons, List.not_mem_nil, or_false] at hmem
    refine List.all_eq_true.1 ?_
    rcases hmem with ht | ht | ht | ht | ht
    · rw [codeOf_const ht]
      rfl
    · rw [codeOf_eqz ht]
      rfl
    · rw [codeOf_memsz ht]
      rfl
    · rw [codeOf_getL ht hg]
      rfl
    · rw [codeOf_setL ht hg]
      rfl

theorem straight_falls {t : Token} (hs : straight t = true) : t.falls = true := by
  revert hs
  cases t <;> decide

theorem control_heap {w : Nat} (hw : heapWidth i.token = some w)
    (h : codeOf ts k i = pre ++ o :: post) : Control ts k i pre o post := by
  have hf : i.token.falls = true := by
    cases ht : i.token <;> rw [ht] at hw <;> first | rfl | cases hw
  have hA : ∀ o ∈ heapPops i.token ++ scaleOps (heapShift i.token)
      ++ [.cmp .eax .esi], o.flows = true := by
    cases i.token <;> decide
  have hB : ∀ o ∈ .add .eax .edi :: heapOp i.token :: heapTail i.token, o.flows = true := by
    cases i.token <;> decide
  rw [codeOf_heap hw, heapCode, ← List.append_assoc, List.append_cons _ (Op.cmp .eax .esi)] at h
  rcases split_at h with ⟨ho, hpost⟩ | ⟨rfl, rfl, rfl⟩ | ho
  · exact .flows (hA o ho) fun hn => absurd hn hpost
  · have hlen : pos ts k + (bytesOf (heapPops i.token ++ scaleOps (heapShift i.token))).length + 2
        = pos ts k + (bytesOf (heapPops i.token
          ++ scaleOps (heapShift i.token) ++ [.cmp .eax .esi])).length := by
      rw [bytesOf_append _ [_], List.length_append, Nat.add_assoc]
      rfl
    rw [hlen]
    exact .bound (by simp)
  · exact .flows (hB o ho) fun _ => Or.inl hf

theorem control_br (ht : i.token = .br)
    (hj : (openAt ts k)[i.arg.toInt.toNat]? = some j)
    (h : codeOf ts k i = pre ++ o :: post) : Control ts k i pre o post := by
  rw [codeOf_br ht hj, ← List.singleton_append] at h
  rcases split_at h with ⟨ho, hpost⟩ | ⟨rfl, rfl, rfl⟩ | ho
  · exact .flows (by rw [List.mem_singleton.1 ho]; rfl) fun hn => absurd hn hpost
  · exact .branch (Or.inl ht) hj
  · cases ho

theorem control_brIf (ht : i.token = .brIf)
    (hj : (openAt ts k)[i.arg.toInt.toNat]? = some j)
    (h : codeOf ts k i = pre ++ o :: post) : Control ts k i pre o post := by
  have hf : i.token.falls = true := by
    rw [ht]
    rfl
  rw [codeOf_brIf ht hj] at h
  have h1 : [.pop .eax .stkh, .test .eax .eax]
      ++ .jzRel 0 17 :: [.addImm .esp (BitVec.ofInt 32 (4 * ((track ts k).stkh - 1))),
          .jmpRel (ofNat 32 (pos ts k + 15))
            (ofNat 32 (targetPos ts j))] = pre ++ o :: post := h
  have h2 : [.pop .eax .stkh, .test .eax .eax, .jzRel 0 17,
        .addImm .esp (BitVec.ofInt 32 (4 * ((track ts k).stkh - 1)))]
      ++ .jmpRel (ofNat 32 (pos ts k + 15))
            (ofNat 32 (targetPos ts j)) :: [] = pre ++ o :: post := h
  -- split at the jump over the branch, then at the branch itself
  rcases split_at h1 with ⟨ho, hpost⟩ | ⟨rfl, rfl, rfl⟩ | ho
  · exact .flows (List.all_eq_true.1 (by rfl) o ho) fun hn => absurd hn hpost
  · exact .skip (by simp) ht rfl
  · rcases split_at h2 with ⟨ho', hpost⟩ | ⟨rfl, rfl, rfl⟩ | ho'
    · rcases List.mem_cons.1 ho with rfl | ho
      · exact .flows rfl fun hn => absurd hn hpost
      · rw [List.mem_singleton.1 ho] at ho'
        simp at ho'
    · exact .branch (Or.inr ht) hj
    · cases ho'

theorem control_ret (ht : i.token = .ret)
    (hg : fnSig ts k = some g) (h : codeOf ts k i = pre ++ o :: post) :
    Control ts k i pre o post := by
  have hA : ∀ o ∈ (if g.rt ≠ 0 then [Op.pop .eax .stkh] else [])
      ++ [.mov .esp .ebp], o.flows = true := by
    refine List.all_eq_true.1 ?_
    split <;> rfl
  rw [codeOf_ret ht hg, List.append_cons _ (Op.mov .esp .ebp)] at h
  rcases split_at h with ⟨ho, hpost⟩ | ⟨rfl, rfl, rfl⟩ | ho
  · exact .flows (hA o ho) fun hn => absurd hn hpost
  · exact .ret
  · cases ho

theorem control_call {f : Sig} (ht : i.token = .call)
    (hf : sigNum (sigsOf ts) i.arg.toInt = some f)
    (h : codeOf ts k i = pre ++ o :: post) : Control ts k i pre o post := by
  have hfalls : i.token.falls = true := by
    rw [ht]
    rfl
  have hB : ∀ o ∈ returnOps f, o.flows = true := by
    refine List.all_eq_true.1 ?_
    unfold returnOps
    split <;> rfl
  rw [codeOf_call ht hf] at h
  have h1 : [.subImm .esp (ofNat 32 f.locals.length), .push .ebp .nil,
      .mov .ebp .esp, .subImm .ebp 4] ++ .callRel (ofNat 32 (pos ts k + 15))
        (ofNat 32 (entryPos ts i.arg.toInt.toNat)) :: returnOps f = pre ++ o :: post := h
  rcases split_at h1 with ⟨ho, hpost⟩ | ⟨rfl, rfl, rfl⟩ | ho
  · exact .flows (List.all_eq_true.1 (by rfl) o ho) fun hn => absurd hn hpost
  · exact .call (by simp [returnOps]) (sigNum_inv hf).2
  · exact .flows (hB o ho) fun _ => Or.inl hfalls

theorem control_end (ht : i.token = .end_)
    (h : codeOf ts k i = pre ++ o :: post) : Control ts k i pre o post := by
  match hop : openAt ts k with
  | [] | [_] =>
    rw [codeOf_end_fn ht (by simp [hop])] at h
    simp at h
  | j :: j' :: rest =>
    refine control_flows ?_ (Or.inr ⟨ht, by simp [hop]⟩) h
    rw [codeOf_end ht hop]
    exact List.all_eq_true.1 rfl

/-- The control of every operation in the code of an instruction on a
path. -/
theorem control_of_path (hacc : Accepted prog slot ts)
    (hp : PathInv slot ts d g st v) (hi : ts[st.pc]? = some i)
    (h : codeOf ts st.pc i = pre ++ o :: post) : Control ts st.pc i pre o post := by
  have hg := fnSig_path hp
  by_cases hs : straight i.token = true
  · exact control_flows (straight_flows hs hg) (Or.inl (straight_falls hs)) h
  cases hw : heapWidth i.token with
  | some w => exact control_heap hw h
  | none =>
  have hnil : codeOf ts st.pc i ≠ [] := by
    rw [h]
    simp
  cases ht : i.token <;> rw [ht] at hs hw
  case trap =>
    rw [codeOf_trap ht, ← List.nil_append [_]] at h
    rcases split_at h with ⟨ho, -⟩ | ⟨rfl, rfl, rfl⟩ | ho
    · cases ho
    · exact .trap
    · cases ho
  case br =>
    obtain ⟨-, l, hl⟩ := hp.label_exists hacc hi (Or.inl ht)
    exact control_br ht (hp.label hl) h
  case brIf =>
    obtain ⟨-, l, hl⟩ := hp.label_exists hacc hi (Or.inr ht)
    exact control_brIf ht (hp.label hl) h
  case ret => exact control_ret ht hg h
  case end_ => exact control_end ht h
  case call =>
    obtain ⟨f, hf⟩ := accepted_callee hacc hi ht
    exact control_call ht hf h
  case iPopcnt => exact absurd (codeOf_silent (Or.inl ht)) hnil
  case str16 => exact absurd (codeOf_silent (Or.inr ht)) hnil
  case block | loop | vDeclfn | iDeclfn =>
    exact absurd (codeOf_opens (by rw [ht]; rfl)) hnil
  all_goals first | cases hw; done | exact absurd rfl hs

-- ======== the closed set

/-- The instruction boundaries in the code of the instructions on paths of
the function declared at `d`. -/
def InBody (ts : List Sume.Instr) (d : Nat) (g : Sig) (x : Nat) : Prop :=
  ∃ st i pre o post, FnPath ts d g st ∧ ts[st.pc]? = some i
    ∧ codeOf ts st.pc i = pre ++ o :: post
    ∧ x = pos ts st.pc + (bytesOf pre).length

/-- On a path, only instructions that go on have no code, the `end` of the
function apart. -/
theorem falls_of_nil (hacc : Accepted prog slot ts)
    (hp : PathInv slot ts d g st v) (hi : ts[st.pc]? = some i)
    (hncl : ¬ Closes ts d st.pc) (h : codeOf ts st.pc i = []) :
    i.token.falls = true := by
  have hg := fnSig_path hp
  cases ht : i.token <;> first | rfl | skip
  case trap =>
    rw [codeOf_trap ht] at h
    cases h
  case br =>
    obtain ⟨-, l, hl⟩ := hp.label_exists hacc hi (Or.inl ht)
    rw [codeOf_br ht (hp.label hl)] at h
    cases h
  case ret =>
    rw [codeOf_ret ht hg] at h
    simp at h
  case end_ =>
    refine absurd ⟨by rw [hi, Option.map_some, ht], hp.closes_iff.2 ?_⟩ hncl
    match hop : openAt ts st.pc with
    | [] =>
      rw [hp.opened] at hop
      simp at hop
    | [_] => rfl
    | j :: j' :: rest =>
      rw [codeOf_end ht hop] at h
      cases h
  case vDeclfn | iDeclfn =>
    obtain ⟨w', -, -, hc⟩ := hacc.check_at hi hp.view
    have hnil := (check_decl (by rw [ht]; rfl) hc).1
    rw [hp.heights] at hnil
    simp at hnil

/-- Every point of a path is at an instruction boundary of the function's
code. -/
theorem inBody_path (hacc : Accepted prog slot ts) (hd : Declares ts d g)
    (hgo : ∀ st, FnPath ts d g st → GoesOn ts d g st) :
    ∀ {st : PathState}, FnPath ts d g st → InBody ts d g (pos ts st.pc) := by
  intro st hst
  -- instructions without code only go forward
  induction hn : ts.length - st.pc using Nat.strong_induction_on generalizing st with
  | _ n ih =>
    obtain ⟨hncl, i, hi, -⟩ := hgo st hst
    cases hcode : codeOf ts st.pc i with
    | cons o post => exact ⟨st, i, [], o, post, hst, hi, hcode, rfl⟩
    | nil =>
      obtain ⟨v, hp⟩ := hacc.path hd hst
      have hlt : st.pc < ts.length := lt_length hi
      obtain ⟨st', hstep, hpc⟩ := hp.falls hacc hi (falls_of_nil hacc hp hi hncl hcode)
      have hbody := ih (ts.length - st'.pc) (by omega) (hst.step hstep) rfl
      rw [hpc, pos_succ_code hi, hcode] at hbody
      exact hbody

/-- Where an operation of the code ends, the function's code goes on, if
the path does. -/
theorem inBody_next (hacc : Accepted prog slot ts) (hd : Declares ts d g)
    (hgo : ∀ st, FnPath ts d g st → GoesOn ts d g st) (hst : FnPath ts d g st)
    (hi : ts[st.pc]? = some i) (h : codeOf ts st.pc i = pre ++ o :: post)
    (hlast : post = [] → ∃ st', PathStep ts g st st' ∧ st'.pc = st.pc + 1) :
    InBody ts d g (pos ts st.pc + (bytesOf pre).length + o.bytes.length) := by
  have hlen : pos ts st.pc + (bytesOf pre).length + o.bytes.length
      = pos ts st.pc + (bytesOf (pre ++ [o])).length := by
    rw [bytesOf_append, List.length_append, Nat.add_assoc]
    show _ = _ + (_ + (o.bytes ++ []).length)
    rw [List.append_nil]
  rw [hlen]
  cases post with
  | cons o' post =>
    exact ⟨st, i, pre ++ [o], o', post, hst, hi, by rw [h]; simp, rfl⟩
  | nil =>
    obtain ⟨st', hstep, hpc⟩ := hlast rfl
    have hbody := inBody_path hacc hd hgo (hst.step hstep)
    rw [hpc, pos_succ_code hi, h] at hbody
    exact hbody

/-- The `end` of a block on a path goes on with the next instruction. -/
theorem leave_next (hp : PathInv slot ts d g st v) (hi : ts[st.pc]? = some i) (ht : i.token = .end_)
    (hlen : 2 ≤ (openAt ts st.pc).length) : ∃ st', PathStep ts g st st' ∧ st'.pc = st.pc + 1 := by
  obtain ⟨pc, stk, ls⟩ := st
  have hop : openAt ts pc = ls.map Prod.fst ++ [d] := hp.opened
  cases ls with
  | nil =>
    have hlen : 2 ≤ (openAt ts pc).length := hlen
    rw [hop] at hlen
    simp at hlen
  | cons l ls => exact ⟨_, .leave hi ht, rfl⟩

/-- A branch on a path goes to a point of the path. -/
theorem inBody_branch (hacc : Accepted prog slot ts) (hd : Declares ts d g)
    (hclosed : openAt ts ts.length = [])
    (hgo : ∀ st, FnPath ts d g st → GoesOn ts d g st) (hst : FnPath ts d g st)
    (hp : PathInv slot ts d g st v) (hi : ts[st.pc]? = some i)
    (ht : i.token = .br ∨ i.token = .brIf)
    (hj : (openAt ts st.pc)[i.arg.toInt.toNat]? = some j) : InBody ts d g (targetPos ts j) := by
  obtain ⟨h0, ⟨pc', h, ls'⟩, hb⟩ := hp.branch_exists hacc hclosed hi ht
  obtain ⟨st', hstep, hpc⟩ := hp.branches hacc hi ht h0 hb
  have hbody := inBody_path hacc hd hgo (hst.step hstep)
  rw [hpc] at hbody
  obtain ⟨-, ⟨j', h'⟩, hl⟩ := hp.label_exists hacc hi ht
  obtain rfl : j' = j := Option.some.inj ((hp.label hl).symm.trans hj)
  have htarget : targetPos ts j' = pos ts pc' := by
    have hlt : i.arg.toInt.toNat < st.labels.length := lt_length hl
    unfold branch at hb
    rw [List.drop_eq_getElem_cons hlt, (List.getElem?_eq_some_iff.1 hl).2] at hb
    unfold targetPos
    dsimp only at hb
    split at hb
    · next hloop =>
        cases hb
        obtain ⟨ij, hij, -⟩ := openAt_instr (List.mem_of_getElem? hj)
        rw [if_pos hloop, pos_succ_code hij, codeOf_opens]
        · rfl
        · rw [hij, Option.map_some] at hloop
          rw [Option.some.inj hloop]
          rfl
    · next hloop =>
        obtain ⟨e, he, hb⟩ := Option.map_eq_some_iff.1 hb
        cases hb
        rw [if_neg hloop, he]
        rfl
  rw [htarget]
  exact hbody

/-- The boundaries lie in the function's code. -/
theorem inBody_range (hacc : Accepted prog slot ts) (hd : Declares ts d g)
    (hgo : ∀ st, FnPath ts d g st → GoesOn ts d g st) {e : Nat}
    (he : Closes ts d e) (hx : InBody ts d g x) : pos ts d ≤ x ∧ x < pos ts e := by
  obtain ⟨st, i, pre, o, post, hst, hi, hcode, rfl⟩ := hx
  obtain ⟨v, hp⟩ := hacc.path hd hst
  have hopen : d ∈ openAt ts st.pc := by
    rw [hp.opened]
    simp
  have hlt : d < st.pc := openAt_lt hopen
  have hle : st.pc ≤ e := closeOf_ge hopen (closeOf_of_closes he)
  have hne : st.pc ≠ e := by
    rintro rfl
    exact (hgo st hst).1 he
  have hlo : pos ts d ≤ pos ts st.pc := pos_mono (by omega)
  have hhi : pos ts (st.pc + 1) ≤ pos ts e := pos_mono (by omega)
  have hpos := bytes_pos o
  rw [pos_succ_code hi, hcode, bytesOf_append, List.length_append, bytesOf_cons,
    List.length_append] at hhi
  omega

/-- One step from a boundary in the code of a function. -/
theorem inBody_step (hacc : Accepted prog slot ts) (hd : Declares ts d g)
    (hclosed : openAt ts ts.length = []) (hgo : ∀ st, FnPath ts d g st → GoesOn ts d g st)
    (hx : InBody ts d g x) {isEntry : Nat → Prop}
    (hentry : ∀ n f, (sigsOf ts)[n]? = some f → isEntry (entryPos ts n))
    {base : Word} (hcode : BytesAt m.mem base (written ts ts.length))
    (heip : m.eip = base + ofNat 32 x) (hs : step m = some m') :
    StaysOr (InBody ts d g) isEntry base m m' := by
  obtain ⟨st, i, pre, o, post, hst, hi, hsplit, rfl⟩ := hx
  obtain ⟨v, hp⟩ := hacc.path hd hst
  have hc : CodeAt m.mem m.eip (o :: post) := by
    have h := codeAt_token hcode hi
    rw [hsplit] at h
    rw [heip, BitVec.ofNat_add, ← BitVec.add_assoc]
    exact (codeAt_append.1 h).2
  rw [hc.step] at hs
  -- the operation is followed by more code of the function
  have hnext : (post = [] → ∃ st', PathStep ts g st st' ∧ st'.pc = st.pc + 1) →
      m'.eip = m.eip + ofNat 32 o.bytes.length →
      StaysOr (InBody ts d g) isEntry base m m' := by
    intro hlast he
    refine Or.inl ⟨_, inBody_next hacc hd hgo hst hi hsplit hlast, ?_⟩
    rw [he, heip, BitVec.add_assoc, ← BitVec.ofNat_add]
  cases control_of_path hacc hp hi hsplit with
  | flows ho hlast =>
    refine hnext (fun hn => ?_) (Op.exec_flows ho hs)
    rcases hlast hn with hf | ⟨ht, hlen⟩
    · exact hp.falls hacc hi hf
    · exact leave_next hp hi ht hlen
  | bound hpost =>
    obtain ⟨f, -, hf⟩ := Option.map_eq_some_iff.1 hs
    split at hf
    · refine Or.inr (Or.inl ?_)
      rw [← hf]
      exact jump_target 6 heip
    · refine hnext (fun hn => absurd hn hpost) ?_
      rw [← hf]
  | trap =>
    cases hs
    exact Or.inr (Or.inl (jump_target 5 heip))
  | branch ht hj =>
    cases hs
    exact Or.inl ⟨_, inBody_branch hacc hd hclosed hgo hst hp hi ht hj, jump_target 5 heip⟩
  | skip hpost ht hlen =>
    obtain ⟨f, -, hf⟩ := Option.map_eq_some_iff.1 hs
    split at hf
    · obtain ⟨st', hstep, hpc⟩ := hp.falls hacc hi (by rw [ht]; rfl)
      have hbody := inBody_path hacc hd hgo (hst.step hstep)
      rw [hpc, pos_succ_code hi, hsplit, bytesOf_append, List.length_append,
        hlen, ← Nat.add_assoc] at hbody
      refine Or.inl ⟨_, hbody, ?_⟩
      rw [← hf]
      show m.eip + 6#32 + (17 - 0 - 6) = _
      rw [heip, BitVec.ofNat_add _ 17]
      bv_omega
    · refine hnext (fun hn => absurd hn hpost) ?_
      rw [← hf]
  | @call n f _ hpost hf =>
    cases hs
    refine Or.inr (Or.inr (Or.inl ⟨_, entryPos ts n, _, hc.next,
      hentry n f hf, jump_target 5 heip,
      inBody_next hacc hd hgo hst hi hsplit fun hn => absurd hn hpost, ?_⟩))
    show (Mem.store32 m.mem (m.reg .esp - 4) (m.eip + 5)).load32 (m.reg .esp - 4) = _
    rw [Mem.load32_store32, heip, BitVec.add_assoc]
    exact congrArg (base + ·) (BitVec.ofNat_add _ 5).symm
  | ret => exact Or.inr (Or.inr (Or.inr hc.next))

end Code

-- ======== the theorem

/-- The code of a program none of whose paths falls through encloses
control. -/
theorem codeEncloses_of {prog code : List Byte} {slot : Int} {cap : Nat}
    {ts : List Sume.Instr} (hacc : Accepted prog slot ts) (hcap : cap < 2 ^ 32)
    (h : toAsm prog 0 cap = .ok code) (hno : NoFallThrough ts) :
    CodeEncloses prog cap code ts := by
  obtain ⟨⟨d0, g0, hd0⟩, hclosed, hpaths⟩ := hno
  have hne : ts ≠ [] := by
    rintro rfl
    obtain ⟨i, hi, -⟩ := hd0
    cases hi
  obtain ⟨hcode, hbufs⟩ := toAsm_layout hacc hne hcap h
  -- where the code of an instruction starts in the output
  have hat : ∀ k ≤ ts.length, ∃ s, asmAt prog 0 cap k = .ok s
      ∧ s.buf.length = pos ts k := by
    intro k hk
    obtain ⟨s, hs, -, hbuf⟩ := hbufs k hk
    exact ⟨s, hs, by rw [hbuf, written_length]⟩
  have hdecl : ∀ d g, Declares ts d g → d ≤ ts.length := by
    rintro d g ⟨i, hi, -⟩
    exact Nat.le_of_lt (lt_length hi)
  have hentry : ∀ n f, (sigsOf ts)[n]? = some f →
      FnEntry prog cap ts (entryPos ts n) := by
    intro n f hf
    obtain ⟨d, hd, rfl⟩ := exists_declares hf
    obtain ⟨s, hs, hlen⟩ := hat d (hdecl d f hd)
    refine ⟨d, f, s, hd, hs, ?_⟩
    unfold entryPos
    rw [declPos_eq hd]
    exact hlen
  intro d g e hd he
  have hgo := hpaths d g hd
  have helt : e < ts.length := by
    by_contra hge
    have := he.1
    rw [List.getElem?_eq_none (by omega)] at this
    cases this
  obtain ⟨s, hs, hlen⟩ := hat d (hdecl d g hd)
  obtain ⟨s', hs', hlen'⟩ := hat e (by omega)
  refine ⟨s, s', hs, hs', InBody ts d g, ?_, fun x hx => ?_, ?_⟩
  · obtain ⟨i, hi, hdec, -⟩ := id hd
    have hbody := inBody_path hacc hd hgo FnPath.start
    rw [pos_succ_code hi, codeOf_opens (isDecl_opens hdec)] at hbody
    rw [hlen]
    exact hbody
  · rw [hlen, hlen']
    exact inBody_range hacc hd hgo he hx
  · intro x hx base m m' hbytes heip hstep
    rw [hcode] at hbytes
    exact inBody_step hacc hd hclosed hgo hx hentry hbytes heip hstep

/-- No function falls through, in the text and in the code, exactly when
the scan finds every function closed and no reachable `end` that closes
one: `verify` asks for neither. -/
theorem no_fall_through_iff {prog code : List Byte} {slot : Int} {cap : Nat}
    (hv : Accepts prog slot) (hcap : cap < 2 ^ 32)
    (h : toAsm prog 0 cap = .ok code) :
    ∃ ts, Sume.decode prog = .ok ts
      ∧ ((NoFallThrough ts ∧ CodeEncloses prog cap code ts) ↔ Guarded ts) := by
  obtain ⟨ts, hacc⟩ := hv.accepted
  refine ⟨ts, hacc.decode, ?_⟩
  rw [← noFallThrough_iff hacc]
  exact ⟨fun hn => hn.1, fun hn => ⟨hn, codeEncloses_of hacc hcap h hn⟩⟩

/-- The program `v_declfn () () trap end`. -/
theorem no_fall_through_iff_trap :
    ∃ code, toAsm [0x31, 0, 0, 0x29, 0x2f] 0 4096 = .ok code
      ∧ ∃ ts, Sume.decode [0x31, 0, 0, 0x29, 0x2f] = .ok ts
        ∧ ((NoFallThrough ts
          ∧ CodeEncloses [0x31, 0, 0, 0x29, 0x2f] 4096 code ts) ↔ Guarded ts) := by
  obtain ⟨code, hcode⟩ := exists_ok
    (x := toAsm [0x31, 0, 0, 0x29, 0x2f] 0 4096) (by decide +kernel)
  exact ⟨code, hcode, no_fall_through_iff
    (show Accepts _ 0 from ⟨_, rfl⟩) (by decide) hcode⟩

/-- The empty program has no function, and the body of
`v_declfn () () end` is the closing `end`, for which there is no code: the
output ends where the function's code starts. -/
theorem accepted_falls_through :
    Accepts [] 0 ∧ Accepts [0x31, 0, 0, 0x2f] 0
      ∧ (∃ ts, Sume.decode [] = .ok ts ∧ ¬ NoFallThrough ts)
      ∧ ∃ ts g code s, Sume.decode [0x31, 0, 0, 0x2f] = .ok ts
        ∧ Declares ts 0 g ∧ Closes ts 0 1 ∧ FnPath ts 0 g ⟨1, [], []⟩
        ∧ ¬ NoFallThrough ts
        ∧ toAsm [0x31, 0, 0, 0x2f] 0 4096 = .ok code
        ∧ asmAt [0x31, 0, 0, 0x2f] 0 4096 0 = .ok s
        ∧ s.buf.length = code.length := by
  have hacc : Accepts [0x31, 0, 0, 0x2f] 0 := ⟨_, rfl⟩
  refine ⟨⟨_, rfl⟩, hacc, ⟨[], rfl, ?_⟩, ?_⟩
  · rintro ⟨⟨d, g, i, hi, -⟩, -⟩
    cases hi
  obtain ⟨code, hcode⟩ := exists_ok
    (x := toAsm [0x31, 0, 0, 0x2f] 0 4096) (by decide +kernel)
  obtain ⟨hwritten, hbufs⟩ := toAsm_layout (hacc.accepted_decode rfl)
    (by simp) (by decide) hcode
  obtain ⟨s, hs, -, hbuf⟩ := hbufs 0 (Nat.zero_le _)
  have hd : Declares [⟨.vDeclfn, 0, [], []⟩, ⟨.end_, 0, [], []⟩] 0 ⟨0, [], []⟩ :=
    ⟨_, rfl, rfl, rfl⟩
  refine ⟨_, _, code, s, rfl, hd, ⟨rfl, rfl⟩, .start, fun hno => ?_, hcode, hs, ?_⟩
  · exact (hno.2.2 _ _ hd _ .start).1 ⟨rfl, rfl⟩
  · rw [hbuf, hwritten, written_length, written_length]
    rfl

end Xv6Sume32.Asm
