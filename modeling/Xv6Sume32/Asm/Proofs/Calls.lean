/-
Call frames: the stack between a `call` and the return to it.

The caller makes the frame. It lowers ESP for the callee's locals, saves
EBP, sets EBP one word below and transfers control, which pushes the
return address where EBP points. From EBP upwards lie the return address,
the saved EBP, the locals and the arguments, the last one lowest:

    EBP + 8 + 4 (P + L)    the caller's other operands
    EBP + 8 + 4 L          argument P - 1, ..., argument 0
    EBP + 8                local P + L - 1, ..., local P
    EBP                    return address, saved EBP

This is what `get_l` and `set_l` address (`slotDis`) and what the caller
removes after the return. But it lowers ESP by `L` bytes for the `L`
words of locals (`callOps`), so the picture is right for functions
without locals only (`call_frames_iff`); for others the slots run `3 L`
bytes into the caller's operands.
-/
import Xv6Sume32.Sume.Proofs.Safety
import Xv6Sume32.Asm.Proofs.Leave

namespace Xv6Sume32.Asm

open Lib X86 Sume
open BitVec (ofNat)

variable {prog : List Byte} {slot : Int} {ts : List Sume.Instr} {k : Nat}
  {i : Sume.Instr} {a : Word} {m : Machine} {f : Sig}

variable {w v sp : Word} {u : Machine}

-- ======== memory

/-- A word next to the one stored reads the same. -/
theorem load32_store32_next {mem : Mem} :
    (mem.store32 w v).load32 (w + 4) = mem.load32 (w + 4) := by
  unfold Mem.load32
  rw [store32_other (a := w) (by bv_omega), store32_other (a := w) (by bv_omega),
    store32_other (a := w) (by bv_omega), store32_other (a := w) (by bv_omega)]

/-- Bytes stay where no byte of a word store lies among them. -/
theorem bytesAt_store32 {mem : Mem} {bs : List Byte} (h : BytesAt mem a bs)
    (hapart : ∀ x, x < bs.length → 4 ≤ (a + ofNat 32 x - w).toNat) :
    BytesAt (mem.store32 w v) a bs := by
  intro x hx
  rw [store32_other (hapart x hx)]
  exact h x hx

theorem apart_sub (h : 8 ≤ w.toNat) : 4 ≤ (w - 4).toNat := by
  bv_omega

/-- Behind two stores next to each other. -/
theorem store32_pair_other {mem : Mem} {v' y : Word} (h : 8 ≤ (y - w).toNat) :
    ((mem.store32 (w + 4) v).store32 w v') y = mem y := by
  rw [store32_other (by omega), store32_other]
  rw [show y - (w + 4) = y - w - 4 by grind]
  exact apart_sub h

-- ======== the length of lists

/-- The type lists of a program are short. -/
theorem accepted_locals (hacc : Accepted prog slot ts) (hf : f ∈ sigsOf ts) :
    f.locals.length ≤ 65 := by
  obtain ⟨i, hmem, rfl⟩ := List.mem_map.1 hf
  obtain ⟨hmem, hd⟩ := List.mem_filter.1 hmem
  obtain ⟨k, hk, rfl⟩ := List.getElem_of_mem hmem
  have hi : ts[k]? = some ts[k] := List.getElem?_eq_getElem hk
  obtain ⟨s, -, hs, -⟩ := hacc.view k (by omega)
  obtain ⟨-, q, hq, -⟩ := (hacc.scan k s (by omega) hs).head hi
  obtain ⟨-, -, -, -, -, htypes⟩ := instrAt_inv hq
  have hop : ts[k].token.operand = .types := by
    cases ht : ts[k].token <;> rw [ht] at hd <;> first | rfl | cases hd
  obtain ⟨q', -, hls⟩ := htypes hop
  obtain ⟨hlocals, hlen, -⟩ := getTypeList_found hls
  rw [hlocals] at hlen
  exact Nat.le_succ_of_le hlen

-- ======== the frame

/-- The frame of `f` for a call made with the stack pointer at `sp`: its
return address and the caller's EBP, its slots, and nothing else in
memory changed. Slot `j` of a parameter is the word of argument `j`; that
of a local lies between the saved EBP and the arguments. -/
structure Framed (f : Sig) (sp ra : Word) (m t : Machine) : Prop where
  esp : t.reg .esp = t.reg .ebp
  ret : t.mem.load32 (t.reg .ebp) = ra
  saved : t.mem.load32 (t.reg .ebp + 4) = m.reg .ebp
  args : ∀ j, j < f.params.length →
    t.reg .ebp + slotDis f (ofNat 32 j)
      = sp + ofNat 32 (4 * (f.params.length - 1 - j))
  locals : ∀ j, f.params.length ≤ j → j < f.params.length + f.locals.length →
    (t.reg .ebp + slotDis f (ofNat 32 j) - (t.reg .ebp + 8)).toNat + 4
      ≤ (sp - (t.reg .ebp + 8)).toNat
  rest : ∀ x : Word, 8 ≤ (x - t.reg .ebp).toNat → t.mem x = m.mem x

/-- The callee has returned: control is at the return address, ESP behind
it, the saved EBP and the code are still there. -/
structure Returned (code : List Byte) (a ra ebp : Word) (t u : Machine) : Prop where
  eip : u.eip = ra
  esp : u.reg .esp = t.reg .ebp + 4
  saved : u.mem.load32 (t.reg .ebp + 4) = ebp
  code : BytesAt u.mem a code

/-- Behind the call the caller's EBP is back, the arguments are gone and
the result, if there is one, is on top. -/
structure Cleared (f : Sig) (sp next ebp : Word) (u v : Machine) : Prop where
  eip : v.eip = next
  ebp : v.reg .ebp = ebp
  esp : v.reg .esp = sp + ofNat 32 (4 * f.params.length)
    - (if f.rt ≠ 0 then 4 else 0)
  result : f.rt ≠ 0 → stackWord v 0 = u.reg .eax

/-- The call of `f` at instruction `k` makes a frame, enters the function
numbered `n`, and clears the frame when the callee has returned. -/
def FramesCall (ts : List Sume.Instr) (k n : Nat) (f : Sig) (a : Word)
    (code : List Byte) (m : Machine) : Prop :=
  ∃ t, runN X86.step 5 m = some t
    ∧ t.eip = a + ofNat 32 (entryPos ts n)
    ∧ Framed f (m.reg .esp) (a + ofNat 32 (pos ts k + 20)) m t
    ∧ ∀ u, Returned code a (a + ofNat 32 (pos ts k + 20)) (m.reg .ebp) t u →
      ∃ v, runN X86.step (returnOps f).length u = some v
        ∧ Cleared f (m.reg .esp) (a + ofNat 32 (pos ts (k + 1)))
          (m.reg .ebp) u v

-- ======== execution

/-- A step over the first operation, whatever it stores. -/
theorem CodeAt.run_one {o : Op} {os : List Op} {t : Machine} {n : Nat}
    (h : CodeAt m.mem m.eip (o :: os)) (he : o.exec m = some t) :
    runN X86.step (n + 1) m = runN X86.step n t :=
  runN_succ (h.step.trans he)

section Call

variable {code : List Byte} {n : Nat}

/-- The operations of a `call` up to the push of EBP, and those behind. -/
theorem callOps_split (f : Sig) (p n : Nat) : callOps f p n ts ++ returnOps f
      = [.subImm .esp (ofNat 32 f.locals.length), .push .ebp .nil]
        ++ ([.mov .ebp .esp, .subImm .ebp 4,
          .callRel (ofNat 32 (p + 15)) (ofNat 32 (entryPos ts n))]
        ++ returnOps f) := rfl

/-- What the code of a `call` does up to the first instruction of the
callee. -/
theorem call_run (hi : ts[k]? = some i)
    (hcode : codeOf ts k i = callOps f (pos ts k) n ts ++ returnOps f)
    (hmem : BytesAt m.mem a (written ts ts.length)) (heip : m.eip = a + ofNat 32 (pos ts k))
    (hapart : ∀ x, x < (written ts ts.length).length → 8 ≤ (a + ofNat 32 x
        - (m.reg .esp - ofNat 32 f.locals.length - 8)).toNat) :
    ∃ t, runN X86.step 5 m = some t ∧ t.eip = a + ofNat 32 (entryPos ts n)
      ∧ t.reg .ebp = m.reg .esp - ofNat 32 f.locals.length - 8 ∧ t.reg .esp = t.reg .ebp
      ∧ t.mem = (m.mem.store32 (t.reg .ebp + 4) (m.reg .ebp)).store32 (t.reg .ebp)
        (a + ofNat 32 (pos ts k + 20)) := by
  have hc := codeAt_token hmem hi
  rw [hcode, callOps_split, ← heip] at hc
  obtain ⟨t1, h1, hm1, hi1, hsp1, hbp1⟩ : ∃ t,
      (Op.subImm .esp (ofNat 32 f.locals.length)).exec m = some t
      ∧ t.mem = m.mem ∧ t.eip = m.eip + 6
      ∧ t.reg .esp = m.reg .esp - ofNat 32 f.locals.length ∧ t.reg .ebp = m.reg .ebp :=
    ⟨_, rfl, rfl, rfl, rfl, rfl⟩
  have hc1 := hc.after hm1 hi1
  obtain ⟨t2, h2, hm2, hi2, hsp2⟩ : ∃ t, (Op.push .ebp .nil).exec t1 = some t
      ∧ t.mem = t1.mem.store32 (t1.reg .esp - 4) (t1.reg .ebp) ∧ t.eip = t1.eip + 1
      ∧ t.reg .esp = t1.reg .esp - 4 := ⟨_, rfl, rfl, rfl, rfl⟩
  rw [hm1, hsp1, hbp1] at hm2
  -- the word pushed is not in the code
  have hmem2 : BytesAt t2.mem a (written ts ts.length) := by
    rw [hm2]
    refine bytesAt_store32 hmem fun x hx => ?_
    have hx := hapart x hx
    rw [show a + ofNat 32 x - (m.reg .esp - ofNat 32 f.locals.length - 4)
      = a + ofNat 32 x - (m.reg .esp - ofNat 32 f.locals.length - 8) - 4 by grind]
    exact apart_sub hx
  have hip2 : t2.eip = a + ofNat 32 (pos ts k) + ofNat 32 7 := by
    rw [hi2, hi1, heip]
    grind
  have hc2 := codeAt_token hmem2 hi
  rw [hcode, callOps_split] at hc2
  have hc2 := (codeAt_append.1 hc2).2
  have hc2 : CodeAt t2.mem t2.eip ([.mov .ebp .esp, .subImm .ebp 4,
      .callRel (ofNat 32 (pos ts k + 15)) (ofNat 32 (entryPos ts n))]
        ++ returnOps f) := by
    rw [hip2]
    exact hc2
  obtain ⟨t3, h3, hm3, hi3, hbp3, hsp3⟩ : ∃ t, (Op.mov .ebp .esp).exec t2 = some t
      ∧ t.mem = t2.mem ∧ t.eip = t2.eip + 2 ∧ t.reg .ebp = t2.reg .esp ∧ t.reg .esp = t2.reg .esp :=
    ⟨_, rfl, rfl, rfl, rfl, rfl⟩
  have hc3 := hc2.after hm3 hi3
  obtain ⟨t4, h4, hm4, hi4, hbp4, hsp4⟩ : ∃ t, (Op.subImm .ebp 4).exec t3 = some t
      ∧ t.mem = t3.mem ∧ t.eip = t3.eip + 6 ∧ t.reg .ebp = t3.reg .ebp - 4
      ∧ t.reg .esp = t3.reg .esp := ⟨_, rfl, rfl, rfl, rfl, rfl⟩
  have hc4 := hc3.after hm4 hi4
  obtain ⟨t5, h5, hm5, hi5, hbp5, hsp5⟩ : ∃ t, (Op.callRel (ofNat 32 (pos ts k + 15))
        (ofNat 32 (entryPos ts n))).exec t4 = some t
      ∧ t.mem = t4.mem.store32 (t4.reg .esp - 4) (t4.eip + 5)
      ∧ t.eip = t4.eip + 5 + (ofNat 32 (entryPos ts n) - ofNat 32 (pos ts k + 15) - 5)
      ∧ t.reg .ebp = t4.reg .ebp ∧ t.reg .esp = t4.reg .esp - 4 := ⟨_, rfl, rfl, rfl, rfl, rfl⟩
  have hip4 : t4.eip = a + ofNat 32 (pos ts k + 15) := by
    rw [hi4, hi3, hip2, BitVec.ofNat_add]
    grind
  have hbp : t5.reg .ebp = m.reg .esp - ofNat 32 f.locals.length - 8 := by
    rw [hbp5, hbp4, hbp3, hsp2, hsp1]
    grind
  refine ⟨t5, ?_, ?_, hbp, ?_, ?_⟩
  · rw [hc.run_one h1, hc1.run_one h2, hc2.run_one h3, hc3.run_one h4, hc4.run_one h5]
    rfl
  · rw [hi5]
    exact jump_target 5 hip4
  · rw [hsp5, hsp4, hsp3, hbp5, hbp4, hbp3]
  · rw [hm5, hm4, hm3, hm2, hsp4, hsp3, hsp2, hsp1, hbp, hip4]
    congr 1
    · congr 1
      grind
    · grind
    · rw [BitVec.add_assoc, show (5 : Word) = ofNat 32 5 from rfl, ← BitVec.ofNat_add]

/-- The code behind the return, without and with a result to push. -/
theorem returnOps_cases (f : Sig) : (f.rt = 0 ∧ returnOps f = [.pop .ebp .nil, .addImm .esp
        (ofNat 32 (4 * (f.params.length + f.locals.length)))])
      ∨ (f.rt ≠ 0 ∧ returnOps f = [.pop .ebp .nil, .addImm .esp
        (ofNat 32 (4 * (f.params.length + f.locals.length))), .push .eax .stkh]) := by
  unfold returnOps
  rcases eq_or_ne f.rt 0 with h | h
  · exact Or.inl ⟨h, by rw [if_neg (not_not.2 h)]; rfl⟩
  · exact Or.inr ⟨h, by rw [if_pos h]; rfl⟩

/-- What the code behind the return does: it takes EBP from the stack,
drops the slots of the callee and pushes its result. -/
theorem return_run (hc : CodeAt u.mem u.eip (returnOps f)) :
    ∃ v, runN X86.step (returnOps f).length u = some v
      ∧ v.eip = u.eip + ofNat 32 (bytesOf (returnOps f)).length
      ∧ v.reg .ebp = u.mem.load32 (u.reg .esp) ∧ v.reg .esp = u.reg .esp + 4
          + ofNat 32 (4 * (f.params.length + f.locals.length)) - (if f.rt ≠ 0 then 4 else 0)
      ∧ (f.rt ≠ 0 → stackWord v 0 = u.reg .eax) := by
  obtain ⟨t, ht, htm, hti, htb, hts, hta⟩ : ∃ t, (Op.pop .ebp .nil).exec u = some t
      ∧ t.mem = u.mem ∧ t.eip = u.eip + 1
      ∧ t.reg .ebp = u.mem.load32 (u.reg .esp) ∧ t.reg .esp = u.reg .esp + 4
      ∧ t.reg .eax = u.reg .eax := ⟨_, rfl, rfl, rfl, rfl, rfl, rfl⟩
  obtain ⟨w, hw, hwm, hwi, hws, hwb, hwa⟩ : ∃ w, (Op.addImm .esp (ofNat 32
        (4 * (f.params.length + f.locals.length)))).exec t = some w
      ∧ w.mem = t.mem ∧ w.eip = t.eip + 6 ∧ w.reg .esp = t.reg .esp + ofNat 32
        (4 * (f.params.length + f.locals.length))
      ∧ w.reg .ebp = t.reg .ebp ∧ w.reg .eax = t.reg .eax := ⟨_, rfl, rfl, rfl, rfl, rfl, rfl⟩
  rcases returnOps_cases f with ⟨hrt, hops⟩ | ⟨hrt, hops⟩
  · rw [hops] at hc ⊢
    refine ⟨w, ?_, ?_, hwb.trans htb, ?_, fun h => absurd hrt h⟩
    · rw [List.length_cons, hc.run_one ht, List.length_singleton, (hc.after htm hti).run_one hw]
      rfl
    · rw [hwi, hti, BitVec.add_assoc]
      rfl
    · rw [hws, hts, if_neg (not_not.2 hrt)]
      exact (BitVec.sub_zero _).symm
  · rw [hops] at hc ⊢
    obtain ⟨v, hv, hvi, hvs, hvb, hvm⟩ : ∃ v, (Op.push .eax .stkh).exec w = some v
        ∧ v.eip = w.eip + 1 ∧ v.reg .esp = w.reg .esp - 4 ∧ v.reg .ebp = w.reg .ebp
        ∧ v.mem = w.mem.store32 (w.reg .esp - 4) (w.reg .eax) := ⟨_, rfl, rfl, rfl, rfl, rfl⟩
    have hc1 := hc.after htm hti
    refine ⟨v, ?_, ?_, hvb.trans (hwb.trans htb), ?_, fun _ => ?_⟩
    · rw [List.length_cons, hc.run_one ht, List.length_cons, hc1.run_one hw,
        List.length_singleton, (hc1.after hwm hwi).run_one hv]
      rfl
    · rw [hvi, hwi, hti, BitVec.add_assoc, BitVec.add_assoc]
      rfl
    · rw [hvs, hws, hts, if_pos hrt]
    · unfold stackWord
      rw [hvm, hvs, show w.reg .esp - 4 + ofNat 32 (4 * 0) = w.reg .esp - 4
        from BitVec.add_zero _, Mem.load32_store32, hwa, hta]

-- ======== the frame's shape

/-- A parameter's slot, seen from EBP when there are no locals. -/
theorem slotDis_arg {j : Nat} (hl : f.locals = []) (hj : j < f.params.length) :
    sp - 8 + slotDis f (ofNat 32 j)
      = sp + ofNat 32 (4 * (f.params.length - 1 - j)) := by
  obtain ⟨d, hd⟩ : ∃ d, f.params.length = d + j + 1 := ⟨f.params.length - 1 - j, by omega⟩
  unfold slotDis
  rw [hl, hd, show d + j + 1 - 1 - j = d by omega, List.length_nil, BitVec.ofNat_add,
    BitVec.ofNat_add, BitVec.ofNat_mul]
  grind

/-- The caller raises ESP by four bytes for each local it lowered it by
one for. -/
theorem locals_balance_iff {l : Nat} (p : Nat) (hl : l ≤ 65) :
    sp - ofNat 32 l - 8 + 4 + 4 + ofNat 32 (4 * (p + l))
      = sp + ofNat 32 (4 * p) ↔ l = 0 := by
  rw [Nat.mul_add, BitVec.ofNat_add, show 4 * l = 3 * l + l by omega,
    BitVec.ofNat_add (3 * l) l]
  have hcancel : sp - ofNat 32 l - 8 + 4 + 4 + (ofNat 32 (4 * p)
      + (ofNat 32 (3 * l) + ofNat 32 l))
      = sp + ofNat 32 (4 * p) + ofNat 32 (3 * l) := by grind
  rw [hcancel]
  constructor
  · intro h
    have hzero : ofNat 32 (3 * l) = 0 := by grind
    have := congrArg BitVec.toNat hzero
    rw [BitVec.toNat_ofNat, Nat.mod_eq_of_lt (by omega)] at this
    have h0 : (0 : Word).toNat = 0 := rfl
    omega
  · rintro rfl
    exact BitVec.add_zero _

-- ======== the call

/-- The code behind the return, where the callee returns to. -/
theorem codeAt_return (hi : ts[k]? = some i)
    (hcode : codeOf ts k i = callOps f (pos ts k) n ts ++ returnOps f)
    (hmem : BytesAt u.mem a (written ts ts.length))
    (heip : u.eip = a + ofNat 32 (pos ts k + 20)) : CodeAt u.mem u.eip (returnOps f) := by
  have hc := codeAt_token hmem hi
  rw [hcode] at hc
  have hc := (codeAt_append.1 hc).2
  rw [heip, BitVec.ofNat_add, ← BitVec.add_assoc]
  exact hc

/-- The next instruction's code begins behind the code of the return. -/
theorem pos_return (hi : ts[k]? = some i)
    (hcode : codeOf ts k i = callOps f (pos ts k) n ts ++ returnOps f) :
    pos ts (k + 1) = pos ts k + 20 + (bytesOf (returnOps f)).length := by
  rw [pos_succ_code hi, hcode, bytesOf_append, List.length_append, ← Nat.add_assoc]
  rfl

/-- A call makes and clears a frame exactly when the callee has no
locals. -/
theorem framesCall_iff (hi : ts[k]? = some i)
    (hcode : codeOf ts k i = callOps f (pos ts k) n ts ++ returnOps f) (hlen : f.locals.length ≤ 65)
    (hmem : BytesAt m.mem a (written ts ts.length)) (heip : m.eip = a + ofNat 32 (pos ts k))
    (hapart : ∀ x, x < (written ts ts.length).length → 8 ≤ (a + ofNat 32 x
        - (m.reg .esp - ofNat 32 f.locals.length - 8)).toNat) :
    FramesCall ts k n f a (written ts ts.length) m ↔ f.locals = [] := by
  obtain ⟨t, hrun, hti, htb, hts, htm⟩ := call_run hi hcode hmem heip hapart
  -- whatever the callee did, the caller's code leads ESP to one place
  have hret : ∀ u, Returned (written ts ts.length) a
      (a + ofNat 32 (pos ts k + 20)) (m.reg .ebp) t u →
      ∃ v, runN X86.step (returnOps f).length u = some v
        ∧ v.eip = a + ofNat 32 (pos ts (k + 1)) ∧ v.reg .ebp = m.reg .ebp
        ∧ v.reg .esp = m.reg .esp - ofNat 32 f.locals.length - 8 + 4 + 4
          + ofNat 32 (4 * (f.params.length + f.locals.length)) - (if f.rt ≠ 0 then 4 else 0)
        ∧ (f.rt ≠ 0 → stackWord v 0 = u.reg .eax) := by
    intro u hu
    obtain ⟨v, hv, hvi, hvb, hvs, hva⟩ := return_run (codeAt_return hi hcode hu.code hu.eip)
    refine ⟨v, hv, ?_, ?_, ?_, hva⟩
    · rw [hvi, hu.eip, pos_return hi hcode, BitVec.add_assoc, ← BitVec.ofNat_add]
    · rw [hvb, hu.esp, hu.saved]
    · rw [hvs, hu.esp, htb]
  have hsaved : t.mem.load32 (t.reg .ebp + 4) = m.reg .ebp := by
    rw [htm, load32_store32_next, Mem.load32_store32]
  constructor
  · rintro ⟨t', hrun', -, -, hclear⟩
    obtain rfl := Option.some.inj (hrun.symm.trans hrun')
    -- a callee that returns at once shows the imbalance
    have hcode' : BytesAt t.mem a (written ts ts.length) := by
      intro x hx
      rw [htm, store32_pair_other (htb ▸ hapart x hx)]
      exact hmem x hx
    obtain ⟨u, hu⟩ : ∃ u, Returned (written ts ts.length) a
        (a + ofNat 32 (pos ts k + 20)) (m.reg .ebp) t u :=
      ⟨{ t.set .esp (t.reg .ebp + 4) with eip := a + ofNat 32 (pos ts k + 20) },
        rfl, rfl, hsaved, hcode'⟩
    obtain ⟨v, hv, hcl⟩ := hclear u hu
    obtain ⟨v', hv', -, -, hvs, -⟩ := hret u hu
    obtain rfl := Option.some.inj (hv.symm.trans hv')
    have hsp := hvs.symm.trans hcl.esp
    rw [BitVec.sub_left_inj] at hsp
    exact List.length_eq_zero_iff.1 ((locals_balance_iff _ hlen).1 hsp)
  · intro hnone
    have hzero : f.locals.length = 0 := List.length_eq_zero_iff.2 hnone
    have htb' : t.reg .ebp = m.reg .esp - 8 := by
      rw [htb, hzero]
      exact congrArg (· - 8) (BitVec.sub_zero _)
    refine ⟨t, hrun, hti, ⟨hts, ?_, hsaved, ?_, ?_, ?_⟩, ?_⟩
    · rw [htm, Mem.load32_store32]
    · intro j hj
      rw [htb', slotDis_arg hnone hj]
    · intro j hj hj'
      omega
    · intro x hx
      rw [htm, store32_pair_other hx]
    · intro u hu
      obtain ⟨v, hv, hvi, hvb, hvs, hva⟩ := hret u hu
      refine ⟨v, hv, hvi, hvb, ?_, hva⟩
      rw [hvs, (locals_balance_iff _ hlen).2 hzero]

end Call

-- ======== results

/-- For every verified program and every `call` of it, wherever the code
lies: the call makes the callee's frame below the caller's operands and
clears it after the return exactly when the callee declares no locals. -/
theorem call_frames_iff {cap : Nat} {code : List Byte}
    (h : Accepts prog slot) (hcap : cap < 2 ^ 32)
    (hcode : toAsm prog 0 cap = .ok code) (hts : Sume.decode prog = .ok ts)
    (hi : ts[k]? = some i) (ht : i.token = .call)
    (hf : sigNum (sigsOf ts) i.arg.toInt = some f) :
    ∃ c, asmAt prog 0 cap k = .ok c
      ∧ ∀ (a : Word) (m : Machine), BytesAt m.mem a code →
        m.eip = a + ofNat 32 c.buf.length →
        (∀ x, x < code.length → 8 ≤ (a + ofNat 32 x
          - (m.reg .esp - ofNat 32 f.locals.length - 8)).toNat) →
        (FramesCall ts k i.arg.toInt.toNat f a code m ↔ f.locals = []) := by
  have hacc : Accepted prog slot ts := h.accepted_decode hts
  have hk : k < ts.length := lt_length hi
  have hne : ts ≠ [] := by
    rintro rfl
    cases hi
  obtain ⟨-, c, -, hc, -, hrep⟩ := toAsm_states hacc hcap hcode k (by omega)
  refine ⟨c, hc, fun a m hmem heip hapart => ?_⟩
  rw [(toAsm_layout hacc hne hcap hcode).1] at hmem hapart ⊢
  rw [hrep.len] at heip
  have hlocals := accepted_locals hacc (List.mem_of_getElem? (sigNum_inv hf).2)
  exact framesCall_iff hi (codeOf_call ht hf) hlocals hmem heip hapart

/-- The program `v_declfn () () i_const 7 call 1 trap end`, then a second
function `v_declfn (i32) … ret end` whose locals the byte `l` encodes. -/
def callsWith (l : Byte) : List Byte :=
  [0x31, 0, 0, 0, 7, 0, 0, 0, 0x30, 1, 0, 0, 0, 0x29, 0x2f, 0x31, 1, l, 0x2e, 0x2f]

/-- The call in the program without locals. -/
theorem call_frames_iff_nolocals :
    ∃ code ts i f c, toAsm (callsWith 0) 0 4096 = .ok code
      ∧ Accepts (callsWith 0) 0 ∧ Sume.decode (callsWith 0) = .ok ts
      ∧ ts[2]? = some i ∧ i.token = .call
      ∧ sigNum (sigsOf ts) i.arg.toInt = some f ∧ f.locals = []
      ∧ asmAt (callsWith 0) 0 4096 2 = .ok c
      ∧ ∀ (a : Word) (m : Machine), BytesAt m.mem a code →
        m.eip = a + ofNat 32 c.buf.length →
        (∀ x, x < code.length → 8 ≤ (a + ofNat 32 x
          - (m.reg .esp - ofNat 32 f.locals.length - 8)).toNat) →
        (FramesCall ts 2 i.arg.toInt.toNat f a code m ↔ f.locals = []) := by
  have hacc : Accepts (callsWith 0) 0 := ⟨_, rfl⟩
  obtain ⟨code, hcode⟩ := exists_ok (x := toAsm (callsWith 0) 0 4096) (by decide +kernel)
  have hts : Sume.decode (callsWith 0) = .ok [⟨.vDeclfn, 0, [], []⟩, ⟨.iConst, 7, [], []⟩,
      ⟨.call, 1, [], []⟩, ⟨.trap, 0, [], []⟩, ⟨.end_, 0, [], []⟩,
      ⟨.vDeclfn, 0, [1], []⟩, ⟨.ret, 0, [], []⟩, ⟨.end_, 0, [], []⟩] := rfl
  have hf : sigNum (sigsOf [⟨.vDeclfn, 0, [], []⟩, ⟨.iConst, 7, [], []⟩,
      ⟨.call, 1, [], []⟩, ⟨.trap, 0, [], []⟩, ⟨.end_, 0, [], []⟩,
      ⟨.vDeclfn, 0, [1], []⟩, ⟨.ret, 0, [], []⟩, ⟨.end_, 0, [], []⟩])
      (⟨.call, 1, [], []⟩ : Sume.Instr).arg.toInt = some ⟨0, [1], []⟩ := rfl
  obtain ⟨c, hc, hiff⟩ := call_frames_iff (k := 2) (i := ⟨.call, 1, [], []⟩)
    hacc (by decide) hcode hts rfl rfl hf
  exact ⟨code, _, _, _, c, hcode, hacc, hts, rfl, rfl, hf, rfl, hc, hiff⟩

/-- The code of `callsWith l` at address 0, at the call, with the argument
as the only operand on a stack whose frame is at 8192. -/
def callsWithMachine (l : Byte) : Machine where
  reg := fun r => if r = .ebp then 8192 else if r = .esp then 8188 else 0
  eip := ofNat 32 ((asmAt (callsWith l) 0 4096 2).toOption.elim 0
    fun s => s.buf.length)
  flags := none
  mem := loadedAtZero ((toAsm (callsWith l) 0 4096).toOption.getD []) fun _ => 0

/-- A callee with one local: the slot of its parameter is the word at 8191,
three bytes above the argument at 8188, and behind the call ESP is three
bytes above EBP. -/
theorem local_misplaces_frame :
    (verify (callsWith 1) 0).toOption.isSome = true
      ∧ (runN X86.step 5 (callsWithMachine 1)).map
        (fun m => m.reg .ebp + slotDis ⟨0, [1], [1]⟩ 0) = some 8191
      ∧ (runN X86.step 9 (callsWithMachine 1)).map (fun m => (m.eip, m.reg .ebp, m.reg .esp))
        = some (ofNat 32 ((asmAt (callsWith 1) 0 4096 3).toOption.elim 0
          fun s => s.buf.length), 8192, 8195) := by
  decide +kernel

end Xv6Sume32.Asm
