/-
The heap accesses of the emitted code.

The code of a load or store scales the index operand in 32 bits, compares
the scaled index with the heap size in ESI, and goes to the trap exit
unless it is below. `Sandboxed` is what this is for: the code touches
only bytes of the heap and traps when the cell it is asked for does not
lie in the heap.

# The comparison looks at the first byte of the cell

A cell of `w` bytes that starts below the heap size but does not end there
passes the test. Whether the size is such a value for the cell at hand is
the whole difference: `heap_access_sandboxed_iff` says that the code of an
accepted program is sandboxed in exactly the states where the size does
not fall inside the cell. A heap whose size is a multiple of four has no
such state; a heap of 13 bytes, the size `revtest` runs with, has one for
every width but a byte.

Nothing is assumed about where the code is loaded, about the stack, or
about the rest of memory: up to the access the code only reads, and the
access or the push behind it is its last instruction.
-/
import Xv6Sume32.Asm.Proofs.Shapes

namespace Xv6Sume32.Asm

open Lib X86 Sume
open BitVec (ofNat)

variable {m u u' : Machine} {o : Op} {os : List Op} {n w q d : Nat} {t : Token}

-- ======== the property

/-- The memory operand of an instruction and its width in bytes. -/
def memOperand : X86.Instr → Option (Addr × Nat)
  | .aluRmR _ (.mem a) _ | .aluRRm _ _ (.mem a) | .aluRmI _ (.mem a) _
  | .testRmR (.mem a) _ | .movRmR (.mem a) _ | .movRRm _ (.mem a)
  | .mul (.mem a) | .div (.mem a) | .idiv (.mem a) | .shiftCl _ (.mem a)
  | .shiftI _ (.mem a) _ | .bsf _ (.mem a) | .bsr _ (.mem a) => some (a, 4)
  | .movzx16 _ (.mem a) | .movsx16 _ (.mem a) => some (a, 2)
  | .movRm8R8 (.mem a) _ | .movzx8 _ (.mem a) | .movsx8 _ (.mem a)
  | .setcc _ (.mem a) => some (a, 1)
  | _ => none

/-- The bytes the machine is about to read or write through a memory
operand: their address and number. -/
def access (m : Machine) : Option (Word × Nat) :=
  (m.next.bind memOperand).map fun (a, n) => (m.ea a, n)

/-- Bytes of the heap, `size` bytes from `base` on. -/
def InHeap (base size : Word) (a : Word × Nat) : Prop :=
  ∀ b, b < a.2 → (a.1 + ofNat 32 b - base).toNat < size.toNat

/-- The operand that names the cell: the top of the stack for a load,
below the value for a store. -/
def cellIndex (t : Token) (m : Machine) : Word :=
  match t with
  | .str32 | .str8 => m.mem.load32 (m.reg .esp + 4)
  | _ => m.mem.load32 (m.reg .esp)

/-- The first byte of a cell, counted from the base of the heap in 32-bit
arithmetic. -/
def cellStart (w : Nat) (index : Word) : Nat := (w * index.toNat) % 2 ^ 32

/-- From `m` the code accesses only bytes of the heap at EDI with size
ESI. It gets to `stop` when the cell lies in the heap and to the trap exit
when it does not. -/
def Sandboxed (base stop : Word) (w : Nat) (t : Token) (m : Machine) :
    Prop :=
  Goes step
    (fun u => ∀ a, access u = some a → InHeap (m.reg .edi) (m.reg .esi) a)
    (fun u => u.eip =
      if cellStart w (cellIndex t m) + w ≤ (m.reg .esi).toNat then stop
      else base + ofNat 32 trapretPos) m

-- ======== the accesses

/-- What is about to be accessed, where code lies. -/
theorem access_codeAt (h : CodeAt m.mem m.eip (o :: os)) :
    access m = (memOperand o.instr).map fun (a, n) => (m.ea a, n) := by
  unfold access
  rw [h.next]
  rfl

theorem cellStart_shl (v : Word) : (v <<< n).toNat = cellStart (2 ^ n) v := by
  rw [BitVec.toNat_shiftLeft, Nat.shiftLeft_eq, Nat.mul_comm]
  rfl

/-- A cell does not wrap around the address space. -/
theorem cellStart_add_le (hn : n ≤ 2) (v : Word) : cellStart (2 ^ n) v + 2 ^ n ≤ 2 ^ 32 := by
  unfold cellStart
  interval_cases n <;> omega

/-- A cell of the heap, in terms of its first byte. -/
theorem inHeap_cell {edi esi j : Word} (hw : 0 < w) (hj : j.toNat + w ≤ 2 ^ 32) :
    InHeap edi esi (j + edi, w) ↔ j.toNat + w ≤ esi.toNat := by
  have hb : ∀ b, b < w → (j + edi + ofNat 32 b - edi).toNat = j.toNat + b := by
    intro b hb
    have : (j + edi + ofNat 32 b - edi) = j + ofNat 32 b := by
      bv_omega
    rw [this, BitVec.toNat_add, BitVec.toNat_ofNat]
    omega
  constructor
  · intro h
    have := h (w - 1) (by show w - 1 < w; omega)
    rw [hb (w - 1) (by omega)] at this
    omega
  · intro h b hlt
    have hlt : b < w := hlt
    show (j + edi + ofNat 32 b - edi).toNat < _
    rw [hb b hlt]
    omega

/-- The jump of the bounds check: with the carry set, that is below the
size, the code goes on. -/
theorem jae_exec {f : Flags} (here stop : Word) (hf : u.flags = some f) :
    (Op.jaeRel here stop).exec u = some { u with
      eip := if f.cf then u.eip + ofNat 32 6
        else u.eip + ofNat 32 6 + (stop - here - ofNat 32 6) } := by
  show u.flags.map _ = _
  rw [hf]
  show some (if (!f.cf) = true then _ else _) = _
  cases f.cf <;> rfl

section Bounded

variable {base stop edi esi : Word} {p e : Nat}

/-- What the sandbox asks of a state. -/
def Touches (edi esi : Word) (u : Machine) : Prop :=
  ∀ a, access u = some a → InHeap edi esi a

theorem touches_none
    (hc : CodeAt u.mem u.eip (o :: os)) (ho : memOperand o.instr = none) : Touches edi esi u := by
  intro a ha
  rw [access_codeAt hc, ho] at ha
  cases ha

/-- Two offsets into the code are different addresses. -/
theorem offset_ne (hq : q < 2 ^ 32) (hd : d < 2 ^ 32)
    (h : q ≠ d) : base + ofNat 32 q ≠ base + ofNat 32 d := by
  intro he
  have := congrArg BitVec.toNat he
  rw [BitVec.toNat_add, BitVec.toNat_add, BitVec.toNat_ofNat, BitVec.toNat_ofNat] at this
  have := base.isLt
  omega

/-- An operation without a memory operand, inside the code, changes
nothing about where the run goes. -/
theorem sandbox_step (hc : CodeAt u.mem u.eip (o :: os)) (hat : u.eip = base + ofNat 32 q)
    (ho : memOperand o.instr = none) (he : o.exec u = some u')
    (hq : q < 2 ^ 32) (hd : d < 2 ^ 32) (hne : q ≠ d) :
    Goes step (Touches edi esi) (fun v => v.eip = base + ofNat 32 d) u
      ↔ Goes step (Touches edi esi) (fun v => v.eip = base + ofNat 32 d) u' := by
  refine Goes.step_iff (touches_none hc ho) ?_ (hc.step.trans he)
  show ¬ u.eip = _
  rw [hat]
  exact offset_ne hq hd hne

/-- The code from the scaled index on. The machine is in front of the
comparison, the first byte of the cell is in EAX. -/
theorem sandbox_bounded {acc : Op} {tail : List Op}
    (hc : CodeAt u.mem u.eip (.cmp .eax .esi
      :: .jaeRel (ofNat 32 (q + 2)) (ofNat 32 trapretPos)
      :: .add .eax .edi :: acc :: tail))
    (hat : u.eip = base + ofNat 32 q)
    (hedi : u.reg .edi = edi) (hesi : u.reg .esi = esi)
    (hacc : memOperand acc.instr = some (at_ .eax, w)) (hw : 0 < w)
    (hj : (u.reg .eax).toNat + w ≤ 2 ^ 32)
    (hq : trapretPos < q) (hqe : q + 10 < e) (he : e < 2 ^ 32)
    (hlast : ∀ v : Machine, CodeAt v.mem v.eip (acc :: tail) →
      v.eip = base + ofNat 32 (q + 10) → Touches edi esi v →
      Goes step (Touches edi esi)
        (fun v => v.eip = base + ofNat 32 e) v) :
    Goes step (Touches edi esi) (fun v => v.eip =
        if (u.reg .eax).toNat + w ≤ esi.toNat then base + ofNat 32 e
        else base + ofNat 32 trapretPos) u
      ↔ ¬ ((u.reg .eax).toNat < esi.toNat
        ∧ esi.toNat < (u.reg .eax).toNat + w) := by
  have htp : trapretPos < 2 ^ 32 := by decide
  -- where the run should go
  obtain ⟨d, hd, hdlt, hdst⟩ : ∃ d, (d = e ∨ d = trapretPos) ∧ d < 2 ^ 32
      ∧ (if (u.reg .eax).toNat + w ≤ esi.toNat then base + ofNat 32 e
        else base + ofNat 32 trapretPos) = base + ofNat 32 d := by
    split
    · exact ⟨e, Or.inl rfl, he, rfl⟩
    · exact ⟨trapretPos, Or.inr rfl, htp, rfl⟩
  rw [hdst]
  -- the comparison
  obtain ⟨u1, he1, hm1, hip1, hax1, hdi1, hfl1⟩ : ∃ u1,
      (Op.cmp .eax .esi).exec u = some u1 ∧ u1.mem = u.mem
      ∧ u1.eip = u.eip + ofNat 32 2 ∧ u1.reg .eax = u.reg .eax
      ∧ u1.reg .edi = edi
      ∧ ∃ f, u1.flags = some f
        ∧ f.cf = decide ((u.reg .eax).toNat < esi.toNat) := by
    refine ⟨_, rfl, rfl, rfl, rfl, hedi, _, rfl, ?_⟩
    rw [← hesi]
    rfl
  obtain ⟨f, hf, hcf⟩ := hfl1
  have hat1 : u1.eip = base + ofNat 32 (q + 2) := by
    rw [hip1, hat, BitVec.add_assoc, ← BitVec.ofNat_add]
  have hc1 : CodeAt u1.mem u1.eip (.jaeRel (ofNat 32 (q + 2))
      (ofNat 32 trapretPos) :: .add .eax .edi :: acc :: tail) := by
    rw [hm1, hip1]
    exact hc.tail
  rw [sandbox_step hc hat rfl he1 (by omega) hdlt (by omega)]
  by_cases hlt : (u.reg .eax).toNat < esi.toNat
  · -- the test passes
    have hexec : (Op.jaeRel (ofNat 32 (q + 2))
        (ofNat 32 trapretPos)).exec u1
        = some { u1 with eip := u1.eip + ofNat 32 6 } := by
      rw [jae_exec _ _ hf, hcf, if_pos (decide_eq_true hlt)]
    rw [sandbox_step hc1 hat1 rfl hexec (by omega) hdlt (by omega)]
    have hat2 : u1.eip + ofNat 32 6 = base + ofNat 32 (q + 8) := by
      rw [hat1, BitVec.add_assoc, ← BitVec.ofNat_add]
    have hc2 := hc1.tail
    obtain ⟨u2, he2, hm2, hip2, hax2⟩ : ∃ u2,
        (Op.add .eax .edi).exec { u1 with eip := u1.eip + ofNat 32 6 }
          = some u2 ∧ u2.mem = u1.mem
        ∧ u2.eip = u1.eip + ofNat 32 6 + ofNat 32 2
        ∧ u2.reg .eax = u.reg .eax + edi := by
      refine ⟨_, rfl, rfl, rfl, ?_⟩
      rw [← hax1, ← hdi1]
      rfl
    rw [sandbox_step (u := { u1 with eip := u1.eip + ofNat 32 6 }) hc2 hat2
      rfl he2 (by omega) hdlt (by omega)]
    have hc3 : CodeAt u2.mem u2.eip (acc :: tail) := by
      rw [hm2, hip2]
      exact hc2.tail
    have hat3 : u2.eip = base + ofNat 32 (q + 10) := by
      rw [hip2, hat2, BitVec.add_assoc, ← BitVec.ofNat_add]
    have hea : access u2 = some (u.reg .eax + edi, w) := by
      rw [access_codeAt hc3, hacc]
      show some (u2.reg .eax + 0 + 0, w) = _
      rw [hax2]
      simp
    have htouch : Touches edi esi u2
        ↔ (u.reg .eax).toNat + w ≤ esi.toNat := by
      rw [← inHeap_cell hw hj]
      constructor
      · intro h
        exact h _ hea
      · intro h a ha
        rw [hea] at ha
        cases ha
        exact h
    constructor
    · intro h hstr
      have hne : ¬ u2.eip = base + ofNat 32 d := by
        rw [hat3]
        exact offset_ne (by omega) hdlt (by omega)
      have := htouch.1 (h.advances hne).1
      omega
    · intro hstr
      have hin : (u.reg .eax).toNat + w ≤ esi.toNat := by omega
      rw [if_pos hin] at hdst
      rw [← hdst]
      exact hlast u2 hc3 hat3 (htouch.2 hin)
  · -- the test fails
    have hexec : (Op.jaeRel (ofNat 32 (q + 2))
        (ofNat 32 trapretPos)).exec u1
        = some { u1 with eip := base + ofNat 32 trapretPos } := by
      rw [jae_exec _ _ hf, hcf, if_neg (by simpa using hlt), jump_target _ hat1]
    rw [sandbox_step hc1 hat1 rfl hexec (by omega) hdlt (by omega)]
    rw [if_neg (by omega)] at hdst
    constructor
    · intro _ h
      exact hlt h.1
    · intro _
      exact .done hdst

end Bounded

-- ======== the code of the tokens

/-- The operations in front of the comparison: they write no memory and
have no memory operand. -/
def Op.steady (o : Op) : Bool :=
  match o with
  | .pop _ _ => true
  | .shlImm .eax _ => true
  | _ => false

theorem Op.exec_steady (ho : o.steady = true) (he : o.exec u = some u') :
    u'.mem = u.mem ∧ u'.eip = u.eip + ofNat 32 o.bytes.length
      ∧ memOperand o.instr = none := by
  cases o <;> first | cases ho; done | skip
  case pop r c =>
    cases he
    exact ⟨rfl, rfl, rfl⟩
  case shlImm r v =>
    cases r <;> cases ho
    cases he
    exact ⟨rfl, rfl, rfl⟩

theorem sandbox_ops {base edi esi : Word} {ps : List Op} (hd : d < 2 ^ 32) :
    ∀ {os : List Op} {u u' : Machine} {q : Nat},
      CodeAt u.mem u.eip (os ++ ps) → u.eip = base + ofNat 32 q →
      (∀ o ∈ os, o.steady = true) → execOps os u = some u' → q + (bytesOf os).length < 2 ^ 32 →
      (d < q ∨ q + (bytesOf os).length ≤ d) →
      (Goes step (Touches edi esi) (fun v => v.eip = base + ofNat 32 d) u
        ↔ Goes step (Touches edi esi) (fun v => v.eip = base + ofNat 32 d) u')
      ∧ CodeAt u'.mem u'.eip ps ∧ u'.eip = base + ofNat 32 (q + (bytesOf os).length) := by
  intro os
  induction os with
  | nil =>
    intro u u' q hc hat _ he _ _
    cases he
    exact ⟨Iff.rfl, hc, hat⟩
  | cons o os ih =>
    intro u u' q hc hat hs he hlt hne
    obtain ⟨v, hv, he⟩ := Option.bind_eq_some_iff.1 he
    obtain ⟨ho, hos⟩ := List.forall_mem_cons.1 hs
    obtain ⟨hm, hip, hop⟩ := Op.exec_steady ho hv
    rw [bytesOf_cons, List.length_append] at hlt hne ⊢
    have hpos := bytes_pos o
    have hcv : CodeAt v.mem v.eip (os ++ ps) := by
      rw [hm, hip]
      exact hc.tail
    have hatv : v.eip = base + ofNat 32 (q + o.bytes.length) := by
      rw [hip, hat, BitVec.add_assoc, ← BitVec.ofNat_add]
    obtain ⟨hiff, hcode, hend⟩ := ih hcv hatv hos he (by omega) (by omega)
    refine ⟨(sandbox_step hc hat hop hv (by omega) hd (by omega)).trans hiff, hcode, ?_⟩
    rw [hend, Nat.add_assoc]

/-- What the code in front of the comparison computes. -/
theorem heap_scaled (hw : heapWidth t = some w) (m : Machine) :
    ∃ u, execOps (heapPops t ++ scaleOps (heapShift t)) m = some u
      ∧ u.reg .eax = cellIndex t m <<< heapShift t
      ∧ u.reg .edi = m.reg .edi ∧ u.reg .esi = m.reg .esi ∧ u.reg .ebp = m.reg .ebp
      ∧ u.reg .esp = m.reg .esp + ofNat 32 (4 * (heapPops t).length)
      ∧ (heapTail t = [] → u.reg .ebx = m.mem.load32 (m.reg .esp)) := by
  have htwo : m.reg .esp + 4 + 4 = m.reg .esp + ofNat 32 (4 * 2) := by
    rw [BitVec.add_assoc]
    rfl
  cases t
  case iLd32 | iLd16S | iLd16U => exact ⟨_, rfl, rfl, rfl, rfl, rfl, rfl, nofun⟩
  case str32 => exact ⟨_, rfl, rfl, rfl, rfl, rfl, htwo, fun _ => rfl⟩
  case iLd8S | iLd8U =>
    exact ⟨_, rfl, (BitVec.shiftLeft_zero (x := _)).symm, rfl, rfl, rfl, rfl, nofun⟩
  case str8 =>
    exact ⟨_, rfl, (BitVec.shiftLeft_zero (x := _)).symm, rfl, rfl, rfl, htwo, fun _ => rfl⟩
  all_goals cases hw

theorem heap_steady (t : Token) : ∀ o ∈ heapPops t ++ scaleOps (heapShift t), o.steady = true := by
  cases t <;> decide

theorem heapWidth_eq (hw : heapWidth t = some w) :
    w = 2 ^ heapShift t ∧ heapShift t ≤ 2 ∧ memOperand (heapOp t).instr = some (at_ .eax, w) := by
  cases t <;> first | (cases hw; done) | (cases hw; exact ⟨rfl, by decide, rfl⟩)

/-- The access and what follows it get behind the code. -/
theorem heap_last {edi esi base : Word}
    (hw : heapWidth t = some w) {v : Machine} (hc : CodeAt v.mem v.eip (heapOp t :: heapTail t))
    (hat : v.eip = base + ofNat 32 q) (hv : Touches edi esi v) :
    Goes step (Touches edi esi) (fun u => u.eip = base
      + ofNat 32 (q + (bytesOf (heapOp t :: heapTail t)).length)) v := by
  -- a store ends with the access
  have hstore : ∀ v', (heapOp t).exec v = some v' → heapTail t = [] →
      v'.eip = v.eip + ofNat 32 (heapOp t).bytes.length →
      Goes step (Touches edi esi) (fun u => u.eip = base
        + ofNat 32 (q + (bytesOf (heapOp t :: heapTail t)).length)) v := by
    intro v' he htail hip
    refine hc.goes hv he (.done ?_)
    show v'.eip = _
    rw [hip, hat, htail, BitVec.add_assoc, ← BitVec.ofNat_add]
    show _ = base + ofNat 32 (q + (bytesOf [heapOp t]).length)
    rw [show bytesOf [heapOp t] = (heapOp t).bytes from List.append_nil _]
  -- a load pushes
  have hload : (heapOp t).quiet = true → heapTail t = [.push .eax .stkh] →
      ∀ v', (heapOp t).exec v = some v' → Goes step (Touches edi esi) (fun u => u.eip = base
        + ofNat 32 (q + (bytesOf (heapOp t :: heapTail t)).length)) v := by
    intro hq htail v' he
    have hcalm := Op.exec_calm hq he
    have hc' : CodeAt v'.mem v'.eip [.push .eax .stkh] := by
      rw [hcalm.mem, hcalm.eip, ← htail]
      exact hc.tail
    refine hc.goes hv he (hc'.goes (touches_none hc' rfl) rfl (.done ?_))
    show v'.eip + ofNat 32 1 = _
    rw [hcalm.eip, hat, htail, BitVec.add_assoc, BitVec.add_assoc,
      ← BitVec.ofNat_add, ← BitVec.ofNat_add, bytesOf_cons, List.length_append]
    rfl
  cases t
  case iLd32 | iLd16S | iLd16U | iLd8S | iLd8U => exact hload rfl rfl _ rfl
  case str32 | str8 => exact hstore _ rfl rfl rfl
  all_goals cases hw

/-- The code of a heap access is sandboxed exactly where the heap does
not end inside the cell. -/
theorem heapCode_sandboxed {p : Nat} {base : Word}
    (hw : heapWidth t = some w) (hc : CodeAt m.mem m.eip (heapCode t p))
    (hat : m.eip = base + ofNat 32 p) (hp : trapretPos < p)
    (he : p + (bytesOf (heapCode t p)).length < 2 ^ 32) :
    Sandboxed base
        (base + ofNat 32 (p + (bytesOf (heapCode t p)).length)) w t m
      ↔ ¬ (cellStart w (cellIndex t m) < (m.reg .esi).toNat
        ∧ (m.reg .esi).toNat < cellStart w (cellIndex t m) + w) := by
  obtain ⟨hpow, hshift, hop⟩ := heapWidth_eq hw
  obtain ⟨u, hexec, hax, hdi, hsi, -⟩ := heap_scaled hw m
  have hstart : (u.reg .eax).toNat = cellStart w (cellIndex t m) := by
    rw [hax, cellStart_shl, hpow]
  have hcell : (u.reg .eax).toNat + w ≤ 2 ^ 32 := by
    rw [hstart, hpow]
    exact cellStart_add_le hshift _
  have hlen : (bytesOf (heapCode t p)).length
      = (bytesOf (heapPops t ++ scaleOps (heapShift t))).length + 10
        + (bytesOf (heapOp t :: heapTail t)).length := by
    have hcmp : (Op.cmp .eax .esi).bytes.length = 2 := rfl
    have hjae : ∀ x y, (Op.jaeRel x y).bytes.length = 6 := fun _ _ => rfl
    have hadd : (Op.add .eax .edi).bytes.length = 2 := rfl
    unfold heapCode
    rw [← List.append_assoc, bytesOf_append, List.length_append,
      bytesOf_cons (.cmp .eax .esi), bytesOf_cons (.jaeRel _ _),
      bytesOf_cons (.add .eax .edi)]
    simp only [List.length_append, hcmp, hjae, hadd]
    omega
  have hlast : 0 < (bytesOf (heapOp t :: heapTail t)).length := by
    rw [bytesOf_cons, List.length_append]
    have := bytes_pos (heapOp t)
    omega
  unfold heapCode at hc
  rw [← List.append_assoc] at hc
  have htp : trapretPos < 2 ^ 32 := by decide
  -- where the run should go
  obtain ⟨d, hd, hdlt, hdst⟩ : ∃ d,
      (d = p + (bytesOf (heapCode t p)).length ∨ d = trapretPos) ∧ d < 2 ^ 32
      ∧ (if (u.reg .eax).toNat + w ≤ (m.reg .esi).toNat
          then base + ofNat 32 (p + (bytesOf (heapCode t p)).length)
          else base + ofNat 32 trapretPos) = base + ofNat 32 d := by
    split
    · exact ⟨_, Or.inl rfl, he, rfl⟩
    · exact ⟨trapretPos, Or.inr rfl, htp, rfl⟩
  obtain ⟨hiff, hcu, hatu⟩ := sandbox_ops hdlt hc hat (heap_steady t) hexec
    (by omega) (by omega)
  unfold Sandboxed
  rw [← hstart, hdst]
  refine hiff.trans ?_
  rw [← hdst]
  have hpos : 0 < w := by
    rw [hpow]
    exact Nat.two_pow_pos _
  refine sandbox_bounded hcu hatu hdi hsi hop hpos hcell (by omega)
    (by omega) he fun v hcv hatv hv => ?_
  have := heap_last hw hcv hatv hv
  rwa [show p + (bytesOf (heapCode t p)).length
    = p + (bytesOf (heapPops t ++ scaleOps (heapShift t))).length + 10
      + (bytesOf (heapOp t :: heapTail t)).length by omega]

-- ======== the programs

/-- The same for the code of an accepted program in the compiler's
output. -/
theorem accepted_sandboxed {prog : List Byte} {slot : Int} {cap k : Nat}
    {code : List Byte} {ts : List Sume.Instr} {i : Sume.Instr}
    (hacc : Accepted prog slot ts) (hcap : cap < 2 ^ 32)
    (hcode : toAsm prog 0 cap = .ok code) (hi : ts[k]? = some i) (hw : heapWidth i.token = some w) :
    ∃ s s', asmAt prog 0 cap k = .ok s ∧ asmAt prog 0 cap (k + 1) = .ok s' ∧
      ∀ (base : Word) (m : Machine), BytesAt m.mem base code →
        m.eip = base + ofNat 32 s.buf.length →
        (Sandboxed base (base + ofNat 32 s'.buf.length) w i.token m
          ↔ ¬ (cellStart w (cellIndex i.token m) < (m.reg .esi).toNat
            ∧ (m.reg .esi).toNat < cellStart w (cellIndex i.token m) + w)) := by
  have hk : k < ts.length := lt_length hi
  have hne : ts ≠ [] := List.length_pos_iff.1 (by omega)
  obtain ⟨hwr, hall⟩ := toAsm_layout hacc hne hcap hcode
  obtain ⟨s, hs, hrep, -⟩ := hall k (by omega)
  obtain ⟨s', hs', hrep', -⟩ := hall (k + 1) hk
  refine ⟨s, s', hs, hs', fun base m hbytes hat => ?_⟩
  rw [hwr] at hbytes
  have hcode := codeAt_token hbytes hi
  rw [hrep.len] at hat
  rw [← hat, codeOf_heap hw] at hcode
  have hsucc : pos ts (k + 1) = pos ts k + (bytesOf (heapCode i.token (pos ts k))).length := by
    rw [pos_succ hi (finalEnv ts), ← codeOf_heap hw]
    unfold codeOf
    rw [resolve_length (uniform_tokenItems _ _ _ _ _)]
  have hfits := hrep'.fits
  rw [hrep'.len] at hfits ⊢
  have hstart := startPos_le ts k
  unfold startPos at hstart
  rw [hsucc] at hfits ⊢
  exact heapCode_sandboxed hw hcode hat (by unfold trapretPos; omega) (by omega)

/-- For every accepted program, wherever its code is loaded and whatever
the machine state, the code of a load or store is sandboxed exactly when
the heap size does not fall inside the cell it is asked for. -/
theorem heap_access_sandboxed_iff {prog : List Byte} {slot : Int} {cap : Nat}
    {code : List Byte} (h : Accepts prog slot) (hcap : cap < 2 ^ 32)
    (hcode : toAsm prog 0 cap = .ok code) :
    ∃ ts, Sume.decode prog = .ok ts ∧ ∀ k i w, ts[k]? = some i →
      heapWidth i.token = some w →
      ∃ s s', asmAt prog 0 cap k = .ok s ∧ asmAt prog 0 cap (k + 1) = .ok s' ∧
        ∀ (base : Word) (m : Machine), BytesAt m.mem base code →
          m.eip = base + ofNat 32 s.buf.length →
          (Sandboxed base (base + ofNat 32 s'.buf.length) w i.token m
            ↔ ¬ (cellStart w (cellIndex i.token m) < (m.reg .esi).toNat
              ∧ (m.reg .esi).toNat
                < cellStart w (cellIndex i.token m) + w)) := by
  obtain ⟨ts, hacc⟩ := h.accepted
  exact ⟨ts, hacc.decode, fun k i w hi hw =>
    accepted_sandboxed hacc hcap hcode hi hw⟩

/-- The program `v_declfn () () i_const 3 i_ld32 trap end`. -/
theorem heap_access_sandboxed_iff_ld32 :
    ∃ code, toAsm [0x31, 0, 0, 0x00, 3, 0, 0, 0, 0x1e, 0x29, 0x2f] 0 4096
        = .ok code
      ∧ ∃ ts, Sume.decode [0x31, 0, 0, 0x00, 3, 0, 0, 0, 0x1e, 0x29, 0x2f]
        = .ok ts ∧ ∀ k i w, ts[k]? = some i → heapWidth i.token = some w →
      ∃ s s',
        asmAt [0x31, 0, 0, 0x00, 3, 0, 0, 0, 0x1e, 0x29, 0x2f] 0 4096 k = .ok s
        ∧ asmAt [0x31, 0, 0, 0x00, 3, 0, 0, 0, 0x1e, 0x29, 0x2f] 0 4096 (k + 1)
          = .ok s' ∧
        ∀ (base : Word) (m : Machine), BytesAt m.mem base code →
          m.eip = base + ofNat 32 s.buf.length →
          (Sandboxed base (base + ofNat 32 s'.buf.length) w i.token m
            ↔ ¬ (cellStart w (cellIndex i.token m) < (m.reg .esi).toNat
              ∧ (m.reg .esi).toNat
                < cellStart w (cellIndex i.token m) + w)) := by
  obtain ⟨code, hcode⟩ := exists_ok
    (x := toAsm [0x31, 0, 0, 0x00, 3, 0, 0, 0, 0x1e, 0x29, 0x2f] 0 4096)
    (by decide +kernel)
  exact ⟨code, hcode, heap_access_sandboxed_iff
    (show Accepts _ 0 from ⟨_, rfl⟩) (by decide) hcode⟩

/-- Cells start at multiples of their width, so that none of them contains
a heap size that is a multiple of four: then every load and store of an
accepted program is sandboxed. -/
theorem aligned_heap_sandboxed {prog : List Byte} {slot : Int} {cap k : Nat} {code : List Byte}
    {ts : List Sume.Instr} {i : Sume.Instr} (h : Accepts prog slot) (hcap : cap < 2 ^ 32)
    (hcode : toAsm prog 0 cap = .ok code) (hts : Sume.decode prog = .ok ts)
    (hi : ts[k]? = some i) (hw : heapWidth i.token = some w) :
    ∃ s s', asmAt prog 0 cap k = .ok s ∧ asmAt prog 0 cap (k + 1) = .ok s' ∧
      ∀ (base : Word) (m : Machine), BytesAt m.mem base code →
        m.eip = base + ofNat 32 s.buf.length → 4 ∣ (m.reg .esi).toNat →
        Sandboxed base (base + ofNat 32 s'.buf.length) w i.token m := by
  obtain ⟨s, s', hs, hs', hiff⟩ := accepted_sandboxed (h.accepted_decode hts) hcap hcode hi hw
  refine ⟨s, s', hs, hs', fun base m hm heip h4 => (hiff base m hm heip).2 fun hin => ?_⟩
  have hw4 : w ∣ 4 := by
    cases ht : i.token <;> rw [ht] at hw <;> cases hw <;> decide
  obtain ⟨a, ha⟩ : w ∣ cellStart w (cellIndex i.token m) :=
    (Nat.dvd_mod_iff (hw4.trans (by decide))).2 (Nat.dvd_mul_right ..)
  obtain ⟨b, hb⟩ := hw4.trans h4
  rw [ha, hb, ← Nat.mul_succ] at hin
  have := Nat.lt_of_mul_lt_mul_left hin.1
  have := Nat.lt_of_mul_lt_mul_left hin.2
  omega

/-- The same load as above in a heap of 40 bytes, the size `fibtest` runs with. -/
theorem aligned_heap_sandboxed_ld32 :
    ∃ code s s', toAsm [0x31, 0, 0, 0x00, 3, 0, 0, 0, 0x1e, 0x29, 0x2f] 0 4096 = .ok code
      ∧ asmAt [0x31, 0, 0, 0x00, 3, 0, 0, 0, 0x1e, 0x29, 0x2f] 0 4096 2 = .ok s
      ∧ ∀ (base : Word) (m : Machine), BytesAt m.mem base code →
        m.eip = base + ofNat 32 s.buf.length → m.reg .esi = 40 →
        Sandboxed base (base + ofNat 32 (AsmState.buf s').length) 4 .iLd32 m := by
  obtain ⟨code, hcode⟩ := exists_ok
    (x := toAsm [0x31, 0, 0, 0x00, 3, 0, 0, 0, 0x1e, 0x29, 0x2f] 0 4096) (by decide +kernel)
  obtain ⟨s, s', hs, -, hall⟩ := aligned_heap_sandboxed (show Accepts _ 0 from ⟨_, rfl⟩)
    (by decide) hcode rfl (show [_, _, _, _, _][2]? = some _ from rfl) rfl
  exact ⟨code, s, s', hcode, hs, fun base m hm heip hsi => hall base m hm heip (by rw [hsi]; decide)⟩

/-- In a heap of 13 bytes the word at index 3 starts inside and ends
outside: the `i_ld32` of `v_declfn () () i_const 3 i_ld32 trap end` reads
three bytes behind the heap. -/
theorem ld32_reads_behind_heap :
    ∃ code s s' m,
      Accepts [0x31, 0, 0, 0x00, 3, 0, 0, 0, 0x1e, 0x29, 0x2f] 0
      ∧ toAsm [0x31, 0, 0, 0x00, 3, 0, 0, 0, 0x1e, 0x29, 0x2f] 0 4096 = .ok code
      ∧ (∃ ts i, Sume.decode [0x31, 0, 0, 0x00, 3, 0, 0, 0, 0x1e, 0x29, 0x2f]
          = .ok ts ∧ ts[2]? = some i ∧ i.token = .iLd32)
      ∧ asmAt [0x31, 0, 0, 0x00, 3, 0, 0, 0, 0x1e, 0x29, 0x2f] 0 4096 2 = .ok s
      ∧ asmAt [0x31, 0, 0, 0x00, 3, 0, 0, 0, 0x1e, 0x29, 0x2f] 0 4096 3 = .ok s'
      ∧ BytesAt m.mem 0 code ∧ m.eip = 0 + ofNat 32 s.buf.length
      ∧ m.reg .esi = 13 ∧ cellIndex .iLd32 m = 3
      ∧ ¬ Sandboxed 0 (0 + ofNat 32 s'.buf.length) 4 .iLd32 m := by
  have haccepts : Accepts [0x31, 0, 0, 0x00, 3, 0, 0, 0, 0x1e, 0x29, 0x2f] 0 :=
    ⟨_, rfl⟩
  obtain ⟨code, hcode⟩ := exists_ok
    (x := toAsm [0x31, 0, 0, 0x00, 3, 0, 0, 0, 0x1e, 0x29, 0x2f] 0 4096)
    (by decide +kernel)
  have hlen : code.length = 122 := by
    have : ((toAsm [0x31, 0, 0, 0x00, 3, 0, 0, 0, 0x1e, 0x29, 0x2f] 0
        4096).toOption.elim 0 List.length) = 122 := by decide +kernel
    rwa [hcode] at this
  obtain ⟨s, s', hs, hs', hiff⟩ := accepted_sandboxed
    (haccepts.accepted_decode rfl) (by decide) hcode
    (show [_, _, _, _, _][2]? = some _ from rfl) rfl
  -- the index 3 lies on the stack at 0x2000
  let m : Machine :=
    { reg := fun r => match r with
        | .esp => 0x2000 | .edi => 0x1000 | .esi => 13 | _ => 0
      eip := 0 + ofNat 32 s.buf.length
      flags := none
      mem := loadedAtZero code fun x => if x = 0x2000 then 3 else 0 }
  have hidx : cellIndex .iLd32 m = 3 := by
    have hget : ∀ x : Word, 122 ≤ x.toNat →
        m.mem x = if x = 0x2000 then 3 else 0 := by
      intro x hx
      show (code[x.toNat]?).getD _ = _
      rw [List.getElem?_eq_none (by omega)]
      rfl
    show m.mem.load32 0x2000 = 3
    unfold Mem.load32
    rw [hget 0x2000 (by decide), hget (0x2000 + 1) (by decide),
      hget (0x2000 + 2) (by decide), hget (0x2000 + 3) (by decide)]
    rfl
  have hbytes : BytesAt m.mem 0 code := bytesAt_loadedAtZero (by omega)
  refine ⟨code, s, s', m, haccepts, hcode, ⟨_, _, rfl, rfl, rfl⟩, hs, hs',
    hbytes, rfl, rfl, hidx, fun hsand => ?_⟩
  refine (hiff 0 m hbytes rfl).1 hsand ?_
  show cellStart 4 (cellIndex .iLd32 m) < 13
    ∧ 13 < cellStart 4 (cellIndex .iLd32 m) + 4
  rw [hidx]
  decide

end Xv6Sume32.Asm
