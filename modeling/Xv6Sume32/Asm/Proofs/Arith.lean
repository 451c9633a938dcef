/-
What the code of an operator computes.

An operator's code is a straight line: it pops its operands, computes in
registers and pushes the result. The push is its last operation and the
only one that stores, so the code may lie anywhere, under the stack too,
and runs as its operations say (`CodeAt.runN_eq`).

# Shape of the argument

- `Evaluates os r a b x`: from any machine with `a` in EAX and `b` in EBX
  the operations `os` leave `x` in `r`, or fault when `x` is `none`. It is
  the only thing that differs between two operators.
- `computes_iff` turns it into a statement about the emitted bytes: they
  replace the two topmost words by `v` exactly when `x` is `v`.
- The conditions of `setcc` after `cmp` are comparisons of the operands
  (`holds_cmp`), once for every code.

# Where the code is not the operator

`xor edx, edx` makes the dividend of `idiv` the unsigned reading of `a`:
every negative dividend comes out wrong or faults (`idivU_neg`).
`i_clz` and `i_ctz` pop two words where the verifier counts one, and
`i_popcnt` has no code at all.
-/
import Xv6Sume32.Sume.Operators
import Xv6Sume32.Asm.Proofs.Shapes

namespace Xv6Sume32.Asm

open Lib X86 Sume
open BitVec (ofNat ofInt)

variable {o : Op} {os : List Op} {m m' : Machine}

-- ======== straight-line code

/-- An operation that stores nothing and goes on with the next. -/
def Op.Straight (o : Op) : Prop :=
  ∀ m m', o.exec m = some m' →
    m'.mem = m.mem ∧ m'.eip = m.eip + ofNat 32 o.bytes.length

theorem Op.straight_quiet (h : o.quiet = true) : o.Straight := by
  intro m m' he
  have hc := Op.exec_calm h he
  exact ⟨hc.mem, hc.eip⟩

theorem Op.straight_pop (r : Reg) (c : Counter) : (Op.pop r c).Straight := by
  intro m m' he
  cases he
  exact ⟨rfl, rfl⟩

/-- Code of which only the last operation stores runs as its operations
say. -/
theorem CodeAt.runN_eq : ∀ {os : List Op} {m : Machine},
    CodeAt m.mem m.eip (os ++ [o]) → (∀ p ∈ os, p.Straight) →
      runN X86.step (os ++ [o]).length m = execOps (os ++ [o]) m := by
  intro os
  induction os with
  | nil =>
    intro m hc _
    have hc : CodeAt m.mem m.eip [o] := hc
    show (X86.step m).bind (runN X86.step 0) = (o.exec m).bind (execOps [])
    rw [hc.step]
    rfl
  | cons p os ih =>
    intro m hc hq
    obtain ⟨hp, hos⟩ := List.forall_mem_cons.1 hq
    have hc : CodeAt m.mem m.eip (p :: (os ++ [o])) := hc
    show (X86.step m).bind (runN X86.step (os ++ [o]).length)
      = (p.exec m).bind (execOps (os ++ [o]))
    rw [hc.step]
    cases he : p.exec m with
    | none => rfl
    | some t =>
      obtain ⟨hmem, heip⟩ := hp _ _ he
      refine ih ?_ hos
      rw [hmem, heip]
      exact hc.tail

-- ======== emitted bytes

/-- Where the compiler is when it comes to a token: the address of the
buffer, that of `trapret`, what it has written and the height. -/
structure Site where
  base : Word
  trapretAddr : Word
  buf : List Byte
  stkh : Int

/-- The bytes it appends for a token that has no operand. -/
def Site.code (s : Site) (t : Token) : List Byte :=
  (assemble s.base (plainItems s.trapretAddr t) (s.buf, s.stkh)).1.drop
    s.buf.length

/-- Word `i` of the stack, the topmost being word 0. -/
def stackWord (m : Machine) (i : Nat) : Word :=
  m.mem.load32 (m.reg .esp + ofNat 32 (4 * i))

/-- From `m` to `m'`, over `len` bytes of code, the `n` topmost words of
the stack gave way to `v`. Apart from the word of `v` no byte of the
memory changed, and neither did EBP, ESI or EDI. -/
structure Replaces (n : Nat) (v : Word) (len : Nat) (m m' : Machine) :
    Prop where
  eip : m'.eip = m.eip + ofNat 32 len
  esp : m'.reg .esp = m.reg .esp + ofNat 32 (4 * n) - 4
  top : stackWord m' 0 = v
  rest : ∀ x : Word, 4 ≤ (x - m'.reg .esp).toNat → m'.mem x = m.mem x
  ebp : m'.reg .ebp = m.reg .ebp
  esi : m'.reg .esi = m.reg .esi
  edi : m'.reg .edi = m.reg .edi

/-- Executing the code of a token, one machine step for each encoder call
that made it, replaces the `n` topmost words by `v`. -/
def Site.Computes (s : Site) (t : Token) (n : Nat) (v : Word) (m : Machine) :
    Prop :=
  ∃ m', runN X86.step (plainItems s.trapretAddr t).length m = some m'
    ∧ Replaces n v (s.code t).length m m'

variable {s : Site} {t : Token} {a b v : Word} {r : Reg} {x : Option Word}

theorem site_code_fixed (h : plainItems s.trapretAddr t = os.map fixed) :
    s.code t = bytesOf os := by
  unfold Site.code
  have hu : Uniform (plainItems s.trapretAddr t) := by
    rw [h]
    exact uniform_map os
  rw [assemble_eq hu, List.drop_left, h, resolve_map_fixed]

theorem store32_other {mem : Mem} {w y : Word} (h : 4 ≤ (y - a).toNat) :
    mem.store32 a w y = mem y := by
  have h0 : y ≠ a := by bv_omega
  have h1 : y ≠ a + 1 := by bv_omega
  have h2 : y ≠ a + 2 := by bv_omega
  have h3 : y ≠ a + 3 := by bv_omega
  unfold Mem.store32
  rw [if_neg h0, if_neg h1, if_neg h2, if_neg h3]

/-- A push onto a stack `n` words lower is a replacement. -/
theorem replaces_push {n len : Nat} {t : Machine} (hmem : t.mem = m.mem)
    (heip : t.eip + 1 = m.eip + ofNat 32 len)
    (hesp : t.reg .esp = m.reg .esp + ofNat 32 (4 * n))
    (hebp : t.reg .ebp = m.reg .ebp) (hesi : t.reg .esi = m.reg .esi)
    (hedi : t.reg .edi = m.reg .edi) {m' : Machine} (he : (Op.push r .stkh).exec t = some m') :
    Replaces n (t.reg r) len m m' := by
  cases he
  refine ⟨heip, congrArg (· - 4) hesp, ?_, ?_, hebp, hesi, hedi⟩
  · show Mem.load32 (t.mem.store32 (t.reg .esp - 4) (t.reg r)) (t.reg .esp - 4 + 0) = t.reg r
    rw [show t.reg .esp - 4 + 0 = t.reg .esp - 4 from BitVec.add_zero _]
    exact Mem.load32_store32 ..
  · intro y hy
    exact (store32_other hy).trans (congrFun hmem y)

theorem Replaces.value {n k len : Nat} {w : Word}
    (h : Replaces n v len m m') (h' : Replaces k w len m m') : v = w :=
  h.top.symm.trans h'.top

-- ======== two operands

/-- The operations `os` on `a` in EAX and `b` in EBX: what they leave in
`r`, nothing when they fault. -/
def Evaluates (os : List Op) (r : Reg) (a b : Word) (x : Option Word) :
    Prop :=
  ∀ m : Machine, m.reg .eax = a → m.reg .ebx = b →
    (execOps os m).map (fun t => t.reg r) = x

theorem binary_items (h : binaryOps t = some (os, r)) (w : Word) : plainItems w t
      = ([Op.pop .ebx .stkh, .pop .eax .stkh] ++ os ++ [Op.push r .stkh]).map fixed := by
  cases t <;> first | (cases h; rfl) | cases h

/-- The two pops in front. -/
theorem pops_exec (m : Machine) : ∃ t, execOps [.pop .ebx .stkh, .pop .eax .stkh] m = some t
      ∧ t.mem = m.mem ∧ t.eip = m.eip + 2 ∧ t.reg .eax = stackWord m 1 ∧ t.reg .ebx = stackWord m 0
      ∧ t.reg .esp = m.reg .esp + ofNat 32 (4 * 2)
      ∧ t.reg .ebp = m.reg .ebp ∧ t.reg .esi = m.reg .esi ∧ t.reg .edi = m.reg .edi := by
  refine ⟨_, rfl, rfl, ?_, rfl, ?_, ?_, rfl, rfl, rfl⟩
  · show m.eip + 1 + 1 = m.eip + 2
    rw [BitVec.add_assoc]
    rfl
  · exact congrArg m.mem.load32 (BitVec.add_zero _).symm
  · show m.reg .esp + 4 + 4 = m.reg .esp + 8
    rw [BitVec.add_assoc]
    rfl

/-- The code of two operands faults exactly when its operations do, and
otherwise replaces the operands by what they compute. -/
theorem binary_run (h : binaryOps t = some (os, r)) (hcode : BytesAt m.mem m.eip (s.code t))
    (hev : Evaluates os r (stackWord m 1) (stackWord m 0) x) :
    (x = none → runN X86.step (plainItems s.trapretAddr t).length m = none)
      ∧ ∀ v, x = some v → s.Computes t 2 v m := by
  have hitems := binary_items h s.trapretAddr
  have hbytes := site_code_fixed hitems
  have hquiet := binaryOps_quiet h
  have hc : CodeAt m.mem m.eip
      ([Op.pop .ebx .stkh, .pop .eax .stkh] ++ os ++ [Op.push r .stkh]) := by
    refine ⟨hbytes ▸ hcode, ?_⟩
    intro p hp
    have hplain := allPlain_plainItems s.trapretAddr t
    rw [hitems] at hplain
    exact hplain _ (List.mem_map_of_mem hp) 0 0
  have hstraight : ∀ p ∈ [Op.pop .ebx .stkh, .pop .eax .stkh] ++ os, p.Straight := by
    intro p hp
    rcases List.mem_append.1 hp with hp | hp
    · fin_cases hp <;> exact Op.straight_pop _ _
    · exact Op.straight_quiet (hquiet p hp)
  have hrun := hc.runN_eq hstraight
  obtain ⟨t0, h₀, hmem, heip, hax, hbx, hsp, hbp, hsi, hdi⟩ := pops_exec m
  rw [execOps_append, execOps_append, h₀] at hrun
  have hval := hev t0 hax hbx
  cases he : execOps os t0 with
  | none =>
    rw [he] at hval
    subst hval
    refine ⟨fun _ => ?_, nofun⟩
    rw [hitems, List.length_map, hrun, Option.bind_some, he]
    rfl
  | some t1 =>
    rw [he] at hval
    subst hval
    have hcalm := execOps_calm hquiet he
    rw [Option.bind_some, he, Option.bind_some] at hrun
    obtain ⟨m', hpush⟩ : ∃ m', (Op.push r .stkh).exec t1 = some m' := ⟨_, rfl⟩
    refine ⟨nofun, ?_⟩
    rintro v hv
    cases hv
    refine ⟨m', ?_, ?_⟩
    · rw [hitems, List.length_map, hrun]
      show ((Op.push r .stkh).exec t1).bind (execOps []) = some m'
      rw [hpush]
      rfl
    · refine replaces_push (hcalm.mem.trans hmem) ?_ (hcalm.esp.trans hsp)
        (hcalm.ebp.trans hbp) (hcalm.esi.trans hsi) (hcalm.edi.trans hdi) hpush
      rw [hcalm.eip, heip, hbytes, bytesOf_append, bytesOf_append,
        List.length_append, List.length_append]
      show m.eip + 2 + ofNat 32 (bytesOf os).length + 1
        = m.eip + ofNat 32 (2 + (bytesOf os).length + 1)
      rw [BitVec.ofNat_add, BitVec.ofNat_add]
      simp only [BitVec.add_assoc]
      rfl

theorem Site.Computes.unique {n : Nat} {w : Word} (h : s.Computes t n v m)
    (h' : s.Computes t n w m) : v = w := by
  obtain ⟨m₁, hr, h⟩ := h
  obtain ⟨m₂, hr', h'⟩ := h'
  obtain rfl := Option.some.inj (hr.symm.trans hr')
  exact h.value h'

/-- The code of two operands pushes what its operations compute, and
nothing else. -/
theorem computes_iff (h : binaryOps t = some (os, r)) (hcode : BytesAt m.mem m.eip (s.code t))
    (hev : Evaluates os r (stackWord m 1) (stackWord m 0) x) : s.Computes t 2 v m ↔ x = some v := by
  obtain ⟨hnone, hsome⟩ := binary_run h hcode hev
  refine ⟨?_, hsome v⟩
  intro hv
  cases x with
  | none =>
    obtain ⟨m', hm', -⟩ := hv
    rw [hnone rfl] at hm'
    cases hm'
  | some w => exact congrArg some ((hsome w rfl).unique hv)

-- ======== conditions

/-- The comparison a condition code makes after `cmp a, b`. -/
def Cc.compares : Cc → Word → Word → Bool
  | .e, a, b => a == b
  | .ne, a, b => a != b
  | .b, a, b => decide (a.toNat < b.toNat)
  | .ae, a, b => decide (b.toNat ≤ a.toNat)
  | .be, a, b => decide (a.toNat ≤ b.toNat)
  | .a, a, b => decide (b.toNat < a.toNat)
  | .l, a, b => decide (a.toInt < b.toInt)
  | .ge, a, b => decide (b.toInt ≤ a.toInt)
  | .le, a, b => decide (a.toInt ≤ b.toInt)
  | .g, a, b => decide (b.toInt < a.toInt)
  | cc, a, b => cc.holds (Alu.eval .cmp a b).2

theorem sub_beq_zero (a b : Word) : (a - b == 0) = (a == b) := by
  rw [Bool.eq_iff_iff, beq_iff_eq, beq_iff_eq]
  bv_omega

theorem msb_iff (a : Word) : a.msb = true ↔ 2 ^ 31 ≤ a.toNat := by
  rw [BitVec.msb_eq_decide, decide_eq_true_eq]

/-- The sign flag differs from the overflow flag exactly when the first
operand is the smaller one. -/
theorem sf_ne_of (a b : Word) : ((a - b).msb != ((a.msb != b.msb) && ((a - b).msb != a.msb)))
      = decide (a.toInt < b.toInt) := by
  have ha := a.isLt
  have hb := b.isLt
  have hsub : (a - b).toNat = (2 ^ 32 - b.toNat + a.toNat) % 2 ^ 32 := BitVec.toNat_sub ..
  have h₁ := msb_iff a
  have h₂ := msb_iff b
  have h₃ := msb_iff (a - b)
  have hia := BitVec.toInt_eq_toNat_cond a
  have hib := BitVec.toInt_eq_toNat_cond b
  rw [eq_comm, Bool.eq_iff_iff, decide_eq_true_eq]
  -- one case for each choice of the three sign bits
  cases hma : a.msb <;> cases hmb : b.msb <;> cases hmd : (a - b).msb <;>
    simp only [hma, hmb, hmd, true_iff, false_iff, Bool.false_eq_true] at h₁ h₂ h₃ <;>
    simp <;> split at hia <;> split at hib <;> omega

/-- A condition code compares the operands of the `cmp` before it. -/
theorem holds_cmp (cc : Cc) (a b : Word) : cc.holds (Alu.eval .cmp a b).2 = Cc.compares cc a b := by
  have hz := sub_beq_zero a b
  have hs := sf_ne_of a b
  have hge : ((a - b).msb == ((a.msb != b.msb) && ((a - b).msb != a.msb)))
      = decide (b.toInt ≤ a.toInt) := by
    rw [← Bool.not_not (_ == _), ← bne, hs, ← decide_not, decide_eq_decide]
    omega
  have heqN : (a == b) = decide (a.toNat = b.toNat) := by
    rw [Bool.eq_iff_iff, beq_iff_eq, decide_eq_true_eq, BitVec.toNat_inj]
  have heqI : (a == b) = decide (a.toInt = b.toInt) := by
    rw [Bool.eq_iff_iff, beq_iff_eq, decide_eq_true_eq, BitVec.toInt_inj]
  cases cc <;> try rfl
  case e => exact hz
  case ne => exact congrArg not hz
  case l => exact hs
  case ge => exact hge
  case ae =>
    show (!decide (a.toNat < b.toNat)) = decide (b.toNat ≤ a.toNat)
    rw [← decide_not, decide_eq_decide]
    omega
  case be =>
    show (decide (a.toNat < b.toNat) || (a - b == 0)) = decide (a.toNat ≤ b.toNat)
    rw [hz, heqN, ← Bool.decide_or, decide_eq_decide]
    omega
  case a =>
    show (!decide (a.toNat < b.toNat) && !(a - b == 0)) = decide (b.toNat < a.toNat)
    rw [hz, heqN, ← decide_not, ← decide_not, ← Bool.decide_and, decide_eq_decide]
    omega
  case le =>
    refine (congrArg₂ or (hz.trans heqI) hs).trans ?_
    rw [← Bool.decide_or]
    exact decide_eq_decide.2 (by omega)
  case g =>
    refine (congrArg₂ and (congrArg not (hz.trans heqI)) hge).trans ?_
    rw [← decide_not, ← Bool.decide_and]
    exact decide_eq_decide.2 (by omega)

-- ======== evaluation

theorem setByte_truth (w : Word) (p : Bool) :
    setByte (w ^^^ w) 0 (if p then 1 else 0) = truth p := by
  rw [BitVec.xor_self]
  cases p <;> rfl

theorem evaluates_compare (cc : Cc) :
    Evaluates [.xor .ecx .ecx, .cmp .eax .ebx, .set cc .cl] .ecx a b
      (some (truth (Cc.compares cc a b))) := by
  rintro m rfl rfl
  rw [← holds_cmp, ← setByte_truth (m.reg .ecx)]
  rfl

theorem evaluates_mul : Evaluates [.mul .ebx] .eax a b (some (a * b)) := by
  rintro m rfl rfl
  show some (ofNat 32 ((m.reg .eax).toNat * (m.reg .ebx).toNat)) = _
  rw [BitVec.ofNat_mul, BitVec.ofNat_toNat, BitVec.ofNat_toNat,
    BitVec.setWidth_eq, BitVec.setWidth_eq]

/-- The scans give an index, and of zero what was in the register. -/
theorem evaluates_bsf : Evaluates [.bsf .eax .eax] .eax a b
    (some (if a = 0 then a else ofNat 32 (lowBit a))) := by
  rintro m rfl rfl
  show some ((if m.reg .eax = 0 then _ else _ : Machine).reg .eax) = _
  split <;> rfl

theorem evaluates_bsr : Evaluates [.bsr .eax .eax] .eax a b
    (some (if a = 0 then a else ofNat 32 (highBit a))) := by
  rintro m rfl rfl
  show some ((if m.reg .eax = 0 then _ else _ : Machine).reg .eax) = _
  split <;> rfl

/-- The machine that divides: EDX is cleared, the other registers are as
before. -/
theorem cleared_edx (o : Op) (m : Machine) : ∃ u, execOps [.xor .edx .edx, o] m = o.exec u
      ∧ u.reg .edx = 0 ∧ u.reg .eax = m.reg .eax ∧ u.reg .ebx = m.reg .ebx := by
  obtain ⟨u, hu, hedx, heax, hebx⟩ : ∃ u, (Op.xor .edx .edx).exec m = some u
      ∧ u.reg .edx = m.reg .edx ^^^ m.reg .edx ∧ u.reg .eax = m.reg .eax
      ∧ u.reg .ebx = m.reg .ebx := ⟨_, rfl, rfl, rfl, rfl⟩
  refine ⟨u, ?_, hedx.trans (BitVec.xor_self ..), heax, hebx⟩
  show ((Op.xor .edx .edx).exec m).bind _ = _
  rw [hu]
  exact Option.bind_fun_some _

/-- Unsigned division with a cleared high half never overflows. -/
theorem evaluates_div (hb : b ≠ 0) : Evaluates [.xor .edx .edx, .div .ebx] .eax a b (some (a / b))
      ∧ Evaluates [.xor .edx .edx, .div .ebx] .edx a b (some (a % b)) := by
  have hb' : b.toNat ≠ 0 := fun h => hb (BitVec.eq_of_toNat_eq h)
  have hlt : a.toNat / b.toNat < 2 ^ 32 := lt_of_le_of_lt (Nat.div_le_self _ _) a.isLt
  have hrun : ∀ m : Machine, m.reg .eax = a → m.reg .ebx = b →
      ∃ t, execOps [.xor .edx .edx, .div .ebx] m = some t
        ∧ t.reg .eax = a / b ∧ t.reg .edx = a % b := by
    rintro m rfl rfl
    obtain ⟨u, hu, hedx, heax, hebx⟩ := cleared_edx (.div .ebx) m
    rw [hu, ← heax, ← hebx]
    rw [← heax, ← hebx] at hlt
    rw [← hebx] at hb'
    show ∃ t, Machine.divStep _ (u.reg .ebx) = some t ∧ _
    have hn : (u.reg .edx).toNat * 2 ^ 32 + (u.reg .eax).toNat = (u.reg .eax).toNat := by
      rw [hedx]
      exact Nat.zero_add _
    unfold Machine.divStep
    dsimp only
    rw [hn, if_neg (by omega)]
    exact ⟨_, rfl, BitVec.udiv_def.symm, BitVec.umod_def.symm⟩
  constructor <;> intro m ha hb <;> obtain ⟨t, ht, hq, hr⟩ := hrun m ha hb <;>
    rw [ht]
  · exact congrArg some hq
  · exact congrArg some hr

/-- What `xor edx, edx; idiv ebx` leaves in EAX and EDX: quotient and
remainder of the unsigned reading of `a` by the signed one of `b`, nothing
on a divide error. -/
def idivU (a b : Word) : Option (Word × Word) :=
  let q := (a.toNat : Int).tdiv b.toInt
  if b.toInt = 0 ∨ q < -(2 ^ 31) ∨ 2 ^ 31 ≤ q then none
  else some (ofInt 32 q, ofInt 32 ((a.toNat : Int).tmod b.toInt))

theorem evaluates_idiv : Evaluates [.xor .edx .edx, .idiv .ebx] .eax a b ((idivU a b).map Prod.fst)
      ∧ Evaluates [.xor .edx .edx, .idiv .ebx] .edx a b ((idivU a b).map Prod.snd) := by
  have hrun : ∀ m : Machine, m.reg .eax = a → m.reg .ebx = b →
      (execOps [.xor .edx .edx, .idiv .ebx] m).map
        (fun t => (t.reg .eax, t.reg .edx)) = idivU a b := by
    rintro m rfl rfl
    obtain ⟨u, hu, hedx, heax, hebx⟩ := cleared_edx (.idiv .ebx) m
    rw [hu, ← heax, ← hebx]
    have hn : (u.reg .edx ++ u.reg .eax).toInt = (u.reg .eax).toNat := by
      rw [hedx, BitVec.toInt_append]
      simp
    show (Machine.idivStep _ (u.reg .ebx)).map _ = _
    unfold Machine.idivStep idivU
    dsimp only
    rw [hn]
    split <;> rfl
  constructor <;> intro m ha hb <;> rw [← hrun m ha hb, Option.map_map] <;> rfl

/-- A dividend read as `2 ^ 32` too large has another quotient: the two
remainders would be `2 ^ 32` apart, and both are smaller than a divisor
of at most `2 ^ 31`. -/
theorem tdiv_shift_ne {A B : Int} (hb : B ≠ 0) (hsize : B.natAbs ≤ 2 ^ 31) :
    (A + 2 ^ 32).tdiv B ≠ A.tdiv B := by
  intro h
  have hrem : ∀ C : Int, (C.tmod B).natAbs < B.natAbs := by
    intro C
    rw [Int.natAbs_tmod]
    exact Nat.mod_lt _ (by omega)
  have h₁ := Int.mul_tdiv_add_tmod (A + 2 ^ 32) B
  have h₂ := Int.mul_tdiv_add_tmod A B
  have h₃ := hrem (A + 2 ^ 32)
  have h4 := hrem A
  rw [h] at h₁
  generalize B * A.tdiv B = p at h₁ h₂
  omega

theorem toInt_natAbs (w : Word) : w.toInt.natAbs ≤ 2 ^ 31 := by
  have h₁ := BitVec.le_toInt w
  have h₂ : w.toInt < 2 ^ 31 := BitVec.toInt_lt
  omega

theorem toInt_ne_zero (hb : b ≠ 0) : b.toInt ≠ 0 := by
  intro h
  exact hb (BitVec.toInt_inj.1 (h.trans BitVec.toInt_zero.symm))

/-- Dividends that are not negative read the same both ways. -/
theorem idivU_nonneg (hb : b ≠ 0) (hpos : 0 ≤ a.toInt) :
    idivU a b = some (ofInt 32 (a.toInt.tdiv b.toInt),
      ofInt 32 (a.toInt.tmod b.toInt)) := by
  have hb' := toInt_ne_zero hb
  have ha : (a.toNat : Int) = a.toInt := by
    have hlt := a.isLt
    have hcond := BitVec.toInt_eq_toNat_cond a
    split at hcond <;> omega
  have hle := Int.natAbs_tdiv_le_natAbs a.toInt b.toInt
  have hlt : a.toInt < 2 ^ 31 := BitVec.toInt_lt
  unfold idivU
  rw [ha]
  exact if_neg (by omega)

theorem toInt_sdiv_of (hov : ¬ (a = BitVec.intMin 32 ∧ b = -1)) :
    (a.sdiv b).toInt = a.toInt.tdiv b.toInt :=
  BitVec.toInt_sdiv_of_ne_or_ne a b (not_and_or.1 hov)

/-- A negative dividend never gives the quotient. -/
theorem idivU_neg (hb : b ≠ 0) (hov : ¬ (a = BitVec.intMin 32 ∧ b = -1))
    (hneg : a.toInt < 0) : (idivU a b).map Prod.fst ≠ some (a.sdiv b) := by
  intro h
  obtain ⟨⟨q, r⟩, hqr, hq⟩ := Option.map_eq_some_iff.1 h
  unfold idivU at hqr
  dsimp only at hqr hq
  split at hqr
  case isTrue => cases hqr
  case isFalse hfit =>
    cases hqr
    have hval := congrArg BitVec.toInt hq
    rw [BitVec.toInt_ofInt_eq_self (by decide) (by omega) (by omega), toInt_sdiv_of hov] at hval
    refine tdiv_shift_ne (toInt_ne_zero hb) (toInt_natAbs b) (Eq.trans ?_ hval)
    have hcond := BitVec.toInt_eq_toNat_cond a
    congr 1
    split at hcond <;> omega

-- ======== the results

/-- The operators whose code is the operator. -/
def operators : List Token :=
  [.iAdd, .iAnd, .iDivU, .iRemU, .iMul, .iOr, .iRotl, .iRotr, .iShl, .iShrS,
    .iShrU, .iSub, .iXor, .iEqz, .iEq, .iNe, .iGeS, .iGeU, .iGtS, .iGtU,
    .iLeS, .iLeU, .iLtS, .iLtU]

/-- The number of operands the verifier takes for an operator. -/
def arity (t : Token) : Nat := if t.vcase = .unary then 1 else 2

/-- The result of an operator on `b`, the topmost operand, and `a` below
it. -/
def result (t : Token) (a b : Word) : Option Word :=
  if t.vcase = .unary then some (Arith.sume.unary t b) else Arith.sume.binary t a b

/-- What the operators of two operands compute between the pops and the
push. -/
theorem evaluates_operator (ht : t ∈ operators) (hne : t ≠ .iEqz)
    (hdiv : t = .iDivU ∨ t = .iRemU → b ≠ 0) : ∃ os r v, binaryOps t = some (os, r) ∧ arity t = 2
      ∧ result t a b = some v ∧ Evaluates os r a b (some v) := by
  cases t
  case iDivU =>
    have hb := hdiv (Or.inl rfl)
    exact ⟨_, _, a / b, rfl, rfl, if_neg hb, (evaluates_div hb).1⟩
  case iRemU =>
    have hb := hdiv (Or.inr rfl)
    exact ⟨_, _, a % b, rfl, rfl, if_neg hb, (evaluates_div hb).2⟩
  case iMul => exact ⟨_, _, a * b, rfl, rfl, rfl, evaluates_mul⟩
  case iAdd | iAnd | iOr | iSub | iXor | iRotl | iRotr | iShl | iShrS | iShrU =>
    refine ⟨_, _, _, rfl, rfl, rfl, ?_⟩
    rintro m rfl rfl
    rfl
  case iEq => exact ⟨_, _, _, rfl, rfl, rfl, evaluates_compare .e⟩
  case iNe => exact ⟨_, _, _, rfl, rfl, rfl, evaluates_compare .ne⟩
  case iGeS => exact ⟨_, _, _, rfl, rfl, rfl, evaluates_compare .ge⟩
  case iGeU => exact ⟨_, _, _, rfl, rfl, rfl, evaluates_compare .ae⟩
  case iGtS => exact ⟨_, _, _, rfl, rfl, rfl, evaluates_compare .g⟩
  case iGtU => exact ⟨_, _, _, rfl, rfl, rfl, evaluates_compare .a⟩
  case iLeS => exact ⟨_, _, _, rfl, rfl, rfl, evaluates_compare .le⟩
  case iLeU => exact ⟨_, _, _, rfl, rfl, rfl, evaluates_compare .be⟩
  case iLtS => exact ⟨_, _, _, rfl, rfl, rfl, evaluates_compare .l⟩
  case iLtU => exact ⟨_, _, _, rfl, rfl, rfl, evaluates_compare .b⟩
  case iEqz => exact absurd rfl hne
  all_goals exact absurd ht (by decide)

/-- The code of `i_eqz`. -/
theorem eqz_computes (hcode : BytesAt m.mem m.eip (s.code .iEqz)) :
    s.Computes .iEqz 1 (truth (stackWord m 0 == 0)) m := by
  have hbytes : s.code .iEqz = bytesOf ([.pop .eax .stkh, .xor .ecx .ecx,
      .test .eax .eax, .set .e .cl] ++ [.push .ecx .stkh]) := site_code_fixed rfl
  have hc : CodeAt m.mem m.eip ([.pop .eax .stkh, .xor .ecx .ecx,
      .test .eax .eax, .set .e .cl] ++ [.push .ecx .stkh]) := ⟨hbytes ▸ hcode, by decide⟩
  have hrun := hc.runN_eq (by
    intro p hp
    fin_cases hp
    · exact Op.straight_pop _ _
    all_goals exact Op.straight_quiet rfl)
  obtain ⟨t, ht, hmem, heip, hcx, hsp, hbp, hsi, hdi⟩ :
      ∃ t, execOps [.pop .eax .stkh, .xor .ecx .ecx, .test .eax .eax, .set .e .cl] m = some t
        ∧ t.mem = m.mem ∧ t.eip = m.eip + 1 + 2 + 2 + 3
        ∧ t.reg .ecx = setByte (m.reg .ecx ^^^ m.reg .ecx) 0
          (if (m.mem.load32 (m.reg .esp) &&& m.mem.load32 (m.reg .esp)) == 0 then 1 else 0)
        ∧ t.reg .esp = m.reg .esp + ofNat 32 (4 * 1) ∧ t.reg .ebp = m.reg .ebp
        ∧ t.reg .esi = m.reg .esi ∧ t.reg .edi = m.reg .edi :=
    ⟨_, rfl, rfl, rfl, rfl, rfl, rfl, rfl, rfl⟩
  rw [execOps_append, ht, Option.bind_some] at hrun
  obtain ⟨m', hpush⟩ : ∃ m', (Op.push .ecx .stkh).exec t = some m' := ⟨_, rfl⟩
  refine ⟨m', hrun.trans ?_, ?_⟩
  · show ((Op.push .ecx .stkh).exec t).bind (execOps []) = some m'
    rw [hpush]
    rfl
  · have hv : t.reg .ecx = truth (stackWord m 0 == 0) := by
      rw [hcx, setByte_truth, BitVec.and_self]
      exact congrArg (fun w => truth (m.mem.load32 w == 0)) (BitVec.add_zero _).symm
    rw [← hv]
    refine replaces_push hmem ?_ hsp hbp hsi hdi hpush
    rw [heip, hbytes]
    simp only [BitVec.add_assoc]
    rfl

/-- The code of every operator replaces its operands by the result, the
divisions by zero apart. -/
theorem operator_code_computes (s : Site) (m : Machine) (t : Token)
    (ht : t ∈ operators) (hcode : BytesAt m.mem m.eip (s.code t))
    (hdiv : t = .iDivU ∨ t = .iRemU → stackWord m 0 ≠ 0) :
    ∃ v, result t (stackWord m 1) (stackWord m 0) = some v
      ∧ s.Computes t (arity t) v m := by
  by_cases hz : t = .iEqz
  · subst hz
    exact ⟨_, rfl, eqz_computes hcode⟩
  · obtain ⟨os, r, v, hb, hn, hv, hev⟩ := evaluates_operator ht hz hdiv
    rw [hn]
    exact ⟨v, hv, (computes_iff hb hcode hev).2 rfl⟩

/-- A machine about to execute the code of a token at address 0, with the
words of `stack` at address 4096, the topmost first. -/
def operatorMachine (s : Site) (t : Token) (stack : List Word) : Machine where
  reg := fun r => if r = .esp then 4096 else 0
  eip := 0
  flags := none
  mem := fun x =>
    if x.toNat < 4096 then ((s.code t)[x.toNat]?).getD 0
    else byteOf ((stack[(x.toNat - 4096) / 4]?).getD 0) (x.toNat % 4)

/-- The site of a program's first token. -/
def firstSite : Site := ⟨0, 66, [], 0⟩

theorem bytesAt_operatorMachine {st : List Word} (h : (s.code t).length ≤ 4096) :
    BytesAt (operatorMachine s t st).mem (operatorMachine s t st).eip (s.code t) := by
  intro i hi
  have hx : ((0 : Word) + ofNat 32 i).toNat = i := by
    rw [show (0 : Word) + ofNat 32 i = ofNat 32 i from
      BitVec.zero_add _, BitVec.toNat_ofNat, Nat.mod_eq_of_lt (by omega)]
  show (if ((0 : Word) + ofNat 32 i).toNat < 4096
    then ((s.code t)[((0 : Word) + ofNat 32 i).toNat]?).getD 0 else _) = _
  rw [hx, if_pos (by omega), List.getElem?_eq_getElem hi]
  rfl

theorem operator_code_computes_sub :
    ∃ v, result .iSub 7 9 = some v
      ∧ firstSite.Computes .iSub 2 v (operatorMachine firstSite .iSub [9, 7]) :=
  operator_code_computes firstSite (operatorMachine firstSite .iSub [9, 7]) .iSub
    (by decide) (bytesAt_operatorMachine (by decide)) (by decide)

/-- Signed division and remainder are right for dividends that are not
negative, and for no others: with a negative one the division is not. -/
theorem signed_division_iff (s s' : Site) (m m' : Machine) (a b : Word)
    (hcode : BytesAt m.mem m.eip (s.code .iDivS))
    (ha : stackWord m 1 = a) (hb : stackWord m 0 = b)
    (hcode' : BytesAt m'.mem m'.eip (s'.code .iRemS))
    (ha' : stackWord m' 1 = a) (hb' : stackWord m' 0 = b)
    (hzero : b ≠ 0) (hov : ¬ (a = BitVec.intMin 32 ∧ b = -1)) :
    (s.Computes .iDivS 2 (a.sdiv b) m ∧ s'.Computes .iRemS 2 (a.srem b) m')
      ↔ 0 ≤ a.toInt := by
  have hdiv : s.Computes .iDivS 2 (a.sdiv b) m
      ↔ (idivU a b).map Prod.fst = some (a.sdiv b) :=
    computes_iff rfl hcode (ha ▸ hb ▸ evaluates_idiv.1)
  have hrem : s'.Computes .iRemS 2 (a.srem b) m'
      ↔ (idivU a b).map Prod.snd = some (a.srem b) :=
    computes_iff rfl hcode' (ha' ▸ hb' ▸ evaluates_idiv.2)
  rw [hdiv, hrem]
  constructor
  · rintro ⟨hq, -⟩
    by_contra hneg
    exact idivU_neg hzero hov (not_le.1 hneg) hq
  · intro hpos
    rw [idivU_nonneg hzero hpos]
    refine ⟨congrArg some ?_, congrArg some ?_⟩
    · rw [← BitVec.ofInt_toInt (x := a.sdiv b), toInt_sdiv_of hov]
    · rw [← BitVec.ofInt_toInt (x := a.srem b), BitVec.toInt_srem]

theorem signed_division_iff_seven :
    (firstSite.Computes .iDivS 2 ((7 : Word).sdiv (-2))
        (operatorMachine firstSite .iDivS [-2, 7])
      ∧ firstSite.Computes .iRemS 2 ((7 : Word).srem (-2))
        (operatorMachine firstSite .iRemS [-2, 7]))
      ↔ 0 ≤ (7 : Word).toInt :=
  signed_division_iff firstSite firstSite _ _ 7 (-2)
    (bytesAt_operatorMachine (by decide)) (by decide) (by decide)
    (bytesAt_operatorMachine (by decide)) (by decide) (by decide) (by decide)
    (by decide)

/-- `-7 / 2` comes out as 2147483644. -/
theorem negative_dividend_wrong :
    (runN X86.step 5 (operatorMachine firstSite .iDivS [2, -7])).map
        (fun m => (stackWord m 0, m.reg .esp)) = some (2147483644, 4100)
      ∧ (-7 : Word).sdiv 2 = -3
      ∧ (plainItems firstSite.trapretAddr .iDivS).length = 5 := by
  decide +kernel

/-- A word is its own number of one bits only when it is 0 or 1. -/
theorem popcnt_eq_self_iff (a : Word) : Arith.sume.popcnt a = a ↔ a.toNat ≤ 1 := by
  have hsmall : ∀ k, k ≤ 32 → (Arith.sume.popcnt (ofNat 32 k) = ofNat 32 k
      ↔ k ≤ 1) := by decide
  have hself : ofNat 32 a.toNat = a := by
    rw [BitVec.ofNat_toNat, BitVec.setWidth_eq]
  by_cases hle : a.toNat ≤ 32
  · have h := hsmall a.toNat hle
    rwa [hself] at h
  · refine iff_of_false ?_ (by omega)
    intro h
    have hlen : ((List.range 32).filter fun i => a.getLsbD i).length ≤ 32 :=
      (List.length_filter_le ..).trans_eq List.length_range
    have hval := congrArg BitVec.toNat h
    rw [show Arith.sume.popcnt a = ofNat 32
      ((List.range 32).filter fun i => a.getLsbD i).length from rfl,
      BitVec.toNat_ofNat, Nat.mod_eq_of_lt (by omega)] at hval
    omega

/-- The code of the bit counts is right in one case: `i_popcnt`, which has
none, of an operand that is its own number of one bits. `i_clz` and
`i_ctz` take two operands. -/
theorem bit_count_code_iff (s : Site) (m : Machine) (t : Token)
    (ht : t = .iClz ∨ t = .iCtz ∨ t = .iPopcnt)
    (hcode : BytesAt m.mem m.eip (s.code t)) :
    s.Computes t 1 (Arith.sume.unary t (stackWord m 0)) m
      ↔ t = .iPopcnt ∧ (stackWord m 0).toNat ≤ 1 := by
  -- two operands are gone, so the stack pointer is off by four
  have hscan : ∀ {t : Token} {os : List Op} {r : Reg} {v w : Word},
      BytesAt m.mem m.eip (s.code t) → binaryOps t = some (os, r) →
      Evaluates os r (stackWord m 1) (stackWord m 0) (some v) →
      ¬ s.Computes t 1 w m := by
    rintro t os r v w hcode hb hev ⟨m₁, h₁, hone⟩
    obtain ⟨m₂, h₂, htwo⟩ := (computes_iff hb hcode hev).2 rfl
    obtain rfl := Option.some.inj (h₁.symm.trans h₂)
    have hsp := hone.esp.symm.trans htwo.esp
    bv_omega
  rcases ht with rfl | rfl | rfl
  · exact iff_of_false (hscan hcode rfl evaluates_bsf) nofun
  · exact iff_of_false (hscan hcode rfl evaluates_bsr) nofun
  · have hempty : s.code .iPopcnt = bytesOf [] := site_code_fixed rfl
    rw [show (Token.iPopcnt = .iPopcnt ∧ (stackWord m 0).toNat ≤ 1)
      ↔ (stackWord m 0).toNat ≤ 1 from and_iff_right rfl,
      ← popcnt_eq_self_iff (stackWord m 0)]
    constructor
    · rintro ⟨m', hm', h⟩
      cases hm'
      exact h.top.symm
    · intro h
      refine ⟨m, rfl, ?_, ?_, h.symm, fun _ _ => rfl, rfl, rfl, rfl⟩
      · rw [hempty]
        exact (BitVec.add_zero _).symm
      · bv_omega

theorem bit_count_code_iff_popcnt :
    firstSite.Computes .iPopcnt 1
        (Arith.sume.unary .iPopcnt
          (stackWord (operatorMachine firstSite .iPopcnt [1]) 0))
        (operatorMachine firstSite .iPopcnt [1])
      ↔ Token.iPopcnt = .iPopcnt
        ∧ (stackWord (operatorMachine firstSite .iPopcnt [1]) 0).toNat ≤ 1 :=
  bit_count_code_iff firstSite _ .iPopcnt (Or.inr (Or.inr rfl))
    (bytesAt_operatorMachine (by decide))

/-- `i_clz` of 1, above an 8: both are gone, and the index of the lowest
one bit of the 8 is pushed. -/
theorem clz_takes_two_operands :
    (runN X86.step 4 (operatorMachine firstSite .iClz [1, 8])).map
        (fun m => (stackWord m 0, m.reg .esp)) = some (3, 4100)
      ∧ (operatorMachine firstSite .iClz [1, 8]).reg .esp = 4096
      ∧ Arith.sume.unary .iClz 1 = 31
      ∧ (plainItems firstSite.trapretAddr .iClz).length = 4 := by
  decide +kernel

end Xv6Sume32.Asm
