/-
Which bytes of the heap an access reaches, and what it reads or writes
there.

The cell of index `i` is bytes `w * i` to `w * i + w - 1` of the heap, `w`
being the width of the opcode. `Site.Exact` is what the code is for: a
cell that lies in the heap is loaded or stored, nothing else of the heap
is touched, and any other index ends at the trap exit before the heap is
touched at all.

# Shape of the argument

- The code up to the access is a line: it stores nothing, has no memory
  operand and each operation goes on with the next (`Line`). A run of
  the code follows the line (`Line.spec`).
- The line ends at the trap exit or at the access, by what the bounds
  check compares: the scaled index, modulo `2 ^ 32`, with the size
  (`heap_traps`, `heap_gets`).
- The access and the push behind it are executed (`load_exact`,
  `store_exact`).

# Where the code is not exact

The index is scaled by a shift that drops the upper bits, and the check
looks at the first byte of the cell. Both let an index through whose cell
does not lie in the heap, and such an index then reaches bytes behind the
heap or the cell of a smaller index. `str16` has no code.
-/
import Xv6Sume32.Asm.Proofs.Sandbox
import Xv6Sume32.Asm.Proofs.Arith
import Xv6Sume32.Asm.Proofs.Origin

namespace Xv6Sume32.Asm

open Lib X86 Sume
open BitVec (ofNat)

variable {o : Op} {os ps : List Op} {m m' u v : Machine} {b : Word}

-- ======== the cells

/-- The heap accesses. -/
def heapTokens : List Token :=
  [.iLd32, .iLd16S, .iLd16U, .iLd8S, .iLd8U, .str32, .str16, .str8]

/-- The bytes of a cell. -/
def cellWidth : Token → Nat
  | .iLd32 | .str32 => 4
  | .iLd16S | .iLd16U | .str16 => 2
  | _ => 1

/-- The accesses that take a value and push nothing. -/
def isStore : Token → Bool
  | .str32 | .str16 | .str8 => true
  | _ => false

/-- The operand that names the cell: the topmost word for a load, the one
below the value for a store. -/
def heapIndex (t : Token) (m : Machine) : Nat :=
  (stackWord m (if isStore t then 1 else 0)).toNat

/-- Where the cell starts, counted from the base of the heap. -/
def cellFirst (t : Token) (m : Machine) : Nat := cellWidth t * heapIndex t m

/-- Byte `k` of the cell, for the heap at EDI. -/
def cellByte (t : Token) (m : Machine) (k : Nat) : Word :=
  m.reg .edi + ofNat 32 (cellFirst t m + k)

/-- The addresses of the cell. -/
def InCell (t : Token) (m : Machine) (b : Word) : Prop :=
  ∃ k, k < cellWidth t ∧ b = cellByte t m k

/-- The cell lies in the heap, whose size is in ESI. -/
def CellFits (t : Token) (m : Machine) : Prop :=
  cellFirst t m + cellWidth t ≤ (m.reg .esi).toNat

instance (t : Token) (m : Machine) : Decidable (CellFits t m) :=
  inferInstanceAs (Decidable (_ ≤ _))

/-- What a load of the cell gives: its bytes, the first one lowest, and
the sign or zeros above. -/
def cellValue (t : Token) (m : Machine) : Word :=
  let byte k := m.mem (cellByte t m k)
  match t with
  | .iLd32 => ofLe (byte 0) (byte 1) (byte 2) (byte 3)
  | .iLd16S => (ofLe16 (byte 0) (byte 1)).signExtend 32
  | .iLd16U => (ofLe16 (byte 0) (byte 1)).setWidth 32
  | .iLd8S => (byte 0).signExtend 32
  | _ => (byte 0).setWidth 32

/-- From `m` to `m'`, over `len` bytes of code, value and index left the
stack and the low bytes of the value went to the cell. No other byte of
the memory changed, and neither did EBP, ESI or EDI. -/
structure Stored (t : Token) (len : Nat) (m m' : Machine) : Prop where
  eip : m'.eip = m.eip + ofNat 32 len
  esp : m'.reg .esp = m.reg .esp + 8
  cell : ∀ k, k < cellWidth t → m'.mem (cellByte t m k) = byteOf (stackWord m 0) k
  rest : ∀ x, ¬ InCell t m x → m'.mem x = m.mem x
  ebp : m'.reg .ebp = m.reg .ebp
  esi : m'.reg .esi = m.reg .esi
  edi : m'.reg .edi = m.reg .edi

-- ======== runs of the code

section Region

variable (lo : Word) (len : Nat)

/-- The machine is in the `len` bytes at `lo`. -/
def Inside (u : Machine) : Prop := (u.eip - lo).toNat < len

instance (u : Machine) : Decidable (Inside lo len u) :=
  inferInstanceAs (Decidable (_ < _))

/-- The machine as long as it is there: outside it has no successor. -/
def stepIn (u : Machine) : Option Machine :=
  if Inside lo len u then X86.step u else none

/-- A run from `m` gets to `u` through code of the region. -/
def Gets (m u : Machine) : Prop := ∃ n, runN (stepIn lo len) n m = some u

/-- Byte `b` belongs to the memory operand of the next instruction. -/
def Covers (u : Machine) (b : Word) : Prop :=
  ∃ a, access u = some a ∧ ∃ k, k < a.2 ∧ b = a.1 + ofNat 32 k

/-- A run from `m`, before it leaves the region, accesses byte `b`. -/
def Reaches (m : Machine) (b : Word) : Prop :=
  ∃ u, Gets lo len m u ∧ Inside lo len u ∧ Covers u b

end Region

variable {lo : Word} {len q : Nat}

theorem gets_refl : Gets lo len m m := ⟨0, rfl⟩

theorem stepIn_eq (hin : Inside lo len m) : stepIn lo len m = X86.step m :=
  if_pos hin

theorem Gets.head (hin : Inside lo len m) (hs : X86.step m = some u)
    (h : Gets lo len u v) : Gets lo len m v := by
  obtain ⟨n, hn⟩ := h
  exact ⟨n + 1, (runN_succ ((stepIn_eq hin).trans hs)).trans hn⟩

/-- What the first step and the rest of the run access. -/
theorem reaches_step (hin : Inside lo len m) (hs : X86.step m = some u) :
    Reaches lo len m b ↔ Covers m b ∨ Reaches lo len u b := by
  constructor
  · rintro ⟨v, ⟨n, hn⟩, hv, hb⟩
    cases n with
    | zero =>
      cases hn
      exact Or.inl hb
    | succ n =>
      rw [runN_succ ((stepIn_eq hin).trans hs)] at hn
      exact Or.inr ⟨v, ⟨n, hn⟩, hv, hb⟩
  · rintro (hb | ⟨v, hg, hv, hb⟩)
    · exact ⟨m, gets_refl, hin, hb⟩
    · exact ⟨v, hg.head hin hs, hv, hb⟩

theorem not_reaches (hout : ¬ Inside lo len m) : ¬ Reaches lo len m b := by
  rintro ⟨v, ⟨n, hn⟩, hv, -⟩
  cases n with
  | zero =>
    cases hn
    exact hout hv
  | succ n =>
    have hn : (stepIn lo len m).bind _ = some v := hn
    rw [show stepIn lo len m = none from if_neg hout] at hn
    cases hn

theorem inside_of (hat : m.eip = lo + ofNat 32 q) (hq : q < len)
    (hlen : len ≤ 2 ^ 32) : Inside lo len m := by
  have hoff : m.eip - lo = ofNat 32 q := by
    rw [hat]
    bv_omega
  unfold Inside
  rw [hoff, BitVec.toNat_ofNat]
  omega

theorem outside_of (hat : m.eip = lo + ofNat 32 len) (hlen : len < 2 ^ 32) :
    ¬ Inside lo len m := by
  have hoff : m.eip - lo = ofNat 32 len := by
    rw [hat]
    bv_omega
  unfold Inside
  rw [hoff, BitVec.toNat_ofNat]
  omega

theorem covers_none (hc : CodeAt m.mem m.eip (o :: os))
    (ho : memOperand o.instr = none) : ¬ Covers m b := by
  rintro ⟨a, ha, -⟩
  rw [access_codeAt hc, ho] at ha
  cases ha

/-- Operations that store nothing, have no memory operand and go on with
the next, from `m` to `v`. -/
inductive Line : List Op → Machine → Machine → Prop
  | nil {m : Machine} : Line [] m m
  | cons {o : Op} {os : List Op} {m u v : Machine} (he : o.exec m = some u)
      (hmem : u.mem = m.mem)
      (heip : u.eip = m.eip + ofNat 32 o.bytes.length)
      (ho : memOperand o.instr = none) (h : Line os u v) : Line (o :: os) m v

theorem line_steady : ∀ {os : List Op} {m : Machine},
    (∀ o ∈ os, o.steady = true) → execOps os m = some v → Line os m v := by
  intro os
  induction os with
  | nil =>
    intro m _ he
    cases he
    exact .nil
  | cons o os ih =>
    intro m hs he
    obtain ⟨u, hu, he⟩ := Option.bind_eq_some_iff.1 he
    obtain ⟨ho, hos⟩ := List.forall_mem_cons.1 hs
    obtain ⟨hmem, heip, hop⟩ := Op.exec_steady ho hu
    exact .cons hu hmem heip hop (ih hos he)

/-- A run of the region follows a line and accesses what it accesses
behind it. -/
theorem Line.spec (h : Line os m v) (hlen : len ≤ 2 ^ 32) :
    ∀ {q : Nat}, CodeAt m.mem m.eip (os ++ ps) → m.eip = lo + ofNat 32 q →
      q + (bytesOf os).length ≤ len → (∀ w, Gets lo len v w → Gets lo len m w)
        ∧ (∀ b, Reaches lo len m b ↔ Reaches lo len v b) ∧ CodeAt v.mem v.eip ps ∧ v.mem = m.mem
        ∧ v.eip = lo + ofNat 32 (q + (bytesOf os).length) := by
  induction h with
  | nil =>
    intro q hc hat _
    exact ⟨fun _ h => h, fun _ => Iff.rfl, hc, rfl, hat⟩
  | @cons o os m u v he hmem heip ho _ ih =>
    intro q hc hat hq
    rw [bytesOf_cons, List.length_append] at hq ⊢
    have hpos := bytes_pos o
    have hin : Inside lo len m := inside_of hat (by omega) hlen
    have hstep : X86.step m = some u := hc.step.trans he
    have hcu : CodeAt u.mem u.eip (os ++ ps) := by
      rw [hmem, heip]
      exact hc.tail
    have hatu : u.eip = lo + ofNat 32 (q + o.bytes.length) := by
      rw [heip, hat, BitVec.add_assoc, ← BitVec.ofNat_add]
    obtain ⟨hgets, hreach, hcv, hmv, hatv⟩ := ih hcu hatu (by omega)
    refine ⟨fun w hw => (hgets w hw).head hin hstep, fun b => ?_, hcv,
      hmv.trans hmem, by rw [hatv, Nat.add_assoc]⟩
    rw [reaches_step hin hstep, ← hreach b, or_iff_right (covers_none hc ho)]

-- ======== the property

/-- The sites the compiler comes to with `base_addr` 0, the only one it is
given: the code in front of the tokens is there, with `trapret` in it, and
addresses do not wrap. -/
structure Site.Compiled (s : Site) (t : Token) : Prop where
  base : s.base = 0
  trapret : s.trapretAddr = ofNat 32 trapretPos
  start : startPos ≤ s.buf.length
  fits : s.buf.length + (s.code t).length ≤ 2 ^ 32

/-- Where the trap exit is when the machine is at the site. -/
def Site.trapExit (s : Site) (m : Machine) : Word :=
  m.eip - ofNat 32 s.buf.length + ofNat 32 trapretPos

/-- The code of `t` at the site gets from `m` to `u`. -/
def Site.Gets (s : Site) (t : Token) (m u : Machine) : Prop :=
  Asm.Gets m.eip (s.code t).length m u

/-- The code of `t` at the site, run from `m`, accesses byte `b`. -/
def Site.Reaches (s : Site) (t : Token) (m : Machine) (b : Word) : Prop :=
  Asm.Reaches m.eip (s.code t).length m b

/-- Exact addressing. A cell in the heap is loaded or stored, and the code
accesses its bytes and no others; for a cell that is not the code goes to
the trap exit and accesses nothing. -/
structure Site.Exact (s : Site) (t : Token) (m : Machine) : Prop where
  reach : CellFits t m → ∀ b, s.Reaches t m b ↔ InCell t m b
  load : CellFits t m → isStore t = false →
    ∃ m', s.Gets t m m' ∧ Replaces 1 (cellValue t m) (s.code t).length m m'
  store : CellFits t m → isStore t = true →
    ∃ m', s.Gets t m m' ∧ Stored t (s.code t).length m m'
  trap : ¬ CellFits t m → (∀ b, ¬ s.Reaches t m b)
    ∧ ∃ m', s.Gets t m m' ∧ m'.eip = s.trapExit m ∧ m'.mem = m.mem

/-- The condition the code is exact under: the opcode has code, and the
bounds check, which sees the first byte of the cell modulo `2 ^ 32`, passes
only cells that lie in the heap. -/
def Checked (t : Token) (m : Machine) : Prop :=
  t ≠ .str16
    ∧ (CellFits t m ∨ (m.reg .esi).toNat ≤ cellFirst t m % 2 ^ 32)

instance (t : Token) (m : Machine) : Decidable (Checked t m) :=
  inferInstanceAs (Decidable (_ ∧ _))

-- ======== the code

variable {s : Site} {t : Token} {w : Nat}

theorem heapWidth_cell (ht : t ∈ heapTokens) (hne : t ≠ .str16) :
    heapWidth t = some (cellWidth t) := by
  fin_cases ht <;> first | rfl | exact absurd rfl hne

theorem cellIndex_eq (hw : heapWidth t = some w) (m : Machine) :
    (cellIndex t m).toNat = heapIndex t m := by
  have h0 : m.mem.load32 (m.reg .esp) = stackWord m 0 :=
    congrArg m.mem.load32 (BitVec.add_zero _).symm
  cases t
  case str32 | str8 => rfl
  case iLd32 | iLd16S | iLd16U | iLd8S | iLd8U => exact congrArg BitVec.toNat h0
  all_goals cases hw

theorem Site.Compiled.code_eq (hs : s.Compiled t) (hw : heapWidth t = some w) :
    s.code t = bytesOf (heapCode t s.buf.length) := by
  unfold Site.code
  have hu : Uniform (plainItems s.trapretAddr t) := uniform_plainItems _ _
  rw [assemble_eq hu, List.drop_left, hs.base, hs.trapret, resolve_heap hw]

theorem Site.Compiled.codeAt (hs : s.Compiled t) (hw : heapWidth t = some w)
    (hcode : BytesAt m.mem m.eip (s.code t)) : CodeAt m.mem m.eip (heapCode t s.buf.length) := by
  refine ⟨hs.code_eq hw ▸ hcode, ?_⟩
  rw [← resolve_heap hw (h := 0)]
  exact (allPlain_plainItems _ _).resolve

theorem Site.Compiled.length_lt (hs : s.Compiled t) : (s.code t).length < 2 ^ 32 := by
  have hfits := hs.fits
  have hstart := hs.start
  unfold startPos at hstart
  omega

/-- The machine is `q` bytes into the code, in front of `os`, the operands
popped and nothing of the heap accessed. -/
structure Site.Along (s : Site) (t : Token) (m u : Machine) (os : List Op)
    (q : Nat) : Prop where
  gets : ∀ v, Asm.Gets m.eip (s.code t).length u v → s.Gets t m v
  reach : ∀ b, s.Reaches t m b ↔ Asm.Reaches m.eip (s.code t).length u b
  code : CodeAt u.mem u.eip os
  eip : u.eip = m.eip + ofNat 32 q
  size : q + (bytesOf os).length = (s.code t).length
  mem : u.mem = m.mem
  edi : u.reg .edi = m.reg .edi
  esi : u.reg .esi = m.reg .esi
  ebp : u.reg .ebp = m.reg .ebp
  esp : u.reg .esp = m.reg .esp + ofNat 32 (4 * (heapPops t).length)
  ebx : heapTail t = [] → u.reg .ebx = stackWord m 0

/-- One operation further, when it stores nothing and keeps the registers
the access depends on. -/
theorem Site.Along.next (h : s.Along t m u (o :: os) q) (hs : s.Compiled t)
    (he : o.exec u = some v) (hmem : v.mem = u.mem)
    (heip : v.eip = u.eip + ofNat 32 o.bytes.length) (ho : memOperand o.instr = none)
    (hreg : ∀ r, r ≠ .eax → v.reg r = u.reg r) : s.Along t m v os (q + o.bytes.length) := by
  have hsize := h.size
  rw [bytesOf_cons, List.length_append] at hsize
  have hone : (bytesOf [o]).length = o.bytes.length := congrArg List.length (List.append_nil _)
  have hcode : CodeAt u.mem u.eip ([o] ++ os) := h.code
  obtain ⟨hgets, hreach, hcode, -, hat⟩ :=
    (Line.cons he hmem heip ho .nil).spec hs.length_lt.le hcode h.eip (by omega)
  rw [hone] at hat
  exact ⟨fun w hw => h.gets w (hgets w hw), fun b => (h.reach b).trans (hreach b),
    hcode, hat, by omega, hmem.trans h.mem, (hreg .edi nofun).trans h.edi,
    (hreg .esi nofun).trans h.esi, (hreg .ebp nofun).trans h.ebp,
    (hreg .esp nofun).trans h.esp, fun hst => (hreg .ebx nofun).trans (h.ebx hst)⟩

/-- The bounds check and the access. -/
def checkOps (t : Token) (here : Nat) : List Op :=
  .jaeRel (ofNat 32 here) (ofNat 32 trapretPos) :: .add .eax .edi
    :: heapOp t :: heapTail t

theorem eval_cmp_cf (a b : Word) : (Alu.eval .cmp a b).2.cf = decide (a.toNat < b.toNat) := rfl

/-- The code up to the jump of the bounds check. -/
theorem heap_front (hs : s.Compiled t) (hw : heapWidth t = some w)
    (hcode : BytesAt m.mem m.eip (s.code t)) :
    ∃ u q f, s.Along t m u (checkOps t (s.buf.length + q)) q
      ∧ (u.reg .eax).toNat = (w * heapIndex t m) % 2 ^ 32 ∧ u.flags = some f
      ∧ f.cf = decide ((u.reg .eax).toNat < (m.reg .esi).toNat) := by
  obtain ⟨hpow, -, -⟩ := heapWidth_eq hw
  obtain ⟨u, hexec, hax, hdi, hsi, hbp, hsp, hbx⟩ := heap_scaled hw m
  have hc := hs.codeAt hw hcode
  unfold heapCode at hc
  rw [← List.append_assoc] at hc
  have hlen := congrArg List.length (hs.code_eq hw)
  unfold heapCode at hlen
  rw [← List.append_assoc, bytesOf_append, List.length_append] at hlen
  obtain ⟨hgets, hreach, hcu, hmem, hat⟩ :=
    (line_steady (heap_steady t) hexec).spec hs.length_lt.le hc
      (show m.eip = m.eip + ofNat 32 0 from (BitVec.add_zero _).symm) (by omega)
  rw [Nat.zero_add] at hat
  have halong : s.Along t m u _ _ :=
    ⟨hgets, hreach, hcu, hat, hlen.symm, hmem, hdi, hsi, hbp, hsp, fun hst =>
      (hbx hst).trans (congrArg m.mem.load32 (BitVec.add_zero _).symm)⟩
  obtain ⟨v, hv, hmv, hipv, hreg, hfl⟩ : ∃ v, (Op.cmp .eax .esi).exec u = some v ∧ v.mem = u.mem
      ∧ v.eip = u.eip + ofNat 32 (Op.cmp .eax .esi).bytes.length ∧ (∀ r, v.reg r = u.reg r)
      ∧ v.flags = some (Alu.eval .cmp (u.reg .eax) (u.reg .esi)).2 :=
    ⟨_, rfl, rfl, rfl, fun _ => rfl, rfl⟩
  have hnext := halong.next hs hv hmv hipv rfl fun r _ => hreg r
  rw [Nat.add_assoc] at hnext
  refine ⟨v, _, _, hnext, ?_, hfl, ?_⟩
  · rw [hreg, hax, cellStart_shl, ← hpow, ← cellIndex_eq hw]
    rfl
  · rw [eval_cmp_cf, hreg, hsi]

/-- An index the check stops. -/
theorem heap_traps (hs : s.Compiled t) (hw : heapWidth t = some w)
    (hcode : BytesAt m.mem m.eip (s.code t))
    (hle : (m.reg .esi).toNat ≤ (w * heapIndex t m) % 2 ^ 32) : (∀ b, ¬ s.Reaches t m b)
      ∧ ∃ m', s.Gets t m m' ∧ m'.eip = s.trapExit m ∧ m'.mem = m.mem := by
  obtain ⟨u, q, f, h, hax, hf, hcf⟩ := heap_front hs hw hcode
  have hbuf : m.eip = m.eip - ofNat 32 s.buf.length + ofNat 32 s.buf.length := by
    bv_omega
  have hat : u.eip = m.eip - ofNat 32 s.buf.length + ofNat 32 (s.buf.length + q) := by
    rw [h.eip, BitVec.ofNat_add, ← BitVec.add_assoc, ← hbuf]
  have hexec := jae_exec (ofNat 32 (s.buf.length + q)) (ofNat 32 trapretPos) hf
  rw [hcf, if_neg (by simpa [hax] using hle), jump_target _ hat] at hexec
  have hsize := h.size
  have hin : Inside m.eip (s.code t).length u := by
    refine inside_of h.eip ?_ hs.length_lt.le
    unfold checkOps at hsize
    rw [bytesOf_cons, List.length_append] at hsize
    have := bytes_pos (Op.jaeRel (ofNat 32 (s.buf.length + q)) (ofNat 32 trapretPos))
    omega
  have hstep := h.code.step.trans hexec
  -- the trap exit lies in front of the code
  have hout : ∀ x : Machine, x.eip = s.trapExit m → ¬ Inside m.eip (s.code t).length x := by
    intro x hx
    have hfits := hs.fits
    have hstart := hs.start
    unfold startPos at hstart
    have hoff : x.eip - m.eip = ofNat 32 trapretPos - ofNat 32 s.buf.length := by
      rw [hx]
      unfold Site.trapExit
      grind
    unfold Inside
    rw [hoff, BitVec.toNat_sub, BitVec.toNat_ofNat, BitVec.toNat_ofNat]
    unfold trapretPos
    omega
  refine ⟨fun b hb => ?_, _, h.gets _ (gets_refl.head hin hstep), rfl, h.mem⟩
  rw [h.reach, reaches_step hin hstep] at hb
  rcases hb with hb | hb
  · exact covers_none h.code rfl hb
  · exact not_reaches (hout _ rfl) hb

/-- An index the check passes: the machine is in front of the access, its
address in EAX. -/
theorem heap_passes (hs : s.Compiled t) (hw : heapWidth t = some w)
    (hcode : BytesAt m.mem m.eip (s.code t))
    (hlt : (w * heapIndex t m) % 2 ^ 32 < (m.reg .esi).toNat) :
    ∃ u q, s.Along t m u (heapOp t :: heapTail t) q
      ∧ u.reg .eax = m.reg .edi + ofNat 32 (w * heapIndex t m) := by
  obtain ⟨u, q, f, h, hax, hf, hcf⟩ := heap_front hs hw hcode
  have hexec := jae_exec (ofNat 32 (s.buf.length + q)) (ofNat 32 trapretPos) hf
  rw [hcf, if_pos (by simpa [hax] using hlt)] at hexec
  have h₁ := h.next hs hexec rfl rfl rfl fun _ _ => rfl
  obtain ⟨v, hv, hmv, hipv, hreg, haxv⟩ : ∃ v,
      (Op.add .eax .edi).exec { u with eip := u.eip + ofNat 32 6 } = some v
      ∧ v.mem = u.mem ∧ v.eip = u.eip + ofNat 32 6
        + ofNat 32 (Op.add .eax .edi).bytes.length ∧ (∀ r, r ≠ .eax → v.reg r = u.reg r)
      ∧ v.reg .eax = u.reg .eax + u.reg .edi :=
    ⟨_, rfl, rfl, rfl, by intro r hr; exact if_neg hr, rfl⟩
  have h₂ := h₁.next hs hv hmv hipv rfl hreg
  refine ⟨v, _, h₂, ?_⟩
  have hword : u.reg .eax = ofNat 32 (w * heapIndex t m) := by
    apply BitVec.eq_of_toNat_eq
    rw [hax, BitVec.toNat_ofNat]
  rw [haxv, h.edi, hword, BitVec.add_comm]

-- ======== the access

theorem cellByte_add (t : Token) (m : Machine) (k : Nat) :
    cellByte t m k = cellByte t m 0 + ofNat 32 k := by
  unfold cellByte
  rw [Nat.add_zero, BitVec.ofNat_add, BitVec.add_assoc]

theorem Site.Along.inside (h : s.Along t m u (o :: os) q) (hs : s.Compiled t) :
    Inside m.eip (s.code t).length u := by
  have hsize := h.size
  rw [bytesOf_cons, List.length_append] at hsize
  have hpos := bytes_pos o
  exact inside_of h.eip (by omega) hs.length_lt.le

/-- The access covers the cell. -/
theorem Site.Along.covers (h : s.Along t m u (heapOp t :: heapTail t) q)
    (hw : heapWidth t = some (cellWidth t)) (hax : u.reg .eax = cellByte t m 0) :
    Covers u b ↔ InCell t m b := by
  obtain ⟨-, -, hop⟩ := heapWidth_eq hw
  have hacc : access u = some (cellByte t m 0, cellWidth t) := by
    rw [access_codeAt h.code, hop]
    show some (u.reg .eax + 0 + 0, cellWidth t) = _
    rw [hax]
    simp
  constructor
  · rintro ⟨a, ha, k, hk, hb⟩
    rw [hacc] at ha
    cases ha
    exact ⟨k, hk, hb.trans (cellByte_add ..).symm⟩
  · rintro ⟨k, hk, hb⟩
    exact ⟨_, hacc, k, hk, hb.trans (cellByte_add ..)⟩

/-- What a load puts into EAX. -/
theorem load_value (hw : heapWidth t = some (cellWidth t)) (hst : isStore t = false)
    (hmem : u.mem = m.mem) (hax : u.reg .eax = cellByte t m 0) :
    ∃ v, (heapOp t).exec u = some v ∧ Calm (heapOp t).bytes.length u v
      ∧ v.reg .eax = cellValue t m := by
  have hea : u.reg .eax + 0 + 0 = cellByte t m 0 := by simp [hax]
  have h8 : u.mem (u.reg .eax + 0 + 0) = m.mem (cellByte t m 0) := by rw [hea, hmem]
  have h16 : u.mem.load16 (u.reg .eax + 0 + 0)
      = ofLe16 (m.mem (cellByte t m 0)) (m.mem (cellByte t m 1)) := by
    rw [hea, hmem, cellByte_add t m 1]
    rfl
  have h32 : u.mem.load32 (u.reg .eax + 0 + 0)
      = ofLe (m.mem (cellByte t m 0)) (m.mem (cellByte t m 1))
        (m.mem (cellByte t m 2)) (m.mem (cellByte t m 3)) := by
    rw [hea, hmem, cellByte_add t m 1, cellByte_add t m 2, cellByte_add t m 3]
    rfl
  obtain ⟨v, hv, hval⟩ : ∃ v, (heapOp t).exec u = some v ∧ v.reg .eax = cellValue t m := by
    cases t
    case iLd32 => exact ⟨_, rfl, h32⟩
    case iLd16S => exact ⟨_, rfl, congrArg (BitVec.signExtend 32) h16⟩
    case iLd16U => exact ⟨_, rfl, congrArg (BitVec.setWidth 32) h16⟩
    case iLd8S => exact ⟨_, rfl, congrArg (BitVec.signExtend 32) h8⟩
    case iLd8U => exact ⟨_, rfl, congrArg (BitVec.setWidth 32) h8⟩
    case str32 | str8 => cases hst
    all_goals cases hw
  refine ⟨v, hv, Op.exec_calm ?_ hv, hval⟩
  cases t <;> first | rfl | cases hst; done | cases hw

/-- What a store leaves in memory. -/
theorem store_effect (hw : heapWidth t = some (cellWidth t)) (hst : isStore t = true)
    (hax : u.reg .eax = cellByte t m 0) : ∃ v, (heapOp t).exec u = some v
      ∧ v.eip = u.eip + ofNat 32 (heapOp t).bytes.length ∧ (∀ r, v.reg r = u.reg r)
      ∧ (∀ k, k < cellWidth t → v.mem (cellByte t m k) = byteOf (u.reg .ebx) k)
      ∧ ∀ x, ¬ InCell t m x → v.mem x = u.mem x := by
  have hea : u.reg .eax + 0 + 0 = cellByte t m 0 := by simp [hax]
  cases t
  case str32 =>
    refine ⟨_, rfl, rfl, fun _ => rfl, fun k hk => ?_, fun x hx => ?_⟩
    · show u.mem.store32 (u.reg .eax + 0 + 0) (u.reg .ebx) _ = _
      have hk : k < 4 := hk
      rw [hea, cellByte_add _ _ k]
      generalize cellByte .str32 m 0 = a
      unfold Mem.store32
      interval_cases k <;> simp
    · show u.mem.store32 (u.reg .eax + 0 + 0) (u.reg .ebx) x = _
      rw [hea]
      refine store32_other (not_lt.1 fun hlt => hx ⟨_, hlt, ?_⟩)
      rw [cellByte_add, BitVec.ofNat_toNat, BitVec.setWidth_eq]
      grind
  case str8 =>
    refine ⟨_, rfl, rfl, fun _ => rfl, fun k hk => ?_, fun x hx => ?_⟩
    · show u.mem.store8 (u.reg .eax + 0 + 0) (byteOf (u.reg .ebx) 0) _ = _
      obtain rfl : k = 0 := Nat.lt_one_iff.1 hk
      rw [hea]
      exact if_pos rfl
    · show u.mem.store8 (u.reg .eax + 0 + 0) (byteOf (u.reg .ebx) 0) x = _
      rw [hea]
      refine if_neg fun hx0 => hx ⟨0, Nat.one_pos, hx0⟩
  case iLd32 | iLd16S | iLd16U | iLd8S | iLd8U => cases hst
  all_goals cases hw

theorem heap_load_shape (hst : isStore t = false) :
    heapTail t = [.push .eax .stkh] ∧ (heapPops t).length = 1 := by
  cases t <;> first | exact ⟨rfl, rfl⟩ | cases hst

theorem heap_store_shape (hw : heapWidth t = some w) (hst : isStore t = true) :
    heapTail t = [] ∧ (heapPops t).length = 2 := by
  cases t <;> first | exact ⟨rfl, rfl⟩ | cases hst; done | cases hw

/-- A load, from in front of the access. -/
theorem load_exact (hs : s.Compiled t) (hw : heapWidth t = some (cellWidth t))
    (hst : isStore t = false) (h : s.Along t m u (heapOp t :: heapTail t) q)
    (hax : u.reg .eax = cellByte t m 0) : (∀ b, s.Reaches t m b ↔ InCell t m b)
      ∧ ∃ m', s.Gets t m m' ∧ Replaces 1 (cellValue t m) (s.code t).length m m' := by
  obtain ⟨htail, hpops⟩ := heap_load_shape hst
  obtain ⟨v, hv, hcalm, hval⟩ := load_value hw hst h.mem hax
  have hstep := h.code.step.trans hv
  have hcv : CodeAt v.mem v.eip [.push .eax .stkh] := by
    rw [hcalm.mem, hcalm.eip, ← htail]
    exact h.code.tail
  have hpush : (Op.push .eax .stkh).bytes.length = 1 := rfl
  have hsize := h.size
  rw [htail, bytesOf_cons, List.length_append, bytesOf_cons, List.length_append, hpush] at hsize
  have hnil : (bytesOf []).length = 0 := rfl
  have hatv : v.eip = m.eip + ofNat 32 (q + (heapOp t).bytes.length) := by
    rw [hcalm.eip, h.eip, BitVec.add_assoc, ← BitVec.ofNat_add]
  have hinv : Inside m.eip (s.code t).length v := inside_of hatv (by omega) hs.length_lt.le
  obtain ⟨m', hm'⟩ : ∃ m', (Op.push .eax .stkh).exec v = some m' := ⟨_, rfl⟩
  have hend : v.eip + 1 = m.eip + ofNat 32 (s.code t).length := by
    rw [← hsize, hatv, hnil, Nat.add_zero, ← Nat.add_assoc, BitVec.ofNat_add _ 1, BitVec.add_assoc]
    rfl
  have hrep : Replaces 1 (v.reg .eax) (s.code t).length m m' := by
    refine replaces_push (hcalm.mem.trans h.mem) hend (hcalm.esp.trans ?_)
      (hcalm.ebp.trans h.ebp) (hcalm.esi.trans h.esi) (hcalm.edi.trans h.edi) hm'
    rw [h.esp, hpops]
  have hlast := hcv.step.trans hm'
  constructor
  · intro b
    rw [h.reach, reaches_step (h.inside hs) hstep, reaches_step hinv hlast,
      or_iff_right (covers_none hcv rfl),
      or_iff_left (not_reaches (outside_of hrep.eip hs.length_lt)), h.covers hw hax]
  · rw [hval] at hrep
    exact ⟨m', h.gets _ ((gets_refl.head hinv hlast).head (h.inside hs) hstep), hrep⟩

/-- A store, from in front of the access. -/
theorem store_exact (hs : s.Compiled t) (hw : heapWidth t = some (cellWidth t))
    (hst : isStore t = true) (h : s.Along t m u (heapOp t :: heapTail t) q)
    (hax : u.reg .eax = cellByte t m 0) : (∀ b, s.Reaches t m b ↔ InCell t m b)
      ∧ ∃ m', s.Gets t m m' ∧ Stored t (s.code t).length m m' := by
  obtain ⟨htail, hpops⟩ := heap_store_shape hw hst
  obtain ⟨v, hv, heip, hreg, hcell, hrest⟩ := store_effect hw hst hax
  have hstep := h.code.step.trans hv
  have hsize := h.size
  rw [htail, bytesOf_cons, List.length_append] at hsize
  have hend : v.eip = m.eip + ofNat 32 (s.code t).length := by
    rw [← hsize, heip, h.eip, BitVec.add_assoc, ← BitVec.ofNat_add]
    rfl
  constructor
  · intro b
    rw [h.reach, reaches_step (h.inside hs) hstep,
      or_iff_left (not_reaches (outside_of hend hs.length_lt)), h.covers hw hax]
  · refine ⟨v, h.gets _ (gets_refl.head (h.inside hs) hstep), hend, ?_, ?_, ?_,
      (hreg _).trans h.ebp, (hreg _).trans h.esi, (hreg _).trans h.edi⟩
    · rw [hreg, h.esp, hpops]
      rfl
    · intro k hk
      rw [hcell k hk, h.ebx htail]
    · intro x hx
      rw [hrest x hx, h.mem]

-- ======== the results

theorem cellWidth_pos (t : Token) : 0 < cellWidth t := by
  cases t <;> decide

/-- One access: the code is exact under the condition and under no
other. -/
theorem exact_iff (ht : t ∈ heapTokens) (hs : s.Compiled t)
    (hcode : BytesAt m.mem m.eip (s.code t)) : s.Exact t m ↔ Checked t m := by
  have hpos := cellWidth_pos t
  by_cases hne : t = .str16
  · -- no code: the cell is not accessed, and nothing jumps
    subst hne
    have hempty : s.code .str16 = bytesOf [] := site_code_fixed rfl
    refine iff_of_false (fun h => ?_) fun h => h.1 rfl
    have hout : ¬ Inside m.eip (s.code .str16).length m := by
      rw [hempty]
      exact Nat.not_lt_zero _
    by_cases hfit : CellFits .str16 m
    · exact not_reaches hout ((h.reach hfit _).2 ⟨0, hpos, rfl⟩)
    · obtain ⟨-, m', ⟨n, hn⟩, heip, -⟩ := h.trap hfit
      cases n with
      | zero =>
        cases hn
        have hstart := hs.start
        have hfits := hs.fits
        unfold Site.trapExit at heip
        have hpos : ofNat 32 s.buf.length = ofNat 32 trapretPos := by
          grind
        have hnat := congrArg BitVec.toNat hpos
        rw [BitVec.toNat_ofNat, BitVec.toNat_ofNat] at hnat
        unfold startPos at hstart
        unfold trapretPos at hnat
        omega
      | succ n =>
        have hn : (stepIn m.eip (s.code .str16).length m).bind _ = some m' := hn
        rw [show stepIn m.eip (s.code .str16).length m = none from if_neg hout] at hn
        cases hn
  · have hw := heapWidth_cell ht hne
    by_cases hlt : cellFirst t m % 2 ^ 32 < (m.reg .esi).toNat
    · obtain ⟨u, q, h, hax⟩ := heap_passes hs hw hcode hlt
      have hax : u.reg .eax = cellByte t m 0 := hax
      have hreach : ∀ b, s.Reaches t m b ↔ InCell t m b := by
        cases hst : isStore t with
        | false => exact (load_exact hs hw hst h hax).1
        | true => exact (store_exact hs hw hst h hax).1
      constructor
      · intro hexact
        refine ⟨hne, Or.inl ?_⟩
        by_contra hfit
        exact (hexact.trap hfit).1 _ ((hreach _).2 ⟨0, hpos, rfl⟩)
      · rintro ⟨-, hfit | hle⟩
        · exact ⟨fun _ => hreach, fun _ hst => (load_exact hs hw hst h hax).2,
            fun _ hst => (store_exact hs hw hst h hax).2, fun hno => absurd hfit hno⟩
        · omega
    · have hle : (m.reg .esi).toNat ≤ cellFirst t m % 2 ^ 32 := not_lt.1 hlt
      have hno : ¬ CellFits t m := by
        unfold CellFits
        have := Nat.mod_le (cellFirst t m) (2 ^ 32)
        omega
      refine iff_of_true ?_ ⟨hne, Or.inr hle⟩
      exact ⟨fun hf => absurd hf hno, fun hf => absurd hf hno, fun hf => absurd hf hno,
        fun _ => heap_traps hs hw hcode hle⟩

/-- Cells in the heap have a byte in common only when they are one. -/
theorem InCell.index_eq {m₁ m₂ : Machine} (h₁ : InCell t m₁ b) (h₂ : InCell t m₂ b)
    (hf₁ : CellFits t m₁) (hf₂ : CellFits t m₂) (hedi : m₁.reg .edi = m₂.reg .edi) :
    heapIndex t m₁ = heapIndex t m₂ := by
  obtain ⟨k1, hk1, rfl⟩ := h₁
  obtain ⟨k2, hk2, heq⟩ := h₂
  unfold cellByte at heq
  rw [hedi] at heq
  have hoff : ofNat 32 (cellFirst t m₁ + k1) = ofNat 32 (cellFirst t m₂ + k2) := by
    grind
  have hnat := congrArg BitVec.toNat hoff
  have hlt1 := (m₁.reg .esi).isLt
  have hlt2 := (m₂.reg .esi).isLt
  unfold CellFits at hf₁ hf₂
  rw [BitVec.toNat_ofNat, BitVec.toNat_ofNat, Nat.mod_eq_of_lt (by omega),
    Nat.mod_eq_of_lt (by omega)] at hnat
  unfold cellFirst at hnat
  have hdiv := congrArg (· / cellWidth t) hnat
  simpa [Nat.mul_add_div (cellWidth_pos t), Nat.div_eq_of_lt hk1, Nat.div_eq_of_lt hk2] using hdiv

/-- An exact access that reaches a byte reaches one of a cell in the
heap. -/
theorem Site.Exact.cell (h : s.Exact t m) (hb : s.Reaches t m b) : CellFits t m ∧ InCell t m b := by
  by_cases hfit : CellFits t m
  · exact ⟨hfit, (h.reach hfit b).1 hb⟩
  · exact absurd hb ((h.trap hfit).1 b)

/-- Two accesses by one opcode, anywhere in a program, in any states and to
a heap at one place: both are exact, and with different indices have no
byte in common, if and only if both meet the condition. -/
theorem heap_addressing_exact_iff (s₁ s₂ : Site) (t : Token) (m₁ m₂ : Machine)
    (ht : t ∈ heapTokens) (hs₁ : s₁.Compiled t) (hs₂ : s₂.Compiled t)
    (hcode₁ : BytesAt m₁.mem m₁.eip (s₁.code t))
    (hcode₂ : BytesAt m₂.mem m₂.eip (s₂.code t))
    (hedi : m₁.reg .edi = m₂.reg .edi) :
    (s₁.Exact t m₁ ∧ s₂.Exact t m₂
      ∧ (heapIndex t m₁ ≠ heapIndex t m₂ →
        ∀ b, s₁.Reaches t m₁ b → ¬ s₂.Reaches t m₂ b))
      ↔ Checked t m₁ ∧ Checked t m₂ := by
  rw [← exact_iff ht hs₁ hcode₁, ← exact_iff ht hs₂ hcode₂]
  constructor
  · rintro ⟨h₁, h₂, -⟩
    exact ⟨h₁, h₂⟩
  · rintro ⟨h₁, h₂⟩
    refine ⟨h₁, h₂, fun hne b hb₁ hb₂ => hne ?_⟩
    obtain ⟨hf₁, hc₁⟩ := h₁.cell hb₁
    obtain ⟨hf₂, hc₂⟩ := h₂.cell hb₂
    exact hc₁.index_eq hc₂ hf₁ hf₂ hedi

/-- The site of the first token of a program whose first function has no
locals. -/
def startSite : Site := ⟨0, ofNat 32 trapretPos, bytesOf (headerOps 0), 0⟩

/-- A machine about to execute the code of a token, with the stack at 4096
and a heap of `size` bytes there too: the heap starts with the operands. -/
def heapMachine (t : Token) (stack : List Word) (size : Word) : Machine :=
  { operatorMachine startSite t stack with
    reg := fun r => match r with
      | .esp | .edi => 4096
      | .esi => size
      | _ => 0 }

theorem startSite_compiled (h : (startSite.code t).length ≤ 4096) : startSite.Compiled t := by
  have hlen : startSite.buf.length = 94 := by decide +kernel
  refine ⟨rfl, rfl, hlen.ge, ?_⟩
  omega

theorem heap_addressing_exact_iff_ld32 :
    (startSite.Exact .iLd32 (heapMachine .iLd32 [2] 12)
      ∧ startSite.Exact .iLd32 (heapMachine .iLd32 [3] 12)
      ∧ (heapIndex .iLd32 (heapMachine .iLd32 [2] 12)
          ≠ heapIndex .iLd32 (heapMachine .iLd32 [3] 12) →
        ∀ b, startSite.Reaches .iLd32 (heapMachine .iLd32 [2] 12) b →
          ¬ startSite.Reaches .iLd32 (heapMachine .iLd32 [3] 12) b))
      ↔ Checked .iLd32 (heapMachine .iLd32 [2] 12)
        ∧ Checked .iLd32 (heapMachine .iLd32 [3] 12) :=
  heap_addressing_exact_iff startSite startSite .iLd32 _ _ (by decide)
    (startSite_compiled (by decide +kernel)) (startSite_compiled (by decide +kernel))
    (bytesAt_operatorMachine (by decide +kernel))
    (bytesAt_operatorMachine (by decide +kernel)) rfl

/-- `i_ld32` of index 3 in a heap of 13 bytes and of index `2 ^ 30` in one
of 16 push a word, the second the word of index 0, where they should trap;
`str16` leaves its operands where they are. -/
theorem heap_addressing_inexact :
    (¬ CellFits .iLd32 (heapMachine .iLd32 [3] 13)
        ∧ (runN X86.step 7 (heapMachine .iLd32 [3] 13)).map
            (fun m => (m.eip, m.reg .esp))
          = some (ofNat 32 (startSite.code .iLd32).length, 4096))
      ∧ (¬ CellFits .iLd32 (heapMachine .iLd32 [0x40000000, 7] 16)
        ∧ (runN X86.step 7 (heapMachine .iLd32 [0x40000000, 7] 16)).map
            (fun m => (m.eip, m.reg .esp, stackWord m 0))
          = some (ofNat 32 (startSite.code .iLd32).length, 4096, 0x40000000))
      ∧ startSite.code .str16 = []
      ∧ ¬ startSite.Exact .iLd32 (heapMachine .iLd32 [3] 13)
      ∧ ¬ startSite.Exact .iLd32 (heapMachine .iLd32 [0x40000000, 7] 16)
      ∧ ¬ startSite.Exact .str16 (heapMachine .str16 [5, 0] 16) := by
  have hnot : ∀ t st size, t ∈ heapTokens → (startSite.code t).length ≤ 4096 →
      ¬ Checked t (heapMachine t st size) → ¬ startSite.Exact t (heapMachine t st size) := by
    intro t st size ht hlen hchk hexact
    have hcode : BytesAt (heapMachine t st size).mem (heapMachine t st size).eip
        (startSite.code t) :=
      bytesAt_operatorMachine hlen
    exact hchk ((exact_iff ht (startSite_compiled hlen) hcode).1 hexact)
  refine ⟨by decide +kernel, by decide +kernel, by decide +kernel,
    hnot _ _ _ (by decide) ?_ ?_, hnot _ _ _ (by decide) ?_ ?_,
    hnot _ _ _ (by decide) ?_ ?_⟩ <;> decide +kernel

-- ======== the compiler's sites

/-- What a round of the compiler appends for a heap access is the code of
a site, and the site is one of those above. -/
theorem asmAt_site {prog : List Byte} {cap k : Nat} {a a' : AsmState} {c : Byte}
    (hcap : cap ≤ 2 ^ 32) (h : asmAt prog 0 cap k = .ok a)
    (h' : asmAt prog 0 cap (k + 1) = .ok a') (hb : prog[a.place]? = some c)
    (hc : Token.ofByte c = some t) (ht : t ∈ heapTokens) :
    ∃ s : Site, s.Compiled t ∧ s.buf = a.buf ∧ a'.buf = a.buf ++ s.code t := by
  obtain ⟨g, hg, h⟩ := bind_eq_ok.1 h
  obtain ⟨⟨g1, code1⟩, h₁, h⟩ := bind_eq_ok.1 h
  obtain ⟨g', hg', h'⟩ := bind_eq_ok.1 h'
  obtain rfl := Except.ok.inj (hg.symm.trans hg')
  obtain ⟨⟨g2, code2⟩, h₂, h'⟩ := bind_eq_ok.1 h'
  obtain rfl := (Prod.mk.inj (Except.ok.inj (h₁.symm.trans h₂))).1
  have htrap : (header 0 g1).2.trapretAddr = ofNat 32 trapretPos := by
    rw [header_eq]
  have hround := iterate_step h h'
  rw [htrap] at hround
  have hstart : startPos ≤ a.buf.length := by
    have hpre := rounds_grows h
    unfold passInit at hpre
    have := hpre.length_le
    rwa [header_length] at this
  unfold asmStep at hround
  simp only [hb, hc] at hround
  have hemit : emit 0 cap (plainItems (ofNat 32 trapretPos) t)
      { a with place := a.place + 1 } = .ok a' := by
    fin_cases ht <;> exact hround
  obtain ⟨_, hfit, hemit⟩ := bind_eq_ok.1 hemit
  cases hemit
  have happ : (assemble 0 (plainItems (ofNat 32 trapretPos) t) (a.buf, a.stkh)).1
      = a.buf ++ Site.code ⟨0, ofNat 32 trapretPos, a.buf, a.stkh⟩ t := by
    unfold Site.code
    rw [assemble_eq (uniform_plainItems _ _), List.drop_left]
  refine ⟨⟨0, ofNat 32 trapretPos, a.buf, a.stkh⟩, ⟨rfl, rfl, hstart, ?_⟩, rfl, happ⟩
  rw [inRange_decide] at hfit
  dsimp only at hfit
  rw [happ, List.length_append] at hfit
  exact hfit.trans hcap

end Xv6Sume32.Asm
