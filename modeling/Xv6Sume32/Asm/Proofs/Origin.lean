/-
The compiled code and `base_addr`.

A displacement is the difference of two addresses, so `base_addr` drops
out where it was added to both. Calls of functions and branches to
blocks are of this kind: the addresses of the tables are recorded with
the base. `start_addr` and `trapret_addr` are recorded without it, and
the displacements of the prelude's call, of the bounds checks and of
`trap` are too small by the base.

Every code has the prelude in front and its call at the same place
(`toAsm_call`), so no two bases give the same code
(`base_independent_iff`).
-/
import Xv6Sume32.Asm.Proofs.Passes

namespace Xv6Sume32.Asm

open Lib X86 Sume

variable {prog : List Byte} {base : Word} {cap : Nat}

variable {items : List Item} {s s' : AsmState} {gen : Bool} {w : Word}

-- ======== the buffer only grows

theorem assemble_grows :
    ∀ {buf : List Byte} {h : Int}, buf <+: (assemble base items (buf, h)).1 := by
  induction items with
  | nil => exact List.prefix_rfl
  | cons it items ih => exact (List.prefix_append _ _).trans ih

theorem emit_grows (h : emit base cap items s = .ok s') : s.buf <+: s'.buf := by
  obtain ⟨-, -, h⟩ := bind_eq_ok.1 h
  cases h
  exact assemble_grows

theorem openBlk_buf (h : s.openBlk = .ok s') : s'.buf = s.buf := by
  rw [openBlk_inv h]

theorem record_buf {info : BlkInfo} (h : s.record gen info = .ok s') : s'.buf = s.buf := by
  rw [record_inv h]

theorem endCase_grows (h : endCase base cap gen s = .ok s') : s.buf <+: s'.buf := by
  unfold endCase at h
  split at h
  · obtain ⟨own, -, h⟩ := bind_eq_ok.1 h
    obtain ⟨parent, -, h⟩ := bind_eq_ok.1 h
    obtain ⟨s1, hs1, h⟩ := bind_eq_ok.1 h
    have hemit := emit_grows hs1
    cases h
    dsimp only
    split
    · exact hemit
    · exact hemit
  · cases h
    exact List.prefix_rfl

theorem asmCase_grows {t : Token}
    (h : asmCase prog base cap gen w t s = .ok s') : s.buf <+: s'.buf := by
  unfold asmCase at h
  split at h
  case h_2 | h_3 | h_6 | h_7 =>
    obtain ⟨r, -, h⟩ := bind_eq_ok.1 h
    obtain ⟨x, -, h⟩ := bind_eq_ok.1 h
    exact (emit_grows h :)
  case h_4 | h_5 =>
    obtain ⟨s1, hs1, h⟩ := bind_eq_ok.1 h
    rw [record_buf h, openBlk_buf hs1]
  case h_11 | h_12 =>
    obtain ⟨s1, hs1, h⟩ := bind_eq_ok.1 h
    obtain ⟨q, -, h⟩ := bind_eq_ok.1 h
    obtain ⟨q', -, h⟩ := bind_eq_ok.1 h
    obtain ⟨s2, hs2, h⟩ := bind_eq_ok.1 h
    rw [record_buf h, recordFn_inv hs2]
    show s.buf <+: s1.buf
    rw [openBlk_buf hs1]
  · obtain ⟨r, -, h⟩ := bind_eq_ok.1 h
    exact (emit_grows h :)
  · obtain ⟨fn, -, h⟩ := bind_eq_ok.1 h
    exact (emit_grows h :)
  · exact endCase_grows h
  · obtain ⟨r, -, h⟩ := bind_eq_ok.1 h
    obtain ⟨fn, -, h⟩ := bind_eq_ok.1 h
    obtain ⟨s1, hs1, h⟩ := bind_eq_ok.1 h
    have hcall : s.buf <+: s1.buf := (emit_grows hs1 :)
    exact hcall.trans (emit_grows h :)
  · exact emit_grows h

theorem asmStep_grows (h : asmStep prog base cap gen w s = .ok s') : s.buf <+: s'.buf := by
  unfold asmStep at h
  split at h
  · cases h
  · split at h
    · cases h
      exact List.prefix_rfl
    · exact (asmCase_grows h :)

/-- Rounds of the loop append to the buffer. -/
theorem rounds_grows {n : Nat} {s0 : AsmState} :
    ∀ {s : AsmState}, iterate (asmStep prog base cap gen w) n s0 = .ok s → s0.buf <+: s.buf := by
  induction n with
  | zero =>
    intro s h
    cases h
    exact List.prefix_rfl
  | succ n ih =>
    intro s h
    obtain ⟨t, ht, h⟩ := bind_eq_ok.1 h
    exact (ih ht).trans (asmStep_grows h)

/-- What a run writes starts with the code in front of the tokens. -/
theorem populateInfos_grows {g : Globals} {r : Globals × List Byte}
    (h : populateInfos prog base cap gen g = .ok r) :
    (header base g).1 <+: r.2 ∧ r.1.startAddr = BitVec.ofNat 32 startPos := by
  obtain ⟨-, -, h⟩ := bind_eq_ok.1 h
  obtain ⟨s, hs, h⟩ := bind_eq_ok.1 h
  rw [Except.ok.injEq] at h
  rw [← h]
  refine ⟨?_, by rw [header_eq]⟩
  obtain ⟨n, -, hit, -⟩ := whileLt_rounds hs
  have hpre := rounds_grows hit
  unfold passInit at hpre
  exact hpre

-- ======== the prelude's call

/-- Where the prelude calls the first function. -/
def callPos : Nat := 52

/-- The prelude without its call. -/
def beforeCall (localN : Nat) : List Op :=
  [ .push .ebp .nil, .mov .ebp .esp, .push .ebx .nil, .push .esi .nil, .push .edi .nil,
    .movFromDisEbp .edi (8 + 0), .movFromDisEbp .esi (8 + 4), .movFromDisEbp .eax (8 + 8),
    .subImm .eax 4, .mov .ebp .eax, .movAr32 .eax .esp, .mov .esp .eax, .mov .ebp .esp,
    .subImm .esp (BitVec.ofNat 32 (4 * localN)), .push .ebp .nil, .mov .ebp .esp,
    .subImm .ebp 4 ]

theorem prelude_eq (w : Word) (n : Nat) : prelude w n = (beforeCall n).map fixed ++ [call w] := rfl

theorem size_beforeCall (n : Nat) : size ((beforeCall n).map fixed) = callPos := by
  have hall := size_prelude 0 n
  rw [prelude_eq, size_append, size_cons, call_length] at hall
  exact Nat.add_right_cancel hall

theorem resolve_prelude (w : Word) (n : Nat) : resolve base (prelude w n) 0 0
      = resolve base ((beforeCall n).map fixed) 0 0
        ++ [Op.callRel (base + BitVec.ofNat 32 callPos) w] := by
  rw [prelude_eq, resolve_append (uniform_map _), size_beforeCall, Nat.zero_add]
  rfl

/-- The code at the prelude's call. -/
theorem toAsm_call {code : List Byte} (h : toAsm prog base cap = .ok code) :
    (code.drop callPos).take 5
      = (Op.callRel (base + BitVec.ofNat 32 callPos) (BitVec.ofNat 32 startPos)).bytes := by
  obtain ⟨g, -, h⟩ := bind_eq_ok.1 h
  obtain ⟨⟨g1, code1⟩, h1, h⟩ := bind_eq_ok.1 h
  obtain ⟨⟨g2, code2⟩, h2, h⟩ := bind_eq_ok.1 h
  cases h
  have hstart : g1.startAddr = BitVec.ofNat 32 startPos := (populateInfos_grows h1).2
  obtain ⟨rest, hrest⟩ := (populateInfos_grows h2).1
  dsimp only at hrest
  rw [← hrest, header_eq, hstart, resolve_prelude]
  simp only [bytesOf_append, List.append_assoc]
  rw [List.drop_left' (by rw [resolve_length (uniform_map _), size_beforeCall])]
  rfl

/-- Two bases give the same code exactly when they are equal. -/
theorem base_independent_iff {base base' : Word} {cap : Nat} {code code' : List Byte}
    (h : toAsm prog base cap = .ok code) (h' : toAsm prog base' cap = .ok code') :
    code = code' ↔ base = base' := by
  constructor
  · rintro rfl
    have hcall := (toAsm_call h).symm.trans (toAsm_call h')
    have hdisp := leBytes_injective (List.cons.inj hcall).2
    grind
  · rintro rfl
    exact Except.ok.inj (h.symm.trans h')

/-- A function that returns at once. -/
def retProg : List Byte := [0x31, 0, 0, 0x2e, 0x2f]

theorem base_independent_ret :
    ∃ code code', toAsm retProg 0 97 = .ok code ∧ toAsm retProg 0x1000 97 = .ok code'
      ∧ (code = code' ↔ (0 : Word) = 0x1000) := by
  obtain ⟨code, h⟩ : ∃ code, toAsm retProg 0 97 = .ok code := ⟨_, rfl⟩
  obtain ⟨code', h'⟩ : ∃ code', toAsm retProg 0x1000 97 = .ok code' := ⟨_, rfl⟩
  exact ⟨code, code', h, h', base_independent_iff h h'⟩

/-- A verified program, compiled for two places: the codes differ. -/
theorem base_changes_code :
    (verify retProg 0).toOption.isSome = true
      ∧ ∃ code code', toAsm retProg 0 97 = .ok code ∧ toAsm retProg 0x1000 97 = .ok code'
        ∧ code ≠ code' := by
  refine ⟨by decide +kernel, _, _, rfl, rfl, ?_⟩
  decide +kernel

end Xv6Sume32.Asm
