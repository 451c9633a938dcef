/-
When the compiler stays inside its tables.

`verify` bounds the nesting of blocks and the number of functions, and
with them `cur_blk_stk`, `fn_infos` and the type lists. Two tables it does
not bound: `blk_infos` has an entry for every block, loop and function of
the program, however they are nested, and the output buffer takes the code
of the whole program. `compile_in_bounds_iff` says that these are the only
two, and how long the code is (`codeLen`).
-/
import Xv6Sume32.Asm.Proofs.Passes

namespace Xv6Sume32.Asm

open Lib X86 Sume

-- ======== lengths

/-- The length of the code of instruction `k`. -/
def codeLen (ts : List Sume.Instr) (k : Nat) (i : Sume.Instr) : Nat :=
  match i.token with
  | .iPopcnt | .str16 | .block | .loop | .vDeclfn | .iDeclfn => 0
  | .iMemsz => 1
  | .iAdd | .iAnd | .iMul | .iOr | .iSub | .iXor | .trap => 5
  | .iConst | .iClz | .iCtz => 6
  | .iDivS | .iDivU | .iRemS | .iRemU | .iRotl | .iRotr | .iShl | .iShrS
  | .iShrU | .getL | .setL => 7
  | .iEqz => 9
  | .iEq | .iGeS | .iGeU | .iGtS | .iGtU | .iLeS | .iLeU | .iLtS | .iLtU
  | .iNe => 10
  | .br => 11
  | .str8 => 14
  | .iLd8S | .iLd8U => 15
  | .iLd32 | .str32 => 17
  | .iLd16S | .iLd16U => 18
  | .brIf => 20
  -- a block's end drops operands, a function's does not
  | .end_ => if (openAt ts k).length ≤ 1 then 0 else 6
  | .ret => (fnSig ts k).elim 0 fun g => if g.rt ≠ 0 then 4 else 3
  | .call => (sigNum (sigsOf ts) i.arg.toInt).elim 0 fun f =>
      if f.rt ≠ 0 then 28 else 27

/-- The length of the code in front of instruction `k`. -/
def codeSize (ts : List Sume.Instr) : Nat → Nat
  | 0 => startPos
  | k + 1 => codeSize ts k + (ts[k]?).elim 0 (codeLen ts k)

variable {prog : List Byte} {ts : List Sume.Instr} {slot : Int}

theorem size_codeLen (hacc : Accepted prog slot ts) {k : Nat}
    {i : Sume.Instr} (hi : ts[k]? = some i) :
    size (tokenItems ⟨0, fun _ => 0, fun _ => 0⟩ ts k (track ts k) i)
      = codeLen ts k i := by
  by_cases hp : plainToken i.token = true
  · rw [tokenItems_plain hp]
    unfold codeLen
    cases ht : i.token <;> rw [ht] at hp <;> first | rfl | cases hp
  unfold tokenItems codeLen
  cases ht : i.token <;> rw [ht] at hp <;> try exact absurd rfl hp
  case iConst | block | loop | vDeclfn | iDeclfn => rfl
  case getL | setL =>
    obtain ⟨-, g, hg⟩ := accepted_fnSig hacc hi (by rw [ht]; rfl)
    simp only [hg]
    rfl
  case ret =>
    obtain ⟨-, g, hg⟩ := accepted_fnSig hacc hi (by rw [ht]; rfl)
    simp only [hg]
    show _ = if g.rt ≠ 0 then 4 else 3
    unfold retItems
    split <;> rfl
  case br | brIf =>
    obtain ⟨j, i', -, hj, -⟩ := accepted_label hacc hi (by simp [ht])
    simp only [hj]
    rfl
  case call =>
    obtain ⟨f, hf⟩ := accepted_callee hacc hi ht
    simp only [hf]
    show _ = if f.rt ≠ 0 then 28 else 27
    unfold returnItems
    split <;> rfl
  case end_ =>
    have hts := track_hts ts k
    match hop : openAt ts k with
    | [] =>
      rw [hop] at hts
      simp only [hts]
      rfl
    | [a] =>
      rw [hop] at hts
      simp only [hts]
      rfl
    | a :: b :: rest =>
      rw [hop] at hts
      simp only [hts]
      rfl

theorem pos_eq_codeSize (hacc : Accepted prog slot ts) :
    ∀ k, k ≤ ts.length → pos ts k = codeSize ts k := by
  intro k
  induction k with
  | zero => exact fun _ => rfl
  | succ k ih =>
    intro hk
    have hi : ts[k]? = some ts[k] := List.getElem?_eq_getElem hk
    rw [pos_succ hi ⟨0, fun _ => 0, fun _ => 0⟩, ih (by omega), size_codeLen hacc hi]
    show _ = codeSize ts k + (ts[k]?).elim 0 (codeLen ts k)
    rw [hi]
    rfl

-- ======== the runs

section Runs

variable {cap : Nat}

/-- A run leaves a table only where there is no room. -/
theorem populateInfos_within {gen : Bool} {g : Globals} {x : Res (Globals × List Byte)}
    (hacc : Accepted prog slot ts) (hcap : cap < 2 ^ 32) (hinfo : Listed ts g.fns)
    (htab : gen = false → Tables ts ts.length g.fns g.blks)
    (hx : populateInfos prog 0 cap gen g = x) :
    Within (Room ts cap)
      (fun r => Listed ts r.1.fns ∧ Tables ts ts.length r.1.fns r.1.blks) x := by
  have hlen := header_length g
  have htrap : (header 0 g).2.trapretAddr = BitVec.ofNat 32 trapretPos := by
    rw [header_eq]
  unfold populateInfos at hx
  -- the checks are about the header's length and address, not its bytes
  generalize header 0 g = h at hx hlen htrap
  have hstep : ∀ k t i, PassRep prog cap gen ts k t → ts[k]? = some i →
      Within (Room ts cap) (PassRep prog cap gen ts (k + 1))
        (asmStep prog 0 cap gen h.2.trapretAddr t) := by
    intro k t i hrep hi
    rw [htrap]
    exact (asmStep_within hacc hcap hrep hi).imp (fun _ => id) fun _ => Next.rep
  rw [← hx]
  refine (within_inRange fun hr => ?_).bind fun _ hc => ?_
  · rw [hlen]
    exact Nat.le_trans (startPos_le ts _) hr.2
  · rw [hlen] at hc
    refine (whileLt_tokens_ends (fun k t ht => PassRep.scan ht) hstep
      (PassRep.init hacc.scans hc hinfo htab) hacc.scans.fuel).bind fun s hrep => ?_
    exact ⟨hrep.info, by simpa using hrep.tables⟩

theorem toAsm_within {x : Res (List Byte)} (hacc : Accepted prog slot ts) (hcap : cap < 2 ^ 32)
    (hx : toAsm prog 0 cap = x) : Within (Room ts cap) (fun _ => True) x := by
  obtain ⟨fs, hfs⟩ := asmPopulateFns_ok hacc.scans hacc.fns
  have hg : globalsInit prog = .ok _ := bind_eq_ok.2 ⟨fs, hfs, rfl⟩
  exact .bind_eq (P := fun g => globalsInit prog = .ok g) hx (fun h => by rw [← h, hg]; rfl)
    fun g hg _ hx => .bind_eq hx (populateInfos_within hacc hcap
        (fun n f => globalsInit_info hacc.scans hg) nofun)
      fun r hr _ hx => .bind_eq hx (populateInfos_within hacc hcap hr.1 fun _ => hr.2)
        fun _ _ _ hx => hx ▸ trivial

/-- The compiler finishes when its output fits and every block has an
entry. -/
theorem toAsm_ok (hacc : Accepted prog slot ts) (hcap : cap < 2 ^ 32)
    (hblk : opensBefore ts ts.length ≤ 256) (hfit : pos ts ts.length ≤ cap) :
    ∃ code, toAsm prog 0 cap = .ok code := by
  cases hasm : toAsm prog 0 cap with
  | ok code => exact ⟨code, rfl⟩
  | error e => exact absurd ⟨hblk, hfit⟩ (toAsm_within hacc hcap hasm).2

/-- What a compiler run that finishes needed. -/
theorem toAsm_needs {code : List Byte} (hacc : Accepted prog slot ts)
    (hcap : cap < 2 ^ 32) (h : toAsm prog 0 cap = .ok code) :
    opensBefore ts ts.length ≤ 256 ∧ pos ts ts.length ≤ cap := by
  have hall := toAsm_states hacc hcap h
  constructor
  · have hopens : ∀ k, k ≤ ts.length → opensBefore ts k ≤ 256 := by
      intro k
      induction k with
      | zero => exact fun _ => Nat.zero_le _
      | succ k ih =>
        intro hk
        have hi : ts[k]? = some ts[k] := List.getElem?_eq_getElem hk
        by_cases ho : ts[k].token.opens = true
        · obtain ⟨s, -, hs, -, hrep, -⟩ := hall k (by omega)
          obtain ⟨s', -, hs', -, -, -⟩ := hall (k + 1) hk
          obtain ⟨g, hg, hs⟩ := bind_eq_ok.1 hs
          obtain ⟨g', hg', hs'⟩ := bind_eq_ok.1 hs'
          obtain rfl : g = g' := Except.ok.inj (hg.symm.trans hg')
          have hstep := iterate_step hs hs'
          rw [header_eq] at hstep
          exact (asmStep_rep hacc hcap hrep hi hstep).entry rfl ho
        · rw [opensBefore_succ hi, if_neg ho]
          exact ih (by omega)
    exact hopens ts.length (Nat.le_refl _)
  · obtain ⟨s, -, -, -, hrep, -⟩ := hall ts.length (Nat.le_refl _)
    rw [← hrep.len]
    exact hrep.fits

end Runs

/-- A program needs at most so many entries and bytes. -/
def Fits (ts : List Sume.Instr) : Prop :=
  opensBefore ts ts.length ≤ 256 ∧ codeSize ts ts.length ≤ 4096

instance (ts : List Sume.Instr) : Decidable (Fits ts) :=
  inferInstanceAs (Decidable (_ ∧ _))

/-- What does not fit leaves a table. -/
theorem toAsm_undefined (hacc : Accepted prog slot ts) (h : ¬ Fits ts) :
    toAsm prog 0 4096 = .error .undefined := by
  cases hasm : toAsm prog 0 4096 with
  | ok code =>
    obtain ⟨hblk, hfit⟩ := toAsm_needs hacc (by decide) hasm
    rw [pos_eq_codeSize hacc _ (Nat.le_refl _)] at hfit
    exact absurd ⟨hblk, hfit⟩ h
  | error e =>
    rw [(toAsm_within hacc (by decide) hasm).1]

/-- Compiling an accepted program into the 4096-byte buffer leaves no
table, if and only if there are at most 256 blocks, loops and functions
and the code is at most 4096 bytes long. -/
theorem compile_in_bounds_iff (h : Accepts prog slot) :
    ∃ ts, Sume.decode prog = .ok ts
      ∧ (toAsm prog 0 4096 ≠ .error .undefined
        ↔ opensBefore ts ts.length ≤ 256 ∧ codeSize ts ts.length ≤ 4096) := by
  obtain ⟨ts, hacc⟩ := h.accepted
  refine ⟨ts, hacc.decode, fun hne => ?_, fun ⟨hblk, hfit⟩ => ?_⟩
  · by_contra hfits
    exact hne (toAsm_undefined hacc hfits)
  · rw [← pos_eq_codeSize hacc _ (Nat.le_refl _)] at hfit
    obtain ⟨code, hcode⟩ := toAsm_ok hacc (by decide) hblk hfit
    rw [hcode]
    exact fun h => by cases h

/-- The program `v_declfn () () trap end`. -/
theorem compile_in_bounds_iff_trap :
    ∃ ts, Sume.decode [0x31, 0, 0, 0x29, 0x2f] = .ok ts
      ∧ Accepts [0x31, 0, 0, 0x29, 0x2f] 0
      ∧ (toAsm [0x31, 0, 0, 0x29, 0x2f] 0 4096 ≠ .error .undefined
        ↔ opensBefore ts ts.length ≤ 256 ∧ codeSize ts ts.length ≤ 4096) := by
  have hacc : Accepts [0x31, 0, 0, 0x29, 0x2f] 0 := ⟨_, rfl⟩
  obtain ⟨ts, hts, hiff⟩ := compile_in_bounds_iff hacc
  exact ⟨ts, hts, hacc, hiff⟩

/-- A function that loads 223 times. -/
def longCode : List Byte :=
  [0x31, 0, 0, 0x23] ++ List.replicate 223 0x1f ++ [0x2f]

/-- An accepted program whose code is longer than the buffer. -/
theorem accepted_out_of_bounds :
    Accepts longCode 0 ∧ toAsm longCode 0 4096 = .error .undefined := by
  have hlong : Accepts longCode 0 :=
    exists_ok (x := verify longCode 0) (by decide +kernel)
  have hno : (match Sume.decode longCode with
      | .ok ts => decide (Fits ts) | .error _ => true) = false := by
    decide +kernel
  obtain ⟨ts, hacc⟩ := hlong.accepted
  rw [hacc.decode] at hno
  exact ⟨hlong, toAsm_undefined hacc (of_decide_eq_false hno)⟩

end Xv6Sume32.Asm
