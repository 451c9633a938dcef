/-
Executing emitted code: from the bytes in memory to the operations the
compiler meant.

`CodeAt mem a os` says the operations `os` lie at address `a`. Where they
do, a step of the machine is `Op.exec` of the first one (`CodeAt.step`),
so everything above argues about operations and never about bytes again.

Most operations only compute: they write EAX, EBX, ECX, EDX and the flags
and go on with the next (`Op.quiet`). What a list of those leaves alone is
one record, `Calm`; what it computes is left to evaluation. The others
(pushes and pops, stores, jumps, the moves of ESP and EBP) are stepped
over one by one by the proofs that use them.
-/
import Xv6Sume32.Lib.Run
import Xv6Sume32.Asm.Proofs.Encode
import Xv6Sume32.Asm.Proofs.Passes

namespace Xv6Sume32.Asm

open Lib X86 Sume

variable {ts : List Sume.Instr} {k n : Nat} {i : Sume.Instr} {r : Reg}

-- ======== code in memory

/-- The effect of an operation. -/
def Op.exec (o : Op) (m : Machine) : Option Machine :=
  X86.exec o.instr o.bytes.length m

/-- The effect of operations one after another. -/
def execOps : List Op → Machine → Option Machine
  | [], m => some m
  | o :: os, m => (o.exec m).bind (execOps os)

/-- The operations `os` lie at `a`. -/
def CodeAt (mem : Mem) (a : Word) (os : List Op) : Prop :=
  BytesAt mem a (bytesOf os) ∧ ∀ o ∈ os, o.Plain

variable {mem mem' : Mem} {a : Word} {o : Op} {os ps : List Op}
  {m m' m'' : Machine}

theorem codeAt_append : CodeAt mem a (os ++ ps) ↔ CodeAt mem a os
      ∧ CodeAt mem (a + BitVec.ofNat 32 (bytesOf os).length) ps := by
  unfold CodeAt
  rw [bytesOf_append, bytesAt_append, List.forall_mem_append]
  tauto

theorem CodeAt.tail (h : CodeAt mem a (o :: os)) :
    CodeAt mem (a + BitVec.ofNat 32 o.bytes.length) os := by
  have hsplit := (codeAt_append.1 (show CodeAt mem a ([o] ++ os) from h)).2
  rwa [show bytesOf [o] = o.bytes from List.append_nil _] at hsplit

/-- The machine decodes the first operation. -/
theorem CodeAt.fetch (h : CodeAt m.mem m.eip (o :: os)) :
    decode m.fetch = some (o.instr, o.bytes.length) := by
  have hb : BytesAt m.mem m.eip o.bytes :=
    (bytesAt_append.1 (show BytesAt m.mem m.eip (o.bytes ++ bytesOf os) from h.1)).1
  exact (Op.decodes o (h.2 o (List.mem_cons_self ..))).fetch hb

theorem CodeAt.next (h : CodeAt m.mem m.eip (o :: os)) : m.next = some o.instr := by
  unfold Machine.next
  rw [h.fetch]
  rfl

/-- A step of the machine is the first operation. -/
theorem CodeAt.step (h : CodeAt m.mem m.eip (o :: os)) : step m = o.exec m := by
  unfold X86.step
  rw [h.fetch]
  rfl

-- ======== every item is plain

/-- All encoder calls of a list are plain, wherever they are made. -/
def AllPlain (items : List Item) : Prop :=
  ∀ it ∈ items, ∀ w h, (it w h).Plain

theorem allPlain_cons {it : Item} {items : List Item} :
    AllPlain (it :: items) ↔ (∀ w h, (it w h).Plain) ∧ AllPlain items := by
  unfold AllPlain
  rw [List.forall_mem_cons]

theorem allPlain_append {is js : List Item} : AllPlain (is ++ js) ↔ AllPlain is ∧ AllPlain js := by
  unfold AllPlain
  rw [List.forall_mem_append]

theorem allPlain_nil : AllPlain [] := by
  intro it hit
  cases hit

theorem allPlain_map {os : List Op} (h : ∀ o ∈ os, o.Plain) : AllPlain (os.map fixed) := by
  intro it hit w s
  obtain ⟨o, ho, rfl⟩ := List.mem_map.1 hit
  exact h o ho

theorem AllPlain.resolve {base : Word} : ∀ {items : List Item} {p : Nat} {h : Int},
    AllPlain items → ∀ o ∈ resolve base items p h, o.Plain := by
  intro items
  induction items with
  | nil =>
    intro p h _ o ho
    cases ho
  | cons it items ih =>
    intro p h hp o ho
    obtain ⟨hit, hrest⟩ := allPlain_cons.1 hp
    rcases List.mem_cons.1 ho with rfl | ho
    · exact hit _ _
    · exact ih hrest o ho

theorem allPlain_plainItems (w : Word) (t : Token) : AllPlain (plainItems w t) := by
  have hjae : ∀ a h, (jae w a h).Plain := fun _ _ => trivial
  have hb : ∀ scale access, (∀ o ∈ scale, o.Plain) → access.Plain →
      AllPlain (bounded w scale access) := by
    intro scale access hs ha
    unfold bounded
    simp only [allPlain_append, allPlain_cons]
    exact ⟨allPlain_map hs, fun _ _ => trivial, hjae, fun _ _ => trivial,
      fun _ _ => ha, allPlain_nil⟩
  have hload : ∀ scale access, (∀ o ∈ scale, o.Plain) → access.Plain →
      AllPlain (load w scale access) := by
    intro scale access hs ha
    unfold load
    simp only [allPlain_append, allPlain_cons]
    exact ⟨⟨⟨fun _ _ => trivial, allPlain_nil⟩, hb _ _ hs ha⟩, fun _ _ => trivial, allPlain_nil⟩
  have hstore : ∀ scale access, (∀ o ∈ scale, o.Plain) → access.Plain →
      AllPlain (store w scale access) := by
    intro scale access hs ha
    unfold store
    simp only [allPlain_append, allPlain_cons]
    exact ⟨⟨fun _ _ => trivial, fun _ _ => trivial, allPlain_nil⟩, hb _ _ hs ha⟩
  have hbin : ∀ os r, (∀ o ∈ os, o.Plain) → AllPlain (binary os r) := by
    intro os r h
    unfold binary
    simp only [allPlain_append, allPlain_cons]
    exact ⟨⟨⟨fun _ _ => trivial, fun _ _ => trivial, allPlain_nil⟩,
      allPlain_map h⟩, fun _ _ => trivial, allPlain_nil⟩
  cases t <;>
    first
    | exact hbin _ _ (by decide)
    | exact hload _ _ (by decide) (by decide)
    | exact hstore _ _ (by decide) (by decide)
    | exact allPlain_nil
    | exact allPlain_map (show ∀ o ∈ [Op.push .esi .stkh], o.Plain by decide)
    | exact allPlain_cons.2 ⟨fun _ _ => trivial, allPlain_nil⟩
    | exact allPlain_map (show ∀ o ∈ [Op.pop .eax .stkh, .xor .ecx .ecx,
        .test .eax .eax, .set .e .cl, .push .ecx .stkh], o.Plain by decide)

theorem allPlain_tokenItems (env : Env) (ts : List Sume.Instr) (k : Nat)
    (tr : Track) (i : Sume.Instr) : AllPlain (tokenItems env ts k tr i) := by
  unfold tokenItems
  split
  case h_13 => exact allPlain_plainItems _ _
  case h_10 =>
    split
    · exact allPlain_nil
    · unfold retItems
      split <;> simp [AllPlain, pop, fixed, Op.Plain]
  case h_12 =>
    split
    · exact allPlain_nil
    · unfold callItems returnItems
      split <;> simp [AllPlain, push, pushNil, popNil, call, fixed, Op.Plain]
  all_goals
    first
    | exact allPlain_nil
    | (split <;> simp [AllPlain, pop, push, fixed, dropAll, jmp, Op.Plain])
    | simp [AllPlain, push, fixed, Op.Plain]

theorem codeOf_plain : ∀ o ∈ codeOf ts k i, o.Plain :=
  (allPlain_tokenItems _ _ _ _ _).resolve

/-- The code of instruction `k` in the output. -/
theorem written_split
    (hi : ts[k]? = some i) :
    ∃ post, written ts ts.length
      = written ts k ++ (bytesOf (codeOf ts k i) ++ post) := by
  have hpre : ∀ n, k + 1 ≤ n → ∃ post, written ts n
      = written ts k ++ (bytesOf (codeOf ts k i) ++ post) := by
    intro n hn
    induction hn with
    | refl => exact ⟨[], by rw [written_succ hi, List.append_nil]⟩
    | @step m hm ih =>
      obtain ⟨post, hpost⟩ := ih
      cases hj : ts[m]? with
      | none =>
        have : written ts (m + 1) = written ts m := by rw [written, hj]
        exact ⟨post, this.trans hpost⟩
      | some j =>
        refine ⟨post ++ bytesOf (codeOf ts m j), ?_⟩
        show written ts (m + 1) = _
        rw [written_succ hj, hpost]
        simp only [List.append_assoc]
  exact hpre ts.length (lt_length hi)

theorem written_length :
    (written ts k).length = pos ts k := by
  induction k with
  | zero =>
    show (bytesOf (headerOps _)).length = startPos
    unfold headerOps
    simp only [bytesOf_append, List.length_append,
      resolve_length (uniform_prelude _ _), resolve_length uniform_goodret,
      resolve_length (uniform_trapret _), size_prelude, size_goodret,
      size_trapret]
  | succ k ih =>
    cases hi : ts[k]? with
    | none =>
      rw [written, pos, hi]
      exact ih
    | some i =>
      rw [written_succ hi, pos_succ hi (finalEnv ts), List.length_append, ih]
      unfold codeOf
      rw [resolve_length (uniform_tokenItems _ _ _ _ _)]

/-- Where the output is loaded, the code of instruction `k` lies at its
position. -/
theorem codeAt_token (h : BytesAt mem a (written ts ts.length)) (hi : ts[k]? = some i) :
    CodeAt mem (a + BitVec.ofNat 32 (pos ts k)) (codeOf ts k i) := by
  obtain ⟨post, hpost⟩ := written_split hi
  rw [hpost] at h
  have hk := (bytesAt_append.1 (bytesAt_append.1 h).2).1
  rw [written_length] at hk
  exact ⟨hk, codeOf_plain⟩

/-- The output starts with what precedes the first instruction. -/
theorem written_header (ts : List Sume.Instr) :
    ∃ post, written ts ts.length = bytesOf (headerOps (mainLocals ts)) ++ post := by
  have hpre : ∀ n, ∃ post, written ts n = written ts 0 ++ post := by
    intro n
    induction n with
    | zero => exact ⟨[], (List.append_nil _).symm⟩
    | succ n ih =>
      obtain ⟨post, hpost⟩ := ih
      cases hi : ts[n]? with
      | none =>
        have : written ts (n + 1) = written ts n := by rw [written, hi]
        exact ⟨post, this.trans hpost⟩
      | some i =>
        refine ⟨post ++ bytesOf (codeOf ts n i), ?_⟩
        rw [written_succ hi, hpost, List.append_assoc]
  exact hpre ts.length

-- ======== quiet operations

/-- The registers the code computes in. -/
def scratch (r : Reg) : Bool :=
  match r with
  | .eax | .ebx | .ecx | .edx => true
  | _ => false

/-- The operations that only compute. -/
def Op.quiet : Op → Bool
  | .addImm r _ | .add r _ | .and r _ | .bsf r _ | .bsr r _ | .mov r _
  | .movFromDisEbp r _ | .movFromAr32 r _ | .movImm r _ | .movsx8 r _
  | .movsx16 r _ | .movzx8 r _ | .movzx16 r _ | .or r _ | .rol r | .ror r
  | .sar r | .shr r | .shlImm r _ | .shl r | .subImm r _ | .sub r _
  | .xor r _ => scratch r
  | .cmp _ _ | .test _ _ | .div _ | .idiv _ | .mul _ | .set _ _
  | .mov8 _ _ => true
  | _ => false

/-- What quiet code of `n` bytes leaves alone. -/
structure Calm (n : Nat) (m m' : Machine) : Prop where
  mem : m'.mem = m.mem
  eip : m'.eip = m.eip + BitVec.ofNat 32 n
  esp : m'.reg .esp = m.reg .esp
  ebp : m'.reg .ebp = m.reg .ebp
  esi : m'.reg .esi = m.reg .esi
  edi : m'.reg .edi = m.reg .edi

theorem Calm.trans (h : Calm n m m') (h' : Calm k m' m'') : Calm (n + k) m m'' := by
  refine ⟨h'.mem.trans h.mem, ?_, h'.esp.trans h.esp, h'.ebp.trans h.ebp,
    h'.esi.trans h.esi, h'.edi.trans h.edi⟩
  rw [h'.eip, h.eip, BitVec.add_assoc, ← BitVec.ofNat_add]

theorem Reg8.home_scratch (r : Reg8) : scratch r.home.1 = true := by
  cases r <;> rfl

/-- A register written by quiet code is none of the four it keeps. -/
theorem calm_set {v : Word} (hr : scratch r = true) (h : Calm n m m') : Calm n m (m'.set r v) := by
  refine ⟨h.mem, h.eip, ?_, ?_, ?_, ?_⟩
  · exact h.esp ▸ if_neg (by rintro rfl; cases hr)
  · exact h.ebp ▸ if_neg (by rintro rfl; cases hr)
  · exact h.esi ▸ if_neg (by rintro rfl; cases hr)
  · exact h.edi ▸ if_neg (by rintro rfl; cases hr)

theorem calm_flags {f : Option Flags} (h : Calm n m m') : Calm n m { m' with flags := f } :=
  ⟨h.mem, h.eip, h.esp, h.ebp, h.esi, h.edi⟩

theorem calm_start (n : Nat) : Calm n m { m with eip := m.eip + BitVec.ofNat 32 n } :=
  ⟨rfl, rfl, rfl, rfl, rfl, rfl⟩

theorem calm_alu {op : Alu} {x y : Word}
    (hr : scratch r = true) (h : Calm n m m') : Calm n m (m'.alu op (.reg r) x y) := by
  unfold Machine.alu
  split
  · exact calm_flags h
  · exact calm_set hr (calm_flags h)

/-- What a quiet operation leaves alone. -/
theorem Op.exec_calm (hq : o.quiet = true) (h : o.exec m = some m') : Calm o.bytes.length m m' := by
  have h0 : Calm o.bytes.length m { m with eip := m.eip + BitVec.ofNat 32 o.bytes.length } :=
    calm_start _
  cases o
  case add r s | and r s | or r s | xor r s | sub r s | addImm r i | subImm r i =>
    cases h
    exact calm_alu hq h0
  case cmp r s | test r s =>
    cases h
    exact calm_flags h0
  case mov r s | movFromDisEbp r d | movFromAr32 r s | movImm r i | movsx8 r s
      | movsx16 r s | movzx8 r s | movzx16 r s =>
    cases h
    exact calm_set hq h0
  case rol r | ror r | sar r | shr r | shl r | shlImm r i =>
    cases h
    exact calm_flags (calm_set hq h0)
  case mul r =>
    cases h
    exact calm_flags (calm_set rfl (calm_set rfl h0))
  case div r =>
    have h : Machine.divStep _ _ = some m' := h
    unfold Machine.divStep at h
    dsimp only at h
    split at h
    · cases h
    · cases h
      exact calm_flags (calm_set rfl (calm_set rfl h0))
  case idiv r =>
    have h : Machine.idivStep _ _ = some m' := h
    unfold Machine.idivStep at h
    dsimp only at h
    split at h
    · cases h
    · cases h
      exact calm_flags (calm_set rfl (calm_set rfl h0))
  case bsf r s | bsr r s =>
    cases h
    refine calm_flags ?_
    split
    · exact h0
    · exact calm_set hq h0
  case set cc r =>
    obtain ⟨f, -, hf⟩ := Option.map_eq_some_iff.1 h
    rw [← hf]
    exact calm_set (Reg8.home_scratch r) h0
  case mov8 r s =>
    cases h
    exact calm_set (Reg8.home_scratch r) h0
  all_goals cases hq

theorem execOps_append : execOps (os ++ ps) m = (execOps os m).bind (execOps ps) := by
  induction os generalizing m with
  | nil => rfl
  | cons o os ih =>
    show (o.exec m).bind (execOps (os ++ ps)) = ((o.exec m).bind (execOps os)).bind _
    cases o.exec m with
    | none => rfl
    | some t => exact ih

theorem execOps_calm (hq : ∀ o ∈ os, o.quiet = true) : ∀ {m m' : Machine}, execOps os m = some m' →
      Calm (bytesOf os).length m m' := by
  induction os with
  | nil =>
    intro m m' h
    cases h
    exact ⟨rfl, (BitVec.add_zero _).symm, rfl, rfl, rfl, rfl⟩
  | cons o os ih =>
    intro m m' h
    obtain ⟨t, ht, h⟩ := Option.bind_eq_some_iff.1 h
    obtain ⟨ho, hos⟩ := List.forall_mem_cons.1 hq
    rw [bytesOf_cons, List.length_append]
    exact (Op.exec_calm ho ht).trans (ih hos h)

-- ======== running over code

theorem bytes_pos (o : Op) : 0 < o.bytes.length := by
  cases o <;> first | exact Nat.succ_pos _ | skip
  all_goals
    simp only [Op.bytes, addR32Imm, subR32Imm]
    split <;> exact Nat.succ_pos _

/-- The run executes the first operation. -/
theorem CodeAt.goes {P Q : Machine → Prop} (h : CodeAt m.mem m.eip (o :: os)) (hp : P m)
    (he : o.exec m = some m') (hg : Goes X86.step P Q m') : Goes X86.step P Q m :=
  .next hp (h.step.trans he) hg

-- ======== jumps

/-- A relative jump made at offset `here` from `a` leads to offset
`stop`, wherever the code is loaded. -/
theorem jump_target {here stop eip : Word} (n : Word) (h : eip = a + here) :
    eip + n + (stop - here - n) = a + stop := by
  rw [h]
  bv_omega

-- ======== concrete outputs

/-- A memory that holds `code` from address 0 on and otherwise is
`rest`. -/
def loadedAtZero (code : List Byte) (rest : Mem) : Mem :=
  fun x => (code[x.toNat]?).getD (rest x)

theorem bytesAt_loadedAtZero {code : List Byte} {rest : Mem}
    (h : code.length ≤ 2 ^ 32) : BytesAt (loadedAtZero code rest) 0 code := by
  intro i hi
  unfold loadedAtZero
  rw [show (0 : Word) + BitVec.ofNat 32 i = BitVec.ofNat 32 i from
    BitVec.zero_add _, BitVec.toNat_ofNat, Nat.mod_eq_of_lt (by omega), List.getElem?_eq_getElem hi]
  rfl

end Xv6Sume32.Asm
