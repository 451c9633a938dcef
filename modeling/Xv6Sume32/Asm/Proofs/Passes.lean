/-
The two passes of the compiler compute the layout.

`PassRep gen ts k s` says what the variables of `populate_infos` hold
when it has read `k` instructions: its counters are the counts of the
text, the buffer is as long as `pos ts k`, `stkh` is the tracked height,
and the tables describe what has been passed (first run) or everything
(second run). `asmStep_rep` carries it over one instruction, in both
runs at once: they take the same path and differ only in the addresses
they write. In the second run those are the final ones, so the bytes
written are `codeOf` (`toAsm_layout`).
-/
import Xv6Sume32.Asm.Layout
import Xv6Sume32.Asm.Proofs.Encode
import Xv6Sume32.Sume.Proofs.Paths

namespace Xv6Sume32.Asm

open Lib X86 Sume
open BitVec (ofNat ofInt)

variable {items : List Item} {k n k' j cap p : Nat} {s s' : AsmState} {i i' : Sume.Instr}
    {g : Globals} {tr : Track} {fns : Int → AsmFnInfo} {blks : Int → BlkInfo} {gen : Bool}
    {w : Word} {b : BlkInfo} {f : Sig} {r : Globals × List Byte} {t : Token}

-- ======== encoder calls

/-- An encoder call whose length and count depend neither on where it is
written nor on the height. -/
def Item.Uniform (it : Item) : Prop :=
  ∀ a h, (it a h).bytes.length = (it 0 0).bytes.length
    ∧ (it a h).counts = (it 0 0).counts

def Uniform (items : List Item) : Prop := ∀ it ∈ items, Item.Uniform it

@[simp] theorem uniform_nil : Uniform [] := by
  intro it hit
  cases hit

@[simp] theorem uniform_cons {it : Item} :
    Uniform (it :: items) ↔ Item.Uniform it ∧ Uniform items := by
  unfold Uniform
  rw [List.forall_mem_cons]

@[simp] theorem uniform_append {is js : List Item} :
    Uniform (is ++ js) ↔ Uniform is ∧ Uniform js := by
  unfold Uniform
  rw [List.forall_mem_append]

@[simp] theorem uniform_fixed (o : Op) : Item.Uniform (fixed o) :=
  fun _ _ => ⟨rfl, rfl⟩

@[simp] theorem uniform_map (os : List Op) : Uniform (os.map fixed) := by
  intro it hit
  obtain ⟨o, -, rfl⟩ := List.mem_map.1 hit
  exact uniform_fixed o

@[simp] theorem uniform_jae (w : Word) : Item.Uniform (jae w) := fun _ _ => ⟨rfl, rfl⟩
@[simp] theorem uniform_jmp (w : Word) : Item.Uniform (jmp w) := fun _ _ => ⟨rfl, rfl⟩
@[simp] theorem uniform_call (w : Word) : Item.Uniform (call w) := fun _ _ => ⟨rfl, rfl⟩
@[simp] theorem uniform_dropAll : Item.Uniform dropAll := fun _ _ => ⟨rfl, rfl⟩

theorem size_cons (it : Item) (items : List Item) :
    size (it :: items) = (it 0 0).bytes.length + size items := rfl

theorem net_cons (it : Item) (items : List Item) :
    net (it :: items) = (it 0 0).counts + net items := rfl

theorem size_append (is js : List Item) : size (is ++ js) = size is + size js := by
  unfold size
  rw [List.map_append, List.sum_append]

theorem net_append (is js : List Item) : net (is ++ js) = net is + net js := by
  unfold net
  rw [List.map_append, List.sum_append]

theorem bytesOf_cons (o : Op) (os : List Op) : bytesOf (o :: os) = o.bytes ++ bytesOf os := rfl

theorem bytesOf_append (os ps : List Op) : bytesOf (os ++ ps) = bytesOf os ++ bytesOf ps := by
  unfold bytesOf
  rw [List.flatMap_append]

theorem resolve_length {base : Word} : ∀ {items : List Item} {p : Nat} {h : Int}, Uniform items →
      (bytesOf (resolve base items p h)).length = size items := by
  intro items
  induction items with
  | nil =>
    intro p h _
    rfl
  | cons it items ih =>
    intro p h hu
    obtain ⟨hit, hrest⟩ := uniform_cons.1 hu
    unfold resolve
    rw [bytesOf_cons, List.length_append, ih hrest, size_cons, (hit _ _).1]

/-- Running encoder calls appends the bytes of the operations they
resolve to. -/
theorem assemble_eq {base : Word} :
    ∀ {items : List Item} {buf : List Byte} {h : Int}, Uniform items → assemble base items (buf, h)
        = (buf ++ bytesOf (resolve base items buf.length h), h + net items) := by
  intro items
  induction items with
  | nil =>
    intro buf h _
    show (buf, h) = (buf ++ [], h + 0)
    rw [List.append_nil, Int.add_zero]
  | cons it items ih =>
    intro buf h hu
    obtain ⟨hit, hrest⟩ := uniform_cons.1 hu
    unfold assemble resolve
    rw [ih hrest, bytesOf_cons, net_cons, List.append_assoc,
      List.length_append, (hit _ _).2, Int.add_assoc]

/-- Consecutive encoder calls resolve one after the other. -/
theorem resolve_append {base : Word} : ∀ {is js : List Item} {p : Nat} {h : Int}, Uniform is →
      resolve base (is ++ js) p h
        = resolve base is p h ++ resolve base js (p + size is) (h + net is) := by
  intro is
  induction is with
  | nil =>
    intro js p h _
    show resolve base js p h = resolve base js (p + 0) (h + 0)
    rw [Nat.add_zero, Int.add_zero]
  | cons it is ih =>
    intro js p h hu
    obtain ⟨hit, hrest⟩ := uniform_cons.1 hu
    show it _ h :: resolve base (is ++ js) _ _ = (it _ h :: resolve base is _ _) ++ _
    rw [ih hrest, size_cons, net_cons, (hit _ _).1, (hit _ _).2, Nat.add_assoc, Int.add_assoc]
    rfl

-- ======== the code of tokens

@[simp] theorem uniform_binary (os : List Op) (r : Reg) : Uniform (binary os r) := by
  simp [binary, push, pop]

@[simp] theorem uniform_bounded (w : Word) (os : List Op) (o : Op) :
    Uniform (bounded w os o) := by
  simp [bounded]

@[simp] theorem uniform_load (w : Word) (os : List Op) (o : Op) : Uniform (load w os o) := by
  simp [load, push, pop]

@[simp] theorem uniform_store (w : Word) (os : List Op) (o : Op) : Uniform (store w os o) := by
  simp [store, pop]

theorem uniform_plainItems (w : Word) (t : Token) : Uniform (plainItems w t) := by
  cases t <;> simp [plainItems, shift, compare, push, pop]

theorem uniform_retItems (g : Sig) : Uniform (retItems g) := by
  unfold retItems
  split <;> simp [pop]

@[simp] theorem uniform_callItems (f : Sig) (w : Word) : Uniform (callItems f w) := by
  simp [callItems, pushNil]

theorem uniform_returnItems (f : Sig) : Uniform (returnItems f) := by
  unfold returnItems
  split <;> simp [push, popNil]

theorem uniform_tokenItems (env : Env) (ts : List Sume.Instr) (k : Nat)
    (tr : Track) (i : Sume.Instr) : Uniform (tokenItems env ts k tr i) := by
  unfold tokenItems
  split
  case h_13 => exact uniform_plainItems _ _
  case h_10 =>
    split
    · exact uniform_nil
    · exact uniform_retItems _
  case h_12 =>
    split
    · exact uniform_nil
    · exact uniform_append.2 ⟨uniform_callItems _ _, uniform_returnItems _⟩
  all_goals first | split | skip
  all_goals simp [push, pop]

theorem call_length (w : Word) : (call w 0 0).bytes.length = 5 := rfl

/-- What the layout depends on of an encoder call. -/
def Item.shape (it : Item) : Nat × Int := ((it 0 0).bytes.length, (it 0 0).counts)

theorem shape_jae (w : Word) : Item.shape (jae w) = (6, 0) := rfl
theorem shape_jmp (w : Word) : Item.shape (jmp w) = (5, 0) := rfl
theorem shape_call (w : Word) : Item.shape (call w) = (5, 0) := rfl

theorem shape_bounded (w : Word) (os : List Op) (o : Op) :
    (bounded w os o).map Item.shape = (bounded 0 os o).map Item.shape := by
  simp only [bounded, List.map_append, List.map_cons, shape_jae]

theorem shape_plainItems (w : Word) (t : Token) :
    (plainItems w t).map Item.shape = (plainItems 0 t).map Item.shape := by
  cases t <;> simp only [plainItems, load, store, List.map_append, List.map_cons, shape_jmp,
    shape_bounded w]

/-- The length of a token's code does not depend on the addresses in
it, and neither does what it does to `stkh`. -/
theorem shape_tokenItems (env : Env) (ts : List Sume.Instr) (k : Nat) (tr : Track)
    (i : Sume.Instr) : (tokenItems env ts k tr i).map Item.shape
      = (tokenItems ⟨0, fun _ => 0, fun _ => 0⟩ ts k tr i).map Item.shape := by
  unfold tokenItems
  split
  case h_13 => exact shape_plainItems _ _
  case h_8 | h_9 =>
    cases (openAt ts k)[i.arg.toInt.toNat]? with
    | none => rfl
    | some j => simp only [List.map_cons, shape_jmp]
  case h_12 =>
    cases sigNum (sigsOf ts) i.arg.toInt with
    | none => rfl
    | some f => simp only [callItems, List.map_append, List.map_cons, shape_call]
  all_goals rfl

theorem size_tokenItems (env : Env) (ts : List Sume.Instr) (k : Nat) (tr : Track) (i : Sume.Instr) :
    size (tokenItems env ts k tr i) = size (tokenItems ⟨0, fun _ => 0, fun _ => 0⟩ ts k tr i) := by
  have h := congrArg (fun l => (l.map Prod.fst).sum) (shape_tokenItems env ts k tr i)
  rwa [List.map_map, List.map_map] at h

theorem net_tokenItems (env : Env) (ts : List Sume.Instr) (k : Nat) (tr : Track) (i : Sume.Instr) :
    net (tokenItems env ts k tr i) = net (tokenItems ⟨0, fun _ => 0, fun _ => 0⟩ ts k tr i) := by
  have h := congrArg (fun l => (l.map Prod.snd).sum) (shape_tokenItems env ts k tr i)
  rwa [List.map_map, List.map_map] at h

-- ======== the function table

variable {prog : List Byte} {ts : List Sume.Instr}

/-- The entry of a declared function before its address is known. -/
def Sig.info (g : Sig) (addr : Word) : AsmFnInfo :=
  ⟨g.rt, addr, g.params.length, g.locals.length⟩

/-- The variables of `asm_populate_fns` after `k` instructions. -/
structure AsmPopInv (prog : List Byte) (ts : List Sume.Instr) (k : Nat)
    (s : AsmPopState) : Prop where
  scan : Scans prog s.place (ts.drop k)
  num : s.fnNum = declsBefore ts k
  fns : ∀ n g, n < declsBefore ts k → (sigsOf ts)[n]? = some g →
    s.fns n = Sig.info g 0
  addr : ∀ n, (s.fns n).fnAddr = 0

theorem isDecl_false_of_operand {t : Token} (h : t.operand ≠ .types) : t.isDecl = false :=
  Bool.eq_false_iff.2 fun hd => h ((operand_types t).2 hd)

theorem asmPopulateStep_inv {s s' : AsmPopState} (h : AsmPopInv prog ts k s) (hi : ts[k]? = some i)
    (hs : asmPopulateStep prog s = .ok s') : AsmPopInv prog ts (k + 1) s' := by
  obtain ⟨-, q, hin, hrest⟩ := h.scan.head hi
  obtain ⟨b, hb, ht, hnone, hint, htypes⟩ := instrAt_inv hin
  have hdecls := declsBefore_succ hi
  unfold asmPopulateStep at hs
  rw [hb] at hs
  simp only [ht] at hs
  cases hop : i.token.operand with
  | none =>
    rw [hop] at hs
    cases hs
    rw [isDecl_false_of_operand (by simp [hop])] at hdecls
    refine ⟨?_, ?_, ?_, h.addr⟩
    · show Scans prog (s.place + 1) _
      rw [← hnone hop]
      exact hrest
    · rw [hdecls]
      exact h.num
    · rw [hdecls]
      exact h.fns
  | int =>
    rw [hop] at hs
    obtain ⟨⟨v, p⟩, hv, hs⟩ := bind_eq_ok.1 hs
    rw [hint hop] at hv
    cases hv
    cases hs
    rw [isDecl_false_of_operand (by simp [hop])] at hdecls
    refine ⟨hrest, ?_, ?_, h.addr⟩
    · rw [hdecls]
      exact h.num
    · rw [hdecls]
      exact h.fns
  | types =>
    rw [hop] at hs
    obtain ⟨r, hps, hls⟩ := htypes hop
    have hd := (operand_types _).1 hop
    have hdecl : Declares ts k ⟨i.token.declRt, i.params, i.locals⟩ := ⟨i, hi, hd, rfl⟩
    rw [hd] at hdecls
    unfold asmAddFn at hs
    obtain ⟨_, -, hs⟩ := bind_eq_ok.1 hs
    obtain ⟨⟨ps, p⟩, hp, hs⟩ := bind_eq_ok.1 hs
    obtain ⟨⟨ls, p'⟩, hl, hs⟩ := bind_eq_ok.1 hs
    rw [hps] at hp
    cases hp
    rw [hls] at hl
    cases hl
    cases hs
    refine ⟨hrest, ?_, fun n g hn hg => ?_, fun n => ?_⟩
    · rw [hdecls]
      show s.fnNum + 1 = _
      rw [h.num]
      rfl
    · show (if n = s.fnNum then _ else s.fns n) = _
      by_cases hns : n = s.fnNum
      · rw [if_pos hns]
        rw [hns, h.num, hdecl.sig] at hg
        cases hg
        show AsmFnInfo.mk _ (s.fns n).fnAddr _ _ = _
        rw [h.addr]
        rfl
      · rw [if_neg hns]
        rw [h.num] at hns
        rw [hdecls] at hn
        simp only [if_true] at hn
        exact h.fns n g (by omega) hg
    · show (if n = s.fnNum then _ else s.fns n).fnAddr = 0
      split
      · exact h.addr n
      · exact h.addr n

/-- `asm_populate_fns` finishes on the declarations there is room for. -/
theorem asmPopulateFns_ok (hsc : Scans prog 0 ts) (hfns : (sigsOf ts).length ≤ 64) :
    ∃ fs, asmPopulateFns prog = .ok fs := by
  have h0 : AsmPopInv prog ts 0 ⟨0, 0, fun _ => ⟨0, 0, 0, 0⟩⟩ := by
    refine ⟨hsc, rfl, fun n g hn => ?_, fun n => rfl⟩
    cases hn
  have hstep : ∀ k t i, AsmPopInv prog ts k t → ts[k]? = some i →
      ∃ t', asmPopulateStep prog t = .ok t' ∧ AsmPopInv prog ts (k + 1) t' := by
    intro k t i hinv hi
    suffices h : ∃ t', asmPopulateStep prog t = .ok t' by
      obtain ⟨t', ht'⟩ := h
      exact ⟨t', ht', asmPopulateStep_inv hinv hi ht'⟩
    obtain ⟨-, q, hin, -⟩ := hinv.scan.head hi
    obtain ⟨b, hb, ht, -, hint, htypes⟩ := instrAt_inv hin
    unfold asmPopulateStep
    rw [hb]
    simp only [ht]
    cases hop : i.token.operand with
    | none => exact ⟨_, rfl⟩
    | int => exact ⟨_, bind_eq_ok.2 ⟨_, hint hop, rfl⟩⟩
    | types =>
      obtain ⟨r, hps, hls⟩ := htypes hop
      have hlt : t.fnNum < fnInfosSz := by
        have h1 := declsBefore_succ hi
        rw [(operand_types _).1 hop, if_pos rfl] at h1
        have h2 : declsBefore ts (k + 1) ≤ (sigsOf ts).length := by
          rw [← declsBefore_length]
          exact declsBefore_mono (lt_length hi)
        have := hfns
        rw [hinv.num]
        unfold fnInfosSz
        omega
      refine ⟨_, bind_eq_ok.2 ⟨(), ?_, bind_eq_ok.2 ⟨_, hps, bind_eq_ok.2 ⟨_, hls, rfl⟩⟩⟩⟩
      rw [inRange_decide]
      exact hlt
  obtain ⟨fs, hfs, -⟩ := whileLt_tokens_ok (fun k t ht => ht.scan) hstep h0 hsc.fuel
  exact ⟨fs, hfs⟩

/-- `asm_populate_fns` reads the declarations off the program. -/
theorem asmPopulateFns_sigs (hsc : Scans prog 0 ts) {fs : AsmPopState}
    (h : asmPopulateFns prog = .ok fs) {g : Sig}
    (hg : (sigsOf ts)[n]? = some g) : fs.fns n = Sig.info g 0 := by
  have h0 : AsmPopInv prog ts 0 ⟨0, 0, fun _ => ⟨0, 0, 0, 0⟩⟩ := by
    refine ⟨hsc, rfl, fun n g hn => ?_, fun n => rfl⟩
    cases hn
  obtain ⟨hend, hall⟩ := whileLt_tokens (fun k t ht => ht.scan)
    (fun k t t' i => asmPopulateStep_inv) h0 hsc.fuel h
  obtain ⟨t, ht, hinv⟩ := hall ts.length (Nat.le_refl _)
  obtain rfl : fs = t := Except.ok.inj (hend.symm.trans ht)
  refine hinv.fns n g ?_ hg
  rw [declsBefore_length]
  exact lt_length hg

-- ======== the counts

/-- The number of functions, blocks and loops opened before instruction
`k`, which is how `cur_blk` numbers them. -/
def opensBefore (ts : List Sume.Instr) (k : Nat) : Nat :=
  ((ts.take k).filter fun i => i.token.opens).length

theorem opensBefore_succ (hi : ts[k]? = some i) : opensBefore ts (k + 1)
      = opensBefore ts k + if i.token.opens then 1 else 0 := by
  unfold opensBefore
  rw [List.take_add_one, hi, List.filter_append, List.length_append]
  congr 1
  by_cases ho : i.token.opens = true <;> simp [ho]

theorem opensBefore_mono {k' : Nat} (h : k ≤ k') : opensBefore ts k ≤ opensBefore ts k' :=
  ((List.take_sublist_take_left h).filter _).length_le

theorem opensBefore_lt (hi : ts[j]? = some i)
    (ho : i.token.opens = true) (h : j < k) : opensBefore ts j < opensBefore ts k := by
  have h1 := opensBefore_succ hi
  rw [ho] at h1
  simp only [if_true] at h1
  have h2 : opensBefore ts (j + 1) ≤ opensBefore ts k := opensBefore_mono h
  omega

/-- Two opening tokens have different numbers. -/
theorem opensBefore_inj {j' : Nat} (hi : ts[j]? = some i) (ho : i.token.opens = true)
    (hi' : ts[j']? = some i') (ho' : i'.token.opens = true)
    (he : opensBefore ts j = opensBefore ts j') : j = j' := by
  rcases Nat.lt_trichotomy j j' with hlt | heq | hgt
  · have := opensBefore_lt hi ho hlt
    omega
  · exact heq
  · have := opensBefore_lt hi' ho' hgt
    omega

-- ======== the tracking

theorem track_succ (hi : ts[k]? = some i) :
    track ts (k + 1) = trackStep ts k (track ts k) i := by
  rw [track, hi]

theorem pos_succ (hi : ts[k]? = some i)
    (env : Env) :
    pos ts (k + 1) = pos ts k + size (tokenItems env ts k (track ts k) i) := by
  rw [pos, hi, size_tokenItems env]

theorem pos_mono {k' : Nat} (h : k ≤ k') : pos ts k ≤ pos ts k' := by
  refine monotone_nat_of_le_succ (fun m => ?_) h
  cases hi : ts[m]? with
  | none =>
    rw [pos, hi]
  | some i =>
    rw [pos_succ hi (finalEnv ts)]
    exact Nat.le_add_right _ _

theorem startPos_le (ts : List Sume.Instr) (k : Nat) : startPos ≤ pos ts k :=
  pos_mono (Nat.zero_le k)

/-- The `stk_height` recorded for what was opened at `j`. -/
def entryHeight (ts : List Sume.Instr) (j : Nat) : Int :=
  if ts[j]?.map (fun i => i.token.isDecl) = some true then 0
  else (track ts j).stkh

theorem entryHeight_decl (hi : ts[j]? = some i)
    (hd : i.token.isDecl = true) : entryHeight ts j = 0 := by
  unfold entryHeight
  rw [hi, Option.map_some, hd, if_pos rfl]

theorem entryHeight_block (hi : ts[j]? = some i)
    (hd : i.token.isDecl = false) : entryHeight ts j = (track ts j).stkh := by
  unfold entryHeight
  rw [hi, Option.map_some, hd]
  rfl

/-- What a token other than a block's or function's bounds does to the
tracked height. -/
theorem trackStep_other
    (ho : i.token.opens = false) (he : i.token ≠ .end_) : (trackStep ts k tr i).hts = tr.hts := by
  unfold trackStep
  split
  case h_1 h | h_2 h | h_3 h | h_4 h =>
    rw [h] at ho
    cases ho
  case h_5 h => exact absurd h he
  case h_6 => split <;> rfl
  case h_7 => rfl

theorem trackStep_opens (hi : ts[k]? = some i)
    (ho : i.token.opens = true) : trackStep ts k (track ts k) i
      = ⟨(track ts k).stkh, entryHeight ts k :: (track ts k).hts⟩ := by
  unfold trackStep
  rcases opens_cases ho with (ht | ht) | hd
  · rw [entryHeight_block hi (by rw [ht]; rfl), ht]
  · rw [entryHeight_block hi (by rw [ht]; rfl), ht]
  · rw [entryHeight_decl hi hd]
    cases ht : i.token <;> rw [ht] at hd <;> first | rfl | cases hd

theorem trackStep_end
    (ht : i.token = .end_) :
    (trackStep ts k tr i).hts = tr.hts.tail := by
  unfold trackStep
  rw [ht]
  dsimp only
  split
  · next h =>
    rw [h]
    rfl
  · rfl

/-- The tracked heights are the recorded ones of what is open. -/
theorem track_hts (ts : List Sume.Instr) (k : Nat) :
    (track ts k).hts = (openAt ts k).map (entryHeight ts) := by
  induction k with
  | zero => rfl
  | succ k ih =>
    cases hi : ts[k]? with
    | none =>
      have h1 : track ts (k + 1) = track ts k := by rw [track, hi]
      have h2 : openAt ts (k + 1) = openAt ts k := by rw [openAt, hi]
      rw [h1, h2, ih]
    | some i =>
      rw [track_succ hi]
      by_cases ho : i.token.opens = true
      · rw [openAt_opens hi ho, trackStep_opens hi ho, ih]
        rfl
      · by_cases he : i.token = .end_
        · rw [openAt_end hi he, trackStep_end he, ih, List.map_tail]
        · rw [openAt_other hi (by simpa using ho) he,
            trackStep_other (by simpa using ho) he, ih]

-- ======== the tables

/-- Where the block opened at `j` ends, as far as the first `k`
instructions tell. -/
def closedPos (ts : List Sume.Instr) (k j : Nat) : Nat :=
  (closeOf ts j).elim 0 fun e => if e < k then pos ts (e + 1) else 0

/-- The tables describe what the first `k` instructions declare, open
and close. -/
structure Tables (ts : List Sume.Instr) (k : Nat) (fns : Int → AsmFnInfo)
    (blks : Int → BlkInfo) : Prop where
  entry : ∀ d g, Declares ts d g → d < k →
    (fns (declsBefore ts d)).fnAddr = ofNat 32 (pos ts d)
  height : ∀ j i, ts[j]? = some i → i.token.opens = true → j < k →
    (blks (opensBefore ts j)).stkHeight = entryHeight ts j
  loop : ∀ j i, ts[j]? = some i → i.token = .loop → j < k →
    (blks (opensBefore ts j)).brAddr = ofNat 32 (pos ts j)
  decl : ∀ j i, ts[j]? = some i → i.token.isDecl = true → j < k →
    (blks (opensBefore ts j)).brAddr = -1
  block : ∀ j i, ts[j]? = some i → i.token = .block → j < k →
    (blks (opensBefore ts j)).brAddr = ofNat 32 (closedPos ts k j)

theorem closedPos_succ (h : closeOf ts j ≠ some k) : closedPos ts (k + 1) j = closedPos ts k j := by
  unfold closedPos
  cases hc : closeOf ts j with
  | none => rfl
  | some e =>
    have hne : e ≠ k := by
      rintro rfl
      exact h hc
    show (if e < k + 1 then _ else _) = if e < k then _ else _
    by_cases hlt : e < k
    · rw [if_pos hlt, if_pos (by omega)]
    · rw [if_neg hlt, if_neg (by omega)]

/-- An `end` closes what is innermost. -/
theorem closes_head (hi : ts[k]? = some i)
    (h : closeOf ts j = some k) : i.token = .end_ ∧ (openAt ts k).head? = some j := by
  obtain ⟨i', hi', ht, hhd⟩ := closeOf_inv h
  obtain rfl : i = i' := Option.some.inj (hi.symm.trans hi')
  exact ⟨ht, hhd⟩

/-- What the tables say about what is opened at `j`. -/
structure BlkRep (ts : List Sume.Instr) (k j : Nat) (i : Sume.Instr) (b : BlkInfo) : Prop where
  height : b.stkHeight = entryHeight ts j
  loop : i.token = .loop → b.brAddr = ofNat 32 (pos ts j)
  decl : i.token.isDecl = true → b.brAddr = -1
  block : i.token = .block → b.brAddr = ofNat 32 (closedPos ts k j)

section Entries

variable {fns fns' : Int → AsmFnInfo} {blks : Int → BlkInfo} {b : BlkInfo}

theorem Tables.blk (h : Tables ts k fns blks) (hi : ts[j]? = some i) (ho : i.token.opens = true)
    (hjk : j < k) : BlkRep ts k j i (blks (opensBefore ts j)) :=
  ⟨h.height j i hi ho hjk, fun ht => h.loop j i hi ht hjk, fun hd => h.decl j i hi hd hjk,
    fun ht => h.block j i hi ht hjk⟩

theorem Tables.of_blk (hfns : ∀ d g, Declares ts d g → d < k →
      (fns (declsBefore ts d)).fnAddr = ofNat 32 (pos ts d))
    (h : ∀ j i, ts[j]? = some i → i.token.opens = true → j < k →
      BlkRep ts k j i (blks (opensBefore ts j))) : Tables ts k fns blks :=
  ⟨hfns, fun j i hi ho hjk => (h j i hi ho hjk).height,
    fun j i hi ht hjk => (h j i hi (by rw [ht]; rfl) hjk).loop ht,
    fun j i hi hd hjk => (h j i hi (isDecl_opens hd) hjk).decl hd,
    fun j i hi ht hjk => (h j i hi (by rw [ht]; rfl) hjk).block ht⟩

theorem BlkRep.succ (h : BlkRep ts k j i b) (hc : i.token = .block → closeOf ts j ≠ some k) :
    BlkRep ts (k + 1) j i b :=
  ⟨h.height, h.loop, h.decl, fun ht => by
    rw [closedPos_succ (hc ht)]
    exact h.block ht⟩

/-- What is opened before `k + 1` was opened before `k`, when instruction `k` does not open. -/
theorem opened_lt (hi : ts[k]? = some i) (ho : i.token.opens = false) (hj : ts[j]? = some i')
    (ho' : i'.token.opens = true) (hlt : j < k + 1) : j < k := by
  rcases Nat.lt_succ_iff_lt_or_eq.1 hlt with hlt | rfl
  · exact hlt
  · rw [hi] at hj
    cases hj
    rw [ho] at ho'
    cases ho'

theorem Tables.entry_succ (h : Tables ts k fns blks) (hi : ts[k]? = some i)
    (ho : i.token.opens = false) (d : Nat) (g : Sig) (hd : Declares ts d g) (hdk : d < k + 1) :
    (fns (declsBefore ts d)).fnAddr = ofNat 32 (pos ts d) := by
  obtain ⟨i', hj, hdec, -⟩ := id hd
  exact h.entry d g hd (opened_lt hi ho hj (isDecl_opens hdec) hdk)

/-- Tables that stay as they are over an instruction that opens and
closes no block. -/
theorem Tables.step (h : Tables ts k fns blks) (hi : ts[k]? = some i) (ho : i.token.opens = false)
    (hc : ∀ j i', (openAt ts k).head? = some j → i.token = .end_ →
      ts[j]? = some i' → i'.token ≠ .block) : Tables ts (k + 1) fns blks := by
  refine .of_blk (h.entry_succ hi ho) fun j i' hj ho' hjk => ?_
  refine (h.blk hj ho' (opened_lt hi ho hj ho' hjk)).succ fun ht hcl => ?_
  obtain ⟨he, hhd⟩ := closes_head hi hcl
  exact hc j i' hhd he hj ht

end Entries

/-- The entries of the declared functions, whatever addresses they hold. -/
def Listed (ts : List Sume.Instr) (fns : Int → AsmFnInfo) : Prop :=
  ∀ (n : Nat) (g : Sig), (sigsOf ts)[n]? = some g → fns n = Sig.info g (fns n).fnAddr

/-- What the variables of `populate_infos` hold after `k` instructions:
the tables describe those in the first run, all in the second. -/
structure PassRep (prog : List Byte) (cap : Nat) (gen : Bool)
    (ts : List Sume.Instr) (k : Nat) (s : AsmState) : Prop where
  bound : k ≤ ts.length
  scan : Scans prog s.place (ts.drop k)
  len : s.buf.length = pos ts k
  fits : s.buf.length ≤ cap
  fn : s.curFn = (declsBefore ts k : Int) - 1
  blk : s.curBlk = (opensBefore ts k : Int) - 1
  depth : s.curBlkH = ((openAt ts k).length : Int) - 1
  stkh : s.stkh = (track ts k).stkh
  stk : ∀ n j : Nat, (openAt ts k)[n]? = some j →
    s.blkStk (s.curBlkH - n) = opensBefore ts j
  info : ∀ (n : Nat) (g : Sig), (sigsOf ts)[n]? = some g →
    s.fns n = Sig.info g (s.fns n).fnAddr
  tables : Tables ts (if gen then k else ts.length) s.fns s.blks

-- ======== one instruction

/-- There is an entry for every block, and the code fits. -/
def Room (ts : List Sume.Instr) (cap : Nat) : Prop :=
  opensBefore ts ts.length ≤ 256 ∧ pos ts ts.length ≤ cap

theorem Room.fits (h : Room ts cap) (hi : ts[k]? = some i) : pos ts (k + 1) ≤ cap :=
  Nat.le_trans (pos_mono (lt_length hi)) h.2

/-- A computation that leaves a table only where there is no room. -/
abbrev Within {α : Type} (R : Prop) : (α → Prop) → Res α → Prop :=
  Outcome fun e => e = .undefined ∧ ¬ R

section Within

variable {R : Prop}

theorem within_inRange {c : Prop} [Decidable c] (h : R → c) :
    Within R (fun _ => c) (inRange (decide c)) := by
  by_cases hc : c
  · rw [decide_eq_true hc]
    exact hc
  · rw [decide_eq_false hc]
    exact ⟨rfl, mt h hc⟩

theorem within_emit {base : Word} (hu : Uniform items)
    (hfit : R → s.buf.length + size items ≤ cap) : Within R (fun s' => s' = { s with
        buf := s.buf ++ bytesOf (resolve base items s.buf.length s.stkh)
        stkh := s.stkh + net items }
      ∧ s'.buf.length = s.buf.length + size items
      ∧ s'.buf.length ≤ cap) (emit base cap items s) := by
  have hlen : (s.buf ++ bytesOf (resolve base items s.buf.length s.stkh)).length
      = s.buf.length + size items := by
    rw [List.length_append, resolve_length hu]
  unfold emit
  rw [assemble_eq hu]
  exact (within_inRange fun hr => hlen ▸ hfit hr).bind fun _ hc => ⟨rfl, hlen, hc⟩

theorem within_openBlk (h : R → 0 ≤ s.curBlkH + 1 ∧ s.curBlkH + 1 < curBlkStkSz) :
    Within R (fun s' => s' = { s with
      curBlk := s.curBlk + 1
      curBlkH := s.curBlkH + 1
      blkStk := fun i =>
        if i = s.curBlkH + 1 then s.curBlk + 1 else s.blkStk i }) s.openBlk :=
  (within_inRange h).bind fun _ _ => rfl

theorem within_record {info : BlkInfo} (h : R → 0 ≤ s.curBlk ∧ s.curBlk < blkInfosSz) :
    Within R (fun s' => s' = { s with blks := fun i =>
        if gen = true ∧ i = s.curBlk then info else s.blks i }
      ∧ (gen = true → s.curBlk < blkInfosSz)) (s.record gen info) := by
  cases gen with
  | false => exact ⟨by simp, nofun⟩
  | true => exact (within_inRange h).bind fun _ hc => ⟨by simp, fun _ => hc.2⟩

theorem within_recordFn (h : R → 0 ≤ s.curFn ∧ s.curFn < (fnInfosSz : Int)) :
    Within R (fun s' => s' = { s with
      fns := fun n =>
        if gen = true ∧ n = s.curFn then { s.fns n with fnAddr := w }
        else s.fns n }) (s.recordFn gen w) := by
  cases gen with
  | false => exact show _ = _ by simp
  | true => exact (within_inRange h).bind fun _ _ => show _ = _ by simp

theorem openBlk_inv (h : s.openBlk = .ok s') :
    s' = { s with
      curBlk := s.curBlk + 1
      curBlkH := s.curBlkH + 1
      blkStk := fun i =>
        if i = s.curBlkH + 1 then s.curBlk + 1 else s.blkStk i } :=
  (within_openBlk (R := False) nofun).of_ok h

theorem record_inv {info : BlkInfo} (h : s.record gen info = .ok s') :
    s' = { s with blks := fun i =>
      if gen = true ∧ i = s.curBlk then info else s.blks i } :=
  ((within_record (R := False) nofun).of_ok h).1

theorem recordFn_inv (h : s.recordFn gen w = .ok s') :
    s' = { s with
      fns := fun n =>
        if gen = true ∧ n = s.curFn then { s.fns n with fnAddr := w }
        else s.fns n } :=
  (within_recordFn (R := False) nofun).of_ok h

end Within

/-- What an instruction leaves: in the second run its bytes, in the first
an entry for what it opens. -/
structure Next (prog : List Byte) (cap : Nat) (gen : Bool) (ts : List Sume.Instr) (k : Nat)
    (i : Sume.Instr) (s s' : AsmState) : Prop where
  rep : PassRep prog cap gen ts (k + 1) s'
  bytes : gen = false → s'.buf = s.buf ++ bytesOf (codeOf ts k i)
  entry : gen = true → i.token.opens = true → opensBefore ts (k + 1) ≤ 256

/-- The state behind an instruction that only emits code. -/
theorem PassRep.emits (env : Env) (h : PassRep prog cap gen ts k s)
    (hi : ts[k]? = some i) (ho : i.token.opens = false) (he : i.token ≠ .end_)
    (htr : (trackStep ts k (track ts k) i).stkh = s'.stkh) (hscan : Scans prog p (ts.drop (k + 1)))
    (hlen : s'.buf.length = s.buf.length + size (tokenItems env ts k (track ts k) i))
    (hfits : s'.buf.length ≤ cap)
    (hs : s' = { s with place := p, buf := s'.buf, stkh := s'.stkh }) :
    PassRep prog cap gen ts (k + 1) s' := by
  have hk : k < ts.length := lt_length hi
  have hd := isDecl_false ho
  rw [hs]
  refine ⟨hk, hscan, ?_, hfits, ?_, ?_, ?_, ?_, ?_, h.info, ?_⟩
  · rw [pos_succ hi env, ← h.len]
    exact hlen
  · rw [declsBefore_succ hi, hd]
    exact h.fn
  · rw [opensBefore_succ hi, ho]
    exact h.blk
  · rw [openAt_other hi ho he]
    exact h.depth
  · rw [track_succ hi, htr]
  · rw [openAt_other hi ho he]
    exact h.stk
  · cases gen with
    | false => exact h.tables
    | true => exact h.tables.step hi ho fun j i' _ hend => absurd hend he

/-- The tables when a block, loop or function has been recorded. -/
theorem Tables.opened {fns fns' : Int → AsmFnInfo} {blks : Int → BlkInfo} {info : BlkInfo}
    (h : Tables ts k fns blks) (hi : ts[k]? = some i) (ho : i.token.opens = true)
    (hfns : ∀ d g, Declares ts d g → d < k + 1 →
      (fns' (declsBefore ts d)).fnAddr = ofNat 32 (pos ts d))
    (hh : info.stkHeight = entryHeight ts k)
    (hl : i.token = .loop → info.brAddr = ofNat 32 (pos ts k))
    (hd : i.token.isDecl = true → info.brAddr = -1) (hb : i.token = .block → info.brAddr = 0) :
    Tables ts (k + 1) fns' (fun x => if x = (opensBefore ts k : Int) then info else blks x) := by
  refine .of_blk hfns fun j i' hj ho' hjk => ?_
  rcases Nat.lt_succ_iff_lt_or_eq.1 hjk with hlt | rfl
  · -- an entry of an earlier opening token is another one
    have hold := opensBefore_lt hj ho' hlt
    rw [if_neg (by omega)]
    refine (h.blk hj ho' hlt).succ fun _ hcl => ?_
    rw [(closes_head hi hcl).1] at ho
    cases ho
  · obtain rfl : i = i' := Option.some.inj (hi.symm.trans hj)
    rw [if_pos rfl]
    refine ⟨hh, hl, hd, fun ht => (hb ht).trans ?_⟩
    -- the block just opened is not closed yet
    unfold closedPos
    cases hc : closeOf ts j with
    | none => rfl
    | some e =>
      have hge : j + 1 ≤ e := by
        refine closeOf_ge ?_ hc
        rw [openAt_opens hi ho]
        exact List.mem_cons_self ..
      show 0 = ofNat 32 (if e < j + 1 then _ else 0)
      rw [if_neg (by omega)]
      rfl

/-- The state behind a token that opens. -/
theorem PassRep.opens (fns : Int → AsmFnInfo) (info : BlkInfo)
    (h : PassRep prog cap gen ts k s) (hi : ts[k]? = some i)
    (ho : i.token.opens = true) (hscan : Scans prog p (ts.drop (k + 1))) (hinfo : Listed ts fns)
    (hfns : gen = true → ∀ d g, Declares ts d g → d < k + 1 →
      (fns (declsBefore ts d)).fnAddr = ofNat 32 (pos ts d))
    (hfns' : gen = false → fns = s.fns) (hh : info.stkHeight = entryHeight ts k)
    (hl : i.token = .loop → info.brAddr = ofNat 32 (pos ts k))
    (hd : i.token.isDecl = true → info.brAddr = -1) (hb : i.token = .block → info.brAddr = 0) :
    PassRep prog cap gen ts (k + 1)
      { s with
        place := p
        curFn := s.curFn + (if i.token.isDecl then 1 else 0)
        curBlk := s.curBlk + 1
        curBlkH := s.curBlkH + 1
        blkStk := fun x =>
          if x = s.curBlkH + 1 then s.curBlk + 1 else s.blkStk x
        fns := fns
        blks := fun x =>
          if gen = true ∧ x = s.curBlk + 1 then info else s.blks x } := by
  have hk : k < ts.length := lt_length hi
  have hopen := openAt_opens hi ho
  have htok : tokenItems (finalEnv ts) ts k (track ts k) i = [] := by
    unfold tokenItems
    cases ht : i.token <;> rw [ht] at ho <;> first | rfl | cases ho
  have hblk : s.curBlk + 1 = (opensBefore ts k : Int) := by
    have := h.blk
    omega
  refine ⟨hk, hscan, ?_, h.fits, ?_, ?_, ?_, ?_, fun n j hj => ?_, hinfo, ?_⟩
  · rw [pos_succ hi (finalEnv ts), htok]
    exact h.len
  · show s.curFn + (if i.token.isDecl then 1 else 0) = _
    rw [declsBefore_succ hi, h.fn]
    split <;> omega
  · show s.curBlk + 1 = _
    rw [opensBefore_succ hi, ho, hblk]
    simp
  · show s.curBlkH + 1 = _
    rw [hopen, h.depth]
    simp
  · show s.stkh = _
    rw [track_succ hi, trackStep_opens hi ho]
    exact h.stkh
  · show (if s.curBlkH + 1 - (n : Int) = s.curBlkH + 1 then _ else _) = _
    rw [hopen] at hj
    cases n with
    | zero =>
      cases hj
      rw [if_pos (by omega)]
      exact hblk
    | succ n =>
      rw [if_neg (by omega)]
      have hn : s.curBlkH + 1 - ((n + 1 : Nat) : Int) = s.curBlkH - n := by
        omega
      show s.blkStk (s.curBlkH + 1 - ((n + 1 : Nat) : Int)) = _
      rw [hn]
      exact h.stk n j hj
  · cases gen with
    | false =>
      have hsame : (fun x => if false = true ∧ x = s.curBlk + 1 then info
          else s.blks x) = s.blks := by
        funext x
        simp
      rw [hsame, hfns' rfl]
      exact h.tables
    | true =>
      have hsame : (fun x => if true = true ∧ x = s.curBlk + 1 then info else s.blks x)
          = fun x => if x = (opensBefore ts k : Int) then info else s.blks x := by
        funext x
        rw [hblk]
        simp
      rw [hsame]
      exact h.tables.opened hi ho (hfns rfl) hh hl hd hb

/-- The height after an instruction that only emits code. -/
theorem trackStep_counts {tr : Track} (env : Env) (ho : i.token.opens = false)
    (he : i.token ≠ .end_) (hc : i.token ≠ .call) :
    (trackStep ts k tr i).stkh = tr.stkh + net (tokenItems env ts k tr i) := by
  rw [net_tokenItems env]
  unfold trackStep
  split
  case h_1 h | h_2 h | h_3 h | h_4 h =>
    rw [h] at ho
    cases ho
  case h_5 h => exact absurd h he
  case h_6 h => exact absurd h hc
  case h_7 => rfl

/-- The state behind an instruction whose code is emitted in one go, and
in the second run its bytes. -/
theorem PassRep.emit_token (env : Env) (h : PassRep prog cap gen ts k s) (hi : ts[k]? = some i)
    (ho : i.token.opens = false) (he : i.token ≠ .end_) (hc : i.token ≠ .call)
    (hitems : items = tokenItems env ts k (track ts k) i) (hfinal : gen = false →
      items = tokenItems (finalEnv ts) ts k (track ts k) i)
    (hscan : Scans prog p (ts.drop (k + 1))) :
    Within (Room ts cap) (Next prog cap gen ts k i s) (emit 0 cap items { s with place := p }) := by
  have hu : Uniform items := by
    rw [hitems]
    exact uniform_tokenItems _ _ _ _ _
  refine (within_emit hu fun hr => ?_).imp (fun _ => id) fun s' ⟨hs', hlen, hfits⟩ => ?_
  · rw [hitems, h.len, ← pos_succ hi env]
    exact hr.fits hi
  have htr : (trackStep ts k (track ts k) i).stkh = (track ts k).stkh + net items := by
    rw [hitems]
    exact trackStep_counts env ho he hc
  have hh : s'.stkh = (track ts k).stkh + net items := by
    rw [hs', ← h.stkh]
  refine ⟨h.emits env hi ho he (by rw [htr, hh]) hscan ?_ hfits ?_, fun hg => ?_, by simp [ho]⟩
  · rw [← hitems]
    exact hlen
  · rw [hs']
  · rw [hs']
    show s.buf ++ bytesOf (resolve 0 items s.buf.length s.stkh) = _
    rw [h.len, h.stkh, hfinal hg]
    rfl

-- ======== what acceptance contributes

section Accepted

variable {slot : Int}

/-- Of what is open in an accepted program the outermost, and only that,
is a function. -/
theorem accepted_bottom (hacc : Accepted prog slot ts) (hk : k ≤ ts.length)
    (hj : (openAt ts k)[n]? = some j) (hi : ts[j]? = some i) :
    i.token.isDecl = true ↔ n + 1 = (openAt ts k).length := by
  obtain ⟨-, v, -, hv, -, -⟩ := hacc.view k hk
  have hnest := viewAt_nested hk hv
  obtain ⟨i', vj, hf⟩ := hnest.frame n j hj
  obtain rfl : i = i' := Option.some.inj (hi.symm.trans hf.instr)
  obtain ⟨v', -, -, hc⟩ := hacc.check_at hi hf.view
  have hlt : n < (openAt ts k).length := lt_length hj
  have hout : vj.hts.length = (openAt ts k).length - (n + 1) := by
    rw [hf.outer, List.length_drop, hnest.length]
  constructor
  · intro hd
    have := (check_decl hd hc).1
    rw [this] at hout
    simp only [List.length_nil] at hout
    omega
  · intro hn
    rcases opens_cases hf.opens with ht | hd
    · have := List.length_pos_iff.2 (check_enter ht hc).1
      omega
    · exact hd

/-- The label of a branch names an open block or loop. -/
theorem accepted_label (hacc : Accepted prog slot ts) (hi : ts[k]? = some i)
    (ht : i.token = .br ∨ i.token = .brIf) :
    ∃ j i', i.arg.toInt = (i.arg.toInt.toNat : Int)
      ∧ (openAt ts k)[i.arg.toInt.toNat]? = some j ∧ ts[j]? = some i'
      ∧ (i'.token = .block ∨ i'.token = .loop) := by
  have hk : k < ts.length := lt_length hi
  obtain ⟨v, v', hv, -, -, hc⟩ := hacc.check hi
  have hnest := viewAt_nested (by omega) hv
  obtain ⟨h0, h1⟩ := check_label ht hc
  rw [hnest.length] at h1
  have hlt : i.arg.toInt.toNat < (openAt ts k).length := by omega
  obtain ⟨j, hj⟩ : ∃ j, (openAt ts k)[i.arg.toInt.toNat]? = some j :=
    ⟨_, List.getElem?_eq_getElem hlt⟩
  obtain ⟨i', hi', ho⟩ := openAt_instr (List.mem_of_getElem? hj)
  refine ⟨j, i', by omega, hj, hi', ?_⟩
  rcases opens_cases ho with hb | hd
  · exact hb
  · have := (accepted_bottom hacc (by omega) hj hi').1 hd
    omega

/-- What acceptance says about where an instruction stands. -/
theorem accepted_fnSig (hacc : Accepted prog slot ts) (hi : ts[k]? = some i)
    (hd : i.token.isDecl = false) :
    1 ≤ declsBefore ts k ∧ ∃ g, fnSig ts k = some g := by
  have hk : k < ts.length := lt_length hi
  have hne := hacc.inFn hi hd
  -- the outermost of what is open is a declaration
  have hlen : (openAt ts k).length - 1 < (openAt ts k).length := Nat.sub_one_lt (by simpa using hne)
  have hj := List.getElem?_eq_getElem hlen
  obtain ⟨i', hi', -⟩ := openAt_instr (List.mem_of_getElem? hj)
  have hdec := (accepted_bottom hacc (by omega) hj hi').2 (by omega)
  have hlt := openAt_lt (List.mem_of_getElem? hj)
  have h1 := declsBefore_succ hi'
  rw [hdec, if_pos rfl] at h1
  have h2 : declsBefore ts (_ + 1) ≤ declsBefore ts k := declsBefore_mono hlt
  have h3 : declsBefore ts k ≤ (sigsOf ts).length := by
    rw [← declsBefore_length]
    exact declsBefore_mono (by omega)
  refine ⟨by omega, _, List.getElem?_eq_getElem (by omega)⟩

/-- The operand of a `call` names a declared function. -/
theorem accepted_callee (hacc : Accepted prog slot ts) (hi : ts[k]? = some i) (ht : i.token = .call)
    :
    ∃ f, sigNum (sigsOf ts) i.arg.toInt = some f := by
  obtain ⟨v, v', -, -, -, hc⟩ := hacc.check hi
  unfold Sume.check at hc
  rw [ht] at hc
  simp only [Token.vcase] at hc
  split at hc
  case isFalse => cases hc
  obtain ⟨f, hf, -⟩ := Option.bind_eq_some_iff.1 hc
  exact ⟨f, hf⟩

theorem sigNum_inv {sigs : List Sig} {n : Int} (h : sigNum sigs n = some f) :
    n = (n.toNat : Int) ∧ sigs[n.toNat]? = some f := by
  unfold sigNum at h
  split at h
  · cases h
  · exact ⟨by omega, h⟩

/-- What is open is at most what the verifier's frames hold. -/
theorem accepted_depth (hacc : Accepted prog slot ts) (hk : k ≤ ts.length) :
    (openAt ts k).length ≤ 64 := by
  obtain ⟨_, v, -, hv, hrep, -⟩ := hacc.view k hk
  rw [← (viewAt_nested hk hv).length]
  exact hrep.depth

/-- The entry of an open block. -/
theorem PassRep.blkAt (hacc : Accepted prog slot ts) (h : PassRep prog cap gen ts k s)
    (hj : (openAt ts k)[n]? = some j) :
    Within (Room ts cap) (fun b => b = s.blks (opensBefore ts j) ∧ b.stkHeight = entryHeight ts j)
      (s.blkAt n) := by
  have hmem : j ∈ openAt ts k := List.mem_of_getElem? hj
  obtain ⟨i, hi, ho⟩ := openAt_instr hmem
  have hlt := openAt_lt hmem
  have hn : n < (openAt ts k).length := lt_length hj
  have hdep := accepted_depth hacc h.bound
  have hcur := h.depth
  have hop := opensBefore_lt hi ho (Nat.lt_of_lt_of_le hlt h.bound)
  refine (within_inRange fun _ => ?_).bind fun _ _ => (within_inRange fun hr => ?_).bind fun _ _ => ?_
  · unfold curBlkStkSz
    omega
  · have := hr.1
    rw [h.stk n j hj]
    unfold blkInfosSz
    omega
  rw [h.stk n j hj]
  refine ⟨rfl, h.tables.height j i hi ho ?_⟩
  cases gen with
  | false => exact Nat.lt_of_lt_of_le hlt h.bound
  | true => exact hlt

theorem accepted_decls (hacc : Accepted prog slot ts) (hk : k ≤ ts.length) :
    declsBefore ts k ≤ 64 := by
  have h1 : declsBefore ts k ≤ (sigsOf ts).length := by
    rw [← declsBefore_length]
    exact declsBefore_mono hk
  have h2 := hacc.fns
  omega

/-- The entry of the function being compiled. -/
theorem PassRep.fnAt (hacc : Accepted prog slot ts) (h : PassRep prog cap gen ts k s)
    (hi : ts[k]? = some i) (hd : i.token.isDecl = false) :
    Within (Room ts cap) (fun fn => ∃ g, fnSig ts k = some g ∧ fn = Sig.info g fn.fnAddr)
      (s.fnAt s.curFn) := by
  obtain ⟨h1, g, hg⟩ := accepted_fnSig hacc hi hd
  have hle := accepted_decls hacc h.bound
  have hfn := h.fn
  refine (within_inRange fun _ => ?_).bind fun _ _ => ⟨g, hg, ?_⟩
  · unfold fnInfosSz
    omega
  · have hcur : s.curFn = ((declsBefore ts k - 1 : Nat) : Int) := by omega
    rw [hcur]
    exact h.info _ _ hg

theorem PassRep.openBlk (fn : Int) (hacc : Accepted prog slot ts)
    (h : PassRep prog cap gen ts k s) (hi : ts[k]? = some i) (ho : i.token.opens = true) :
    Within (Room ts cap) (fun s' => s' = { s with
        place := p
        curFn := fn
        curBlk := s.curBlk + 1
        curBlkH := s.curBlkH + 1
        blkStk := fun x => if x = s.curBlkH + 1 then s.curBlk + 1 else s.blkStk x })
      (AsmState.openBlk { s with place := p, curFn := fn }) := by
  have hdep := accepted_depth hacc (show k + 1 ≤ ts.length from lt_length hi)
  rw [openAt_opens hi ho] at hdep
  have hdep : (openAt ts k).length + 1 ≤ 64 := hdep
  have hcur := h.depth
  refine within_openBlk fun _ => ?_
  show 0 ≤ s.curBlkH + 1 ∧ s.curBlkH + 1 < 64
  omega

theorem PassRep.record {t : AsmState} {info : BlkInfo} (h : PassRep prog cap gen ts k s)
    (hi : ts[k]? = some i) (ho : i.token.opens = true) (ht : t.curBlk = s.curBlk + 1) :
    Within (Room ts cap) (fun s' => s' = { t with blks := fun x =>
        if gen = true ∧ x = t.curBlk then info else t.blks x }
      ∧ (gen = true → opensBefore ts (k + 1) ≤ 256)) (t.record gen info) := by
  have hlt := opensBefore_lt hi ho (lt_length hi)
  have hcur := h.blk
  refine (within_record fun hr => ?_).imp (fun _ => id) fun s' ⟨hs', hc⟩ => ⟨hs', fun hg => ?_⟩
  · have := hr.1
    unfold blkInfosSz
    omega
  · have := hc hg
    unfold blkInfosSz at this
    rw [opensBefore_succ hi, ho, if_pos rfl]
    omega

end Accepted

-- ======== the end

/-- The tables when the `end` of a block has been recorded. -/
theorem Tables.closed {fns : Int → AsmFnInfo} {blks : Int → BlkInfo} {own : BlkInfo}
    (h : Tables ts k fns blks) (hi : ts[k]? = some i)
    (he : i.token = .end_) (hhd : (openAt ts k).head? = some j)
    (hj : ts[j]? = some i') (ht : i'.token = .block) (hown : own = blks (opensBefore ts j)) :
    Tables ts (k + 1) fns (fun x =>
      if x = (opensBefore ts j : Int) then
        { own with brAddr := ofNat 32 (pos ts (k + 1)) } else blks x) := by
  have hcl : closeOf ts j = some k := by
    refine closeOf_of_closes ⟨?_, hhd⟩
    rw [hi, Option.map_some, he]
  have ho : i.token.opens = false := by rw [he]; rfl
  have hobj : i'.token.opens = true := by rw [ht]; rfl
  refine .of_blk (h.entry_succ hi ho) fun m im hm hom hmk => ?_
  by_cases hmj : m = j
  · subst hmj
    obtain rfl : i' = im := Option.some.inj (hj.symm.trans hm)
    rw [if_pos rfl]
    refine ⟨?_, fun hl => ?_, fun hd => ?_, fun _ => ?_⟩
    · show own.stkHeight = _
      rw [hown]
      exact h.height m i' hj hobj (openAt_lt (List.mem_of_mem_head? hhd))
    · rw [ht] at hl
      cases hl
    · rw [ht] at hd
      cases hd
    · unfold closedPos
      rw [hcl]
      show _ = ofNat 32 (if k < k + 1 then _ else _)
      rw [if_pos (Nat.lt_succ_self k)]
  · -- every other opening token has its own entry
    have hne : (opensBefore ts m : Int) ≠ opensBefore ts j :=
      fun heq => hmj (opensBefore_inj hm hom hj hobj (by omega))
    rw [if_neg hne]
    refine (h.blk hm hom (opened_lt hi ho hm hom hmk)).succ fun _ hclm => ?_
    have := (closes_head hi hclm).2
    rw [hhd] at this
    exact hmj (Option.some.inj this).symm

variable {slot : Int}

/-- The state behind an `end`. -/
theorem PassRep.ends (hacc : Accepted prog slot ts) (hcap : cap < 2 ^ 32)
    (h : PassRep prog cap gen ts k s) (hi : ts[k]? = some i)
    (ht : i.token = .end_) (hscan : Scans prog p (ts.drop (k + 1))) :
    Within (Room ts cap) (Next prog cap gen ts k i s)
      (endCase 0 cap gen { s with place := p }) := by
  have hk : k < ts.length := lt_length hi
  have hopen := openAt_end hi ht
  have hdecl : i.token.isDecl = false := by
    rw [ht]
    rfl
  have ho : i.token.opens = false := by
    rw [ht]
    rfl
  have htrk := track_hts ts k
  have hdep := h.depth
  unfold endCase
  split
  · next hpos =>
    have hpos : 0 < s.curBlkH := hpos
    -- something encloses the block
    obtain ⟨j, j', rest, hop⟩ : ∃ j j' rest, openAt ts k = j :: j' :: rest := by
      match hop : openAt ts k with
      | [] =>
        rw [hop] at hdep
        simp at hdep
        omega
      | [a] =>
        rw [hop] at hdep
        simp at hdep
        omega
      | a :: b :: rest => exact ⟨a, b, rest, rfl⟩
    have hj0 : (openAt ts k)[0]? = some j := by
      rw [hop]
      rfl
    have hj1 : (openAt ts k)[1]? = some j' := by
      rw [hop]
      rfl
    refine (h.blkAt (n := 0) hacc hj0).bind fun own ⟨hown, hownh⟩ =>
      (h.blkAt (n := 1) hacc hj1).bind fun parent ⟨_, hparh⟩ => ?_
    rw [hop, List.map_cons, List.map_cons] at htrk
    have htok : ∀ env, tokenItems env ts k (track ts k) i
        = [fixed (.addImm .esp (ofInt 32
            (4 * (own.stkHeight - parent.stkHeight))))] := by
      intro env
      unfold tokenItems
      rw [ht, htrk, hownh, hparh]
    have hu : Uniform [fixed (.addImm .esp (ofInt 32
        (4 * (own.stkHeight - parent.stkHeight))))] :=
      uniform_cons.2 ⟨uniform_fixed _, uniform_nil⟩
    refine (within_emit hu fun hr => ?_).bind fun s1 ⟨hs1, hlen, hfits⟩ => ?_
    · have := hr.fits hi
      rwa [pos_succ hi (finalEnv ts), htok, ← h.len] at this
    have hlen : s1.buf.length = pos ts (k + 1) := by
      rw [pos_succ hi (finalEnv ts), htok, ← h.len]
      exact hlen
    have hstk0 : s.blkStk s.curBlkH = opensBefore ts j := by
      have := h.stk 0 j hj0
      rwa [Nat.cast_zero, Int.sub_zero] at this
    have hbuf : s1.buf = s.buf ++ bytesOf (resolve 0 [fixed (.addImm .esp
        (ofInt 32 (4 * (own.stkHeight - parent.stkHeight))))]
          s.buf.length parent.stkHeight) := by
      rw [hs1]
    -- the fields the two runs treat alike
    have hcommon : ∀ blks : Int → BlkInfo,
        Tables ts (if gen then k + 1 else ts.length) s.fns blks →
        PassRep prog cap gen ts (k + 1)
          { s1 with blks := blks, curBlkH := s1.curBlkH - 1 } := by
      intro blks htab
      rw [hs1] at hlen hfits ⊢
      refine ⟨hk, hscan, hlen, hfits, ?_, ?_, ?_, ?_, fun n m hm => ?_, h.info,
        htab⟩
      · rw [declsBefore_succ hi, hdecl]
        exact h.fn
      · rw [opensBefore_succ hi, ho]
        exact h.blk
      · show s.curBlkH - 1 = _
        rw [hopen, hdep, hop]
        simp
      · rw [track_succ hi]
        unfold trackStep
        rw [ht, htrk, ← hparh]
        show parent.stkHeight + net _ = parent.stkHeight
        rw [net_cons]
        show parent.stkHeight + (0 + 0) = _
        omega
      · rw [hopen, List.getElem?_tail] at hm
        have hn : s.curBlkH - 1 - (n : Int) = s.curBlkH - ((n + 1 : Nat) : Int) := by
          omega
        show s.blkStk (s.curBlkH - 1 - (n : Int)) = _
        rw [hn]
        exact h.stk (n + 1) m hm
    obtain ⟨ij, hij, hoj⟩ := openAt_instr (List.mem_of_getElem? hj0)
    have hjk : j < k := openAt_lt (List.mem_of_getElem? hj0)
    have hhd : (openAt ts k).head? = some j := by
      rw [hop]
      rfl
    have hcl : closeOf ts j = some k := by
      refine closeOf_of_closes ⟨?_, hhd⟩
      rw [hi, Option.map_some, ht]
    cases gen with
    | false =>
      simp only [Bool.false_eq_true, false_and, if_false]
      refine ⟨hcommon s1.blks (by rw [hs1]; exact h.tables), fun _ => ?_, nofun⟩
      · show s1.buf = _
        unfold codeOf
        rw [hbuf, htok, h.len]
        rfl
    | true =>
      refine ⟨?_, nofun, by simp [ho]⟩
      by_cases hz : own.brAddr = 0
      · simp only [hz, and_self, if_true]
        -- only a block starts out with address zero
        have htj : ij.token = .block := by
          rcases opens_cases hoj with (hb | hl) | hd
          · exact hb
          · have hbr := h.tables.loop j ij hij hl hjk
            rw [← hown, hz] at hbr
            have h1 := startPos_le ts j
            have h2 : pos ts j ≤ pos ts k := pos_mono (by omega)
            have h3 := h.fits
            rw [h.len] at h3
            have h4 := congrArg BitVec.toNat hbr
            rw [BitVec.toNat_ofNat, Nat.mod_eq_of_lt (by omega)] at h4
            unfold startPos at h1
            simp at h4
            omega
          · have hbr := h.tables.decl j ij hij hd hjk
            rw [← hown, hz] at hbr
            exact absurd hbr (by decide)
        have htab := h.tables.closed hi ht hhd hij htj hown
        have hb1 : s1.blkStk s1.curBlkH = opensBefore ts j := by
          rw [hs1]
          exact hstk0
        have hb2 : s1.blks = s.blks := by
          rw [hs1]
        have := hcommon _ htab
        simpa [hb1, hb2, hlen] using this
      · simp only [hz, and_false, if_false]
        refine hcommon s1.blks ?_
        rw [hs1]
        refine h.tables.step hi ho fun m im hm _ him hblk => hz ?_
        obtain rfl : j = m := Option.some.inj (hhd.symm.trans hm)
        rw [hown, h.tables.block j im him hblk hjk]
        unfold closedPos
        rw [hcl]
        show ofNat 32 (if k < k then _ else 0) = 0
        rw [if_neg (Nat.lt_irrefl k)]
        rfl
  · next hpos =>
    -- the end of a function emits nothing
    have hpos : ¬ 0 < s.curBlkH := hpos
    have hne := hacc.inFn hi hdecl
    obtain ⟨j, hop⟩ : ∃ j, openAt ts k = [j] := by
      match hop : openAt ts k with
      | [] => exact absurd hop hne
      | [a] => exact ⟨a, rfl⟩
      | a :: b :: rest =>
        rw [hop] at hdep
        simp at hdep
        omega
    rw [hop, List.map_cons, List.map_nil] at htrk
    have htok : ∀ env, tokenItems env ts k (track ts k) i = [] := by
      intro env
      unfold tokenItems
      rw [ht, htrk]
    refine ⟨⟨hk, hscan, ?_, h.fits, ?_, ?_, ?_, ?_, fun n m hm => ?_, h.info, ?_⟩,
      fun _ => ?_, by simp [ho]⟩
    · rw [pos_succ hi (finalEnv ts), htok]
      exact h.len
    · rw [declsBefore_succ hi, hdecl]
      exact h.fn
    · rw [opensBefore_succ hi, ho]
      exact h.blk
    · show s.curBlkH - 1 = _
      rw [hopen, hdep, hop]
      simp
    · rw [track_succ hi]
      unfold trackStep
      rw [ht, htrk]
      exact h.stkh
    · rw [hopen, hop] at hm
      cases hm
    · cases gen with
      | false => exact h.tables
      | true =>
        refine h.tables.step hi ho fun m im hm _ him hblk => ?_
        have hm : (openAt ts k).head? = some m := hm
        rw [hop] at hm
        obtain rfl : j = m := Option.some.inj hm
        have hd := (accepted_bottom hacc (by omega)
          (show (openAt ts k)[0]? = some j by rw [hop]; rfl) him).2
            (by rw [hop]; rfl)
        rw [hblk] at hd
        cases hd
    · show s.buf = _
      unfold codeOf
      rw [htok]
      show s.buf = s.buf ++ []
      rw [List.append_nil]

-- ======== every token

theorem operand_ok {place : Nat} {r : Word × Nat}
    (h : getInt prog place = .ok r) : operand prog place = .ok r := by
  unfold operand
  rw [h]

/-- In the second run the branch address of an open block or loop is
that of its target. -/
theorem PassRep.target (h : PassRep prog cap false ts k s)
    (hb : b = s.blks (opensBefore ts j)) (hi' : ts[j]? = some i')
    (ht : i'.token = .block ∨ i'.token = .loop) : b.brAddr = (finalEnv ts).target j := by
  have hlt : j < ts.length := lt_length hi'
  show b.brAddr = ofNat 32 (targetPos ts j)
  unfold targetPos
  rw [hi', Option.map_some, hb]
  rcases ht with ht | ht
  · rw [h.tables.block j i' hi' ht hlt, ht, if_neg (by simp)]
    unfold closedPos
    cases hc : closeOf ts j with
    | none => rfl
    | some e =>
      obtain ⟨ie, hie, -, -⟩ := closeOf_inv hc
      have he : e < ts.length := lt_length hie
      show ofNat 32 (if e < ts.length then _ else _) = _
      rw [if_pos he]
      rfl
  · rw [h.tables.loop j i' hi' ht hlt, ht, if_pos rfl]

/-- In the second run the address of a function is that of its
declaration. -/
theorem PassRep.entry (h : PassRep prog cap false ts k s) (hf : (sigsOf ts)[n]? = some f) :
    (s.fns n).fnAddr = (finalEnv ts).entry n := by
  obtain ⟨d, hd, rfl⟩ := exists_declares hf
  have hlt : d < ts.length := by
    obtain ⟨i, hi, -⟩ := hd
    exact lt_length hi
  show _ = ofNat 32 ((declPos ts (declsBefore ts d)).elim 0 (pos ts))
  rw [declPos_eq hd]
  exact h.tables.entry d f hd hlt

/-- The tokens `asmCase` has no case for. -/
def plainToken (t : Token) : Bool :=
  match t with
  | .iConst | .getL | .setL | .block | .loop | .br | .brIf | .ret | .end_
  | .call | .vDeclfn | .iDeclfn => false
  | _ => true

theorem plainToken_inv (h : plainToken t = true) :
    t.operand = .none ∧ t.opens = false ∧ t ≠ .end_ ∧ t ≠ .call := by
  revert h
  cases t <;> decide

theorem tokenItems_plain {env : Env} (h : plainToken i.token = true) :
    tokenItems env ts k tr i = plainItems env.trapret i.token := by
  unfold tokenItems
  cases ht : i.token <;> rw [ht] at h <;> first | rfl | cases h

theorem asmCase_plain {base : Word} (h : plainToken t = true) :
    asmCase prog base cap gen w t s = emit base cap (plainItems w t) s := by
  cases t <;> first | rfl | cases h

/-- The state behind a branch, whose code differs between the runs in the
target alone. -/
theorem PassRep.branches (items : Word → List Item)
    (h : PassRep prog cap gen ts k s) (hacc : Accepted prog slot ts)
    (hi : ts[k]? = some i) (ht : i.token = .br ∨ i.token = .brIf)
    (hitems : ∀ (env : Env) (j : Nat), (openAt ts k)[i.arg.toInt.toNat]? = some j →
      items (env.target j) = tokenItems env ts k (track ts k) i)
    (hscan : Scans prog p (ts.drop (k + 1))) :
    Within (Room ts cap) (Next prog cap gen ts k i s) (do
      let blk ← s.blkAt i.arg.toInt
      emit 0 cap (items blk.brAddr) { s with place := p }) := by
  obtain ⟨j, i', hn, hj, hi', htj⟩ := accepted_label hacc hi ht
  rw [hn]
  have ho : i.token.opens = false := by
    rcases ht with ht | ht <;> rw [ht] <;> rfl
  have he : i.token ≠ .end_ ∧ i.token ≠ .call := by
    rcases ht with ht | ht <;> simp [ht]
  refine (h.blkAt hacc hj).bind fun blk ⟨hblk, _⟩ => h.emit_token ⟨0, fun _ => blk.brAddr, fun _ => 0⟩
    hi ho he.1 he.2 (hitems ⟨0, fun _ => blk.brAddr, fun _ => 0⟩ j hj)
    (fun hg => ?_) hscan
  subst hg
  rw [h.target hblk hi' htj]
  exact hitems (finalEnv ts) j hj

/-- The state behind a `call`, whose code is emitted in two parts. -/
theorem PassRep.calls {addr : Word}
    (h : PassRep prog cap gen ts k s) (hi : ts[k]? = some i)
    (ht : i.token = .call) (hf : sigNum (sigsOf ts) i.arg.toInt = some f)
    (haddr : gen = false → addr = (finalEnv ts).entry i.arg.toInt.toNat)
    (hscan : Scans prog p (ts.drop (k + 1))) :
    Within (Room ts cap) (Next prog cap gen ts k i s) (do
      let s ← emit 0 cap (callItems f addr
        ++ [popNil .ebp, fixed (.addImm .esp
          (ofNat 32 (4 * (f.params.length + f.locals.length))))])
        { s with place := p }
      emit 0 cap (if f.rt ≠ 0 then [push .eax] else [])
        { s with stkh := s.stkh - f.params.length }) := by
  have hu1 : Uniform (callItems f addr ++ [popNil .ebp, fixed (.addImm .esp
      (ofNat 32 (4 * (f.params.length + f.locals.length))))]) :=
    uniform_append.2 ⟨uniform_callItems f addr, uniform_map [.pop .ebp .nil,
      .addImm .esp (ofNat 32 (4 * (f.params.length + f.locals.length)))]⟩
  have hu2 : Uniform (if f.rt ≠ 0 then [push .eax] else []) := by
    split
    · exact uniform_map [.push .eax .stkh]
    · exact uniform_nil
  have hitems : ∀ env : Env, env.entry i.arg.toInt.toNat = addr →
      tokenItems env ts k (track ts k) i
        = (callItems f addr ++ [popNil .ebp, fixed (.addImm .esp
          (ofNat 32 (4 * (f.params.length + f.locals.length))))])
          ++ (if f.rt ≠ 0 then [push .eax] else []) := by
    intro env henv
    unfold tokenItems
    rw [ht]
    simp only [hf]
    rw [henv, returnItems, List.append_assoc]
  have hpos := pos_succ hi ⟨0, fun _ => 0, fun _ => addr⟩
  rw [hitems _ rfl, size_append, ← h.len, ← Nat.add_assoc] at hpos
  refine (within_emit hu1 fun hr => ?_).bind fun s1 ⟨hs1, hlen1, _⟩ =>
    (within_emit hu2 fun hr => ?_).imp (fun _ => id) fun s' ⟨hs2, hlen2, hfits⟩ => ?_
  · have := hr.fits hi
    rw [hpos] at this
    exact Nat.le_trans (Nat.le_add_right _ _) this
  · have := hr.fits hi
    rw [hpos] at this
    rw [hlen1]
    exact this
  -- none of the first part counts
  have hnet1 : net (callItems f addr ++ [popNil .ebp, fixed (.addImm .esp
      (ofNat 32 (4 * (f.params.length + f.locals.length))))]) = 0 := rfl
  have hnet2 : net (if f.rt ≠ 0 then [push .eax] else [])
      = if f.rt ≠ 0 then 1 else 0 := by
    split <;> rfl
  have hpush : ∀ p h p' h', resolve 0 (if f.rt ≠ 0 then [push .eax] else []) p h
      = resolve 0 (if f.rt ≠ 0 then [push .eax] else []) p' h' := by
    intro p h p' h'
    split <;> rfl
  have hlen : s'.buf.length = s.buf.length + size (tokenItems
      ⟨0, fun _ => 0, fun _ => addr⟩ ts k (track ts k) i) := by
    rw [hitems _ rfl, size_append, hlen2]
    show s1.buf.length + _ = _
    rw [hlen1]
    exact Nat.add_assoc _ _ _
  have hstkh : (trackStep ts k (track ts k) i).stkh = s'.stkh := by
    unfold trackStep
    rw [ht]
    simp only [hf]
    rw [hs2, hs1, hnet1, hnet2, ← h.stkh, Int.add_zero]
  have hne : i.token ≠ .end_ := by
    rw [ht]
    exact Token.noConfusion
  have ho : i.token.opens = false := by
    rw [ht]
    rfl
  refine ⟨h.emits ⟨0, fun _ => 0, fun _ => addr⟩ hi ho hne hstkh hscan hlen hfits ?_,
    fun hg => ?_, by simp [ho]⟩
  · rw [hs2, hs1]
  · unfold codeOf
    rw [hitems _ (haddr hg).symm, resolve_append hu1, bytesOf_append,
      ← List.append_assoc, hs2]
    show s1.buf ++ _ = _
    rw [hpush _ _ (s.buf.length + 0) 0, hpush (pos ts k + _) _ (s.buf.length + 0) 0,
      hs1, h.len, h.stkh]

/-- An opening token has no code. -/
theorem codeOf_opens (ho : i.token.opens = true) : codeOf ts k i = [] := by
  unfold codeOf tokenItems
  cases ht : i.token <;> rw [ht] at ho <;> first | rfl | cases ho

/-- The state behind a `block` or `loop`. -/
theorem PassRep.opens_blk {addr : Word} (h : PassRep prog cap gen ts k s)
    (hi : ts[k]? = some i) (ht : i.token = .block ∨ i.token = .loop)
    (hscan : Scans prog p (ts.drop (k + 1)))
    (hl : i.token = .loop → addr = ofNat 32 (pos ts k)) (hb : i.token = .block → addr = 0)
    (hent : gen = true → opensBefore ts (k + 1) ≤ 256) : Next prog cap gen ts k i s
        { s with
          place := p
          curBlk := s.curBlk + 1
          curBlkH := s.curBlkH + 1
          blkStk := fun x =>
            if x = s.curBlkH + 1 then s.curBlk + 1 else s.blkStk x
          blks := fun x =>
            if gen = true ∧ x = s.curBlk + 1 then ⟨addr, s.stkh⟩ else s.blks x } := by
  have hd : i.token.isDecl = false := by
    rcases ht with ht | ht <;> rw [ht] <;> rfl
  have ho : i.token.opens = true := by
    rcases ht with ht | ht <;> rw [ht] <;> rfl
  refine ⟨?_, fun _ => ?_, fun hg _ => hent hg⟩
  · have hrep := PassRep.opens s.fns ⟨addr, s.stkh⟩ h hi ho hscan h.info ?_
      (fun _ => rfl) ?_ hl (fun hd' => ?_) hb
    · simpa [hd] using hrep
    · intro hg d g hdec hlt
      subst hg
      rcases Nat.lt_succ_iff_lt_or_eq.1 hlt with hlt | rfl
      · exact h.tables.entry d g hdec hlt
      · obtain ⟨i', hi', hd', -⟩ := hdec
        rw [hi] at hi'
        cases hi'
        rw [hd] at hd'
        cases hd'
    · rw [entryHeight_block hi hd]
      exact h.stkh
    · rw [hd] at hd'
      cases hd'
  · rw [codeOf_opens ho]
    exact (List.append_nil _).symm

/-- The state behind a declaration. -/
theorem PassRep.opens_decl {addr : Word} (h : PassRep prog cap gen ts k s)
    (hi : ts[k]? = some i) (hd : i.token.isDecl = true) (hscan : Scans prog p (ts.drop (k + 1)))
    (haddr : addr = ofNat 32 (pos ts k)) (hent : gen = true → opensBefore ts (k + 1) ≤ 256) :
    Next prog cap gen ts k i s
        { s with
          place := p
          curFn := s.curFn + 1
          curBlk := s.curBlk + 1
          curBlkH := s.curBlkH + 1
          blkStk := fun x =>
            if x = s.curBlkH + 1 then s.curBlk + 1 else s.blkStk x
          fns := fun n =>
            if gen = true ∧ n = s.curFn + 1 then
              { s.fns n with fnAddr := addr }
            else s.fns n
          blks := fun x =>
            if gen = true ∧ x = s.curBlk + 1 then ⟨-1, 0⟩ else s.blks x } := by
  have ho := isDecl_opens hd
  have hfn : s.curFn + 1 = (declsBefore ts k : Int) := by
    have := h.fn
    omega
  refine ⟨?_, fun _ => ?_, fun hg _ => hent hg⟩
  · have hrep := PassRep.opens (fun n => if gen = true ∧ n = s.curFn + 1 then
        { s.fns n with fnAddr := addr } else s.fns n) ⟨-1, 0⟩ h hi ho hscan ?_ ?_ ?_
      (entryHeight_decl hi hd).symm ?_ (fun _ => rfl) ?_
    · simpa [hd] using hrep
    · intro n g hg
      have := h.info n g hg
      beta_reduce
      by_cases hn : gen = true ∧ (n : Int) = s.curFn + 1
      · rw [if_pos hn, this]
        rfl
      · rw [if_neg hn]
        exact this
    · intro hg d g hdec hlt
      subst hg
      rcases Nat.lt_succ_iff_lt_or_eq.1 hlt with hlt | rfl
      · have hne : (declsBefore ts d : Int) ≠ s.curFn + 1 := by
          intro he
          have hk : Declares ts k ⟨i.token.declRt, i.params, i.locals⟩ := ⟨i, hi, hd, rfl⟩
          have := hdec.unique hk (by omega)
          omega
        rw [if_neg (by simp [hne])]
        exact h.tables.entry d g hdec hlt
      · rw [if_pos ⟨rfl, hfn.symm⟩]
        exact haddr
    · intro hg
      subst hg
      simp
    · intro hl
      rw [hl] at hd
      cases hd
    · intro hb
      rw [hb] at hd
      cases hd
  · rw [codeOf_opens ho]
    exact (List.append_nil _).symm

/-- The state behind an instruction. -/
theorem asmStep_within (hacc : Accepted prog slot ts) (hcap : cap < 2 ^ 32)
    (h : PassRep prog cap gen ts k s) (hi : ts[k]? = some i) :
    Within (Room ts cap) (Next prog cap gen ts k i s)
      (asmStep prog 0 cap gen (ofNat 32 trapretPos) s) := by
  obtain ⟨-, q, hin, hscan⟩ := h.scan.head hi
  obtain ⟨b, hb, hbt, hnone, hint, htypes⟩ := instrAt_inv hin
  unfold asmStep
  rw [hb]
  simp only [hbt]
  by_cases hp : plainToken i.token = true
  · obtain ⟨hop, ho, he, hc⟩ := plainToken_inv hp
    rw [asmCase_plain hp, ← hnone hop]
    have hitems : plainItems (ofNat 32 trapretPos) i.token
        = tokenItems (finalEnv ts) ts k (track ts k) i := by
      rw [tokenItems_plain hp]
      rfl
    exact h.emit_token (finalEnv ts) hi ho he hc hitems (fun _ => hitems) hscan
  cases ht : i.token
  case iConst =>
    have hitems : [fixed (.movImm .eax i.arg), push .eax]
        = tokenItems (finalEnv ts) ts k (track ts k) i := by
      unfold tokenItems
      rw [ht]
    exact .known (operand_ok (hint (by rw [ht]; rfl))) (h.emit_token (finalEnv ts) hi
      (by rw [ht]; rfl) (by simp [ht]) (by simp [ht]) hitems (fun _ => hitems) hscan)
  case getL =>
    refine .known (operand_ok (hint (by rw [ht]; rfl))) ((h.fnAt hacc hi (by rw [ht]; rfl)).bind
      fun fn ⟨g, hg, hfn⟩ => ?_)
    have hitems : [fixed (.movFromDisEbp .eax (localDis fn i.arg)), push .eax]
        = tokenItems (finalEnv ts) ts k (track ts k) i := by
      unfold tokenItems
      rw [ht]
      simp only [hg]
      rw [hfn]
      rfl
    exact h.emit_token (finalEnv ts) hi (by rw [ht]; rfl) (by simp [ht])
      (by simp [ht]) hitems (fun _ => hitems) hscan
  case setL =>
    refine .known (operand_ok (hint (by rw [ht]; rfl))) ((h.fnAt hacc hi (by rw [ht]; rfl)).bind
      fun fn ⟨g, hg, hfn⟩ => ?_)
    have hitems : [pop .eax, fixed (.movDisEbp (localDis fn i.arg) .eax)]
        = tokenItems (finalEnv ts) ts k (track ts k) i := by
      unfold tokenItems
      rw [ht]
      simp only [hg]
      rw [hfn]
      rfl
    exact h.emit_token (finalEnv ts) hi (by rw [ht]; rfl) (by simp [ht])
      (by simp [ht]) hitems (fun _ => hitems) hscan
  case br =>
    refine .known (operand_ok (hint (by rw [ht]; rfl))) (h.branches (fun w => [dropAll, jmp w])
      hacc hi (Or.inl ht) (fun env j hj => ?_) hscan)
    unfold tokenItems
    rw [ht]
    simp only [hj]
  case brIf =>
    refine .known (operand_ok (hint (by rw [ht]; rfl))) (h.branches (fun w => [pop .eax,
      fixed (.test .eax .eax), fixed (.jzRel 0 17), dropAll, jmp w])
      hacc hi (Or.inr ht) (fun env j hj => ?_) hscan)
    unfold tokenItems
    rw [ht]
    simp only [hj]
  case ret =>
    refine (h.fnAt hacc hi (by rw [ht]; rfl)).bind fun fn ⟨g, hg, hfn⟩ => ?_
    rw [← hnone (by rw [ht]; rfl)]
    have hitems : (if fn.rt ≠ 0 then [pop .eax] else []) ++ [fixed (.mov .esp .ebp), fixed .ret]
        = tokenItems (finalEnv ts) ts k (track ts k) i := by
      unfold tokenItems
      rw [ht]
      simp only [hg]
      rw [hfn]
      rfl
    exact h.emit_token (finalEnv ts) hi (by rw [ht]; rfl) (by simp [ht])
      (by simp [ht]) hitems (fun _ => hitems) hscan
  case end_ =>
    rw [← hnone (by rw [ht]; rfl)]
    exact h.ends hacc hcap hi ht hscan
  case call =>
    obtain ⟨f, hf⟩ := accepted_callee hacc hi ht
    obtain ⟨hn, hsig⟩ := sigNum_inv hf
    have hlt := lt_length hsig
    have hfns := hacc.fns
    have hfn : s.fnAt i.arg.toInt = .ok (s.fns i.arg.toInt) := by
      refine bind_eq_ok.2 ⟨(), inRange_decide.2 ?_, rfl⟩
      unfold fnInfosSz
      omega
    have hinfo := h.info _ _ hsig
    rw [← hn] at hinfo
    rw [hinfo] at hfn
    refine .known (operand_ok (hint (by rw [ht]; rfl))) (.known hfn ?_)
    refine h.calls hi ht hf (fun hg => ?_) hscan
    subst hg
    have := h.entry hsig
    rwa [← hn] at this
  case block =>
    rw [← hnone (by rw [ht]; rfl)]
    refine (h.openBlk s.curFn hacc hi (by rw [ht]; rfl)).bind fun s1 hs1 => ?_
    subst hs1
    refine (h.record hi (by rw [ht]; rfl) rfl).imp (fun _ => id) fun s' ⟨hs', hent⟩ => ?_
    rw [hs']
    exact h.opens_blk hi (Or.inl ht) hscan (fun hl => by simp [ht] at hl) (fun _ => rfl) hent
  case loop =>
    rw [← hnone (by rw [ht]; rfl)]
    refine (h.openBlk s.curFn hacc hi (by rw [ht]; rfl)).bind fun s1 hs1 => ?_
    subst hs1
    refine (h.record hi (by rw [ht]; rfl) rfl).imp (fun _ => id) fun s' ⟨hs', hent⟩ => ?_
    rw [hs']
    refine h.opens_blk hi (Or.inr ht) hscan (fun _ => ?_) (fun hb => by simp [ht] at hb) hent
    show 0#32 + ofNat 32 s.buf.length = _
    rw [h.len, BitVec.zero_add]
  case vDeclfn | iDeclfn =>
    obtain ⟨r, hps, hls⟩ := htypes (by rw [ht]; rfl)
    have hd : i.token.isDecl = true := by rw [ht]; rfl
    refine (h.openBlk (s.curFn + 1) hacc hi (isDecl_opens hd)).bind fun s1 hs1 => ?_
    subst hs1
    refine .known (skipTypeList_of hps) (.known (skipTypeList_of hls)
      ((within_recordFn fun _ => ?_).bind fun s2 hs2 => ?_))
    · have h1 := accepted_decls hacc (lt_length hi)
      have h2 := h.fn
      rw [declsBefore_succ hi, hd, if_pos rfl] at h1
      show 0 ≤ s.curFn + 1 ∧ s.curFn + 1 < 64
      omega
    subst hs2
    refine (h.record hi (isDecl_opens hd) rfl).imp (fun _ => id) fun s' ⟨hs', hent⟩ => ?_
    rw [hs']
    refine h.opens_decl hi hd hscan ?_ hent
    show 0#32 + ofNat 32 s.buf.length = _
    rw [h.len, BitVec.zero_add]
  all_goals
    rw [ht] at hp
    exact absurd rfl hp

theorem asmStep_rep (hacc : Accepted prog slot ts) (hcap : cap < 2 ^ 32)
    (h : PassRep prog cap gen ts k s) (hi : ts[k]? = some i)
    (hs : asmStep prog 0 cap gen (ofNat 32 trapretPos) s = .ok s') :
    Next prog cap gen ts k i s s' :=
  (asmStep_within hacc hcap h hi).of_ok hs

-- ======== the two runs

theorem uniform_prelude (w : Word) (n : Nat) : Uniform (prelude w n) := by
  unfold prelude pushNil
  simp only [uniform_cons]
  exact ⟨uniform_fixed _, uniform_fixed _, uniform_fixed _, uniform_fixed _,
    uniform_fixed _, uniform_fixed _, uniform_fixed _, uniform_fixed _,
    uniform_fixed _, uniform_fixed _, uniform_fixed _, uniform_fixed _,
    uniform_fixed _, uniform_fixed _, uniform_fixed _, uniform_fixed _,
    uniform_fixed _, uniform_call w, uniform_nil⟩

theorem uniform_goodret : Uniform goodret :=
  uniform_map [.pop .esp .nil, .pop .esp .nil, .pop .edi .nil, .pop .esi .nil,
    .pop .ebx .nil, .pop .ebp .nil, .xor .eax .eax, .ret]

theorem uniform_trapret (w : Word) : Uniform (trapret w) :=
  uniform_map [.mov .esp .ebp, .movImm .ebx w, .pop .eax .nil, .pop .esp .nil,
    .cmp .eax .ebx, .jneRel 0 (-4), .pop .esp .nil, .pop .edi .nil,
    .pop .esi .nil, .pop .ebx .nil, .pop .ebp .nil, .movImm .eax (-1), .ret]

theorem subEsp_length (imm : Word) : (fixed (.subImm .esp imm) 0 0).bytes.length = 6 := rfl

theorem size_prelude (w : Word) (n : Nat) : size (prelude w n) = goodretPos := by
  unfold prelude
  -- the count of locals is in one operand, and the operand takes four bytes
  simp only [size_cons, call_length, subEsp_length]
  decide

theorem size_goodret : goodretPos + size goodret = trapretPos := rfl

theorem size_trapret (w : Word) : trapretPos + size (trapret w) = startPos := rfl

/-- The code in front of the first token and the addresses in it. -/
theorem header_eq {base : Word} (g : Globals) :
    header base g = (bytesOf (resolve base (prelude g.startAddr (g.fns 0).localN) 0 0
        ++ resolve base goodret goodretPos 0
        ++ resolve base (trapret (ofNat 32 goodretPos)) trapretPos 0),
      { g with
        goodretAddr := ofNat 32 goodretPos
        trapretAddr := ofNat 32 trapretPos
        startAddr := ofNat 32 startPos }) := by
  have hpre : (bytesOf (resolve base (prelude g.startAddr (g.fns 0).localN) 0 0)).length
      = goodretPos := by
    rw [resolve_length (uniform_prelude _ _), size_prelude]
  have hgood : (bytesOf (resolve base goodret goodretPos 0)).length = size goodret :=
    resolve_length uniform_goodret
  have htrap : (bytesOf (resolve base (trapret (ofNat 32 goodretPos))
      trapretPos 0)).length = size (trapret (ofNat 32 goodretPos)) :=
    resolve_length (uniform_trapret _)
  unfold header
  simp only [assemble_eq (uniform_prelude _ _), assemble_eq uniform_goodret,
    assemble_eq (uniform_trapret _), List.nil_append, List.length_append,
    List.length_nil, hpre, hgood, size_goodret, htrap, size_trapret, bytesOf_append]

theorem header_length (g : Globals) : (header 0 g).1.length = startPos := by
  rw [header_eq]
  simp only [bytesOf_append, List.length_append,
    resolve_length (uniform_prelude _ _), resolve_length uniform_goodret,
    resolve_length (uniform_trapret _), size_prelude, size_goodret, size_trapret]

/-- The state a run starts in. -/
theorem PassRep.init (hsc : Scans prog 0 ts) (hcap : startPos ≤ cap) (hinfo : Listed ts g.fns)
    (htab : gen = false → Tables ts ts.length g.fns g.blks) :
    PassRep prog cap gen ts 0 (passInit 0 g) := by
  refine ⟨Nat.zero_le _, hsc, header_length g, ?_, rfl, rfl, rfl, rfl, fun n j hj => ?_, hinfo, ?_⟩
  · rw [← header_length g] at hcap
    exact hcap
  · cases hj
  · cases gen with
    | false => exact htab rfl
    | true =>
      refine ⟨fun d g _ h => ?_, fun j i _ _ h => ?_, fun j i _ _ h => ?_,
        fun j i _ _ h => ?_, fun j i _ _ h => ?_⟩ <;> cases h

theorem populateInfos_inv (h : populateInfos prog 0 cap gen g = .ok r) :
    startPos ≤ cap ∧ ∃ s, whileLt prog.length AsmState.place
        (asmStep prog 0 cap gen (ofNat 32 trapretPos)) prog.length (passInit 0 g) = .ok s
      ∧ r = (⟨ofNat 32 goodretPos, ofNat 32 trapretPos,
          ofNat 32 startPos, s.fns, s.blks⟩, s.buf) := by
  unfold populateInfos at h
  obtain ⟨_, hc, h⟩ := bind_eq_ok.1 h
  rw [inRange_decide, header_length] at hc
  obtain ⟨s, hs, h⟩ := bind_eq_ok.1 h
  rw [header_eq] at hs h
  cases h
  exact ⟨hc, s, hs, rfl⟩

theorem written_succ (hi : ts[k]? = some i) :
    written ts (k + 1) = written ts k ++ bytesOf (codeOf ts k i) := by
  rw [written, hi]

/-- A program with instructions has a first function. -/
theorem accepted_main (hacc : Accepted prog slot ts) (hne : ts ≠ []) :
    ∃ g, (sigsOf ts)[0]? = some g := by
  obtain ⟨i, hi⟩ : ∃ i, ts[0]? = some i := ⟨_, List.getElem?_eq_getElem (List.length_pos_iff.2 hne)⟩
  cases hd : i.token.isDecl with
  | false => exact absurd rfl (hacc.inFn hi hd)
  | true =>
    have hdecl : Declares ts 0 ⟨i.token.declRt, i.params, i.locals⟩ := ⟨i, hi, hd, rfl⟩
    exact ⟨_, hdecl.sig⟩

theorem globalsInit_info (hsc : Scans prog 0 ts)
    (hg : globalsInit prog = .ok g) (hf : (sigsOf ts)[n]? = some f) :
    g.fns n = Sig.info f (g.fns n).fnAddr := by
  obtain ⟨fs, hfs, hg⟩ := bind_eq_ok.1 hg
  cases hg
  have : fs.fns n = Sig.info f 0 := asmPopulateFns_sigs hsc hfs hf
  show fs.fns n = Sig.info f (fs.fns n).fnAddr
  rw [this]
  rfl

/-- What a run passes through, from a state that describes the tables. -/
theorem populateInfos_states (hacc : Accepted prog slot ts) (hcap : cap < 2 ^ 32)
    (hinfo : Listed ts g.fns) (htab : gen = false → Tables ts ts.length g.fns g.blks)
    (hr : populateInfos prog 0 cap gen g = .ok r) : (∀ k, k ≤ ts.length → ∃ s,
      iterate (asmStep prog 0 cap gen (header 0 g).2.trapretAddr) k
        (passInit 0 g) = .ok s ∧ PassRep prog cap gen ts k s)
      ∧ ∃ s, iterate (asmStep prog 0 cap gen (header 0 g).2.trapretAddr)
          ts.length (passInit 0 g) = .ok s
        ∧ r = (⟨ofNat 32 goodretPos, ofNat 32 trapretPos,
          ofNat 32 startPos, s.fns, s.blks⟩, s.buf) := by
  have hsc := hacc.scans
  have htrap : (header 0 g).2.trapretAddr = ofNat 32 trapretPos := by
    rw [header_eq]
  rw [htrap]
  obtain ⟨hcap1, s, hs, hr⟩ := populateInfos_inv hr
  have hinit : PassRep prog cap gen ts 0 (passInit 0 g) := PassRep.init hsc hcap1 hinfo htab
  obtain ⟨hit, hall⟩ := whileLt_tokens (fun k t ht => PassRep.scan ht)
    (fun k t t' i ht hi hs => (asmStep_rep hacc hcap ht hi hs).1) hinit hsc.fuel hs
  exact ⟨hall, s, hit, hr⟩

/-- What the first run leaves: the address of the first token's code and
tables that describe the whole program. -/
theorem populateInfos_first (hacc : Accepted prog slot ts)
    (hcap : cap < 2 ^ 32) (hg : globalsInit prog = .ok g)
    (hr : populateInfos prog 0 cap true g = .ok r) : r.1.startAddr = ofNat 32 startPos
      ∧ Listed ts r.1.fns ∧ Tables ts ts.length r.1.fns r.1.blks := by
  obtain ⟨hall, s, hit, hr⟩ := populateInfos_states hacc hcap
    (fun n f => globalsInit_info hacc.scans hg) (fun h => by cases h) hr
  obtain ⟨t, ht, hrep⟩ := hall ts.length (Nat.le_refl _)
  have hst : s = t := Except.ok.inj (hit.symm.trans ht)
  rw [hr, hst]
  exact ⟨rfl, hrep.info, hrep.tables⟩

/-- What the second run writes, from such tables. -/
theorem populateInfos_second (hacc : Accepted prog slot ts) (hne : ts ≠ [])
    (hcap : cap < 2 ^ 32) (hstart : g.startAddr = ofNat 32 startPos)
    (hinfo : Listed ts g.fns) (htab : Tables ts ts.length g.fns g.blks)
    (hr : populateInfos prog 0 cap false g = .ok r) : r.2 = written ts ts.length
      ∧ ∀ k, k ≤ ts.length → ∃ s, iterate (asmStep prog 0 cap false (ofNat 32 trapretPos)) k
          (passInit 0 g) = .ok s ∧ PassRep prog cap false ts k s ∧ s.buf = written ts k := by
  have hsc := hacc.scans
  obtain ⟨hcap1, s, hs, hr⟩ := populateInfos_inv hr
  have hinit : PassRep prog cap false ts 0 (passInit 0 g) :=
    PassRep.init hsc hcap1 hinfo fun _ => htab
  have hbuf : (passInit 0 g).buf = written ts 0 := by
    obtain ⟨gm, hgm⟩ := accepted_main hacc hne
    have hmain : (g.fns 0).localN = mainLocals ts := by
      have := hinfo 0 gm hgm
      rw [Nat.cast_zero] at this
      rw [this]
      unfold mainLocals
      rw [hgm]
      rfl
    show (header 0 g).1 = bytesOf (headerOps (mainLocals ts))
    rw [header_eq, hmain, hstart]
    rfl
  have hstep : ∀ k t t' i, PassRep prog cap false ts k t ∧ t.buf = written ts k → ts[k]? = some i →
      asmStep prog 0 cap false (ofNat 32 trapretPos) t = .ok t' →
      PassRep prog cap false ts (k + 1) t' ∧ t'.buf = written ts (k + 1) := by
    intro k t t' i ht hi hs
    obtain ⟨hrep, hb, -⟩ := asmStep_rep hacc hcap ht.1 hi hs
    rw [written_succ hi, ← ht.2]
    exact ⟨hrep, hb rfl⟩
  obtain ⟨hit, hall⟩ := whileLt_tokens (fun k t ht => PassRep.scan ht.1)
    hstep ⟨hinit, hbuf⟩ hsc.fuel hs
  obtain ⟨t, ht, -, hb⟩ := hall ts.length (Nat.le_refl _)
  have hst : s = t := Except.ok.inj (hit.symm.trans ht)
  rw [hr, hst]
  exact ⟨hb, hall⟩

/-- What the compiler puts out: the code the layout says, and the second
run has written the part in front of instruction `k` when it gets
there. -/
theorem toAsm_layout {code : List Byte}
    (hacc : Accepted prog slot ts) (hne : ts ≠ []) (hcap : cap < 2 ^ 32)
    (h : toAsm prog 0 cap = .ok code) : code = written ts ts.length
      ∧ ∀ k, k ≤ ts.length → ∃ s, asmAt prog 0 cap k = .ok s
        ∧ PassRep prog cap false ts k s ∧ s.buf = written ts k := by
  unfold toAsm at h
  obtain ⟨g, hg, h⟩ := bind_eq_ok.1 h
  obtain ⟨⟨g1, b1⟩, hr1, h⟩ := bind_eq_ok.1 h
  obtain ⟨⟨g2, b2⟩, hr2, h⟩ := bind_eq_ok.1 h
  obtain ⟨hstart, hinfo, htab⟩ := populateInfos_first hacc hcap hg hr1
  obtain ⟨hcode, hall⟩ := populateInfos_second hacc hne hcap hstart hinfo htab hr2
  refine ⟨(Except.ok.inj h).symm.trans hcode, fun k hk => ?_⟩
  obtain ⟨t, ht, hrep⟩ := hall k hk
  have htrap : (header 0 g1).2.trapretAddr = ofNat 32 trapretPos := by
    rw [header_eq]
  rw [← htrap] at ht
  refine ⟨t, bind_eq_ok.2 ⟨g, hg, bind_eq_ok.2 ⟨(g1, b1), hr1, ht⟩⟩, hrep⟩

/-- Both runs pass through states that describe the same program. -/
theorem toAsm_states {code : List Byte}
    (hacc : Accepted prog slot ts) (hcap : cap < 2 ^ 32) (h : toAsm prog 0 cap = .ok code) :
    ∀ k, k ≤ ts.length → ∃ s s', asmGenAt prog 0 cap k = .ok s ∧ asmAt prog 0 cap k = .ok s'
      ∧ PassRep prog cap true ts k s ∧ PassRep prog cap false ts k s' := by
  intro k hk
  unfold toAsm at h
  obtain ⟨g, hg, h⟩ := bind_eq_ok.1 h
  obtain ⟨⟨g1, b1⟩, hr1, h⟩ := bind_eq_ok.1 h
  obtain ⟨⟨g2, b2⟩, hr2, h⟩ := bind_eq_ok.1 h
  obtain ⟨-, hinfo, htab⟩ := populateInfos_first hacc hcap hg hr1
  obtain ⟨s, hs, hrep⟩ := (populateInfos_states hacc hcap
    (fun n f => globalsInit_info hacc.scans hg) (fun h => by cases h) hr1).1 k hk
  obtain ⟨s', hs', hrep'⟩ := (populateInfos_states hacc hcap hinfo (fun _ => htab) hr2).1 k hk
  exact ⟨s, s', bind_eq_ok.2 ⟨g, hg, hs⟩,
    bind_eq_ok.2 ⟨g, hg, bind_eq_ok.2 ⟨(g1, b1), hr1, hs'⟩⟩, hrep, hrep'⟩

end Xv6Sume32.Asm
