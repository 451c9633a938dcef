/-
The verifier and the compiler read the same program.

Five loops walk the bytes by themselves: `populate_fns` and the loop of
`verify`, `asm_populate_fns` and the two runs of `populate_infos`. The
compiler's loops look at no error result, so they agree with the others
only on programs the others accept.

# Places

A loop reads instructions if a round that starts at an instruction ends
behind it (`Reads`). Then the place of the loop after `k` rounds is
`placeOf prog k`, whatever else the loop does (`Reads.place`); what is
left is one lemma for each of the loops. The counters come from the
invariants the loops' own proofs have.
-/
import Xv6Sume32.Asm.Proofs.Passes

namespace Xv6Sume32.Asm

open Lib X86 Sume

variable {prog : List Byte} {slot : Int} {ts : List Sume.Instr}

variable {k p q : Nat} {i : Sume.Instr} {fs : AsmPopState}

-- ======== places

/-- The rounds of a loop read one instruction each. -/
def Reads {σ : Type} (prog : List Byte) (place : σ → Nat) (body : σ → Res σ) :
    Prop :=
  ∀ s s' i q, body s = .ok s' → instrAt prog (place s) = .ok (i, q) →
    place s' = q

theorem placeOf_succ (hp : placeOf prog k = .ok p)
    (hi : instrAt prog p = .ok (i, q)) : placeOf prog (k + 1) = .ok q := by
  refine iterate_snoc hp ?_
  rw [hi]
  rfl

/-- Where the instructions of a program are. -/
theorem scans_placeOf (hsc : Scans prog 0 ts) : ∀ k, k ≤ ts.length → ∃ p, placeOf prog k = .ok p
      ∧ Scans prog p (ts.drop k) := by
  intro k
  induction k with
  | zero => exact fun _ => ⟨0, rfl, hsc⟩
  | succ k ih =>
    intro hk
    obtain ⟨p, hp, hrest⟩ := ih (by omega)
    obtain ⟨-, q, hi, hrest⟩ := hrest.head (List.getElem?_eq_getElem hk)
    exact ⟨q, placeOf_succ hp hi, hrest⟩

/-- A loop that reads instructions is at instruction `k` after `k`
rounds. -/
theorem Reads.place {σ : Type} {place : σ → Nat} {body : σ → Res σ}
    (hr : Reads prog place body) (hsc : Scans prog 0 ts) {s0 : σ} (h0 : place s0 = 0) :
    ∀ {k : Nat} {s : σ}, k ≤ ts.length → iterate body k s0 = .ok s →
      placeOf prog k = .ok (place s) := by
  intro k
  induction k with
  | zero =>
    intro s _ h
    cases h
    rw [h0]
    rfl
  | succ k ih =>
    intro s hk h
    obtain ⟨t, ht⟩ := iterate_prefix h (Nat.le_succ k)
    have hp := ih (by omega) ht
    obtain ⟨p, hp', hrest⟩ := scans_placeOf hsc k (by omega)
    rw [hp] at hp'
    cases hp'
    obtain ⟨-, q, hi, -⟩ := hrest.head (List.getElem?_eq_getElem hk)
    rw [hr t s _ q (iterate_step ht h) hi]
    exact placeOf_succ hp hi

theorem getTypeListLoop_le {place : Nat} : ∀ {fuel n : Nat} {acc tys : List Ty} {p : Nat},
      getTypeListLoop prog place fuel n acc = .ok (tys, p) → p ≤ prog.length := by
  intro fuel
  induction fuel with
  | zero =>
    intro n acc tys p h
    cases h
  | succ fuel ih =>
    intro n acc tys p h
    unfold getTypeListLoop at h
    cases hc : typeCode prog place n with
    | none =>
      rw [hc] at h
      cases h
    | some t =>
      rw [hc] at h
      dsimp only at h
      split at h
      · cases h
        unfold typeCode at hc
        obtain ⟨b, hb, -⟩ := Option.map_eq_some_iff.1 hc
        have := lt_length hb
        omega
      · obtain ⟨_, -, h⟩ := bind_eq_ok.1 h
        exact ih h

/-- An instruction ends inside the program. -/
theorem instrAt_le
    (h : instrAt prog p = .ok (i, q)) : q ≤ prog.length := by
  obtain ⟨b, hb, -, hnone, hint, htypes⟩ := instrAt_inv h
  cases hop : i.token.operand with
  | none =>
    have := lt_length hb
    have := hnone hop
    omega
  | int =>
    have hv := hint hop
    unfold getInt at hv
    split at hv
    · cases hv
    · have hq := congrArg Prod.snd (Except.ok.inj hv)
      dsimp only at hq
      omega
  | types =>
    obtain ⟨r, -, hls⟩ := htypes hop
    exact getTypeListLoop_le hls

/-- The instructions end where the program does. -/
theorem scans_placeOf_length (hsc : Scans prog 0 ts) :
    placeOf prog ts.length = .ok prog.length := by
  obtain ⟨p, hp, hrest⟩ := scans_placeOf hsc ts.length (Nat.le_refl _)
  rw [List.drop_length] at hrest
  cases hrest with
  | nil hge =>
    rw [hp]
    congr 1
    refine Nat.le_antisymm ?_ hge
    cases hk : ts.length with
    | zero =>
      rw [hk] at hp
      cases hp
      exact Nat.zero_le _
    | succ k =>
      obtain ⟨p', hp', hrest'⟩ := scans_placeOf hsc k (by omega)
      obtain ⟨-, q, hi, -⟩ := hrest'.head (List.getElem?_eq_getElem (by omega))
      rw [hk, placeOf_succ hp' hi] at hp
      cases hp
      exact instrAt_le hi

-- ======== the loops

theorem populateStep_reads : Reads prog PopState.place (populateStep prog) := by
  intro s s' i q h hi
  obtain ⟨j, hj, -⟩ := populateStep_inv h
  exact congrArg Prod.snd (Except.ok.inj (hj.symm.trans hi))

theorem asmPopulateStep_reads : Reads prog AsmPopState.place (asmPopulateStep prog) := by
  intro s s' i q h hi
  obtain ⟨b, hb, ht, hnone, hint, htypes⟩ := instrAt_inv hi
  unfold asmPopulateStep at h
  rw [hb] at h
  simp only [ht] at h
  cases hop : i.token.operand with
  | none =>
    rw [hop] at h
    cases h
    exact (hnone hop).symm
  | int =>
    rw [hop] at h
    obtain ⟨⟨v, p⟩, hv, h⟩ := bind_eq_ok.1 h
    rw [hint hop] at hv
    cases hv
    cases h
    rfl
  | types =>
    rw [hop] at h
    obtain ⟨r, hps, hls⟩ := htypes hop
    unfold asmAddFn at h
    obtain ⟨_, -, h⟩ := bind_eq_ok.1 h
    obtain ⟨⟨ps, p⟩, hp, h⟩ := bind_eq_ok.1 h
    rw [hps] at hp
    cases hp
    obtain ⟨⟨ls, p'⟩, hl, h⟩ := bind_eq_ok.1 h
    rw [hls] at hl
    cases hl
    cases h
    rfl

section Pass

variable {base w : Word} {cap : Nat} {gen : Bool} {s s' : AsmState}

theorem emit_place {items : List Item} (h : emit base cap items s = .ok s') :
    s'.place = s.place := by
  unfold emit at h
  obtain ⟨_, -, h⟩ := bind_eq_ok.1 h
  cases h
  rfl

theorem endCase_place (h : endCase base cap gen s = .ok s') : s'.place = s.place := by
  unfold endCase at h
  split at h
  · obtain ⟨own, -, h⟩ := bind_eq_ok.1 h
    obtain ⟨parent, -, h⟩ := bind_eq_ok.1 h
    obtain ⟨t, ht, h⟩ := bind_eq_ok.1 h
    have hp := emit_place ht
    cases h
    dsimp only at hp ⊢
    split <;> exact hp
  · cases h
    rfl

theorem operand_inv {r : Word × Nat} (h : operand prog p = .ok r) :
    getInt prog p = .ok r := by
  unfold operand at h
  split at h
  · next hr =>
      cases h
      exact hr
  · cases h

/-- What a case of the switch reads behind its token. -/
theorem asmCase_place {t : Token} (h : asmCase prog base cap gen w t s = .ok s') :
    (t.operand = .none → s'.place = s.place)
      ∧ (t.operand = .int → ∃ v, getInt prog s.place = .ok (v, s'.place))
      ∧ (t.operand = .types → ∃ p, skipTypeList prog s.place = .ok p
        ∧ skipTypeList prog p = .ok s'.place) := by
  by_cases hplain : plainToken t = true
  · rw [asmCase_plain hplain] at h
    refine ⟨fun _ => emit_place h, fun hop => ?_, fun hop => ?_⟩
    · rw [(plainToken_inv hplain).1] at hop
      cases hop
    · rw [(plainToken_inv hplain).1] at hop
      cases hop
  unfold asmCase at h
  cases t
  case iConst =>
    obtain ⟨⟨v, p⟩, hv, h⟩ := bind_eq_ok.1 h
    refine ⟨fun hop => (by cases hop), fun _ => ⟨v, ?_⟩, fun hop => (by cases hop)⟩
    rw [emit_place h]
    exact operand_inv hv
  case getL | setL | br | brIf =>
    obtain ⟨⟨v, p⟩, hv, h⟩ := bind_eq_ok.1 h
    obtain ⟨_, -, h⟩ := bind_eq_ok.1 h
    refine ⟨fun hop => (by cases hop), fun _ => ⟨v, ?_⟩, fun hop => (by cases hop)⟩
    rw [emit_place h]
    exact operand_inv hv
  case call =>
    obtain ⟨⟨v, p⟩, hv, h⟩ := bind_eq_ok.1 h
    obtain ⟨fn, -, h⟩ := bind_eq_ok.1 h
    obtain ⟨t, ht, h⟩ := bind_eq_ok.1 h
    refine ⟨fun hop => (by cases hop), fun _ => ⟨v, ?_⟩, fun hop => (by cases hop)⟩
    rw [emit_place h]
    show getInt prog s.place = .ok (v, t.place)
    rw [emit_place ht]
    exact operand_inv hv
  case ret =>
    obtain ⟨fn, -, h⟩ := bind_eq_ok.1 h
    exact ⟨fun _ => emit_place h, fun hop => (by cases hop), fun hop => (by cases hop)⟩
  case end_ =>
    exact ⟨fun _ => endCase_place h, fun hop => (by cases hop), fun hop => (by cases hop)⟩
  case block | loop =>
    obtain ⟨t, ht, h⟩ := bind_eq_ok.1 h
    refine ⟨fun _ => ?_, fun hop => (by cases hop), fun hop => (by cases hop)⟩
    rw [record_inv h, openBlk_inv ht]
  case vDeclfn | iDeclfn =>
    obtain ⟨t, ht, h⟩ := bind_eq_ok.1 h
    obtain ⟨p, hp, h⟩ := bind_eq_ok.1 h
    obtain ⟨p', hp', h⟩ := bind_eq_ok.1 h
    obtain ⟨u, hu, h⟩ := bind_eq_ok.1 h
    refine ⟨fun hop => (by cases hop), fun hop => (by cases hop), fun _ => ⟨p, ?_, ?_⟩⟩
    · rw [openBlk_inv ht] at hp
      exact hp
    · rw [record_inv h, recordFn_inv hu]
      exact hp'
  all_goals exact absurd rfl hplain

theorem asmStep_reads : Reads prog AsmState.place (asmStep prog base cap gen w) := by
  intro s s' i q h hi
  obtain ⟨b, hb, ht, hnone, hint, htypes⟩ := instrAt_inv hi
  unfold asmStep at h
  rw [hb] at h
  simp only [ht] at h
  obtain ⟨h0, h1, h2⟩ := asmCase_place h
  cases hop : i.token.operand with
  | none => exact (h0 hop).trans (hnone hop).symm
  | int =>
    obtain ⟨v, hv⟩ := h1 hop
    rw [hint hop] at hv
    cases hv
    rfl
  | types =>
    obtain ⟨p, hp, hq⟩ := h2 hop
    obtain ⟨r, hps, hls⟩ := htypes hop
    rw [skipTypeList_of hps] at hp
    cases hp
    rw [skipTypeList_of hls] at hq
    cases hq
    rfl

end Pass

-- ======== the counters

/-- `populate_fns` after `k` instructions. -/
theorem populateAt_inv (hsc : Scans prog 0 ts) {pop : PopState}
    (h : populateFns prog FnTable.empty = .ok pop) : populateAt prog ts.length = .ok pop
      ∧ ∀ k, k ≤ ts.length → ∃ s, populateAt prog k = .ok s ∧ s.fnNum = declsBefore ts k := by
  have hstep : ∀ k t t' i, (Scans prog t.place (ts.drop k) ∧ TableRep t.tab (sigsOf (ts.take k))
        ∧ t.fnNum = (sigsOf (ts.take k)).length) → ts[k]? = some i → populateStep prog t = .ok t' →
      Scans prog t'.place (ts.drop (k + 1)) ∧ TableRep t'.tab (sigsOf (ts.take (k + 1)))
        ∧ t'.fnNum = (sigsOf (ts.take (k + 1))).length := by
    rintro k t t' i ⟨hrest, htab, hnum⟩ hi hs
    obtain ⟨-, q, hq, hrest⟩ := hrest.head hi
    obtain ⟨j, hj, hstep⟩ := populateStep_inv hs
    obtain ⟨htab', hnum'⟩ := hstep htab hnum
    rw [hq] at hj
    cases hj
    rw [List.take_add_one, hi, sigsOf_append]
    exact ⟨hrest, htab', hnum'⟩
  obtain ⟨hend, hall⟩ := whileLt_tokens (fun k t ht => ht.1) hstep
    ⟨hsc, tableRep_empty, rfl⟩ hsc.fuel h
  refine ⟨hend, fun k hk => ?_⟩
  obtain ⟨t, ht, -, -, hnum⟩ := hall k hk
  exact ⟨t, ht, hnum⟩

/-- `asm_populate_fns` after `k` instructions. -/
theorem asmPopulateAt_inv (hsc : Scans prog 0 ts)
    (h : asmPopulateFns prog = .ok fs) : asmPopulateAt prog ts.length = .ok fs
      ∧ ∀ k, k ≤ ts.length → ∃ s, asmPopulateAt prog k = .ok s ∧ AsmPopInv prog ts k s := by
  have h0 : AsmPopInv prog ts 0 ⟨0, 0, fun _ => ⟨0, 0, 0, 0⟩⟩ := by
    refine ⟨hsc, rfl, fun n g hn => ?_, fun n => rfl⟩
    cases hn
  exact whileLt_tokens (fun k t ht => ht.scan) (fun k t t' i => asmPopulateStep_inv) h0 hsc.fuel h

/-- The five loops are at the same place, in the same function, with the
same blocks open. -/
structure SameAt (place : Nat) (p : PopState) (v : VState) (a : AsmPopState)
    (g c : AsmState) : Prop where
  places : p.place = place ∧ v.place = place ∧ a.place = place
    ∧ g.place = place ∧ c.place = place
  functions : v.prevFnNum = (p.fnNum : Int) - 1 ∧ v.curFn = (p.fnNum : Int) - 1
    ∧ a.fnNum = p.fnNum ∧ g.curFn = v.curFn ∧ c.curFn = v.curFn
  blocks : g.curBlkH = v.curFrame ∧ c.curBlkH = v.curFrame
    ∧ g.curBlk = c.curBlk

/-- The states of the five loops after `k` instructions. -/
theorem accepted_sameAt {cap : Nat} {code : List Byte}
    (hacc : Accepted prog slot ts) (hcap : cap < 2 ^ 32)
    (hcode : toAsm prog 0 cap = .ok code) {pop : PopState}
    (hpop : populateFns prog FnTable.empty = .ok pop)
    (hfs : asmPopulateFns prog = .ok fs) (hk : k ≤ ts.length) :
    ∃ place p v a g c, placeOf prog k = .ok place ∧ populateAt prog k = .ok p
      ∧ verifyAt prog slot k = .ok v ∧ asmPopulateAt prog k = .ok a
      ∧ asmGenAt prog 0 cap k = .ok g ∧ asmAt prog 0 cap k = .ok c ∧ SameAt place p v a g c := by
  have hsc := hacc.scans
  obtain ⟨p, hp, hnum⟩ := (populateAt_inv hsc hpop).2 k hk
  obtain ⟨a, ha, hinv⟩ := (asmPopulateAt_inv hsc hfs).2 k hk
  obtain ⟨g, c, hg, hc, hgen, hrep⟩ := toAsm_states hacc hcap hcode k hk
  obtain ⟨v, w, hv, hview, hvrep, -⟩ := hacc.view k hk
  -- the places, each from what its loop reads
  have hpp := populateStep_reads.place hsc rfl hk hp
  have hpa := asmPopulateStep_reads.place hsc rfl hk ha
  have hpv : placeOf prog k = .ok v.place := by
    unfold verifyAt at hv
    rw [hpop] at hv
    have hpos : ∀ j u, j ≤ ts.length →
        iterate (verifyStep prog pop.tab pop.fnNum) j (VState.init slot) = .ok u →
        placeOf prog j = .ok u.place := by
      intro j
      induction j with
      | zero =>
        intro u _ hu
        cases hu
        rfl
      | succ j ih =>
        intro u hj hu
        obtain ⟨u0, hu0⟩ := iterate_prefix hu (Nat.le_succ j)
        have hplace := ih u0 (by omega) hu0
        obtain ⟨tab, htab, htrep, hn⟩ := hacc.table
        rw [hpop] at htab
        cases htab
        obtain ⟨q, hq, hrest⟩ := scans_placeOf hsc j (by omega)
        rw [hplace] at hq
        cases hq
        obtain ⟨-, q, hi, -⟩ := hrest.head (List.getElem?_eq_getElem hj)
        rw [hn] at hu hu0
        obtain ⟨w0, -, hw0, hok, -⟩ := iterate_refines hsc htrep (by omega : j ≤ ts.length) hu0
        obtain ⟨hq', -, -⟩ := verifyStep_refines htrep hw0 hok hi (iterate_step hu0 hu)
        rw [hq']
        exact placeOf_succ hplace hi
    exact hpos k v hk hv
  have hpg : placeOf prog k = .ok g.place := by
    obtain ⟨g0, -, hit⟩ := bind_eq_ok.1 hg
    exact asmStep_reads.place hsc rfl hk hit
  have hpc : placeOf prog k = .ok c.place := by
    obtain ⟨g0, -, hc⟩ := bind_eq_ok.1 hc
    obtain ⟨r0, -, hit⟩ := bind_eq_ok.1 hc
    exact asmStep_reads.place hsc rfl hk hit
  refine ⟨p.place, p, v, a, g, c, hpp, hp, hv, ha, hg, hc, ⟨rfl, ?_, ?_, ?_, ?_⟩,
    ⟨?_, ?_, ?_, ?_, ?_⟩, ⟨?_, ?_, ?_⟩⟩
  · exact Except.ok.inj (hpv.symm.trans hpp)
  · exact Except.ok.inj (hpa.symm.trans hpp)
  · exact Except.ok.inj (hpg.symm.trans hpp)
  · exact Except.ok.inj (hpc.symm.trans hpp)
  · rw [hvrep.prev, viewAt_fns hk hview, hnum]
  · rw [hvrep.fn, hvrep.prev, viewAt_fns hk hview, hnum]
  · rw [hinv.num, hnum]
  · rw [hgen.fn, hvrep.fn, hvrep.prev, viewAt_fns hk hview]
  · rw [hrep.fn, hvrep.fn, hvrep.prev, viewAt_fns hk hview]
  · rw [hgen.depth, hvrep.frame, (viewAt_nested hk hview).length]
  · rw [hrep.depth, hvrep.frame, (viewAt_nested hk hview).length]
  · rw [hgen.blk, hrep.blk]

/-- The verifier and the compiler read the same program: all their loops
stop at the same places with the same operands, functions and blocks, and
the two function tables have the same entries. -/
theorem passes_agree {cap : Nat} {code : List Byte} (h : Accepts prog slot)
    (hcap : cap < 2 ^ 32) (hcode : toAsm prog 0 cap = .ok code) :
    ∃ ts, Sume.decode prog = .ok ts
      ∧ placeOf prog ts.length = .ok prog.length
      ∧ (∀ k i, ts[k]? = some i → ∃ p q, placeOf prog k = .ok p
        ∧ placeOf prog (k + 1) = .ok q ∧ instrAt prog p = .ok (i, q)
        ∧ (i.token.operand = .int → getInt prog (p + 1) = .ok (i.arg, q)))
      ∧ (∀ k, k ≤ ts.length → ∃ place p v a g c,
        placeOf prog k = .ok place ∧ populateAt prog k = .ok p
        ∧ verifyAt prog slot k = .ok v ∧ asmPopulateAt prog k = .ok a
        ∧ asmGenAt prog 0 cap k = .ok g ∧ asmAt prog 0 cap k = .ok c
        ∧ SameAt place p v a g c)
      ∧ ∃ pop fs, populateFns prog FnTable.empty = .ok pop
        ∧ asmPopulateFns prog = .ok fs ∧ fs.fnNum = pop.fnNum
        ∧ ∀ n, n < pop.fnNum → (fs.fns n).rt = (pop.tab.fns n).rt
          ∧ (fs.fns n).paramN = (pop.tab.fns n).paramN
          ∧ (fs.fns n).localN = (pop.tab.fns n).localN := by
  obtain ⟨ts, hacc⟩ := h.accepted
  have hsc := hacc.scans
  obtain ⟨pop, hpop, htab, hnum⟩ := hacc.table
  obtain ⟨fs, hfs⟩ : ∃ fs, asmPopulateFns prog = .ok fs := by
    unfold toAsm at hcode
    obtain ⟨g, hg, -⟩ := bind_eq_ok.1 hcode
    obtain ⟨fs, hfs, -⟩ := bind_eq_ok.1 hg
    exact ⟨fs, hfs⟩
  refine ⟨ts, hacc.decode, scans_placeOf_length hsc, fun k i hi => ?_,
    fun k hk => accepted_sameAt hacc hcap hcode hpop hfs hk,
    pop, fs, hpop, hfs, ?_, fun n hn => ?_⟩
  · have hk : k < ts.length := lt_length hi
    obtain ⟨p, hp, hrest⟩ := scans_placeOf hsc k (by omega)
    obtain ⟨-, q, hq, -⟩ := hrest.head hi
    obtain ⟨-, -, -, -, hint, -⟩ := instrAt_inv hq
    exact ⟨p, q, hp, placeOf_succ hp hq, hq, hint⟩
  · obtain ⟨hend, hall⟩ := asmPopulateAt_inv hsc hfs
    obtain ⟨a, ha, hinv⟩ := hall ts.length (Nat.le_refl _)
    obtain rfl : fs = a := Except.ok.inj (hend.symm.trans ha)
    rw [hinv.num, declsBefore_length, hnum]
  · rw [hnum] at hn
    have hg : (sigsOf ts)[n]? = some (sigsOf ts)[n] :=
      List.getElem?_eq_getElem hn
    have hfn := htab.fn n _ hg
    rw [asmPopulateFns_sigs hsc hfs hg]
    exact ⟨hfn.rt.symm, hfn.params.1.symm, hfn.locals.1.symm⟩

/-- The program `v_declfn () () trap end`. -/
theorem passes_agree_trap :
    ∃ code, toAsm [0x31, 0, 0, 0x29, 0x2f] 0 4096 = .ok code
      ∧ Accepts [0x31, 0, 0, 0x29, 0x2f] 0
      ∧ ∃ ts, Sume.decode [0x31, 0, 0, 0x29, 0x2f] = .ok ts
        ∧ placeOf [0x31, 0, 0, 0x29, 0x2f] ts.length = .ok 5 := by
  obtain ⟨code, hcode⟩ := exists_ok
    (x := toAsm [0x31, 0, 0, 0x29, 0x2f] 0 4096) (by decide +kernel)
  have hacc : Accepts [0x31, 0, 0, 0x29, 0x2f] 0 := ⟨_, rfl⟩
  obtain ⟨ts, hts, hend, -⟩ := passes_agree hacc (by decide) hcode
  exact ⟨code, hcode, hacc, ts, hts, hend⟩

end Xv6Sume32.Asm
