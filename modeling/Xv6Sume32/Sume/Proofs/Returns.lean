/-
What a `ret` is checked against.

`verify` looks up the result type of `fn_infos[fnum]` at a `ret`, where
`fnum` is the operand of the last `call` it has scanned, in this function
or an earlier one, or whatever its stack slot held if there was none. The
contract one expects is that a `ret` is checked against the function it
stands in (`RetContract`). This file says for which accepted programs the
two are the same: those where every `ret` has a `call` before it in the
text, and the last one before it names a function with the result type of
the function the `ret` stands in (`RetsMatch`).

That acceptance does not look at the slot once a `call` has stored into
`fnum` is `accepts_of_slot`: every token but `ret` commutes with a change
of `fnum`, and what is well typed is accepted.
-/
import Xv6Sume32.Sume.Proofs.Complete

namespace Xv6Sume32.Sume

open Lib

variable {tab : FnTable} {n p k : Nat} {i : Instr} {v v' : View} {t : Ty} {sigs : List Sig}

-- ======== the contract

/-- Instruction `k` lies in the body of the function declared at
`d`. -/
def InFn (ts : List Instr) (k d : Nat) (g : Sig) : Prop :=
  Declares ts d g ∧ (openAt ts k).getLast? = some d

/-- The operand of the last `call` before instruction `k`. -/
def lastCall (ts : List Instr) : Nat → Option Word
  | 0 => none
  | k + 1 =>
      match ts[k]? with
      | none => lastCall ts k
      | some i => if i.token = .call then some i.arg else lastCall ts k

/-- The top of the operand stack within the current frame has type
`t`. -/
def VState.TopIs (s : VState) (t : Ty) : Prop :=
  (s.frames s.curFrame).bottom < s.stkPos ∧ s.stack (s.stkPos - 1) = t

/-- One round of `verify`, with the table it has built. -/
def verifyRound (prog : List Byte) (s : VState) : Res VState := do
  let pop ← populateFns prog FnTable.empty
  verifyStep prog pop.tab pop.fnNum s

/-- The program is accepted whatever the slot of `fnum` holds, and each
`ret` is checked against the function it stands in: one with a result
finds it on top of its frame, and on any operand stack the round passes
exactly when the result type, if there is one, is on top. -/
structure RetContract (prog : List Byte) (ts : List Instr) (slot : Int) :
    Prop where
  accepts : Accepts prog slot
  top : ∀ k i d g s, ts[k]? = some i → i.token = .ret → InFn ts k d g →
    verifyAt prog slot k = .ok s → g.rt ≠ 0 → s.TopIs g.rt
  round : ∀ k i d g s, ts[k]? = some i → i.token = .ret → InFn ts k d g →
    verifyAt prog slot k = .ok s →
    ∀ stack pos, (s.frames s.curFrame).bottom ≤ pos → pos ≤ stackSz →
      ((∃ s', verifyRound prog { s with stack := stack, stkPos := pos } = .ok s')
        ↔ g.rt = 0
          ∨ VState.TopIs { s with stack := stack, stkPos := pos } g.rt)

/-- Every `ret` has a `call` before it, and the last one before it names
a function with the result type of the function the `ret` stands in. -/
def RetsMatch (ts : List Instr) : Prop :=
  ∀ k i, ts[k]? = some i → i.token = .ret →
    ∃ n f, lastCall ts k = some n ∧ sigNum (sigsOf ts) n.toInt = some f
      ∧ ∀ d g, InFn ts k d g → f.rt = g.rt

-- ======== the round of a ret

variable {prog : List Byte} {slot : Int} {ts : List Instr}

/-- The round of an instruction is the case of its token. -/
theorem verifyStep_instr {s : VState} (hi : instrAt prog s.place = .ok (i, p)) :
    verifyStep prog tab n s
      = verifyCase prog tab n i.token.vcase { s with place := s.place + 1 } := by
  obtain ⟨b, hb, ht, -⟩ := instrAt_inv hi
  unfold verifyStep
  rw [hb]
  simp only [ht]

/-- The round of a `ret` in a state where everything but the operand is
in order. -/
theorem ret_round {s : VState} {fn : FnInfo} (hi : instrAt prog s.place = .ok (i, p))
    (ht : i.token = .ret)
    (hend : prog[s.place + 1]? = some endByte) (hin : 0 ≤ s.curFrame) (hfr : s.curFrame < framesSz)
    (hfn : tab.fnAt s.fnum = .ok fn) (hbot : 0 ≤ (s.frames s.curFrame).bottom)
    (hpos : (s.frames s.curFrame).bottom ≤ s.stkPos) (hcap : s.stkPos ≤ stackSz) :
    (∃ s', verifyStep prog tab n s = .ok s') ↔ fn.rt = 0 ∨ s.TopIs fn.rt := by
  have hreq : ∀ p, prog[p]? = some endByte → requireEnd prog p = .ok () := by
    intro p hp
    unfold requireEnd
    rw [hp]
    rfl
  have hstep : verifyStep prog tab n s
      = verifyCase prog tab n .ret { s with place := s.place + 1 } := by
    rw [verifyStep_instr hi, ht]
    rfl
  have hinfn : require (VState.isInFn { s with place := s.place + 1 }) = .ok () := by
    rw [require_eq_ok]
    exact decide_eq_true hin
  rw [hstep]
  unfold verifyCase
  simp only [hinfn, hreq _ hend, hfn]
  by_cases h0 : fn.rt = 0
  · refine ⟨fun _ => Or.inl h0, fun _ => ?_⟩
    show ∃ s', (if fn.rt ≠ 0 then _ else _) = Except.ok s'
    rw [if_neg (by simpa using h0)]
    show ∃ s', (requireEnd prog (s.place + 1) >>= _) = Except.ok s'
    rw [hreq _ hend]
    exact ⟨_, rfl⟩
  · show (∃ s', (if fn.rt ≠ 0 then _ else _) = Except.ok s') ↔ _
    rw [if_pos h0]
    constructor
    · rintro ⟨s', hs'⟩
      refine Or.inr ?_
      obtain ⟨s₁, h1, -⟩ := bind_eq_ok.1 hs'
      unfold popExpect at h1
      obtain ⟨⟨t, s2⟩, h2, h1⟩ := bind_eq_ok.1 h1
      obtain ⟨_, ht, -⟩ := bind_eq_ok.1 h1
      simp only [require_decide] at ht
      unfold popT at h2
      obtain ⟨_, -, h2⟩ := bind_eq_ok.1 h2
      obtain ⟨_, -, h2⟩ := bind_eq_ok.1 h2
      obtain ⟨_, hne, h2⟩ := bind_eq_ok.1 h2
      obtain ⟨_, -, h2⟩ := bind_eq_ok.1 h2
      simp only [require_decide] at hne
      cases h2
      exact ⟨by omega, ht⟩
    · rintro (h | ⟨hlt, htop⟩)
      · exact absurd h h0
      · have hpop : popT { s with place := s.place + 1 } = .ok (s.stack (s.stkPos - 1),
                { s with place := s.place + 1, stkPos := s.stkPos - 1 }) := by
          have hne : s.stkPos ≠ (s.frames s.curFrame).bottom := by omega
          have h1 : s.curFrame ≠ -1 := by omega
          have h2 : 0 ≤ s.curFrame ∧ s.curFrame < framesSz := ⟨hin, hfr⟩
          have h3 : 0 ≤ s.stkPos - 1 ∧ s.stkPos - 1 < stackSz := by
            constructor <;> omega
          exact bind_eq_ok.2 ⟨(), require_eq_ok.2 (decide_eq_true h1),
            bind_eq_ok.2 ⟨(), inRange_eq_ok.2 (decide_eq_true h2),
            bind_eq_ok.2 ⟨(), require_eq_ok.2 (decide_eq_true hne),
            bind_eq_ok.2 ⟨(), inRange_eq_ok.2 (decide_eq_true h3), rfl⟩⟩⟩⟩
        have hexp : popExpect fn.rt { s with place := s.place + 1 }
            = .ok { s with place := s.place + 1, stkPos := s.stkPos - 1 } :=
          bind_eq_ok.2 ⟨_, hpop, bind_eq_ok.2 ⟨(), require_eq_ok.2 (decide_eq_true htop), rfl⟩⟩
        rw [hexp]
        show ∃ s', (requireEnd prog (s.place + 1) >>= _) = Except.ok s'
        rw [hreq _ hend]
        exact ⟨_, rfl⟩

-- ======== a change of the slot

/-- The view with another content of `fnum`. -/
def View.setLast (v : View) (x : Int) : View := { v with last := x }

theorem View.setLast_self (h : v.last = x) : v.setLast x = v := by
  rw [← h]
  rfl

section SetLast

variable (v : View) (x : Int)

theorem View.push_setLast (t : Ty) : (v.setLast x).push t = (v.push t).map (·.setLast x) := by
  unfold View.push
  rw [apply_ite (Option.map _)]
  rfl

theorem View.pop_setLast : (v.setLast x).pop = v.pop.map fun r => (r.1, r.2.setLast x) := by
  obtain ⟨stk, hts, fns, last⟩ := v
  cases hts <;> cases stk <;> try rfl
  unfold View.pop
  rw [apply_ite (Option.map _)]
  rfl

theorem View.popExpect_setLast (t : Ty) :
    (v.setLast x).popExpect t = (v.popExpect t).map (·.setLast x) := by
  unfold View.popExpect
  rw [View.pop_setLast]
  cases v.pop with
  | none => rfl
  | some r =>
    show (if r.1 = t then _ else _) = Option.map _ (if r.1 = t then _ else _)
    rw [apply_ite (Option.map _)]
    rfl

/-- Every token but `ret` and `call` commutes with a change of `fnum`. -/
theorem check_setLast (hr : i.token.vcase ≠ .ret) (hc : i.token.vcase ≠ .call) :
    check sigs (v.setLast x) i = (check sigs v i).map (·.setLast x) := by
  unfold check
  cases h : i.token.vcase <;> dsimp only
  case ret => exact absurd h hr
  case call => exact absurd h hc
  case const | memsz => exact View.push_setLast ..
  case unary | binary | store =>
    simp [View.push_setLast, View.pop_setLast, View.popExpect_setLast, Option.map_bind,
      Option.bind_map]
  case trap | open_ | br | declfn =>
    try unfold View.enter
    try unfold View.begin
    rw [apply_ite (Option.map _)]
    rfl
  case end_ =>
    obtain ⟨stk, hts, fns, last⟩ := v
    match hts with
    | [] | [_] | _ :: _ :: _ => rfl
  case getL =>
    show (v.sig sigs >>= fun g => g.localT i.arg.toInt >>= (v.setLast x).push) = _
    simp [View.push_setLast, Option.map_bind]
  case setL =>
    rw [View.pop_setLast]
    cases v.pop with
    | none => rfl
    | some r =>
      show (r.2.sig sigs >>= fun g => g.localT i.arg.toInt >>= _) = _
      simp [Option.map_bind, apply_ite (Option.map _)]
  case brIf =>
    rw [apply_ite (Option.map _), ← View.popExpect_setLast]
    rfl

end SetLast
-- ======== what the slot holds

theorem lastCall_call (hi : ts[k]? = some i)
    (ht : i.token = .call) : lastCall ts (k + 1) = some i.arg := by
  show (match ts[k]? with | none => _ | some i => _) = _
  rw [hi]
  exact if_pos ht

theorem lastCall_other (hi : ts[k]? = some i)
    (ht : i.token ≠ .call) : lastCall ts (k + 1) = lastCall ts k := by
  show (match ts[k]? with | none => _ | some i => _) = _
  rw [hi]
  exact if_neg ht

theorem View.push_last (h : v.push t = some v') : v'.last = v.last := by
  obtain ⟨-, -, rfl⟩ := View.push_inv h
  rfl

theorem View.pop_last (h : v.pop = some (t, v')) : v'.last = v.last := by
  obtain ⟨_, _, _, _, _, hv⟩ := View.pop_inv h
  rw [hv]

theorem View.popExpect_last (h : v.popExpect t = some v') : v'.last = v.last :=
  View.pop_last (View.popExpect_inv h)

theorem View.popList_last {us : List Ty} :
    ∀ {v v' : View}, View.popList us v = some v' → v'.last = v.last := by
  induction us with
  | nil =>
    intro v v' h
    cases h
    rfl
  | cons t us ih =>
    intro v v' h
    unfold View.popList at h
    obtain ⟨w, hw, h⟩ := Option.bind_eq_some_iff.1 h
    rw [ih h, View.popExpect_last hw]

/-- A `ret` that passes stands in a function, and `fnum` is an index of
the table. -/
theorem check_ret
    (ht : i.token = .ret) (h : check sigs v i = some v') : v.hts ≠ [] ∧ v.last < 64 := by
  unfold check at h
  rw [ht] at h
  simp only [Token.vcase] at h
  split at h
  · next hne =>
    obtain ⟨t, hrt, -⟩ := Option.bind_eq_some_iff.1 h
    unfold View.retT at hrt
    split at hrt
    · next hb => exact ⟨hne, hb.2⟩
    · cases hrt
  · cases h

/-- Inside a function the stack position lies between the bottom of the
innermost frame and the end of the array. -/
theorem Rep.bottom_le {s : VState} (h : Rep s v) (hok : v.Ok) (hne : v.hts ≠ []) :
    0 ≤ (s.frames s.curFrame).bottom
      ∧ (s.frames s.curFrame).bottom ≤ s.stkPos ∧ s.stkPos ≤ stackSz := by
  obtain ⟨h₀, hs, hh⟩ := List.exists_cons_of_ne_nil hne
  have hle : h₀ ≤ v.stk.length := hok.height_le (n := 0) (by rw [hh]; rfl)
  have hcap := h.cap
  rw [h.bottom_top hh, h.pos_of hne]
  unfold stackSz
  omega

/-- A `call` stores the number of a declared function into `fnum`. -/
theorem check_call_last (ht : i.token = .call) (h : check sigs v i = some v') :
    v'.last = i.arg.toInt ∧ ∃ f, sigNum sigs i.arg.toInt = some f := by
  unfold check at h
  rw [ht] at h
  simp only [Token.vcase] at h
  split at h
  case isFalse => cases h
  obtain ⟨f, hf, h⟩ := Option.bind_eq_some_iff.1 h
  obtain ⟨w, hw, h⟩ := Option.bind_eq_some_iff.1 h
  have hlast := View.popList_last hw
  refine ⟨?_, f, hf⟩
  split at h
  · rw [View.push_last h, hlast]
  · cases h
    exact hlast

/-- No other token touches `fnum`. -/
theorem check_other_last
    (ht : i.token ≠ .call) (h : check sigs v i = some v') : v'.last = v.last := by
  have hne : i.token.vcase ≠ .call := by
    cases hi : i.token <;> first | exact absurd hi ht | decide
  by_cases hr : i.token.vcase = .ret
  · unfold check at h
    simp only [hr] at h
    split at h
    · obtain ⟨t, -, h⟩ := Option.bind_eq_some_iff.1 h
      split at h
      · exact View.popExpect_last h
      · cases h
        rfl
    · cases h
  · have hself : check sigs (v.setLast v.last) i = _ := check_setLast v v.last hr hne
    rw [View.setLast_self rfl, h, Option.map_some] at hself
    rw [Option.some.inj hself]
    rfl

/-- The slot holds the operand of the last `call`, which names a
declared function, or its first content. -/
theorem viewAt_last : ∀ {k : Nat} {v : View}, k ≤ ts.length → viewAt slot ts k = some v →
      v.last = (lastCall ts k).elim slot BitVec.toInt ∧ ∀ n, lastCall ts k = some n →
          ∃ f, sigNum (sigsOf ts) n.toInt = some f := by
  intro k
  induction k with
  | zero =>
    intro v _ hv
    cases hv
    exact ⟨rfl, fun n hn => by cases hn⟩
  | succ k ih =>
    intro v hk hv
    have hi : ts[k]? = some ts[k] := List.getElem?_eq_getElem hk
    obtain ⟨v0, hv0, hc⟩ := viewAt_prev hi hv
    by_cases ht : ts[k].token = .call
    · obtain ⟨hl, hf⟩ := check_call_last ht hc
      rw [lastCall_call hi ht]
      refine ⟨hl, fun n hn => ?_⟩
      cases hn
      exact hf
    · rw [lastCall_other hi ht, check_other_last ht hc]
      exact ih (by omega) hv0

theorem Accepted.fnum_eq (hacc : Accepted prog slot ts) {s : VState}
    (hk : k ≤ ts.length) (hs : verifyAt prog slot k = .ok s) :
    s.fnum = (lastCall ts k).elim slot BitVec.toInt := by
  obtain ⟨s', v, hs', hv, hrep, -⟩ := hacc.view k hk
  obtain rfl : s = s' := Except.ok.inj (hs.symm.trans hs')
  rw [hrep.fnum]
  exact (viewAt_last hk hv).1

-- ======== independence

/-- Two scans that differ in the slot, when every `ret` has a `call` before
it: the views are the same but for a slot that no call has stored into. -/
theorem viewAt_slot (hret : ∀ k i, ts[k]? = some i → i.token = .ret → lastCall ts k ≠ none)
    (slot' : Int) : ∀ {k : Nat} {v : View}, k ≤ ts.length → viewAt slot ts k = some v →
      viewAt slot' ts k = some (v.setLast ((lastCall ts k).elim slot' BitVec.toInt)) := by
  intro k
  induction k with
  | zero =>
    intro v _ hv
    cases hv
    rfl
  | succ k ih =>
    intro v hk hv
    have hi : ts[k]? = some ts[k] := List.getElem?_eq_getElem hk
    obtain ⟨v0, hv0, hc⟩ := viewAt_prev hi hv
    rw [viewAt_succ (ih (by omega) hv0) hi]
    have hlast := (viewAt_last hk hv).1
    have hlast0 := (viewAt_last (by omega) hv0).1
    by_cases hcall : ts[k].token = .call
    · -- the operand is stored before anything reads the slot
      have hsame : ∀ x, check (sigsOf ts) (v0.setLast x) ts[k] = check (sigsOf ts) v0 ts[k] := by
        intro x
        unfold check
        rw [hcall]
        rfl
      rw [lastCall_call hi hcall] at hlast ⊢
      rw [hsame, hc]
      exact congrArg some (View.setLast_self hlast).symm
    · rw [lastCall_other hi hcall] at hlast ⊢
      cases hl : lastCall ts k with
      | none =>
        have hr : ts[k].token ≠ .ret := fun hr => hret k _ hi hr hl
        rw [check_setLast, hc]
        · rfl
        · cases ht : ts[k].token <;> first | exact absurd ht hr | decide
        · cases ht : ts[k].token <;> first | exact absurd ht hcall | decide
      | some n =>
        -- a call has stored into the slot: the scans agree
        rw [hl] at hlast hlast0
        have hlast0 : v0.last = n.toInt := hlast0
        show check _ (v0.setLast n.toInt) _ = _
        rw [View.setLast_self hlast0, hc]
        exact congrArg some (View.setLast_self hlast).symm

/-- Acceptance does not look at the slot when every `ret` has a `call`
before it. -/
theorem accepts_of_slot (h : Accepts prog slot) (hd : decode prog = .ok ts)
    (hret : ∀ k i, ts[k]? = some i → i.token = .ret → lastCall ts k ≠ none)
    (slot' : Int) : Accepts prog slot' := by
  have hacc := h.accepted_decode hd
  obtain ⟨pop, hpop, -⟩ := hacc.table
  have hw := hacc.wellTyped
  obtain ⟨v, hv⟩ := hw.view ts.length
  have hv' := viewAt_slot hret slot' (Nat.le_refl _) hv
  unfold viewAt at hv'
  rw [List.take_length] at hv'
  exact WellTyped.accepts ⟨hw.main, hw.ends, by rw [hv']; exact Option.some_ne_none _⟩ hpop
    hacc.scans

-- ======== the main result

/-- The round of a `ret` behind a `call`, on any operand stack: it wants
the result type of the callee. -/
theorem Accepted.ret_iff (hacc : Accepted prog slot ts)
    {s : VState} {n : Word} {f : Sig} (hi : ts[k]? = some i)
    (ht : i.token = .ret) (hs : verifyAt prog slot k = .ok s)
    (hl : lastCall ts k = some n) (hf : sigNum (sigsOf ts) n.toInt = some f)
    (stack : Int → Ty) (pos : Int)
    (hpos : (s.frames s.curFrame).bottom ≤ pos) (hcap : pos ≤ stackSz) :
    (∃ s', verifyRound prog { s with stack := stack, stkPos := pos } = .ok s')
      ↔ f.rt = 0 ∨ VState.TopIs { s with stack := stack, stkPos := pos } f.rt := by
  have hk : k < ts.length := lt_length hi
  obtain ⟨pop, hpop, htab, hnum⟩ := hacc.table
  obtain ⟨s₀, v, hs₀, hv, hrep, hok⟩ := hacc.view k (by omega)
  obtain rfl : s = s₀ := Except.ok.inj (hs.symm.trans hs₀)
  obtain ⟨s₁, -, hs₁, -⟩ := hacc.view (k + 1) hk
  obtain ⟨v', -, -, hc⟩ := hacc.check_at hi hv
  obtain ⟨-, p, hin, -⟩ := (hacc.scan k s (by omega) hs).head hi
  have hround : ∀ t, verifyRound prog t = verifyStep prog pop.tab pop.fnNum t := by
    intro t
    unfold verifyRound
    rw [hpop]
    rfl
  -- the program's own round passed, so an `end` follows
  have hend : prog[s.place + 1]? = some endByte := by
    have hstep : verifyStep prog pop.tab (sigsOf ts).length s = .ok s₁ := by
      unfold verifyAt at hs hs₁
      rw [hpop] at hs hs₁
      rw [← hnum]
      exact iterate_step hs hs₁
    obtain ⟨-, -, hneed⟩ := verifyStep_refines htab hrep hok hin hstep
    obtain ⟨-, -, -, hp, -⟩ := instrAt_inv hin
    have hp : p = s.place + 1 := hp (by rw [ht]; rfl)
    rw [← hp]
    exact hneed (by rw [ht]; rfl)
  have hne := (check_ret ht hc).1
  have hbot := (hrep.bottom_le hok hne).1
  have hframe : 0 ≤ s.curFrame ∧ s.curFrame < framesSz := by
    have h1 := hrep.frame
    have h2 := hrep.depth
    have h3 := List.length_pos_iff.2 hne
    unfold framesSz
    omega
  -- the slot holds the callee
  have hfnum : s.fnum = n.toInt := by
    have := hacc.fnum_eq (by omega) hs
    rwa [hl] at this
  have hrange : 0 ≤ n.toInt ∧ n.toInt < (sigsOf ts).length := by
    unfold sigNum at hf
    split at hf
    · cases hf
    · have := lt_length hf
      omega
  have hfn : pop.tab.fnAt s.fnum = .ok (pop.tab.fns s.fnum.toNat) := by
    have := hacc.fns
    refine bind_eq_ok.2 ⟨(), inRange_eq_ok.2 (decide_eq_true ?_), rfl⟩
    rw [hfnum]
    unfold fnInfosSz
    omega
  have hrt : (pop.tab.fns s.fnum.toNat).rt = f.rt := by
    have hfn' := hfn
    rw [hfnum] at hfn'
    obtain ⟨g, hg, hr⟩ := callee_rep htab hrange.1 hrange.2 hfn'
    rw [hf] at hg
    cases hg
    rw [hfnum]
    exact hr.rt
  rw [hround, ← hrt]
  exact ret_round (s := { s with stack := stack, stkPos := pos }) hin ht hend
    hframe.1 hframe.2 hfn hbot hpos hcap

/-- A function returns an `int` or nothing. -/
theorem declRt_cases (t : Token) : t.declRt = 0 ∨ t.declRt = intT := by
  cases t <;> first | exact Or.inl rfl | exact Or.inr rfl

theorem sigsOf_rt {g : Sig} (h : (sigsOf ts)[k]? = some g) : g.rt = 0 ∨ g.rt = intT := by
  obtain ⟨i, -, rfl⟩ := List.mem_map.1 (List.mem_of_getElem? h)
  exact declRt_cases i.token

/-- The programs among the accepted ones that meet the return contract,
whatever the slot of `fnum` holds: those where the last `call` before
each `ret` names a function with the result type of the function the
`ret` stands in. -/
theorem verify_ret_contract_iff (h : Accepts prog slot) :
    ∃ ts, decode prog = .ok ts ∧
      ((∀ slot', RetContract prog ts slot') ↔ RetsMatch ts) := by
  obtain ⟨ts, hacc₀⟩ := h.accepted
  have hd := hacc₀.decode
  refine ⟨ts, hd, fun hcon k i hi ht => ?_, fun hmatch slot' => ?_⟩
  · have hk : k < ts.length := lt_length hi
    -- with a slot outside the table, a call must have stored into it
    have hacc := (hcon 64).accepts.accepted_decode hd
    obtain ⟨v, v', hv, hok, -, hc⟩ := hacc.check hi
    obtain ⟨hlast, hcallee⟩ := viewAt_last (by omega) hv
    obtain ⟨hne, hlt⟩ := check_ret ht hc
    cases hl : lastCall ts k with
    | none =>
        rw [hl] at hlast
        have : v.last = 64 := hlast
        omega
    | some n =>
        obtain ⟨f, hf⟩ := hcallee n hl
        refine ⟨n, f, rfl, hf, fun d g hin => ?_⟩
        obtain ⟨s, w, hs, hw, hrep, -⟩ := hacc.view k (by omega)
        obtain rfl : v = w := Option.some.inj (hv.symm.trans hw)
        -- on a frame without operands only a void callee passes
        have hb : (s.frames s.curFrame).bottom ≤ stackSz := by
          obtain ⟨-, h1, h2⟩ := hrep.bottom_le hok hne
          omega
        have h1 := hacc.ret_iff hi ht hs hl hf s.stack _ (Int.le_refl _) hb
        have h2 := (hcon 64).round k i d g s hi ht hin hs s.stack _
          (Int.le_refl _) hb
        have hempty : ∀ t, ¬ VState.TopIs { s with
            stkPos := (s.frames s.curFrame).bottom } t := by
          intro t ht'
          exact absurd ht'.1 (Int.lt_irrefl _)
        have hiff : f.rt = 0 ↔ g.rt = 0 := by
          constructor
          · intro h0
            exact (h2.1 (h1.2 (Or.inl h0))).resolve_right (hempty _)
          · intro h0
            exact (h1.1 (h2.2 (Or.inl h0))).resolve_right (hempty _)
        have hfrt : f.rt = 0 ∨ f.rt = intT := by
          unfold sigNum at hf
          split at hf
          · cases hf
          · exact sigsOf_rt hf
        have hgrt : g.rt = 0 ∨ g.rt = intT := sigsOf_rt hin.1.sig
        rcases hfrt with hf0 | hf1
        · rw [hf0, hiff.1 hf0]
        · rcases hgrt with hg0 | hg1
          · rw [hg0, hiff.2 hg0]
          · rw [hf1, hg1]
  · have hret : ∀ k i, ts[k]? = some i → i.token = .ret →
        lastCall ts k ≠ none := by
      intro k i hi ht hnone
      obtain ⟨n, f, hl, -⟩ := hmatch k i hi ht
      rw [hl] at hnone
      cases hnone
    have haccepts := accepts_of_slot h hd hret slot'
    have hacc := haccepts.accepted_decode hd
    have hround : ∀ k i d g s, ts[k]? = some i → i.token = .ret →
        InFn ts k d g → verifyAt prog slot' k = .ok s →
        ∀ stack pos, (s.frames s.curFrame).bottom ≤ pos → pos ≤ stackSz →
          ((∃ s', verifyRound prog { s with stack := stack, stkPos := pos }
              = .ok s')
            ↔ g.rt = 0
              ∨ VState.TopIs { s with stack := stack, stkPos := pos } g.rt) := by
      intro k i d g s hi ht hin hs stack pos hpos hcap
      obtain ⟨n, f, hl, hf, hrt⟩ := hmatch k i hi ht
      rw [← hrt d g hin]
      exact hacc.ret_iff hi ht hs hl hf stack pos hpos hcap
    refine ⟨haccepts, fun k i d g s hi ht hin hs hrt => ?_, hround⟩
    -- the program's own round passed
    have hk : k < ts.length := lt_length hi
    obtain ⟨s', w, hs', hw, hrep, hok⟩ := hacc.view k (by omega)
    obtain rfl : s = s' := Except.ok.inj (hs.symm.trans hs')
    obtain ⟨v, v', hv, -, -, hc⟩ := hacc.check hi
    obtain rfl : v = w := Option.some.inj (hv.symm.trans hw)
    obtain ⟨s₁, -, hs₁, -⟩ := hacc.view (k + 1) hk
    have hown : verifyRound prog s = .ok s₁ := by
      obtain ⟨pop, hpop, -, -⟩ := hacc.table
      unfold verifyAt at hs hs₁
      unfold verifyRound
      rw [hpop] at hs hs₁ ⊢
      exact iterate_step hs hs₁
    obtain ⟨-, hb, hcap⟩ := hrep.bottom_le hok (check_ret ht hc).1
    have := (hround k i d g s hi ht hin hs s.stack s.stkPos hb hcap).1
      ⟨s₁, hown⟩
    exact this.resolve_left hrt

/-- A program that meets the contract: `v_declfn () () call 0 ret end`. -/
theorem verify_ret_contract_iff_recursive :
    ∃ ts, decode [0x31, 0, 0, 0x30, 0, 0, 0, 0, 0x2e, 0x2f] = .ok ts ∧
      ((∀ slot', RetContract [0x31, 0, 0, 0x30, 0, 0, 0, 0, 0x2e, 0x2f]
        ts slot') ↔ RetsMatch ts) :=
  verify_ret_contract_iff (show Accepts _ 0 from ⟨_, rfl⟩)

/-- Two programs that do not. In `v_declfn () () call 0 ret end
i_declfn () () ret end`, accepted whatever the slot holds, the second
function returns a result it has not got. The program `v_declfn () ()
ret end i_declfn () () i_const 0 ret end` is accepted or not as the slot
holds 0 or 1. -/
theorem ret_checked_against_last_call :
    (∀ slot, Accepts [0x31, 0, 0, 0x30, 0, 0, 0, 0, 0x2e, 0x2f,
        0x32, 0, 0, 0x2e, 0x2f] slot)
      ∧ (∃ ts i s, decode [0x31, 0, 0, 0x30, 0, 0, 0, 0, 0x2e, 0x2f,
            0x32, 0, 0, 0x2e, 0x2f] = .ok ts
          ∧ ts[5]? = some i ∧ i.token = .ret ∧ InFn ts 5 4 ⟨intT, [], []⟩
          ∧ verifyAt [0x31, 0, 0, 0x30, 0, 0, 0, 0, 0x2e, 0x2f,
              0x32, 0, 0, 0x2e, 0x2f] 0 5 = .ok s
          ∧ ¬ s.TopIs intT)
      ∧ Accepts [0x31, 0, 0, 0x2e, 0x2f,
          0x32, 0, 0, 0x00, 0, 0, 0, 0, 0x2e, 0x2f] 0
      ∧ ¬ Accepts [0x31, 0, 0, 0x2e, 0x2f,
          0x32, 0, 0, 0x00, 0, 0, 0, 0, 0x2e, 0x2f] 1 := by
  refine ⟨fun slot => accepts_of_slot
    (show Accepts _ 0 from ⟨_, rfl⟩) rfl ?_ slot,
    ⟨_, _, _, rfl, rfl, rfl, ?_, rfl, ?_⟩, ⟨_, rfl⟩, ?_⟩
  · intro k i hi ht
    match k with
    | 0 | 1 | 3 | 4 | 6 =>
        cases hi
        cases ht
    | 2 | 5 => decide
    | k + 7 => cases hi
  · exact ⟨⟨_, rfl, rfl, rfl⟩, rfl⟩
  · intro h
    exact absurd h.1 (by decide)
  · rintro ⟨s, hs⟩
    cases hs

end Xv6Sume32.Sume
