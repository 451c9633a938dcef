/-
Two counters of one stack: the verifier's `stk_pos` and the compiler's
`stkh`.

The verifier counts operands by its table of arities. The compiler has
no table: its encoders for `push` and `pop` count as they are called, and
`call` corrects for the arguments. That the two move together is checked
token by token, against `effect`; three tokens break it, because their
code does not pop what the verifier pops (`moved_eq_iff`).

# Function boundaries

The verifier starts every function at height 0. The compiler's counter
just goes on: a declaration keeps it, and so does the `end` of a function.
Only the `end` of an inner block sets it, directly in a body to 0. What
the first instruction of a function finds is therefore what the text in
front of the previous `end` left over, since the last `end` or
declaration (`leftOver`).
-/
import Xv6Sume32.Asm.Proofs.Shapes

namespace Xv6Sume32.Asm

open Lib X86 Sume

variable {prog : List Byte} {slot : Int} {ts : List Sume.Instr}

-- ======== what is counted

/-- An operand pushed or popped; EBP around a call is not one. -/
def Op.pushesOperand : Op → Bool
  | .push _ .stkh => true
  | _ => false
def Op.popsOperand : Op → Bool
  | .pop _ .stkh => true
  | _ => false

/-- The operands code pushes less those it pops. -/
def operandMoves (os : List Op) : Int :=
  (os.countP Op.pushesOperand : Int) - os.countP Op.popsOperand

/-- The operands a `call` removes without popping them: its arguments. -/
def dropped (ts : List Sume.Instr) (i : Sume.Instr) : Int :=
  if i.token = .call then
    (sigNum (sigsOf ts) i.arg.toInt).elim 0 fun f => (f.params.length : Int)
  else 0

/-- What the code of instruction `k` does to the number of operands. -/
def moved (ts : List Sume.Instr) (k : Nat) (i : Sume.Instr) : Int :=
  operandMoves (codeOf ts k i) - dropped ts i

theorem operandMoves_eq (os : List Op) : operandMoves os = (os.map Op.counts).sum := by
  unfold operandMoves
  induction os with
  | nil => rfl
  | cons o os ih =>
    rw [List.map_cons, List.sum_cons, ← ih, List.countP_cons, List.countP_cons]
    cases o
    case push r c | pop r c =>
      cases c <;> simp [Op.pushesOperand, Op.popsOperand, Op.counts]
      omega
    all_goals simp [Op.pushesOperand, Op.popsOperand, Op.counts]

theorem resolve_counts {base : Word} : ∀ {items : List Item} {p : Nat} {h : Int}, Uniform items →
      ((resolve base items p h).map Op.counts).sum = net items := by
  intro items
  induction items with
  | nil =>
    intro p h _
    rfl
  | cons it items ih =>
    intro p h hu
    obtain ⟨hit, hrest⟩ := uniform_cons.1 hu
    unfold resolve
    rw [List.map_cons, List.sum_cons, ih hrest, net_cons, (hit _ _).2]

theorem operandMoves_code (k : Nat) (i : Sume.Instr) : operandMoves (codeOf ts k i)
      = net (tokenItems ⟨0, fun _ => 0, fun _ => 0⟩ ts k (track ts k) i) := by
  unfold codeOf
  rw [operandMoves_eq, resolve_counts (uniform_tokenItems _ _ _ _ _), net_tokenItems]

theorem net_callItems (f : Sig) (w : Word) : net (callItems f w) = 0 := rfl

theorem net_returnItems (f : Sig) : net (returnItems f) = if f.rt ≠ 0 then 1 else 0 := by
  unfold returnItems
  split <;> rfl

theorem trackStep_call {k : Nat} {tr : Track} {i : Sume.Instr} {f : Sig}
    (hc : i.token = .call) (hf : sigNum (sigsOf ts) i.arg.toInt = some f) :
    (trackStep ts k tr i).stkh = tr.stkh - f.params.length + (if f.rt ≠ 0 then 1 else 0) := by
  unfold trackStep
  simp only [hc, hf]

/-- The code of a `call` moves its result only. -/
theorem moved_call {k : Nat} {i : Sume.Instr} {f : Sig} (hc : i.token = .call)
    (hf : sigNum (sigsOf ts) i.arg.toInt = some f) :
    moved ts k i = (if f.rt ≠ 0 then 1 else 0) - f.params.length := by
  have hitems : tokenItems ⟨0, fun _ => 0, fun _ => 0⟩ ts k (track ts k) i
      = callItems f 0 ++ returnItems f := by
    unfold tokenItems
    simp only [hc, hf]
  unfold moved dropped
  rw [operandMoves_code, hitems, net_append, net_callItems, net_returnItems,
    if_pos hc, hf, Int.zero_add]
  rfl

theorem moved_other {k : Nat} {i : Sume.Instr} (hc : i.token ≠ .call) : moved ts k i
      = net (tokenItems ⟨0, fun _ => 0, fun _ => 0⟩ ts k (track ts k) i) := by
  unfold moved dropped
  rw [operandMoves_code, if_neg hc, Int.sub_zero]

theorem moved_opens {k : Nat} {i : Sume.Instr} (ho : i.token.opens = true) : moved ts k i = 0 := by
  have hc : i.token ≠ .call := by
    intro hc
    rw [hc] at ho
    cases ho
  unfold moved dropped
  rw [codeOf_opens ho, if_neg hc]
  rfl

-- ======== the verifier's counter

/-- The tokens at which both counters are compared. -/
def comparedToken : Token → Bool
  | .block | .loop | .br | .brIf | .ret | .end_ | .vDeclfn | .iDeclfn => false
  | _ => true

/-- The tokens whose code does not move what the verifier does. -/
def miscounted : Token → Bool
  | .iClz | .iCtz | .str16 => true
  | _ => false

/-- The code of a token moves its effect, three tokens apart. -/
theorem moved_eq_iff {k n : Nat} {i : Sume.Instr} {g : Sig} {pushed : List Ty}
    (hg : fnSig ts k = some g) (he : effect (sigsOf ts) g i = some (n, pushed)) :
    ((pushed.length : Int) - n = moved ts k i ↔ miscounted i.token = false) := by
  by_cases hp : plainToken i.token = true
  · have hc : i.token ≠ .call := (plainToken_inv hp).2.2.2
    rw [moved_other hc, tokenItems_plain hp]
    unfold effect at he
    cases ht : i.token <;> rw [ht] at he hp <;> first | cases hp; done | skip
    all_goals first | (cases he; decide) | cases he
  · unfold effect at he
    cases ht : i.token <;> rw [ht] at he hp <;> first | exact absurd rfl hp | skip
    case iConst =>
      cases he
      rw [moved_other (by rw [ht]; decide)]
      unfold tokenItems
      simp only [ht]
      exact iff_of_true rfl rfl
    case getL =>
      obtain ⟨t, -, hpush⟩ := Option.map_eq_some_iff.1 he
      cases hpush
      rw [moved_other (by rw [ht]; decide)]
      unfold tokenItems
      simp only [ht, hg]
      exact iff_of_true rfl rfl
    case setL =>
      cases he
      rw [moved_other (by rw [ht]; decide)]
      unfold tokenItems
      simp only [ht, hg]
      exact iff_of_true rfl rfl
    case call =>
      obtain ⟨f, hf, hpush⟩ := Option.map_eq_some_iff.1 he
      cases hpush
      rw [moved_call ht hf]
      refine iff_of_true ?_ rfl
      unfold Sig.results
      split
      · next hr => rw [if_neg (not_not.2 hr)]; rfl
      · rfl
    all_goals cases he

section Accepted

variable (hacc : Accepted prog slot ts) {k : Nat} {i : Sume.Instr}

include hacc

/-- The compiler counts what its code moves, the `end`s apart. -/
theorem track_moved (hi : ts[k]? = some i) (he : i.token ≠ .end_) :
    (track ts (k + 1)).stkh = (track ts k).stkh + moved ts k i := by
  rw [track_succ hi]
  by_cases ho : i.token.opens = true
  · rw [trackStep_opens hi ho, moved_opens ho]
    exact (Int.add_zero _).symm
  · by_cases hc : i.token = .call
    · obtain ⟨f, hf⟩ := accepted_callee hacc hi hc
      rw [trackStep_call hc hf, moved_call hc hf]
      omega
    · rw [trackStep_counts ⟨0, fun _ => 0, fun _ => 0⟩ (by simpa using ho) he hc, moved_other hc]

/-- The verifier's count of a token. -/
theorem verified_moves (hi : ts[k]? = some i) (ht : comparedToken i.token = true) :
    ∃ s s' : VState, verifyAt prog slot k = .ok s ∧ verifyAt prog slot (k + 1) = .ok s'
      ∧ (s'.stkPos - s.stkPos = moved ts k i ↔ miscounted i.token = false) := by
  have hk : k < ts.length := lt_length hi
  have ho : i.token.opens = false := by
    cases h : i.token <;> rw [h] at ht <;> first | rfl | cases ht
  have hend : i.token ≠ .end_ := by
    intro h
    rw [h] at ht
    cases ht
  have hd := isDecl_false ho
  obtain ⟨s, v, hs, hv, hrep, hok⟩ := hacc.view k (by omega)
  obtain ⟨s', v', hs', hv', hrep', -⟩ := hacc.view (k + 1) hk
  have hcheck : Sume.check (sigsOf ts) v i = some v' := by
    rw [← viewAt_succ hv hi]
    exact hv'
  have hne := check_inFn hd hcheck
  obtain ⟨n, pushed, habove, heff, -⟩ := check_above hok hcheck ho hend
  obtain ⟨h0, hmem⟩ := List.exists_mem_of_ne_nil _ hne
  have hroom := habove.room h0 hmem
  refine ⟨s, s', hs, hs', ?_⟩
  have hdelta : s'.stkPos - s.stkPos = (pushed.length : Int) - n := by
    rw [hrep.pos_of hne, hrep'.pos_of (by rw [habove.hts]; exact hne),
      habove.stk, List.length_append, List.length_drop]
    omega
  rw [hdelta]
  by_cases htrap : i.token = .trap
  · -- `trap` has no effect on a path; its code only jumps
    unfold Sume.check at hcheck
    rw [htrap] at hcheck
    have hcheck : (if v.hts ≠ [] then some v else none) = some v' := hcheck
    rw [if_pos hne] at hcheck
    cases hcheck
    have hnil : n = pushed.length := by
      have hlen := congrArg List.length habove.stk
      rw [List.length_append, List.length_drop] at hlen
      omega
    rw [hnil, Int.sub_self, moved_other (by rw [htrap]; decide),
      tokenItems_plain (by rw [htrap]; rfl), htrap]
    exact iff_of_true rfl rfl
  · obtain ⟨-, g, hg⟩ := accepted_fnSig hacc hi hd
    refine moved_eq_iff hg (heff g ?_ ?_ ?_ ?_ ?_)
    · unfold View.sig
      rw [viewAt_fns (by omega) hv]
      exact hg
    all_goals
      intro h
      cases hc : i.token <;> rw [hc] at h ht htrap <;>
        first | cases h; done | cases ht; done | exact htrap rfl

-- ======== function boundaries

omit hacc in
/-- The operands the text in front of instruction `k` pushes less those it
pops, since the last `end` or declaration. -/
def leftOver (ts : List Sume.Instr) : Nat → Int
  | 0 => 0
  | k + 1 =>
      match ts[k]? with
      | none => leftOver ts k
      | some i =>
          if i.token.isDecl ∨ i.token = .end_ then 0
          else leftOver ts k + moved ts k i

omit hacc in
theorem leftOver_succ (hi : ts[k]? = some i) :
    leftOver ts (k + 1) = if i.token.isDecl ∨ i.token = .end_ then 0
      else leftOver ts k + moved ts k i := by
  show (match ts[k]? with | none => _ | some i => _) = _
  rw [hi]

/-- A block directly in a function ends with the counter at 0. -/
theorem track_end_block (hi : ts[k]? = some i) (he : i.token = .end_)
    (hlen : (openAt ts (k + 1)).length = 1) : (track ts (k + 1)).stkh = 0 := by
  have hk : k < ts.length := lt_length hi
  rw [openAt_end hi he, List.length_tail] at hlen
  obtain ⟨j, j', hopen⟩ : ∃ j j', openAt ts k = [j, j'] := List.length_eq_two.1 (by omega)
  have hj : (openAt ts k)[1]? = some j' := by rw [hopen]; rfl
  obtain ⟨i', hi', -⟩ := openAt_instr (List.mem_of_getElem? hj)
  have hd := (accepted_bottom hacc (by omega) hj hi').2 (by rw [hopen]; rfl)
  have hhts := track_hts ts k
  rw [hopen] at hhts
  rw [track_succ hi]
  unfold trackStep
  simp only [he, hhts, List.map_cons, List.map_nil]
  exact entryHeight_decl hi' hd

/-- Directly in a function the counter is what its text left over, if
the function started with 0. -/
theorem track_leftOver (hstart : ∀ d j, d < k → ts[d]? = some j →
      j.token.isDecl = true → (track ts (d + 1)).stkh = 0)
    (hk : k ≤ ts.length) (hlen : (openAt ts k).length = 1) : (track ts k).stkh = leftOver ts k := by
  induction k with
  | zero => cases hlen
  | succ k ih =>
    have hi : ts[k]? = some ts[k] := List.getElem?_eq_getElem hk
    generalize ts[k] = i at hi
    rw [leftOver_succ hi]
    by_cases hd : i.token.isDecl = true
    · rw [if_pos (Or.inl hd)]
      exact hstart k i (by omega) hi hd
    by_cases he : i.token = .end_
    · rw [if_pos (Or.inr he)]
      exact track_end_block hacc hi he hlen
    have ho : i.token.opens = false := by
      cases ho : i.token.opens with
      | false => rfl
      | true =>
        rw [openAt_opens hi ho, List.length_cons] at hlen
        have hne := hacc.inFn hi (by simpa using hd)
        exact absurd (List.eq_nil_of_length_eq_zero (by omega)) hne
    rw [if_neg (by tauto), track_moved hacc hi he,
      ih (fun d j hd' => hstart d j (by omega)) (by omega)
        (by rwa [openAt_other hi ho he] at hlen)]

/-- In front of a declaration that is not the first stands the `end` of a
function, and neither touches the counter. -/
theorem track_decl (hi : ts[k + 1]? = some i) (hd : i.token.isDecl = true) :
    (openAt ts k).length = 1 ∧ (track ts (k + 2)).stkh = (track ts k).stkh := by
  have hk : k + 1 < ts.length := lt_length hi
  obtain ⟨v, v', hv, -, -, hc⟩ := hacc.check hi
  have hnil : openAt ts (k + 1) = [] := by
    have hlen := (viewAt_nested (by omega) hv).length
    rw [(check_decl hd hc).1] at hlen
    exact List.eq_nil_of_length_eq_zero hlen.symm
  have hj : ts[k]? = some ts[k] := List.getElem?_eq_getElem (by omega)
  generalize ts[k] = j at hj
  have hopens : j.token.opens = false := by
    cases ho : j.token.opens with
    | false => rfl
    | true => rw [openAt_opens hj ho] at hnil; cases hnil
  have hin := hacc.inFn hj (isDecl_false hopens)
  have hend : j.token = .end_ := by
    by_contra he
    rw [openAt_other hj hopens he] at hnil
    exact hin hnil
  have hone : (openAt ts k).length = 1 := by
    rw [openAt_end hj hend] at hnil
    have hpos := List.length_pos_iff.2 hin
    have htail := congrArg List.length hnil
    rw [List.length_tail, List.length_nil] at htail
    omega
  refine ⟨hone, ?_⟩
  rw [track_succ hi, trackStep_opens hi (isDecl_opens hd), track_succ hj]
  obtain ⟨b, hb⟩ := List.length_eq_one_iff.1 hone
  have hhts := track_hts ts k
  rw [hb] at hhts
  unfold trackStep
  simp only [hend, hhts, List.map_cons, List.map_nil]

/-- Every function starts with the counter at 0 exactly when the text of
every function but the last leaves nothing over. -/
theorem starts_iff : (∀ d i, ts[d]? = some i → i.token.isDecl = true → (track ts (d + 1)).stkh = 0)
      ↔ ∀ d i, ts[d + 1]? = some i → i.token.isDecl = true → leftOver ts d = 0 := by
  constructor
  · intro hstart d i hi hd
    have hk : d + 1 < ts.length := lt_length hi
    obtain ⟨hone, hsame⟩ := track_decl hacc hi hd
    rw [← track_leftOver hacc (fun d j _ => hstart d j) (by omega) hone, ← hsame]
    exact hstart (d + 1) i hi hd
  · intro hleft d
    induction d using Nat.strongRecOn with
    | _ d ih =>
      intro i hi hd
      cases d with
      | zero =>
        rw [track_succ hi, trackStep_opens hi (isDecl_opens hd)]
        rfl
      | succ d =>
        have hk : d + 1 < ts.length := lt_length hi
        obtain ⟨hone, hsame⟩ := track_decl hacc hi hd
        rw [hsame, track_leftOver hacc (fun d' j hd' => ih d' (by omega) j) (by omega) hone]
        exact hleft d i hi hd

end Accepted

-- ======== the result

/-- The state of one of the two runs of `populate_infos`, the first when
`gen` is set, behind `k` tokens. -/
def passAt (prog : List Byte) (cap : Nat) (gen : Bool) (k : Nat) : Res AsmState :=
  if gen then asmGenAt prog 0 cap k else asmAt prog 0 cap k

/-- The counters move together: at every token of a body but the
structured ones, `stkh` changes as `stk_pos` does and as the code moves
operands, and it is 0 at the first instruction of every function. -/
structure HeightsAgree (prog : List Byte) (slot : Int) (cap : Nat)
    (ts : List Sume.Instr) : Prop where
  tokens : ∀ k i gen, ts[k]? = some i → comparedToken i.token = true →
    ∃ v v' a a', verifyAt prog slot k = .ok v
      ∧ verifyAt prog slot (k + 1) = .ok v'
      ∧ passAt prog cap gen k = .ok a ∧ passAt prog cap gen (k + 1) = .ok a'
      ∧ a'.stkh - a.stkh = v'.stkPos - v.stkPos
      ∧ a'.stkh - a.stkh = moved ts k i
  starts : ∀ d i gen, ts[d]? = some i → i.token.isDecl = true →
    ∃ a, passAt prog cap gen (d + 1) = .ok a ∧ a.stkh = 0

/-- The texts for which they do: none of the three miscounted tokens
occurs, and every function but the last leaves no operand over in front
of its `end`. -/
structure HeightsFit (ts : List Sume.Instr) : Prop where
  tokens : ∀ i ∈ ts, miscounted i.token = false
  ends : ∀ d i, ts[d + 1]? = some i → i.token.isDecl = true → leftOver ts d = 0

theorem passAt_stkh {cap k : Nat} {code : List Byte}
    (hacc : Accepted prog slot ts) (hcap : cap < 2 ^ 32)
    (hcode : toAsm prog 0 cap = .ok code) (gen : Bool) (hk : k ≤ ts.length) :
    ∃ a, passAt prog cap gen k = .ok a ∧ a.stkh = (track ts k).stkh := by
  obtain ⟨g, c, hg, hc, hgen, hrep⟩ := toAsm_states hacc hcap hcode k hk
  cases gen
  · exact ⟨c, hc, hrep.stkh⟩
  · exact ⟨g, hg, hgen.stkh⟩

/-- The compiler's height tracking agrees with the verifier's exactly on
the programs of `HeightsFit`. -/
theorem heights_agree_iff {cap : Nat} {code : List Byte} (h : Accepts prog slot)
    (hcap : cap < 2 ^ 32) (hcode : toAsm prog 0 cap = .ok code)
    (hts : Sume.decode prog = .ok ts) :
    HeightsAgree prog slot cap ts ↔ HeightsFit ts := by
  have hacc : Accepted prog slot ts := h.accepted_decode hts
  constructor
  · intro hag
    refine ⟨fun i hmem => ?_, (starts_iff hacc).1 fun d i hi hd => ?_⟩
    · obtain ⟨k, hk, rfl⟩ := List.getElem_of_mem hmem
      have hi : ts[k]? = some ts[k] := List.getElem?_eq_getElem hk
      by_contra hbad
      have hcmp : comparedToken ts[k].token = true := by
        cases ht : ts[k].token <;> rw [ht] at hbad <;> first | rfl | exact absurd rfl hbad
      obtain ⟨v, v', a, a', hv, hv', -, -, hsame, hmoved⟩ := hag.tokens k _ true hi hcmp
      obtain ⟨s, s', hs, hs', hiff⟩ := verified_moves hacc hi hcmp
      obtain rfl : v = s := Except.ok.inj (hv.symm.trans hs)
      obtain rfl : v' = s' := Except.ok.inj (hv'.symm.trans hs')
      exact hbad (hiff.1 (hsame.symm.trans hmoved))
    · have hk : d < ts.length := lt_length hi
      obtain ⟨a, ha, hzero⟩ := hag.starts d i true hi hd
      obtain ⟨a', ha', hstkh⟩ := passAt_stkh hacc hcap hcode true hk
      obtain rfl : a = a' := Except.ok.inj (ha.symm.trans ha')
      exact hstkh.symm.trans hzero
  · intro hfit
    refine ⟨fun k i gen hi hcmp => ?_, fun d i gen hi hd => ?_⟩
    · have hk : k < ts.length := lt_length hi
      obtain ⟨s, s', hs, hs', hiff⟩ := verified_moves hacc hi hcmp
      obtain ⟨a, ha, hstkh⟩ := passAt_stkh hacc hcap hcode gen (by omega : k ≤ _)
      obtain ⟨a', ha', hstkh'⟩ := passAt_stkh hacc hcap hcode gen (by omega : k + 1 ≤ _)
      have hdelta : a'.stkh - a.stkh = moved ts k i := by
        rw [hstkh', hstkh, track_moved hacc hi (by rintro h; rw [h] at hcmp; cases hcmp)]
        omega
      have hmoves := hiff.2 (hfit.tokens i (List.mem_of_getElem? hi))
      exact ⟨s, s', a, a', hs, hs', ha, ha', hdelta.trans hmoves.symm, hdelta⟩
    · have hk : d < ts.length := lt_length hi
      obtain ⟨a, ha, hstkh⟩ := passAt_stkh hacc hcap hcode gen (by omega : d + 1 ≤ _)
      exact ⟨a, ha, hstkh.trans ((starts_iff hacc).2 hfit.ends d i hi hd)⟩

/-- The program `v_declfn () () trap end`. -/
theorem heights_agree_iff_trap :
    ∃ code ts, toAsm [0x31, 0, 0, 0x29, 0x2f] 0 4096 = .ok code
      ∧ Accepts [0x31, 0, 0, 0x29, 0x2f] 0
      ∧ Sume.decode [0x31, 0, 0, 0x29, 0x2f] = .ok ts
      ∧ (HeightsAgree [0x31, 0, 0, 0x29, 0x2f] 0 4096 ts ↔ HeightsFit ts) := by
  obtain ⟨code, hcode⟩ := exists_ok
    (x := toAsm [0x31, 0, 0, 0x29, 0x2f] 0 4096) (by decide +kernel)
  obtain ⟨ts, hts⟩ := exists_ok
    (x := Sume.decode [0x31, 0, 0, 0x29, 0x2f]) (by decide +kernel)
  have hacc : Accepts [0x31, 0, 0, 0x29, 0x2f] 0 := ⟨_, rfl⟩
  exact ⟨code, ts, hcode, hacc, hts,
    heights_agree_iff hacc (by decide) hcode hts⟩

/-- In `v_declfn () () i_const 1 i_clz trap end` the `i_clz` leaves the
verifier at height 1 and takes the compiler to 0. In `v_declfn () ()
i_const 1 trap end v_declfn () () trap end` the second function starts
at 1. -/
theorem clz_and_leftovers_shift_stkh :
    ((verify [0x31, 0, 0, 0, 1, 0, 0, 0, 1, 0x29, 0x2f] 0).toOption.isSome = true
      ∧ [2, 3].map (fun k => (verifyAt [0x31, 0, 0, 0, 1, 0, 0, 0, 1, 0x29, 0x2f]
          0 k).toOption.map VState.stkPos) = [some 1, some 1]
      ∧ [2, 3].map (fun k => (asmAt [0x31, 0, 0, 0, 1, 0, 0, 0, 1, 0x29, 0x2f]
          0 4096 k).toOption.map AsmState.stkh) = [some 1, some 0])
    ∧ (verify [0x31, 0, 0, 0, 1, 0, 0, 0, 0x29, 0x2f, 0x31, 0, 0, 0x29, 0x2f]
        0).toOption.isSome = true
      ∧ (asmAt [0x31, 0, 0, 0, 1, 0, 0, 0, 0x29, 0x2f, 0x31, 0, 0, 0x29, 0x2f]
          0 4096 5).toOption.map AsmState.stkh = some 1 := by
  decide +kernel

end Xv6Sume32.Asm
