/-
A second run of `populate_fns` over the table a first one left.

The table keeps the type lists of the first run, and `add_fn_params` and
`add_fn_locals` compare the lists of a second run with them: a list that
differs should be turned away, the same list should pass. They take the
result of `memcmp` for 0 where the ranges agree, as in the C library.
The user library's `memcmp` returns 1 there and 0 where they differ
(`memcmp_eq_zero_iff`), so the comparison does the opposite of what it is
for, also for empty lists.

So the same program again stops at its first declaration, and the second
run is as it should be only for programs that declare nothing
(`redeclare_accepted_iff`).
-/
import Xv6Sume32.Sume.Syntax
import Xv6Sume32.Sume.Proofs.Refine

namespace Xv6Sume32.Sume

open Lib

variable {prog : List Byte}

variable {tab : FnTable} {n p p' : Nat} {ts : List Instr} {i : Instr}

-- ======== comparisons

/-- `memcmp` returns 0 for ranges that differ. -/
theorem memcmp_eq_zero_iff :
    ∀ {as bs : List Ty}, as.length = bs.length → (memcmp as bs = 0 ↔ as ≠ bs)
  | [], [], _ => by simp [memcmp]
  | a :: as, b :: bs, h => by
      have ih := memcmp_eq_zero_iff (Nat.succ.inj h)
      by_cases hab : a = b
      · rw [memcmp, if_neg (not_not.2 hab), ih, hab]
        simp
      · rw [memcmp, if_pos hab]
        simp [hab]

theorem ListRep.slice {off : Nat} {ts : List Ty}
    (h : ListRep tab (some off) n ts) : tab.slice off ts.length = ts := by
  obtain ⟨-, off', hoff, -, hheap⟩ := h
  cases hoff
  refine List.ext_getElem (by simp [FnTable.slice]) fun i h1 h2 => ?_
  simp only [FnTable.slice, List.getElem_map, List.getElem_range]
  exact hheap i h2

/-- A recorded list turns itself away. -/
theorem addFnParams_same {k : Nat} {ts : List Ty}
    (h : ListRep tab (tab.fns k).paramT (tab.fns k).paramN ts) :
    addFnParams tab k ts = .error .reject := by
  obtain ⟨off, hoff⟩ : ∃ off, (tab.fns k).paramT = some off := by
    obtain ⟨-, off, hoff, -⟩ := h
    exact ⟨off, hoff⟩
  have hlen := h.1
  unfold addFnParams
  rw [hoff] at h ⊢
  have hcmp : ¬ memcmp (tab.slice off ts.length) ts = 0 := by
    rw [memcmp_eq_zero_iff (by rw [h.slice]), not_not, h.slice]
  dsimp only
  unfold require
  rw [if_pos (decide_eq_true hlen.symm), if_neg (by rw [decide_eq_false hcmp]; decide)]
  rfl

-- ======== the second run

/-- An instruction that declares nothing leaves the table alone. -/
theorem populateStep_plain
    (hi : instrAt prog p = .ok (i, p')) (hdecl : i.token.isDecl = false) :
    populateStep prog ⟨p, n, tab⟩ = .ok ⟨p', n, tab⟩ := by
  obtain ⟨b, hb, ht, hnone, hint, -⟩ := instrAt_inv hi
  unfold populateStep
  dsimp only
  rw [hb]
  dsimp only
  rw [ht]
  dsimp only
  cases hop : i.token.operand with
  | none => rw [hnone hop]
  | int => exact bind_eq_ok.2 ⟨_, hint hop, rfl⟩
  | types =>
    rw [operand_types, hdecl] at hop
    cases hop

/-- A declaration whose parameter list is recorded already is turned
away. -/
theorem populateStep_again
    (hi : instrAt prog p = .ok (i, p')) (hdecl : i.token.isDecl = true) (hn : n < fnInfosSz)
    (hrep : ListRep tab (tab.fns n).paramT (tab.fns n).paramN i.params) :
    populateStep prog ⟨p, n, tab⟩ = .error .reject := by
  have hop := (operand_types i.token).2 hdecl
  obtain ⟨b, hb, ht, -, -, hlists⟩ := instrAt_inv hi
  obtain ⟨r, hps, -⟩ := hlists hop
  unfold populateStep
  dsimp only
  rw [hb]
  dsimp only
  rw [ht]
  dsimp only
  rw [hop]
  refine bind_of_ok (a := ()) (inRange_eq_ok.2 (decide_eq_true hn)) ?_
  refine bind_of_ok hps (bind_of_error ?_)
  refine addFnParams_same ?_
  show ListRep tab (if n = n then _ else _ : FnInfo).paramT (if n = n then _ else _ : FnInfo).paramN _
  rw [if_pos rfl]
  exact hrep

/-- Without declarations, a run leaves the table as it was. -/
theorem populateFns_plain (n : Nat) (tab : FnTable)
    (hsc : Scans prog p ts)
    (hdecl : ∀ i ∈ ts, i.token.isDecl = false) : ∀ fuel, prog.length ≤ p + fuel →
      ∃ q, whileLt prog.length PopState.place (populateStep prog) fuel ⟨p, n, tab⟩
        = .ok ⟨q, n, tab⟩ := by
  induction hsc with
  | @nil p hp =>
    intro fuel _
    cases fuel with
    | zero => exact ⟨p, rfl⟩
    | succ fuel => exact ⟨p, if_neg (by dsimp only; omega)⟩
  | @cons p p' i is hp hi _ ih =>
    intro fuel hf
    cases fuel with
    | zero => omega
    | succ fuel =>
      have hadv := instrAt_advances hi
      obtain ⟨q, hq⟩ := ih (fun j hj => hdecl j (List.mem_cons_of_mem _ hj)) fuel (by omega)
      refine ⟨q, ?_⟩
      unfold whileLt
      rw [if_pos hp, populateStep_plain hi (hdecl i List.mem_cons_self)]
      exact hq

/-- A run over a table that has the parameter list of its first function
stops there. -/
theorem populateFns_again {g : Sig} {gs : List Sig}
    (hsc : Scans prog p ts) (hsigs : sigsOf ts = g :: gs) (hn : n < fnInfosSz)
    (hrep : ListRep tab (tab.fns n).paramT (tab.fns n).paramN g.params) :
    ∀ fuel, prog.length ≤ p + fuel →
      whileLt prog.length PopState.place (populateStep prog) fuel ⟨p, n, tab⟩ = .error .reject := by
  induction hsc with
  | nil _ => cases hsigs
  | @cons p p' i is hp hi _ ih =>
    intro fuel hf
    cases fuel with
    | zero => omega
    | succ fuel =>
      have hadv := instrAt_advances hi
      unfold whileLt
      rw [if_pos hp]
      rw [sigsOf_cons] at hsigs
      cases hdecl : i.token.isDecl with
      | false =>
        rw [if_neg (by rw [hdecl]; decide)] at hsigs
        rw [populateStep_plain hi hdecl]
        exact ih hsigs fuel (by omega)
      | true =>
        rw [if_pos hdecl] at hsigs
        cases hsigs
        rw [populateStep_again hi hdecl hn hrep]
        rfl

theorem sigsOf_eq_nil : sigsOf ts = [] ↔ ∀ i ∈ ts, i.token.isDecl = false := by
  unfold sigsOf
  rw [List.map_eq_nil_iff, List.filter_eq_nil_iff]
  simp only [Bool.not_eq_true]

-- ======== the result

/-- Some function is declared in both programs, with different lists. -/
def Differs (ts us : List Instr) : Prop :=
  ∃ (k : Nat) (g g' : Sig), (sigsOf ts)[k]? = some g ∧ (sigsOf us)[k]? = some g'
    ∧ (g.params ≠ g'.params ∨ g.locals ≠ g'.locals)

/-- A second run on the same program succeeds and changes nothing, and
one on a program that differs in a declaration is turned away, exactly
for programs that declare nothing. -/
theorem redeclare_accepted_iff {ts : List Instr} {pop : PopState} (hsc : Scans prog 0 ts)
    (hpop : populateFns prog FnTable.empty = .ok pop) :
    ((∃ pop', populateFns prog pop.tab = .ok pop' ∧ pop'.tab = pop.tab)
      ∧ ∀ prog' us, Scans prog' 0 us → Differs ts us →
        populateFns prog' pop.tab = .error .reject)
    ↔ ∀ i ∈ ts, i.token.isDecl = false := by
  obtain ⟨ts', hsc', hrep, -⟩ := populateFns_scans hpop
  obtain rfl := hsc.unique hsc'
  constructor
  · rintro ⟨⟨pop', hagain, -⟩, -⟩
    cases hsigs : sigsOf ts with
    | nil => exact sigsOf_eq_nil.1 hsigs
    | cons g gs =>
        have hfirst := (hrep.fn 0 g (by rw [hsigs]; rfl)).params
        have := populateFns_again hsc hsigs (n := 0) (by decide) hfirst prog.length
          (by omega)
        cases hagain.symm.trans this
  · intro hdecl
    obtain ⟨q, hq⟩ := populateFns_plain 0 pop.tab hsc hdecl prog.length (by omega)
    refine ⟨⟨_, hq, rfl⟩, ?_⟩
    rintro prog' us - ⟨k, g, g', hg, -⟩
    rw [sigsOf_eq_nil.2 hdecl] at hg
    cases hg

theorem redeclare_accepted_ret :
    ∃ pop, populateFns [Token.toByte .ret] FnTable.empty = .ok pop
      ∧ ∃ pop', populateFns [Token.toByte .ret] pop.tab = .ok pop' ∧ pop'.tab = pop.tab := by
  have hsc : Scans [Token.toByte .ret] 0 [{ token := .ret }] :=
    .cons (by decide) rfl (.nil (by decide))
  refine ⟨_, rfl, ((redeclare_accepted_iff hsc rfl).2 ?_).1⟩
  intro i hi
  rw [List.mem_singleton.1 hi]
  rfl

/-- One function without parameters and locals: the second run is turned
away. Of two functions that take an `int` and a `flt`, the second is
taken for the first. -/
theorem redeclare_rejected :
    (∃ pop, populateFns (encodeAll [⟨.vDeclfn, 0, [], []⟩]) FnTable.empty = .ok pop
      ∧ populateFns (encodeAll [⟨.vDeclfn, 0, [], []⟩]) pop.tab = .error .reject)
    ∧ ∃ pop, populateFns (encodeAll [⟨.vDeclfn, 0, [1], [1]⟩]) FnTable.empty = .ok pop
      ∧ ∃ pop', populateFns (encodeAll [⟨.vDeclfn, 0, [2], [2]⟩]) pop.tab = .ok pop' :=
  ⟨⟨_, rfl, rfl⟩, _, rfl, _, rfl⟩

end Xv6Sume32.Sume
