/-
`verify` accepts every program that the scan of `check` passes.

Where `check` passes an instruction, none of the checks of the round fails
and none of its accesses leaves a table, so the round ends, with the next
view. Together with the other direction (`Accepts.accepted`) this says which
programs are accepted, without a word about bytes, counters and tables.
-/
import Xv6Sume32.Sume.Proofs.Paths

namespace Xv6Sume32.Sume

open Lib

variable {prog : List Byte} {tab : FnTable} {s : VState} {slot : Int} {ts : List Instr} {k : Nat}
  {i : Instr}

/-- What `verify` asks of the instructions of a program: a first function
without parameters, an `end` behind whatever leaves a block, and for every
instruction the operands it needs. -/
structure WellTyped (slot : Int) (ts : List Instr) : Prop where
  main : ∀ g, (sigsOf ts)[0]? = some g → g.params = []
  ends : ∀ k i, ts[k]? = some i → i.token.needsEnd = true →
    ts[k + 1]?.map Instr.token = some .end_
  typed : checkAll (sigsOf ts) (View.init slot) ts ≠ none

theorem WellTyped.view (h : WellTyped slot ts) (k : Nat) : ∃ v, viewAt slot ts k = some v := by
  refine Option.ne_none_iff_exists'.1 fun hnone => h.typed ?_
  unfold viewAt at hnone
  rw [← List.take_append_drop k ts, checkAll_append, List.take_append_drop, hnone]
  rfl

/-- What follows an instruction is the next one's token. -/
theorem end_follows {p : Nat} (hrest : Scans prog p (ts.drop (k + 1))) :
    prog[p]? = some endByte ↔ ts[k + 1]?.map Instr.token = some .end_ := by
  cases hi : ts[k + 1]? with
  | none =>
    have hlen := List.getElem?_eq_none_iff.1 hi
    rw [List.drop_eq_nil_of_le hlen] at hrest
    cases hrest with
    | nil hp =>
      rw [List.getElem?_eq_none hp]
      exact ⟨fun h => (by cases h), fun h => (by cases h)⟩
  | some i =>
    obtain ⟨-, q, hq, -⟩ := hrest.head hi
    obtain ⟨b, hb, ht, -⟩ := instrAt_inv hq
    rw [hb, Option.map_some, Option.some_inj, Option.some_inj, ← ofByte_eq_end, ht,
      Option.some_inj]

/-- Before round `k`: the instructions that are left, and the view that the
variables hold. -/
def Along (prog : List Byte) (slot : Int) (ts : List Instr) (k : Nat) (s : VState) : Prop :=
  Scans prog s.place (ts.drop k) ∧ ∃ v, viewAt slot ts k = some v ∧ Rep s v

theorem WellTyped.step (h : WellTyped slot ts) (htab : TableRep tab (sigsOf ts))
    (hs : Along prog slot ts k s) (hi : ts[k]? = some i) :
    ∃ s', verifyStep prog tab (sigsOf ts).length s = .ok s' ∧ Along prog slot ts (k + 1) s' := by
  obtain ⟨hrest, v, hv, hrep⟩ := hs
  have hk := Nat.le_of_lt (lt_length hi)
  obtain ⟨-, q, hin, hrest⟩ := hrest.head hi
  obtain ⟨w, hw⟩ := h.view (k + 1)
  have hc := (viewAt_succ hv hi).symm.trans hw
  obtain ⟨s', hs', hrep', -, hpl⟩ := (verifyStep_matches (E := fun _ => True) trivial htab
    (fun _ => trivial) hrep (viewAt_ok hk hv) hin).of_some
    ((if_pos fun hneeds => (end_follows hrest).2 (h.ends k i hi hneeds)).trans hc)
  exact ⟨s', hs', hpl ▸ hrest, w, hw, hrep'⟩

theorem Accepted.wellTyped (h : Accepted prog slot ts) : WellTyped slot ts := by
  refine ⟨h.main, fun k i hi hneeds => ?_, ?_⟩
  · obtain ⟨j, hj, ht⟩ := h.ends k i hi hneeds
    rw [hj, Option.map_some, ht]
  · obtain ⟨-, v, -, hv, -, -⟩ := h.view ts.length (Nat.le_refl _)
    unfold viewAt at hv
    rw [List.take_length] at hv
    rw [hv]
    exact Option.some_ne_none v

theorem WellTyped.accepts {pop : PopState} (h : WellTyped slot ts)
    (hpop : populateFns prog FnTable.empty = .ok pop) (hsc : Scans prog 0 ts) :
    Accepts prog slot := by
  obtain ⟨us, hus, htab, hnum⟩ := populateFns_scans hpop
  obtain rfl := hus.unique hsc
  have hmain : (pop.tab.fns 0).paramN = 0 := by
    cases hg : (sigsOf us)[0]? with
    | none =>
      rw [htab.zero 0 (List.getElem?_eq_none_iff.1 hg)]
      rfl
    | some g =>
      rw [(htab.fn 0 g hg).params.1, h.main g hg]
      rfl
  obtain ⟨s, hs, -⟩ := whileLt_tokens_ok (fun _ s (hs : Along prog slot us _ s) => hs.1)
    (fun _ _ _ hs hi => h.step htab hs hi) ⟨hsc, _, rfl, rep_init slot⟩ hsc.fuel
  rw [← hnum] at hs
  exact ⟨s, bind_eq_ok.2 ⟨pop, hpop, bind_eq_ok.2 ⟨(), require_decide.2 hmain, hs⟩⟩⟩

/-- `verify` decides the typing rules: it accepts the programs whose
declarations fit its tables and whose instructions are well typed, and no
others. -/
theorem accepts_iff_wellTyped (prog : List Byte) (slot : Int) :
    Accepts prog slot ↔ ∃ pop ts, populateFns prog FnTable.empty = .ok pop ∧
      Scans prog 0 ts ∧ WellTyped slot ts := by
  constructor
  · intro h
    obtain ⟨ts, hacc⟩ := h.accepted
    obtain ⟨pop, hpop, -⟩ := hacc.table
    exact ⟨pop, ts, hpop, hacc.scans, hacc.wellTyped⟩
  · rintro ⟨pop, ts, hpop, hsc, h⟩
    exact h.accepts hpop hsc

end Xv6Sume32.Sume
