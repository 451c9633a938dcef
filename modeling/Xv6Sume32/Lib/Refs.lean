/-
Counted references.

A place has at most one reference, and `refs place k` is how many places
refer to `k`. One equation says what a change of one place does to all
counts (`refs_update`).

`ledger` reads a history of what a holder took and put back. It has a
value only if the two alternate and each thing put back is the one taken
last, and that value is what the holder has at the end: so whatever was
taken has been put back exactly once, or not yet.
-/
import Mathlib.Tactic

namespace Xv6Sume32.Lib

/-- A sum over all places when one of them changes. -/
theorem sum_update {I K : Type} [Fintype I] [DecidableEq I] (g : K → Nat) (f : I → K) (i : I)
    (v : K) : (∑ j, g (Function.update f i v j)) + g (f i) = (∑ j, g (f j)) + g v := by
  have h1 := Finset.sum_update_of_mem (Finset.mem_univ i) (g ∘ f) (g v)
  have h2 := Finset.add_sum_erase Finset.univ (g ∘ f) (Finset.mem_univ i)
  rw [← Function.comp_update, Finset.sdiff_singleton_eq_erase] at h1
  simp only [Function.comp_apply] at h1 h2
  omega

section Refs

variable {I K : Type} [Fintype I] [DecidableEq K] {place : I → Option K} {k : K}

/-- The number of places that refer to `k`. -/
def refs (place : I → Option K) (k : K) : Nat :=
  (Finset.univ.filter fun i => place i = some k).card

theorem refs_eq_zero_iff : refs place k = 0 ↔ ∀ i, place i ≠ some k := by
  simp [refs, Finset.filter_eq_empty_iff]

theorem refs_pos (i : I) (h : place i = some k) : 1 ≤ refs place k := by
  by_contra hzero
  exact refs_eq_zero_iff.1 (by omega) i h

variable [DecidableEq I]

/-- One place changes. -/
theorem refs_update (place : I → Option K) (i : I) (v : Option K) (k : K) :
    refs (Function.update place i v) k + (if place i = some k then 1 else 0)
      = refs place k + (if v = some k then 1 else 0) := by
  unfold refs
  rw [Finset.card_filter, Finset.card_filter]
  exact sum_update (fun v => if v = some k then 1 else 0) place i v

/-- An empty place is filled. -/
theorem refs_fill {i : I} (h : place i = none) (j k : K) :
    refs (Function.update place i (some j)) k = refs place k + if j = k then 1 else 0 := by
  have := refs_update place i (some j) k
  simpa [h] using this

/-- A place is emptied. -/
theorem refs_clear {i : I} {j : K} (h : place i = some j) (k : K) :
    refs (Function.update place i none) k + (if j = k then 1 else 0) = refs place k := by
  have := refs_update place i none k
  simpa [h] using this

end Refs

section Ledger

variable {F H : Type} [DecidableEq F] [DecidableEq H] {f g : F} {h : H} {log : List (F × Bool × H)}

/-- What `f` has after a history, newest entry first; an entry is a holder,
whether it took or put back, and what. -/
def ledger (f : F) : List (F × Bool × H) → Option (Option H)
  | [] => some none
  | (g, took, h) :: log =>
      (ledger f log).bind fun now =>
        if g ≠ f then some now
        else if took then (if now = none then some (some h) else none)
        else if now = some h then some none else none

theorem ledger_other {took : Bool} (hne : g ≠ f) :
    ledger f ((g, took, h) :: log) = ledger f log := by
  simp [ledger, hne]

theorem ledger_take (hnow : ledger f log = some none) :
    ledger f ((f, true, h) :: log) = some (some h) := by
  simp [ledger, hnow]

theorem ledger_put (hnow : ledger f log = some (some h)) :
    ledger f ((f, false, h) :: log) = some none := by
  simp [ledger, hnow]

end Ledger

end Xv6Sume32.Lib
