/-
Runs of a deterministic machine given by a partial step function: where
a run gets to, and what holds on the way.

`runN step n s` is the state after `n` steps. `Goes step P Q s` says that
the run from `s` reaches a state of `Q` and passes only states of `P`
before it: what a piece of code is proved to do.
-/
import Mathlib.Tactic

namespace Xv6Sume32.Lib

variable {σ : Type} {step : σ → Option σ} {P Q : σ → Prop} {s t : σ}

-- ======== counted steps

/-- The state after `n` steps, if the machine gets that far. -/
def runN (step : σ → Option σ) : Nat → σ → Option σ
  | 0, s => some s
  | n + 1, s => (step s).bind (runN step n)

theorem runN_succ {n : Nat} (hs : step s = some t) : runN step (n + 1) s = runN step n t := by
  show (step s).bind (runN step n) = _
  rw [hs]
  rfl

/-- Runs compose. -/
theorem runN_add {n m : Nat} : ∀ {s t : σ}, runN step n s = some t →
      runN step (n + m) s = runN step m t := by
  induction n with
  | zero =>
    intro s t h
    cases h
    rw [Nat.zero_add]
  | succ n ih =>
    intro s t h
    rw [Nat.add_right_comm]
    cases hs : step s with
    | none =>
      have : (step s).bind (runN step n) = some t := h
      rw [hs] at this
      cases this
    | some u =>
      rw [runN_succ hs] at h ⊢
      exact ih h

-- ======== pieces

/-- The run from `s` reaches a state of `Q`, through states of `P`. -/
inductive Goes (step : σ → Option σ) (P Q : σ → Prop) : σ → Prop
  | done {s : σ} (hq : Q s) : Goes step P Q s
  | next {s t : σ} (hp : P s) (hs : step s = some t) (h : Goes step P Q t) :
      Goes step P Q s

/-- The same in at least one step. -/
def Advances (step : σ → Option σ) (P Q : σ → Prop) (s : σ) : Prop :=
  P s ∧ ∃ t, step s = some t ∧ Goes step P Q t

/-- A piece that needs a first step has one when its goal does not hold
yet. -/
theorem Goes.advances (h : Goes step P Q s) (hq : ¬ Q s) : Advances step P Q s := by
  cases h with
  | done hs => exact absurd hs hq
  | next hp hs ht => exact ⟨hp, _, hs, ht⟩

/-- A step on the way changes nothing about where the run goes. -/
theorem Goes.step_iff (hp : P s) (hq : ¬ Q s) (hs : step s = some t) :
    Goes step P Q s ↔ Goes step P Q t := by
  constructor
  · intro h
    obtain ⟨-, u, hu, h⟩ := h.advances hq
    obtain rfl := Option.some.inj (hs.symm.trans hu)
    exact h
  · exact .next hp hs

end Xv6Sume32.Lib
