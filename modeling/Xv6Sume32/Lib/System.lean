/-
Systems that take labelled steps: what is reached, and the rule for
invariants.

A step is a partial function of an event and a state, so that a run is
given by its list of events and can be evaluated (`runs`). `Reach` is the
set of states that some list of events leads to; a property that starts
out true and that every step keeps holds on all of it (`Reach.invariant`),
also where the steps need what is already known of the states reached
(`Reach.invariant_with`). For processes with a place in their code and a
lock that some places are under, `HeldBy.move` is the step.
-/
import Mathlib.Tactic

namespace Xv6Sume32.Lib

variable {σ ε : Type} {step : ε → σ → Option σ} {init : σ → Prop}

/-- The states a run from an initial state gets to. -/
inductive Reach (step : ε → σ → Option σ) (init : σ → Prop) : σ → Prop
  | start {s : σ} : init s → Reach step init s
  | next {e : ε} {s t : σ} : Reach step init s → step e s = some t →
      Reach step init t

/-- What every step keeps holds of every state reached. -/
theorem Reach.invariant {I : σ → Prop} (h0 : ∀ s, init s → I s)
    (hstep : ∀ e s t, I s → step e s = some t → I t) {s : σ} (h : Reach step init s) : I s := by
  induction h with
  | start hs => exact h0 _ hs
  | next _ hs ih => exact hstep _ _ _ ih hs

/-- The same where every step may use what is already known of the states
reached. -/
theorem Reach.invariant_with {I K : σ → Prop}
    (hK : ∀ s, Reach step init s → K s) (h0 : ∀ s, init s → I s)
    (hstep : ∀ e s t, K s → I s → step e s = some t → I t) {s : σ}
    (h : Reach step init s) : I s := by
  induction h with
  | start hs => exact h0 _ hs
  | next hr hs ih => exact hstep _ _ _ (hK _ hr) ih hs

/-- The state a list of events leads to. -/
def runs (step : ε → σ → Option σ) : List ε → σ → Option σ
  | [], s => some s
  | e :: es, s => (step e s).bind (runs step es)

theorem Reach.runs {s t : σ} {es : List ε} (h : Reach step init s)
    (hr : runs step es s = some t) : Reach step init t := by
  induction es generalizing s with
  | nil =>
    cases hr
    exact h
  | cons e es ih =>
    obtain ⟨u, hu, hr⟩ := Option.bind_eq_some_iff.1 hr
    exact ih (h.next hu) hr

/-- A run that is evaluated, and what is seen of its last state. -/
theorem Reach.eval {α : Type} {s : σ} (step : ε → σ → Option σ) (es : List ε) (f : σ → α)
    (a : α) (h0 : init s) (h : (Lib.runs step es s).map f = some a) :
    ∃ t, Reach step init t ∧ f t = a := by
  obtain ⟨t, ht, ha⟩ := Option.map_eq_some_iff.1 h
  exact ⟨t, (Reach.start h0).runs ht, ha⟩

/-- The same from a state that is computed. -/
theorem Reach.eval_from {α δ : Type} {x : Except δ σ} (hx : ∀ s, x = .ok s → init s)
    (step : ε → σ → Option σ) (es : List ε) (f : σ → α) (a : α)
    (h : (x.toOption.bind fun s => (Lib.runs step es s).map f) = some a) :
    ∃ t, Reach step init t ∧ f t = a := by
  cases x with
  | error e => cases h
  | ok s => exact Reach.eval step es f a (hx s rfl) h

/-- The steps that a guard lets through. -/
def only (guard : ε → σ → Bool) (step : ε → σ → Option σ) (e : ε) (s : σ) : Option σ :=
  if guard e s then step e s else none

theorem only_eq_some {guard : ε → σ → Bool} {e : ε} {s t : σ} :
    only guard step e s = some t ↔ guard e s = true ∧ step e s = some t := by
  unfold only
  split
  · next h => exact ⟨fun hs => ⟨h, hs⟩, fun hs => hs.2⟩
  · next h => exact ⟨fun hs => (by cases hs), fun hs => absurd hs.1 h⟩

/-- Fewer steps reach less. -/
theorem Reach.of_only {guard : ε → σ → Bool} {s : σ}
    (h : Reach (only guard step) init s) : Reach step init s := by
  induction h with
  | start hs => exact .start hs
  | next _ hs ih => exact ih.next (only_eq_some.1 hs).2

/-- The holder of the lock is the process at one of the places that are
under it. -/
def HeldBy {P κ : Type} (under : κ → Bool) (o : Option P) (pc : P → κ) : Prop :=
  ∀ p, under (pc p) = true ↔ o = some p

/-- What a step of `p` from `a` to `c` may do with the lock: nothing where
both places agree, else take it where it is free, or let go of it. -/
def Moves {P κ : Type} (under : κ → Bool) (p : P) (a c : κ) (o o' : Option P) : Prop :=
  if under a = under c then o' = o else if under c then o = none ∧ o' = some p else o' = none

theorem HeldBy.move {P κ : Type} {under : κ → Bool} {o o' : Option P} {pc pc' : P → κ} {p : P}
    (h : HeldBy under o pc) (hm : Moves under p (pc p) (pc' p) o o')
    (hother : ∀ q, q ≠ p → under (pc' q) = under (pc q)) : HeldBy under o' pc' := by
  intro q
  have hp := h p
  have hq := h q
  unfold Moves at hm
  by_cases hqp : q = p
  · subst hqp
    grind
  · grind

end Xv6Sume32.Lib
