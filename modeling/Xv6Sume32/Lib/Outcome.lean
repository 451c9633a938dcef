/-
Computations that may fail, and what they may end with.

`Outcome E P x` says that `x` fails with an error of `E` or ends with a
value of `P`. The rules follow the ways computations are put together:
one after another, and over a list with an invariant.

`Both Q x y` is about two computations: they fail with the same error, or
end with values that `Q` relates. It has the same rules.

`Matches E R x y` is about a program and what it is meant to compute:
where `y` has no value `x` fails with an error of `E`, else both have
values, and `R` relates the two.
-/
import Mathlib.Tactic

namespace Xv6Sume32.Lib

variable {ε α β σ : Type} {E E' : ε → Prop} {P Q : α → Prop}

def Outcome (E : ε → Prop) (P : α → Prop) : Except ε α → Prop
  | .error e => E e
  | .ok a => P a

theorem Outcome.imp {x : Except ε α} (h : Outcome E P x) (hE : ∀ e, E e → E' e)
    (hP : ∀ a, P a → Q a) : Outcome E' Q x := by
  cases x with
  | error e => exact hE e h
  | ok a => exact hP a h

theorem Outcome.of_ok {x : Except ε α} {a : α} (h : Outcome E P x) (hx : x = .ok a) : P a := by
  subst hx
  exact h

theorem Outcome.and {x : Except ε α} (h : Outcome E P x) (h' : Outcome E' Q x) :
    Outcome (fun e => E e ∧ E' e) (fun a => P a ∧ Q a) x := by
  cases x with
  | error e => exact ⟨h, h'⟩
  | ok a => exact ⟨h, h'⟩

theorem Outcome.bind {x : Except ε α} {f : α → Except ε β} {Q : β → Prop} (h : Outcome E P x)
    (hf : ∀ a, P a → Outcome E Q (f a)) : Outcome E Q (x >>= f) := by
  cases x with
  | error e => exact h
  | ok a => exact hf a h

/-- The same, with the computations behind equations: an `Outcome` of a
closed one is evaluated when its type is looked at. -/
theorem Outcome.bind_eq {x : Except ε α} {y : Except ε β} {f : α → Except ε β} {Q : β → Prop}
    (hy : x >>= f = y) (h : ∀ {x'}, x = x' → Outcome E P x')
    (hf : ∀ a, P a → ∀ {y'}, f a = y' → Outcome E Q y') : Outcome E Q y := by
  subst hy
  exact (h rfl).bind fun a ha => hf a ha rfl

theorem Outcome.known {z : Except ε β} {f : β → Except ε α} {c : β} (hz : z = .ok c)
    (h : Outcome E P (f c)) : Outcome E P (z >>= f) := by
  subst hz
  exact h

/-- What every round keeps. -/
theorem Outcome.foldlM {I : σ → Prop} {f : σ → β → Except ε σ} {l : List β} {s : σ}
    (hf : ∀ s b, I s → Outcome E I (f s b)) (h : I s) : Outcome E I (l.foldlM f s) := by
  induction l generalizing s with
  | nil => exact h
  | cons b l ih =>
    rw [List.foldlM_cons]
    exact (hf s b h).bind fun _ => ih

-- ======== two computations

section Both

variable {α' β' γ σ' : Type} {x : Except ε α} {y : Except ε α'} {R : α → α' → Prop}

inductive Both (R : α → α' → Prop) : Except ε α → Except ε α' → Prop
  | error (e : ε) : Both R (.error e) (.error e)
  | ok {a : α} {b : α'} (h : R a b) : Both R (.ok a) (.ok b)

theorem Both.imp {R' : α → α' → Prop} (h : Both R x y) (hR : ∀ a b, R a b → R' a b) :
    Both R' x y := by
  cases h with
  | error e => exact .error e
  | ok h => exact .ok (hR _ _ h)

theorem Both.bind {f : α → Except ε β} {g : α' → Except ε β'} {Q : β → β' → Prop}
    (h : Both R x y) (hf : ∀ a b, R a b → Both Q (f a) (g b)) : Both Q (x >>= f) (y >>= g) := by
  cases h with
  | error e => exact .error e
  | ok h => exact hf _ _ h

/-- What one of them ends with is known. -/
theorem Both.bind_of_ok {f : α → Except ε β} {g : α' → Except ε β'} {Q : β → β' → Prop} {a : α}
    (h : Both R x y) (hx : x = .ok a) (hf : ∀ b, R a b → Both Q (f a) (g b)) :
    Both Q (x >>= f) (y >>= g) := by
  subst hx
  cases h with
  | ok h => exact hf _ h

/-- What the first ends with. -/
theorem Both.known (h : Both R x y) : Both (fun a b => R a b ∧ x = .ok a) x y := by
  cases h with
  | error e => exact .error e
  | ok h => exact .ok ⟨h, rfl⟩

/-- What every round of both keeps. -/
theorem Both.foldlM {I : σ → σ' → Prop} {f : σ → β → Except ε σ} {g : σ' → β → Except ε σ'}
    {l : List β} {s : σ} {t : σ'} (hf : ∀ s t b, I s t → Both I (f s b) (g t b)) (h : I s t) :
    Both I (l.foldlM f s) (l.foldlM g t) := by
  induction l generalizing s t with
  | nil => exact .ok h
  | cons b l ih =>
    rw [List.foldlM_cons, List.foldlM_cons]
    exact (hf s t b h).bind fun _ _ => ih

/-- Two computations that end like a third. -/
theorem Both.join {z : Except ε γ} {Q : α → γ → Prop} {T : α' → γ → Prop} (h : Both R x y)
    (h' : Both Q x z) (hT : ∀ a b c, R a b → Q a c → T b c) : Both T y z := by
  cases h with
  | error e =>
    cases h'
    exact .error e
  | ok h =>
    cases h' with
    | ok h' => exact .ok (hT _ _ _ h h')

end Both

-- ======== a program and what it is meant to compute

section Matches

variable {γ δ : Type} {x : Except ε α} {y : Option β} {R : α → β → Prop}

inductive Matches (E : ε → Prop) (R : α → β → Prop) : Except ε α → Option β → Prop
  | fail {e : ε} (h : E e) : Matches E R (.error e) none
  | ok {a : α} {b : β} (h : R a b) : Matches E R (.ok a) (some b)

theorem Matches.bind {f : α → Except ε γ} {g : β → Option δ} {Q : γ → δ → Prop}
    (h : Matches E R x y) (hf : ∀ a b, R a b → Matches E Q (f a) (g b)) :
    Matches E Q (x >>= f) (y >>= g) := by
  cases h with
  | fail h => exact .fail h
  | ok h => exact hf _ _ h

theorem Matches.known {z : Except ε γ} {f : γ → Except ε α} {c : γ} (hz : z = .ok c)
    (h : Matches E R (f c) y) : Matches E R (z >>= f) y := by
  subst hz
  exact h

/-- What the second has for a value. -/
theorem Matches.knows (h : Matches E R x y) : Matches E (fun a b => R a b ∧ y = some b) x y := by
  cases h with
  | fail h => exact .fail h
  | ok h => exact .ok ⟨h, rfl⟩

theorem Matches.ite {c : Prop} [Decidable c] {x' : Except ε α} {y' : Option β}
    (h : Matches E R x y) (h' : Matches E R x' y') :
    Matches E R (if c then x else x') (if c then y else y') := by
  split
  · exact h
  · exact h'

theorem Matches.of_ok {a : α} (h : Matches E R x y) (hx : x = .ok a) : ∃ b, y = some b ∧ R a b := by
  cases h with
  | fail h => cases hx
  | ok h =>
    cases hx
    exact ⟨_, rfl, h⟩

theorem Matches.of_some {b : β} (h : Matches E R x y) (hy : y = some b) :
    ∃ a, x = .ok a ∧ R a b := by
  cases h with
  | fail h => cases hy
  | ok h =>
    cases hy
    exact ⟨_, rfl, h⟩

theorem Matches.of_error {e : ε} (h : Matches E R x y) (hx : x = .error e) : E e := by
  cases h with
  | fail h =>
    cases hx
    exact h
  | ok h => cases hx

end Matches

end Xv6Sume32.Lib
