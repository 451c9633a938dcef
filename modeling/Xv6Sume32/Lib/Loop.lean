/-
Loops of the form `while (place < len) body`, where every completed
round moves `place` forward: the four passes over a program text all
have this shape.

`whileLt` runs such a loop with fuel; `len` rounds are enough because a
round advances by at least one (`whileLt_complete`). What a finished
loop did is described by `iterate`, the state after a given number of
rounds, and by `whileLt_rounds`: every state before the last was inside
the loop and every round up to it succeeded.

A counted loop is a fold over `List.range`; `foldlM_range` is its rule,
for a loop whose states are known round by round.

All of this is about computations that may fail; `bind_eq_ok` and
`bind_of_ok` take them apart and put them together step by step.
-/
import Mathlib.Tactic

namespace Xv6Sume32.Lib

variable {σ ε : Type}

/-- An index that is in use is below the length. -/
theorem lt_length {α : Type} {l : List α} {k : Nat} {a : α} (h : l[k]? = some a) : k < l.length :=
  (List.getElem?_eq_some_iff.1 h).1

/-- A run of two computations succeeds when both do. -/
theorem bind_eq_ok {α β : Type} {x : Except ε α} {f : α → Except ε β} {b : β} :
    (x >>= f) = .ok b ↔ ∃ a, x = .ok a ∧ f a = .ok b := by
  cases x with
  | error e =>
    constructor
    · intro h; cases h
    · rintro ⟨a, h, -⟩; cases h
  | ok a =>
    constructor
    · intro h; exact ⟨a, rfl, h⟩
    · rintro ⟨a', h, h'⟩
      cases h
      exact h'

/-- A step that succeeds, and what comes after it. -/
theorem bind_of_ok {α β : Type} {r : Except ε α} {f : α → Except ε β} {a : α}
    {x : Except ε β} (h : r = .ok a) (hf : f a = x) : r >>= f = x := by
  rw [h]
  exact hf

theorem bind_of_error {ε α β : Type} {x : Except ε α} {f : α → Except ε β} {e : ε}
    (h : x = .error e) : (x >>= f) = .error e := by
  rw [h]
  rfl

/-- `k` rounds of a fallible loop body. -/
def iterate (body : σ → Except ε σ) : Nat → σ → Except ε σ
  | 0, s => .ok s
  | k + 1, s => iterate body k s >>= body

/-- `while (place s < len) s = body s;` with at most `fuel` rounds. -/
def whileLt (len : Nat) (place : σ → Nat) (body : σ → Except ε σ) :
    Nat → σ → Except ε σ
  | 0, s => .ok s
  | fuel + 1, s =>
      if place s < len then body s >>= whileLt len place body fuel
      else .ok s

variable {body : σ → Except ε σ} {s s' : σ} {k : Nat}

/-- Rounds compose from the front as well. -/
theorem iterate_succ (body : σ → Except ε σ) (k : Nat) (s : σ) :
    iterate body (k + 1) s = body s >>= iterate body k := by
  induction k with
  | zero =>
    show body s = body s >>= fun s => Except.ok s
    cases body s <;> rfl
  | succ k ih =>
    show iterate body (k + 1) s >>= body = _
    rw [ih]
    cases body s <;> rfl

/-- A round after `k` rounds. -/
theorem iterate_snoc {t : σ} (hk : iterate body k s = .ok s')
    (hb : body s' = .ok t) : iterate body (k + 1) s = .ok t := by
  show iterate body k s >>= body = _
  rw [hk]
  exact hb

/-- A round before `k` rounds. -/
theorem iterate_cons {t : σ} (hb : body s = .ok s')
    (hk : iterate body k s' = .ok t) : iterate body (k + 1) s = .ok t := by
  rw [iterate_succ, hb]
  exact hk

/-- Fewer rounds succeed when more do. -/
theorem iterate_prefix {t : σ} {j : Nat} (h : iterate body k s = .ok t)
    (hj : j ≤ k) : ∃ u, iterate body j s = .ok u := by
  induction k generalizing t with
  | zero =>
    obtain rfl : j = 0 := by omega
    exact ⟨t, h⟩
  | succ k ih =>
    by_cases hjk : j = k + 1
    · exact ⟨t, hjk ▸ h⟩
    · have h' : iterate body k s >>= body = .ok t := h
      cases hm : iterate body k s with
      | error e => rw [hm] at h'; cases h'
      | ok m => exact ih hm (by omega)

/-- The round that follows a given number of rounds. -/
theorem iterate_step {t u : σ} (hk : iterate body k s = .ok t)
    (h : iterate body (k + 1) s = .ok u) : body t = .ok u := by
  have h' : iterate body k s >>= body = .ok u := h
  rwa [hk] at h'

variable {len : Nat} {place : σ → Nat}

/-- What a finished loop did: some number of rounds, each started
inside the loop. -/
theorem whileLt_rounds : ∀ {fuel : Nat} {s s' : σ}, whileLt len place body fuel s = .ok s' →
      ∃ n, n ≤ fuel ∧ iterate body n s = .ok s' ∧ (len ≤ place s' ∨ n = fuel)
        ∧ ∀ j, j < n → ∀ t, iterate body j s = .ok t → place t < len := by
  intro fuel
  induction fuel with
  | zero =>
    intro s s' h
    exact ⟨0, Nat.le_refl _, h, Or.inr rfl, fun j hj => by omega⟩
  | succ fuel ih =>
    intro s s' h
    unfold whileLt at h
    split at h
    · next hlt =>
      cases hb : body s with
      | error e => rw [hb] at h; cases h
      | ok t =>
        rw [hb] at h
        obtain ⟨n, hn, hit, hend, hin⟩ := ih h
        refine ⟨n + 1, by omega, iterate_cons hb hit, ?_, ?_⟩
        · rcases hend with hend | hend
          · exact Or.inl hend
          · exact Or.inr (by omega)
        · intro j hj u hu
          cases j with
          | zero => cases hu; exact hlt
          | succ j =>
            rw [iterate_succ, hb] at hu
            exact hin j (by omega) u hu
    · next hge =>
      refine ⟨0, by omega, h, Or.inl ?_, fun j hj => by omega⟩
      cases h
      omega

/-- Rounds that advance reach at least as far as their number. -/
theorem iterate_place_le (hadv : ∀ s t, body s = .ok t → place s < place t) :
    ∀ {k : Nat} {s s' : σ}, iterate body k s = .ok s' → place s + k ≤ place s' := by
  intro k
  induction k with
  | zero => intro s s' h; cases h; omega
  | succ k ih =>
    intro s s' h
    obtain ⟨t, ht⟩ := iterate_prefix h (Nat.le_succ k)
    have h1 := ih ht
    have h2 := hadv _ _ (iterate_step ht h)
    omega

/-- With `len` rounds of fuel, a loop whose body advances has run to
its end. -/
theorem whileLt_complete (hadv : ∀ s t, body s = .ok t → place s < place t)
    (h : whileLt len place body len s = .ok s') : ∃ n, iterate body n s = .ok s' ∧ len ≤ place s'
      ∧ ∀ j, j < n → ∀ t, iterate body j s = .ok t → place t < len := by
  obtain ⟨n, -, hit, hend, hin⟩ := whileLt_rounds h
  refine ⟨n, hit, ?_, hin⟩
  rcases hend with hend | hend
  · exact hend
  · have := iterate_place_le hadv hit
    omega

/-- A loop that fails does so in a round started inside the loop. -/
theorem whileLt_error {e : ε} : ∀ {fuel : Nat} {s : σ}, whileLt len place body fuel s = .error e →
      ∃ k t, iterate body k s = .ok t ∧ place t < len ∧ body t = .error e := by
  intro fuel
  induction fuel with
  | zero =>
    intro s h
    cases h
  | succ fuel ih =>
    intro s h
    unfold whileLt at h
    split at h
    · next hlt =>
      cases hb : body s with
      | error e' =>
        rw [hb] at h
        have h : (.error e' : Except ε σ) = .error e := h
        cases h
        exact ⟨0, s, rfl, hlt, hb⟩
      | ok t =>
        rw [hb] at h
        obtain ⟨k, u, hk, hu, hbu⟩ := ih h
        exact ⟨k + 1, u, iterate_cons hb hk, hu, hbu⟩
    · cases h

/-- A round that fails inside the loop makes the loop fail. -/
theorem whileLt_error_of {e : ε} : ∀ {fuel k : Nat} {s t : σ}, k < fuel → iterate body k s = .ok t →
      (∀ j, j ≤ k → ∀ u, iterate body j s = .ok u → place u < len) →
      body t = .error e → whileLt len place body fuel s = .error e := by
  intro fuel
  induction fuel with
  | zero =>
    intro k s t hk
    omega
  | succ fuel ih =>
    intro k s t hk hit hin he
    unfold whileLt
    rw [if_pos (hin 0 (Nat.zero_le _) s rfl)]
    cases k with
    | zero =>
      cases hit
      rw [he]
      rfl
    | succ k =>
      rw [iterate_succ] at hit
      cases hb : body s with
      | error e' =>
        rw [hb] at hit
        cases hit
      | ok u =>
        rw [hb] at hit
        refine ih (by omega) hit (fun j hj w hw => ?_) he
        exact hin (j + 1) (by omega) w (iterate_cons hb hw)

/-- A counted loop that goes through given states. -/
theorem foldlM_range {f : σ → Nat → Except ε σ} (state : Nat → σ) {n : Nat}
    (h0 : state 0 = s) (h : ∀ k < n, f (state k) k = .ok (state (k + 1))) :
    (List.range n).foldlM f s = .ok (state n) := by
  induction n with
  | zero =>
    rw [h0]
    rfl
  | succ n ih =>
    rw [List.range_succ, List.foldlM_append, ih fun k hk => h k (Nat.lt_succ_of_lt hk)]
    show f (state n) n >>= pure = _
    rw [bind_pure]
    exact h n (Nat.lt_succ_self n)

end Xv6Sume32.Lib
