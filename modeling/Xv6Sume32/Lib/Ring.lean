/-
Ring buffers with free-running counters.

A reader and a writer each count what they have done, in words that wrap
around, and reduce the count modulo the capacity only to find the cell.
`Queued` says what such a buffer holds: the cells from the reader's count
on, as many as the counts are apart. The cells do not move when a count
wraps around because the capacity divides the number of counts, and as
many elements as there are cells are still told from none because it is
not that number.
-/
import Mathlib.Tactic

namespace Xv6Sume32.Lib

variable {α : Type} {w : Nat}

/-- A buffer of `cap` cells, whose counts are `r` and `t`, holds the
elements of `q`. -/
structure Queued (cap : Nat) (data : Nat → α) (r t : BitVec w) (q : List α) : Prop where
  le : q.length ≤ cap
  tail : t = r + BitVec.ofNat w q.length
  cell : ∀ i, i < q.length → q[i]? = some (data ((r + BitVec.ofNat w i).toNat % cap))

section

variable {cap : Nat} {data : Nat → α} {r t : BitVec w} {q : List α} {x : α}

theorem Queued.nil : Queued cap data r r [] :=
  ⟨Nat.zero_le _, by simp, fun _ hi => absurd hi (Nat.not_lt_zero _)⟩

/-- The cell of an element, also when its count has wrapped around. -/
theorem slot_eq (hdvd : cap ∣ 2 ^ w) (i : Nat) :
    (r + BitVec.ofNat w i).toNat % cap = (r.toNat + i) % cap := by
  rw [BitVec.toNat_add, BitVec.toNat_ofNat, Nat.add_mod_mod, Nat.mod_mod_of_dvd _ hdvd]

/-- Different elements have different cells. -/
theorem slot_ne (hdvd : cap ∣ 2 ^ w) {i j : Nat} (hij : i < j) (hj : j < cap) :
    (r + BitVec.ofNat w i).toNat % cap ≠ (r + BitVec.ofNat w j).toNat % cap := by
  rw [slot_eq hdvd, slot_eq hdvd]
  intro he
  have hmod : i ≡ j [MOD cap] := Nat.ModEq.add_left_cancel' r.toNat he
  have : i = j := by
    rw [← Nat.mod_eq_of_lt (Nat.lt_trans hij hj), ← Nat.mod_eq_of_lt hj]
    exact hmod
  omega

theorem Queued.push (hdvd : cap ∣ 2 ^ w) (h : Queued cap data r t q) (hlt : q.length < cap) :
    Queued cap (Function.update data (t.toNat % cap) x) r (t + 1) (q ++ [x]) := by
  refine ⟨?_, ?_, fun i hi => ?_⟩
  · simpa using hlt
  · rw [h.tail, List.length_append, List.length_singleton, BitVec.ofNat_add, BitVec.add_assoc]
    rfl
  · rw [h.tail]
    rcases Nat.lt_or_ge i q.length with hi' | hi'
    · rw [Function.update_of_ne (slot_ne hdvd hi' hlt), List.getElem?_append_left hi']
      exact h.cell i hi'
    · obtain rfl : i = q.length := by
        simp only [List.length_append, List.length_singleton] at hi
        omega
      rw [Function.update_self]
      simp

theorem Queued.pop (h : Queued cap data r t (x :: q)) :
    data (r.toNat % cap) = x ∧ Queued cap data (r + 1) t q := by
  refine ⟨?_, ?_, ?_, fun i hi => ?_⟩
  · have hcell := h.cell 0 (Nat.succ_pos _)
    simp only [List.getElem?_cons_zero, Option.some.injEq, BitVec.add_zero] at hcell
    exact hcell.symm
  · have := h.le
    simp only [List.length_cons] at this
    omega
  · rw [h.tail, List.length_cons, Nat.add_comm, BitVec.ofNat_add, BitVec.add_assoc]
    rfl
  · have hcell := h.cell (i + 1) (Nat.succ_lt_succ hi)
    rw [List.getElem?_cons_succ] at hcell
    rw [hcell, Nat.add_comm i 1, BitVec.ofNat_add, ← BitVec.add_assoc]
    rfl

/-- What is in front. -/
theorem Queued.front {l : List α} (h : Queued cap data r t (q ++ l)) :
    Queued cap data r (r + BitVec.ofNat w q.length) q := by
  have hle := h.le
  rw [List.length_append] at hle
  refine ⟨by omega, rfl, fun i hi => ?_⟩
  rw [← h.cell i (by rw [List.length_append]; omega), List.getElem?_append_left hi]

/-- What is behind it. -/
theorem Queued.back {l : List α} (h : Queued cap data r t (q ++ l)) :
    Queued cap data (r + BitVec.ofNat w q.length) t l := by
  induction q generalizing r with
  | nil => simpa using h
  | cons x q ih =>
    rw [List.length_cons, Nat.add_comm, BitVec.ofNat_add, ← BitVec.add_assoc]
    exact ih h.pop.2

variable (hcap : cap < 2 ^ w)

include hcap

/-- The counts are as far apart as there are elements. -/
theorem Queued.distance (h : Queued cap data r t q) : (t - r).toNat = q.length := by
  have hlen : q.length < 2 ^ w := Nat.lt_of_le_of_lt h.le hcap
  rw [h.tail, BitVec.add_comm, BitVec.add_sub_cancel, BitVec.toNat_ofNat, Nat.mod_eq_of_lt hlen]

/-- The elements, read off the cells. -/
theorem Queued.cells (h : Queued cap data r t q) :
    (List.range (t - r).toNat).map (fun i => data ((r + BitVec.ofNat w i).toNat % cap)) = q := by
  rw [h.distance hcap]
  refine List.ext_getElem? fun i => ?_
  rcases Nat.lt_or_ge i q.length with hi | hi
  · rw [h.cell i hi, List.getElem?_map, List.getElem?_range hi]
    rfl
  · rw [List.getElem?_eq_none hi, List.getElem?_eq_none (by simpa using hi)]

theorem Queued.empty_iff (h : Queued cap data r t q) : r = t ↔ q = [] := by
  refine ⟨fun he => ?_, fun he => ?_⟩
  · have hd := h.distance hcap
    rw [he, BitVec.sub_self] at hd
    exact List.length_eq_zero_iff.1 hd.symm
  · subst he
    simpa using h.tail.symm

theorem Queued.full_iff (h : Queued cap data r t q) :
    t = r + BitVec.ofNat w cap ↔ q.length = cap := by
  refine ⟨fun he => ?_, fun he => ?_⟩
  · have hd := h.distance hcap
    rw [he, BitVec.add_comm, BitVec.add_sub_cancel, BitVec.toNat_ofNat, Nat.mod_eq_of_lt hcap] at hd
    exact hd.symm
  · rw [h.tail, he]

end

end Xv6Sume32.Lib
