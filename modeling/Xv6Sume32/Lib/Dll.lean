/-
Circular doubly linked lists with a head.

A node is the head, `none`, or an element. `Ringed d l` says that from the
head the `next` pointers lead through `l` and back to the head, and the
`prev` pointers the same way in the other direction. The operations are
sequences of pointer stores, and what they do to `l` is all that their
users need: `Ringed.unlink`, `Ringed.push`. `walk` is a loop along pointers
that looks for an element; on a ring it ends, with what `List.find?`
finds.
-/
import Mathlib.Tactic

namespace Xv6Sume32.Lib

open Function (update update_of_ne update_self)

variable {B : Type}

structure Dll (B : Type) where
  next : Option B → Option B
  prev : Option B → Option B

namespace Dll

/-- The head alone. -/
def empty : Dll B := ⟨fun _ => none, fun _ => none⟩

/-- `b->next->prev = b->prev; b->prev->next = b->next`. -/
def unlink [DecidableEq B] (d : Dll B) (b : B) : Dll B :=
  let d : Dll B := { d with prev := update d.prev (d.next (some b)) (d.prev (some b)) }
  { d with next := update d.next (d.prev (some b)) (d.next (some b)) }

/-- `b->next = head.next; b->prev = &head; head.next->prev = b;
head.next = b`. -/
def push [DecidableEq B] (d : Dll B) (b : B) : Dll B :=
  let d : Dll B := { d with next := update d.next (some b) (d.next none) }
  let d : Dll B := { d with prev := update d.prev (some b) none }
  let d : Dll B := { d with prev := update d.prev (d.next none) (some b) }
  { d with next := update d.next none (some b) }

end Dll

/-- The loop `for(b = ...; b != &head; b = step(b)) if(test(b)) break`: the
element, or nothing; no value when it is cut off. -/
def walk (step : Option B → Option B) (test : B → Bool) : Nat → Option B → Option (Option B)
  | 0, _ => none
  | _ + 1, none => some none
  | n + 1, some b => if test b then some (some b) else walk step test n (step (some b))

/-- Neighbours in the list of nodes point at each other. -/
def Links (d : Dll B) : List (Option B) → Prop
  | [] => True
  | [_] => True
  | x :: y :: l => d.next x = y ∧ d.prev y = x ∧ Links d (y :: l)

def Ringed (d : Dll B) (l : List B) : Prop :=
  l.Nodup ∧ Links d (none :: l.map some ++ [none])

variable {d d' : Dll B} {l pre post : List B} {b : B}

-- ======== links

theorem links_append {xs ys : List (Option B)} {x : Option B} :
    Links d (xs ++ x :: ys) ↔ Links d (xs ++ [x]) ∧ Links d (x :: ys) := by
  induction xs with
  | nil => simp [Links]
  | cons y xs ih =>
    cases xs with
    | nil => simp [Links, and_assoc]
    | cons z xs =>
      simp only [List.cons_append, Links] at ih ⊢
      rw [ih]
      tauto

/-- Links depend on `next` of all nodes but the last and on `prev` of all
but the first. -/
theorem Links.congr {xs : List (Option B)} (h : Links d xs)
    (hnext : ∀ x ∈ xs.dropLast, d'.next x = d.next x) (hprev : ∀ x ∈ xs.tail, d'.prev x = d.prev x) :
    Links d' xs := by
  induction xs with
  | nil => trivial
  | cons x xs ih =>
    cases xs with
    | nil => trivial
    | cons y ys =>
      obtain ⟨hx, hy, hl⟩ := h
      refine ⟨(hnext x (by simp)).trans hx, (hprev y (by simp)).trans hy, ih hl ?_ ?_⟩
      · intro z hz
        exact hnext z (by simpa using Or.inr hz)
      · intro z hz
        exact hprev z (by simp only [List.tail_cons] at hz ⊢; exact List.mem_cons_of_mem _ hz)

-- ======== rings

/-- The neighbours of an element: the nodes in front of it end with `x`, the
ones behind begin with `z`. -/
theorem Ringed.around (h : Ringed d (pre ++ b :: post)) :
    ∃ xs x z zs, none :: pre.map some = xs ++ [x] ∧ post.map some ++ [none] = z :: zs
      ∧ Links d (xs ++ [x]) ∧ d.prev (some b) = x ∧ d.next (some b) = z ∧ Links d (z :: zs) := by
  obtain ⟨xs, x, hx⟩ : ∃ xs x, none :: pre.map some = xs ++ [x] :=
    ⟨_, _, (List.dropLast_append_getLast (List.cons_ne_nil _ _)).symm⟩
  obtain ⟨z, zs, hz⟩ : ∃ z zs, post.map some ++ [none] = z :: zs :=
    List.exists_cons_of_ne_nil (by simp)
  have hl := h.2
  rw [List.map_append, List.map_cons, ← List.cons_append, hx, List.append_assoc, List.cons_append,
    hz, List.append_assoc, List.singleton_append, links_append] at hl
  obtain ⟨hxs, -, hprev, hnext, -, hzs⟩ := hl
  exact ⟨xs, x, z, zs, hx, hz, hxs, hprev, hnext, hzs⟩

/-- An element is taken out. -/
theorem Ringed.unlink [DecidableEq B] (h : Ringed d (pre ++ b :: post)) :
    Ringed (d.unlink b) (pre ++ post) := by
  obtain ⟨xs, x, z, zs, hx, hz, hxs, hprev, hnext, hzs⟩ := h.around
  have hnodup := h.1
  rw [List.nodup_append'] at hnodup
  obtain ⟨hpre, hpost, hdis⟩ := hnodup
  obtain ⟨hb, hpost⟩ := List.nodup_cons.1 hpost
  have hxmem : x ∈ none :: pre.map some := by rw [hx]; simp
  have hzmem : z ∈ post.map some ++ [none] := by rw [hz]; simp
  have hxs' : (xs ++ [x]).Nodup := by
    rw [← hx]
    exact List.nodup_cons.2 ⟨by simp, hpre.map (Option.some_injective B)⟩
  have hzs' : (z :: zs).Nodup := by
    rw [← hz, List.nodup_append']
    exact ⟨hpost.map (Option.some_injective B), by simp, by simp [List.Disjoint]⟩
  have hzb : z ≠ some b := by
    rintro rfl
    simp [hb] at hzmem
  have hd : d.unlink b = ⟨update d.next x z, update d.prev z x⟩ := by
    unfold Dll.unlink
    simp only [hprev, hnext, update_of_ne hzb.symm]
  rw [hd]
  refine ⟨(List.nodup_append'.2 ⟨hpre, hpost, fun a ha hp =>
    hdis ha (List.mem_cons_of_mem _ hp)⟩), ?_⟩
  rw [List.map_append, ← List.cons_append, hx, List.append_assoc, hz, List.append_assoc,
    List.singleton_append, links_append]
  refine ⟨hxs.congr (fun a ha => ?_) (fun a ha => ?_), update_self .., update_self ..,
    hzs.congr (fun a ha => ?_) fun a ha => ?_⟩
  · rw [List.dropLast_concat] at ha
    refine update_of_ne ?_ _ _
    rintro rfl
    exact (List.nodup_append'.1 hxs').2.2 ha (List.mem_singleton_self _)
  · rw [← hx, List.tail_cons] at ha
    refine update_of_ne ?_ _ _
    rintro rfl
    obtain ⟨c, hc, rfl⟩ := List.mem_map.1 ha
    exact hdis hc (List.mem_cons_of_mem _ (by simpa using hzmem))
  · rw [← hz, List.dropLast_concat] at ha
    refine update_of_ne ?_ _ _
    rintro rfl
    obtain ⟨c, hc, rfl⟩ := List.mem_map.1 ha
    exact hdis (by simpa using hxmem) (List.mem_cons_of_mem _ hc)
  · refine update_of_ne ?_ _ _
    rintro rfl
    exact (List.nodup_cons.1 hzs').1 ha

/-- An element is put in at the front. -/
theorem Ringed.push [DecidableEq B] (h : Ringed d l) (hb : b ∉ l) : Ringed (d.push b) (b :: l) := by
  obtain ⟨z, zs, hz⟩ : ∃ z zs, l.map some ++ [none] = z :: zs :=
    List.exists_cons_of_ne_nil (by simp)
  have hl := h.2
  rw [List.cons_append, hz] at hl
  obtain ⟨hnext, hprev, hzs⟩ := hl
  have hzmem : z ∈ l.map some ++ [none] := by rw [hz]; simp
  have hzb : z ≠ some b := by
    rintro rfl
    simp [hb] at hzmem
  have hzs' : (z :: zs).Nodup := by
    rw [← hz, List.nodup_append']
    exact ⟨h.1.map (Option.some_injective B), by simp, by simp [List.Disjoint]⟩
  have hd : d.push b = ⟨update (update d.next (some b) z) none (some b),
      update (update d.prev (some b) none) z (some b)⟩ := by
    unfold Dll.push
    simp only [hnext, update_of_ne (Option.some_ne_none b).symm]
  rw [hd]
  refine ⟨List.nodup_cons.2 ⟨hb, h.1⟩, ?_⟩
  rw [List.map_cons, List.cons_append, List.cons_append, hz]
  refine ⟨by simp, ?_, ?_, by simp, hzs.congr (fun a ha => ?_) fun a ha => ?_⟩
  · simp [update_of_ne hzb.symm]
  · simp
  · rw [← hz, List.dropLast_concat] at ha
    obtain ⟨c, hc, rfl⟩ := List.mem_map.1 ha
    have hcb : c ≠ b := by
      rintro rfl
      exact hb hc
    simp [hcb]
  · have haz : a ≠ z := by
      rintro rfl
      exact (List.nodup_cons.1 hzs').1 ha
    have hab : a ≠ some b := by
      rintro rfl
      have : some b ∈ l.map some ++ [none] := by
        rw [hz]
        exact List.mem_cons_of_mem _ ha
      simp [hb] at this
    simp [haz, hab]

theorem Ringed.empty : Ringed (Dll.empty : Dll B) [] := ⟨List.nodup_nil, rfl, rfl, trivial⟩

-- ======== walks

section Walk

variable {test : B → Bool} {n : Nat}

theorem walk_next {x : Option B} (h : Links d (x :: (l.map some ++ [none]))) (hn : l.length < n) :
    walk d.next test n (d.next x) = some (l.find? test) := by
  induction l generalizing x n with
  | nil =>
    obtain ⟨m, rfl⟩ := Nat.exists_eq_succ_of_ne_zero (by omega : n ≠ 0)
    rw [h.1]
    rfl
  | cons b l ih =>
    obtain ⟨m, rfl⟩ := Nat.exists_eq_succ_of_ne_zero (by omega : n ≠ 0)
    obtain ⟨hnext, -, hl⟩ := h
    rw [hnext, walk, List.find?_cons]
    cases test b with
    | true => rfl
    | false =>
      rw [if_neg Bool.false_ne_true]
      exact ih hl (by rw [List.length_cons] at hn; omega)

/-- A walk from the front finds the first element. -/
theorem Ringed.walk_next (h : Ringed d l) (hn : l.length < n) :
    walk d.next test n (d.next none) = some (l.find? test) :=
  Lib.walk_next h.2 hn

theorem walk_prev {x : Option B} (h : Links d (none :: l.map some ++ [x])) (hn : l.length < n) :
    walk d.prev test n (d.prev x) = some (l.reverse.find? test) := by
  induction l using List.reverseRecOn generalizing x n with
  | nil =>
    obtain ⟨m, rfl⟩ := Nat.exists_eq_succ_of_ne_zero (by omega : n ≠ 0)
    rw [h.2.1]
    rfl
  | append_singleton l b ih =>
    obtain ⟨m, rfl⟩ := Nat.exists_eq_succ_of_ne_zero (by omega : n ≠ 0)
    rw [List.map_append, List.cons_append, List.append_assoc, List.map_singleton,
      List.singleton_append, ← List.cons_append, links_append] at h
    obtain ⟨hl, -, hprev, -⟩ := h
    rw [hprev, walk, List.reverse_append, List.reverse_singleton, List.singleton_append,
      List.find?_cons]
    cases test b with
    | true => rfl
    | false =>
      rw [if_neg Bool.false_ne_true]
      exact ih hl (by rw [List.length_append] at hn; simp at hn; omega)

/-- A walk from the back finds the last element. -/
theorem Ringed.walk_prev (h : Ringed d l) (hn : l.length < n) :
    walk d.prev test n (d.prev none) = some (l.reverse.find? test) :=
  Lib.walk_prev h.2 hn

end Walk

end Xv6Sume32.Lib
