/-
Who has which page, over the whole machine.

# Holders

`has` says who has a page: a process as its kernel stack, a process
through its page directory, a pipe, or the kernel itself. `Good` is that no two have the same
one and none has one that is free. It also has what closing a pipe relies
on: a file that is one end of a pipe is the only one, and that end is
open (`Piped`).

`S` is whatever else is known of address spaces. The rules of this module
do not look at it.

# Lending

A call that works on one address space is given what its process has, with
everything else as the rest (`lend`), and what it comes back with is put in
the place of the old one (`put`).
-/
import Xv6Sume32.Vm.Proofs.Space

namespace Xv6Sume32.Vm

open Lib
open Proc (Slot initproc nproc)

-- ======== holders

inductive Holder
  | stack (p : Slot)
  | spot (p : Slot) (l : Spot)
  | pipe (k : Nat)
  | kernel (i : Spot ⊕ Nat)

/-- The process that a holder belongs to. -/
def Holder.slot : Holder → Option Slot
  | .stack p => some p
  | .spot p _ => some p
  | .pipe _ => none
  | .kernel _ => none

/-- The kernel's page directory, and the stacks by number. -/
def Kern.holds (kern : Kern) : Spot ⊕ Nat → Nat → Prop
  | .inl l, k => kern.kpgdir.holds l k
  | .inr i, k => kern.cpus[i]? = some k

/-- Whether an end is open, given `writable`. -/
def Ends.side (ends : Ends) (w : Bool) : Bool := if w then ends.writeopen else ends.readopen

/-- The files that are ends of pipes. -/
structure Piped (file : Fin nfile → File) (pipe : Nat → Option Ends) : Prop where
  opened : ∀ f k w, (file f).pipe = some (k, w) →
    1 ≤ (file f).ref ∧ ∃ ends, pipe k = some ends ∧ ends.side w = true
  one : ∀ f f' k w, (file f).pipe = some (k, w) → (file f').pipe = some (k, w) → f = f'

namespace Machine

def has (s : Machine) : Holder → Nat → Prop
  | .stack p, k => ∃ t, s.proc p = some t ∧ t.kstack = k
  | .spot p l, k => ∃ t, s.proc p = some t ∧ t.space.pgdir.holds l k
  | .pipe k', k => k' = k ∧ (s.pipe k).isSome
  | .kernel i, k => s.kern.holds i k

structure Good (S : Space → Prop) (s : Machine) : Prop where
  kmem : s.kmem.Good
  apart : Exclusive s.has s.kmem.used
  mapped : ∀ p t, s.proc p = some t → t.space.pgdir.Mapped
  shape : ∀ p t, s.proc p = some t → S t.space
  piped : Piped s.file s.pipe

/-- What is not in the page directory of a process, whose kernel stack is
the page `stack`. -/
def rest (s : Machine) (p : Slot) (stack k : Nat) : Prop :=
  (∃ b, b.slot ≠ some p ∧ s.has b k) ∨ k = stack

section Lend

variable {S : Space → Prop} {s : Machine} {p : Slot} {t : Task} {m : Kmem} {k : Nat} {b : Holder}

theorem has_setTask_of_ne (hb : b.slot ≠ some p) : (s.setTask p t).has b k ↔ s.has b k := by
  cases b with
  | pipe k' => rfl
  | kernel i => rfl
  | stack q | spot q l =>
    have hne : q ≠ p := fun he => hb (congrArg some he)
    show (∃ t', Function.update s.proc p (some t) q = some t' ∧ _) ↔ _
    rw [Function.update_of_ne hne]
    rfl

theorem has_setTask (h : (s.setTask p t).has b k) :
    (∃ l, b = .spot p l ∧ t.space.pgdir.holds l k) ∨ (b = .stack p ∧ k = t.kstack) ∨
      (b.slot ≠ some p ∧ s.has b k) := by
  by_cases hb : b.slot = some p
  swap
  · exact Or.inr (Or.inr ⟨hb, (has_setTask_of_ne hb).1 h⟩)
  cases b with
  | pipe k' => cases hb
  | kernel i => cases hb
  | stack q =>
    cases hb
    obtain ⟨t', ht', rfl⟩ := h
    change Function.update s.proc p (some t) p = some t' at ht'
    rw [Function.update_self] at ht'
    cases ht'
    exact Or.inr (Or.inl ⟨rfl, rfl⟩)
  | spot q l =>
    cases hb
    obtain ⟨t', ht', hl⟩ := h
    change Function.update s.proc p (some t) p = some t' at ht'
    rw [Function.update_self] at ht'
    cases ht'
    exact Or.inl ⟨l, rfl, hl⟩

/-- The page directory of a process, and the rest. -/
theorem Good.lend (h : s.Good S) (ht : s.proc p = some t) :
    Held (s.rest p t.kstack) s.kmem t.space.pgdir ∧
      ∀ b, b.slot ≠ some p → ¬ s.has b t.kstack := by
  have hstack : s.has (.stack p) t.kstack := ⟨t, ht, rfl⟩
  have hspot : ∀ {l k}, t.space.pgdir.holds l k → s.has (.spot p l) k := fun hl => ⟨t, ht, hl⟩
  have hout : ∀ {l k}, t.space.pgdir.holds l k → ¬ s.rest p t.kstack k := by
    rintro l k hl (⟨b, hb, hk⟩ | rfl)
    · exact hb (by rw [h.apart.one hk (hspot hl)]; rfl)
    · cases h.apart.one (hspot hl) hstack
  refine ⟨⟨h.kmem, ⟨fun {b c k} hb hc => ?_, fun {b k} hb => ?_⟩, h.mapped p t ht⟩,
    fun b hb hk => hb (by rw [h.apart.one hk hstack]; rfl)⟩
  · match b, c, hb, hc with
    | none, none, _, _ => rfl
    | some l, none, hb, hc => exact absurd hc (hout hb)
    | none, some l, hb, hc => exact absurd hb (hout hc)
    | some l, some l', hb, hc =>
      have := h.apart.one (hspot hb) (hspot hc)
      cases this
      rfl
  · match b, hb with
    | none, Or.inl ⟨b, _, hk⟩ => exact h.apart.used hk
    | none, Or.inr hk =>
      rw [hk]
      exact h.apart.used hstack
    | some l, hl => exact h.apart.used (hspot hl)

/-- A process is given a page directory. -/
theorem Good.put (h : s.Good S) (halone : ∀ b, b.slot ≠ some p → ¬ s.has b t.kstack)
    (hd : Held (s.rest p t.kstack) m t.space.pgdir) (hS : S t.space) :
    Good S { s.setTask p t with kmem := m } := by
  have hproc : ∀ {P : Task → Prop}, P t → (∀ q t', s.proc q = some t' → P t') →
      ∀ q t', Function.update s.proc p (some t) q = some t' → P t' := by
    intro P hP hall q t' hq
    by_cases hqp : q = p
    · rw [hqp, Function.update_self] at hq
      cases hq
      exact hP
    · rw [Function.update_of_ne hqp] at hq
      exact hall q t' hq
  refine ⟨hd.good, ⟨fun {b c k} hb hc => ?_, fun {b k} hb => ?_⟩, hproc hd.mapped h.mapped,
    hproc hS h.shape, h.piped⟩
  · have hout : ∀ {l b}, t.space.pgdir.holds l k →
        ((b = .stack p ∧ k = t.kstack) ∨ (b.slot ≠ some p ∧ s.has b k)) → False := by
      rintro l b hl (⟨-, hk⟩ | hk)
      · exact hd.not_rest hl (Or.inr hk)
      · exact hd.not_rest hl (Or.inl ⟨b, hk⟩)
    rcases has_setTask hb with ⟨l, rfl, hl⟩ | hb
    · rcases has_setTask hc with ⟨l', rfl, hl'⟩ | hc
      · have := hd.apart.one (a := some l) (b := some l') hl hl'
        cases this
        rfl
      · exact (hout hl hc).elim
    rcases has_setTask hc with ⟨l', rfl, hl'⟩ | hc
    · exact (hout hl' hb).elim
    rcases hb with ⟨rfl, hk⟩ | ⟨hbp, hb⟩
    · rcases hc with ⟨rfl, -⟩ | ⟨hcp, hc⟩
      · rfl
      · exact absurd (hk ▸ hc) (halone c hcp)
    · rcases hc with ⟨rfl, hk⟩ | ⟨-, hc⟩
      · exact absurd (hk ▸ hb) (halone b hbp)
      · exact h.apart.one hb hc
  · rcases has_setTask hb with ⟨l, rfl, hl⟩ | ⟨-, hk⟩ | hb
    · exact hd.used hl
    · exact hd.safe.rest k (Or.inr hk)
    · exact hd.safe.rest k (Or.inl ⟨b, hb⟩)

/-- The page directory is the same as before. -/
theorem Good.back (h : s.Good S) (ht : s.proc p = some t)
    (hd : Held (s.rest p t.kstack) m t.space.pgdir) : Good S { s with kmem := m } := by
  have hself : s.setTask p t = s := by
    unfold setTask
    rw [← ht, Function.update_eq_self]
  have hput := h.put (h.lend ht).2 hd (h.shape p t ht)
  rwa [hself] at hput

/-- A process is gone with its pages. -/
theorem Good.drop (h : s.Good S) (hs : Safe (fun k => ∃ b, b.slot ≠ some p ∧ s.has b k) m) :
    Good S { s with kmem := m, proc := Function.update s.proc p none } := by
  have hproc : ∀ q t', Function.update s.proc p none q = some t' → q ≠ p ∧ s.proc q = some t' := by
    intro q t' hq
    by_cases hqp : q = p
    · rw [hqp, Function.update_self] at hq
      cases hq
    · rw [Function.update_of_ne hqp] at hq
      exact ⟨hqp, hq⟩
  have hhas : ∀ b k, has { s with kmem := m, proc := Function.update s.proc p none } b k →
      b.slot ≠ some p ∧ s.has b k := by
    intro b k hb
    cases b with
    | pipe k' => exact ⟨nofun, hb⟩
    | kernel i => exact ⟨nofun, hb⟩
    | stack q | spot q l =>
      obtain ⟨t', ht', hk⟩ := hb
      exact ⟨fun he => (hproc q t' ht').1 (Option.some.inj he), t', (hproc q t' ht').2, hk⟩
  exact ⟨hs.good, h.apart.mono (fun b k hb => (hhas b k hb).2)
    fun b k hb _ => hs.rest k ⟨b, hhas b k hb⟩,
    fun q t' hq => h.mapped q t' (hproc q t' hq).2, fun q t' hq => h.shape q t' (hproc q t' hq).2,
    h.piped⟩

/-- The allocator has changed, but not for the pages that somebody has. -/
theorem Good.rekmem (h : s.Good S) (hs : Safe (fun k => ∃ b, s.has b k) m) :
    Good S { s with kmem := m } :=
  ⟨hs.good, h.apart.mono (fun _ _ => id) fun b k hb _ => hs.rest k ⟨b, hb⟩, h.mapped, h.shape,
    h.piped⟩

theorem Good.safe (h : s.Good S) : Safe (fun k => ∃ b, s.has b k) s.kmem :=
  ⟨h.kmem, fun _ ⟨_, hb⟩ => h.apart.used hb⟩

/-- Processes keep their pages, or go without. -/
theorem Good.retask (h : s.Good S) {proc : Slot → Option Task}
    (hp : ∀ q t', proc q = some t' → ∃ t, s.proc q = some t ∧ t'.kstack = t.kstack ∧
      t'.space = t.space) : Good S { s with proc := proc } := by
  refine ⟨h.kmem, h.apart.mono (fun b k hb => ?_) fun _ _ _ => id, fun q t' hq => ?_,
    fun q t' hq => ?_, h.piped⟩
  · cases b with
    | pipe k' => exact hb
    | kernel i => exact hb
    | stack q =>
      obtain ⟨t', ht', hk⟩ := hb
      obtain ⟨t, ht, hstack, -⟩ := hp q t' ht'
      exact ⟨t, ht, hstack.symm.trans hk⟩
    | spot q l =>
      obtain ⟨t', ht', hk⟩ := hb
      obtain ⟨t, ht, -, hspace⟩ := hp q t' ht'
      rw [hspace] at hk
      exact ⟨t, ht, hk⟩
  · obtain ⟨t, ht, -, hspace⟩ := hp q t' hq
    rw [hspace]
    exact h.mapped q t ht
  · obtain ⟨t, ht, -, hspace⟩ := hp q t' hq
    rw [hspace]
    exact h.shape q t ht

theorem Good.setTask (h : s.Good S) {t' : Task} (ht : s.proc p = some t)
    (hstack : t'.kstack = t.kstack) (hspace : t'.space = t.space) : Good S (s.setTask p t') := by
  refine h.retask fun q t'' hq => ?_
  by_cases hqp : q = p
  · rw [hqp, Function.update_self] at hq
    cases hq
    exact ⟨t, by rw [hqp]; exact ht, hstack, hspace⟩
  · rw [Function.update_of_ne hqp] at hq
    exact ⟨t'', hq, rfl, rfl⟩

theorem Good.refile (h : s.Good S) {file : Fin nfile → File} (hp : Piped file s.pipe) :
    Good S { s with file := file } := ⟨h.kmem, h.apart, h.mapped, h.shape, hp⟩

end Lend

end Machine

-- ======== files

section Piped

variable {file : Fin nfile → File} {pipe : Nat → Option Ends} {f : Fin nfile} {k : Nat} {w : Bool}
  {ends : Ends}

/-- A file changes that is the end of a pipe only if it was. -/
theorem Piped.update (h : Piped file pipe) {new : File}
    (hp : ∀ k w, new.pipe = some (k, w) → (file f).pipe = some (k, w) ∧ 1 ≤ new.ref) :
    Piped (Function.update file f new) pipe := by
  have hold : ∀ g k w, (Function.update file f new g).pipe = some (k, w) →
      (file g).pipe = some (k, w) ∧ 1 ≤ (Function.update file f new g).ref := by
    intro g k w hg
    by_cases hgf : g = f
    · subst hgf
      rw [Function.update_self] at hg ⊢
      exact hp k w hg
    · rw [Function.update_of_ne hgf] at hg ⊢
      exact ⟨hg, (h.opened g k w hg).1⟩
  exact ⟨fun g k w hg => ⟨(hold g k w hg).2, (h.opened g k w (hold g k w hg).1).2⟩,
    fun g g' k w hg hg' => h.one g g' k w (hold g k w hg).1 (hold g' k w hg').1⟩

/-- `pipeclose` for one end. -/
def Ends.shut (ends : Ends) (w : Bool) : Ends :=
  if w then { ends with writeopen := false } else { ends with readopen := false }

theorem Ends.side_shut_of_ne {w' : Bool} (h : w' ≠ w) : (ends.shut w).side w' = ends.side w' := by
  cases w <;> cases w' <;> first | rfl | exact absurd rfl h

/-- A file that is closed is no end any more, and its end is shut. -/
theorem Piped.close (h : Piped file pipe) (hf : (file f).pipe = some (k, w))
    (hk : pipe k = some ends) {new : Option Ends}
    (hnew : ∀ w', w' ≠ w → ends.side w' = true → ∃ ends', new = some ends' ∧ ends'.side w' = true) :
    Piped (Function.update file f ⟨0, none⟩) (Function.update pipe k new) := by
  have hold : ∀ g j v, (Function.update file f ⟨0, none⟩ g).pipe = some (j, v) →
      g ≠ f ∧ (file g).pipe = some (j, v) := by
    intro g j v hg
    by_cases hgf : g = f
    · rw [hgf, Function.update_self] at hg
      cases hg
    · rw [Function.update_of_ne hgf] at hg
      exact ⟨hgf, hg⟩
  refine ⟨fun g j v hg => ?_, fun g g' j v hg hg' => h.one g g' j v (hold g j v hg).2
    (hold g' j v hg').2⟩
  obtain ⟨hgf, hg⟩ := hold g j v hg
  obtain ⟨href, ends', hends, hside⟩ := h.opened g j v hg
  rw [Function.update_of_ne hgf]
  refine ⟨href, ?_⟩
  by_cases hjk : j = k
  · subst hjk
    -- it is the other end
    have hv : v ≠ w := fun he => hgf (h.one g f j v hg (he ▸ hf))
    rw [hk] at hends
    cases hends
    rw [Function.update_self]
    exact hnew v hv hside
  · rw [Function.update_of_ne hjk]
    exact ⟨ends', hends, hside⟩

/-- Two files are made the ends of a new pipe. -/
theorem Piped.create (h : Piped file pipe) {f0 f1 : Fin nfile} (hk : pipe k = none) (hne : f0 ≠ f1)
    {new0 new1 : File} (h0 : new0.pipe = some (k, false)) (h1 : new1.pipe = some (k, true))
    (href0 : 1 ≤ new0.ref) (href1 : 1 ≤ new1.ref) :
    Piped (Function.update (Function.update file f0 new0) f1 new1)
      (Function.update pipe k (some ⟨true, true⟩)) := by
  have hcases : ∀ g j v, (Function.update (Function.update file f0 new0) f1 new1 g).pipe
      = some (j, v) → (j = k ∧ g = (if v then f1 else f0)) ∨ (j ≠ k ∧ (file g).pipe = some (j, v) ∧
        Function.update (Function.update file f0 new0) f1 new1 g = file g) := by
    intro g j v hg
    by_cases hg1 : g = f1
    · rw [hg1, Function.update_self, h1] at hg
      cases hg
      exact Or.inl ⟨rfl, hg1⟩
    rw [Function.update_of_ne hg1] at hg ⊢
    by_cases hg0 : g = f0
    · rw [hg0, Function.update_self, h0] at hg
      cases hg
      exact Or.inl ⟨rfl, hg0⟩
    rw [Function.update_of_ne hg0] at hg ⊢
    refine Or.inr ⟨?_, hg, rfl⟩
    rintro rfl
    obtain ⟨-, ends, hends, -⟩ := h.opened g j v hg
    rw [hk] at hends
    cases hends
  refine ⟨fun g j v hg => ?_, fun g g' j v hg hg' => ?_⟩
  · rcases hcases g j v hg with ⟨rfl, rfl⟩ | ⟨hjk, hold, heq⟩
    · rw [Function.update_self]
      cases v with
      | true =>
        refine ⟨?_, _, rfl, rfl⟩
        rw [if_pos rfl, Function.update_self]
        exact href1
      | false =>
        refine ⟨?_, _, rfl, rfl⟩
        rw [if_neg Bool.false_ne_true, Function.update_of_ne hne, Function.update_self]
        exact href0
    · rw [heq, Function.update_of_ne hjk]
      exact h.opened g j v hold
  · rcases hcases g j v hg with ⟨rfl, hg⟩ | ⟨hjk, hold, -⟩
    · rcases hcases g' j v hg' with ⟨-, hg'⟩ | ⟨hjk, -⟩
      · rw [hg, hg']
      · exact absurd rfl hjk
    · rcases hcases g' j v hg' with ⟨hjk', -⟩ | ⟨-, hold', -⟩
      · exact absurd hjk' hjk
      · exact h.one g g' j v hold hold'

end Piped

namespace Machine

section Files

variable {S : Space → Prop} {s s' : Machine} {f : Fin nfile}

/-- What a call on files leaves. -/
def Kept (S : Space → Prop) (s s' : Machine) : Prop := s'.Good S ∧ s'.proc = s.proc

theorem filealloc_spec (h : s.Good S) (hf : s.filealloc = some (f, s')) :
    Kept S s s' ∧ (s'.file f).ref = 1 ∧ ∀ g, (s.file g).ref ≠ 0 → g ≠ f ∧ s'.file g = s.file g := by
  unfold filealloc at hf
  split at hf
  · cases hf
  · next f' hfind =>
    cases hf
    have href : (s.file f).ref = 0 := by
      have := List.find?_some hfind
      exact of_decide_eq_true this
    refine ⟨⟨h.refile (h.piped.update fun k w hk => ?_), rfl⟩, ?_, fun g hg => ?_⟩
    · have := (h.piped.opened f k w hk).1
      omega
    · show (Function.update s.file f _ f).ref = 1
      rw [Function.update_self]
    · have hne : g ≠ f := fun he => hg (he ▸ href)
      exact ⟨hne, Function.update_of_ne hne _ _⟩

theorem filedup_spec (h : s.Good S) (f : Fin nfile) :
    Outcome (fun e => e = .filedup) (Kept S s) (s.filedup f) := by
  unfold filedup
  split
  · exact rfl
  · exact ⟨h.refile (h.piped.update fun k w hk => ⟨hk, Nat.le_add_left _ _⟩), rfl⟩

theorem fileclose_spec (h : s.Good S) (f : Fin nfile) :
    Outcome (fun e => e = .fileclose) (Kept S s) (s.fileclose f) := by
  unfold fileclose
  split
  · exact rfl
  split
  · next href => exact ⟨h.refile (h.piped.update fun k w hk => ⟨hk, by dsimp only; omega⟩), rfl⟩
  cases hp : (s.file f).pipe with
  | none => exact ⟨h.refile (h.piped.update nofun), rfl⟩
  | some r =>
    obtain ⟨k, w⟩ := r
    obtain ⟨-, ends, hends, -⟩ := h.piped.opened f k w hp
    have hhas : s.has (.pipe k) k := ⟨rfl, by rw [hends]; rfl⟩
    dsimp only
    unfold pipeclose
    rw [show (s.setFile f ⟨0, none⟩).pipe k = some ends from hends]
    change Outcome _ _ (if (ends.shut w).readopen = false ∧ (ends.shut w).writeopen = false then _
      else _)
    split
    · next hshut =>
      obtain ⟨m, hr, hg, hu, -⟩ := Kmem.kfree_spec h.kmem (h.apart.used hhas)
      have hpipe : ∀ w', w' ≠ w → ends.side w' = true →
          ∃ ends', (none : Option Ends) = some ends' ∧ ends'.side w' = true := by
        intro w' hne hside
        rw [← Ends.side_shut_of_ne hne] at hside
        cases w' with
        | true => exact absurd (hshut.2.symm.trans hside) nofun
        | false => exact absurd (hshut.1.symm.trans hside) nofun
      rw [show (s.setFile f ⟨0, none⟩).kmem.kfree k = .ok m from hr]
      refine ⟨⟨hg, h.apart.drop hhas (fun b j hb => ?_) fun j hj hused => (hu j).2 ⟨hused, hj⟩,
        h.mapped, h.shape, h.piped.close hp hends hpipe⟩, rfl⟩
      cases b with
      | stack q => exact ⟨hb, nofun⟩
      | spot q l => exact ⟨hb, nofun⟩
      | kernel i => exact ⟨hb, nofun⟩
      | pipe k' =>
        obtain ⟨rfl, hsome⟩ := hb
        change (Function.update s.pipe k none k').isSome = true at hsome
        by_cases he : k' = k
        · rw [he, Function.update_self] at hsome
          cases hsome
        · rw [Function.update_of_ne he] at hsome
          exact ⟨⟨rfl, hsome⟩, fun heq => he (Holder.pipe.inj heq)⟩
    · refine ⟨⟨h.kmem, h.apart.mono (fun b j hb => ?_) fun _ _ _ => id, h.mapped, h.shape,
        h.piped.close hp hends fun w' hne hside => ⟨_, rfl, ?_⟩⟩, rfl⟩
      · cases b with
        | stack q => exact hb
        | spot q l => exact hb
        | kernel i => exact hb
        | pipe k' =>
          obtain ⟨rfl, hsome⟩ := hb
          refine ⟨rfl, ?_⟩
          change (Function.update s.pipe k _ k').isSome = true at hsome
          by_cases he : k' = k
          · rw [he, hends]
            rfl
          · rw [Function.update_of_ne he] at hsome
            exact hsome
      · exact (Ends.side_shut_of_ne hne).trans hside

end Files

end Machine

end Xv6Sume32.Vm
