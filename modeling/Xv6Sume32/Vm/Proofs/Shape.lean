/-
Which pages an address space has, and what the kernel may write to.

# Shape

`growproc` with a negative `n` that takes away the whole size frees every
page and then reports a failure, with the size as it was: `deallocuvm`
returns the new size, and 0 is also what stands for a failure. The process
is left without pages, and its next `fork` panics (`growproc_loses_pages`).
Without such a call, and with arguments of `exec` that are not so long
that their address runs off the kernel's mappings, the pages of a process
are those below its size, in every state that is reached.

# Writing

`argptr` compares an address with the size alone. The pages that `sbrkx`
adds are below the size and cannot be written to, so that `sys_pipe` with
an address among them faults in the kernel (`sbrkx_page_faults`). Every
other page can be written to.
-/
import Xv6Sume32.Vm.Proofs.Boot

namespace Xv6Sume32.Vm

open Lib
open Proc (Slot initproc nproc)

-- ======== guards

/-- `growproc` that takes away the whole size. -/
def Space.emptied (a : Space) (n : Word) : Bool := decide (n.toInt < 0 ∧ a.plus n = 0)

/-- The calls after which the pages are still those below the size. -/
def shapeGuard (a : Space) : Machine.Call → Bool
  | .growproc n => ! a.emptied n
  | .exec _ argv => argv.all fun arg => decide (arg.length < 2 ^ 25)
  | _ => true

/-- Those of them that add no page which cannot be written to. -/
def writeGuard (a : Space) : Machine.Call → Bool
  | .makex _ n => decide (¬ (0 < pgroundup n.toNat ∧ pgroundup n.toNat < 2 ^ 31))
  | c => shapeGuard a c

/-- The guard of a step, from that of a call. -/
def guardStep (guard : Space → Machine.Call → Bool) (e : Event) (s : Machine) : Bool :=
  match s.proc e.proc with
  | none => true
  | some t => guard t.space e.call

theorem guardStep_call {guard : Space → Machine.Call → Bool} {e : Event} {s : Machine}
    (h : guardStep guard e s = true) {t : Task} (ht : s.proc e.proc = some t) :
    guard t.space e.call = true := by
  unfold guardStep at h
  rw [ht] at h
  exact h

section Rules

variable {R : Nat → Prop} {m m' : Kmem} {a : Space} {src d : Pgdir} {sz : Nat}

theorem not_emptied {n : Word} (h : shapeGuard a (.growproc n) = true) :
    ¬ (n.toInt < 0 ∧ a.plus n = 0) := by
  have h' : (! a.emptied n) = true := h
  rw [Bool.not_eq_true'] at h'
  exact of_decide_eq_false h'

theorem short_of_guard {file : Option (List Byte)} {argv : List (List Byte)}
    (h : shapeGuard a (.exec file argv) = true) : Short argv :=
  fun arg harg => of_decide_eq_true (List.all_eq_true.1 h arg harg)

theorem Shaped.copy (hs : Shaped ⟨src, sz⟩) (hc : Copied src m (npages sz) m' d) :
    Shaped ⟨d, sz⟩ := by
  refine ⟨fun u => ?_, hs.lt⟩
  by_cases hu : u < npages sz
  · obtain ⟨e, e', -, he', -⟩ := hc.same u hu
    show (d.ptes u).isSome = true ↔ _
    rw [he']
    exact iff_of_true rfl hu
  · show (d.ptes u).isSome = true ↔ _
    rw [hc.rest u (Nat.not_lt.1 hu)]
    exact iff_of_false nofun hu

theorem Writable.copy (hw : Writable src) (hc : Copied src m (npages sz) m' d) : Writable d := by
  intro u e he
  by_cases hu : u < npages sz
  · obtain ⟨e0, e', he0, he', hflag, -⟩ := hc.same u hu
    rw [he] at he'
    cases he'
    rw [hflag]
    exact hw u e0 he0
  · rw [hc.rest u (Nat.not_lt.1 hu)] at he
    cases he

theorem Shaped.not_missing {e : VmPanic} (hs : Shaped ⟨src, sz⟩) : ¬ Missing src (npages sz) e := by
  rintro ⟨-, u, hu, hnone⟩
  have := (hs.present u).2 hu
  rw [show (Space.mk src sz).pgdir.ptes u = none from hnone] at this
  cases this

/-- The page of an address below the size. -/
theorem Shaped.page (hs : Shaped a) {v : Nat} (hv : v < a.sz) :
    ∃ e, a.pgdir.ptes (v / pgsize) = some e := by
  have hp : pgsize = 4096 := rfl
  refine Option.isSome_iff_exists.1 ((hs.present _).2 ?_)
  unfold npages
  rw [hp]
  omega

/-- The panics that have nothing to do with address spaces. -/
def Elsewhere (e : VmPanic) : Prop := e = .filedup ∨ e = .fileclose ∨ e = .initExiting

theorem shapeRules :
    Rules Shaped (fun e => Elsewhere e ∨ e = .fault) (fun a c => shapeGuard a c = true) where
  image := fun hs _ => hs
  growproc := fun hd hs hg =>
    ((growproc_stays hd _).and (growproc_shaped hd hs (not_emptied hg))).imp
      (fun _ he => he.2.elim) fun _ hr => ⟨hr.1, hr.2.1.shaped⟩
  makex := fun hd hs _ =>
    ((makex_stays hd _ _).and (makex_shaped hd hs _ _)).imp (fun _ he => Or.inr he.2)
      fun _ hr => ⟨hr.1, hr.2.shaped⟩
  exec := fun hg hlong => absurd (short_of_guard hg) hlong
  copy := fun hs hc => hs.copy hc
  missing := fun hs hmiss => absurd hmiss hs.not_missing
  fault := fun _ _ _ => Or.inr rfl
  files := ⟨Or.inl (Or.inl rfl), Or.inl (Or.inr (Or.inl rfl)), Or.inl (Or.inr (Or.inr rfl))⟩

theorem writeRules :
    Rules (fun a => Shaped a ∧ Writable a.pgdir) Elsewhere (fun a c => writeGuard a c = true) where
  image := fun hs hw => ⟨hs, hw⟩
  growproc := fun hd hs hg =>
    ((growproc_stays hd _).and (growproc_shaped hd hs.1 (not_emptied hg))).imp
      (fun _ he => he.2.elim) fun _ hr => ⟨hr.1, hr.2.1.shaped, hr.2.2 hs.2⟩
  makex := fun hd hs hg => by
    rw [makex_zero (of_decide_eq_true hg)]
    exact ⟨⟨hd, .refl _ _⟩, hs⟩
  exec := fun {a file argv} hg hlong =>
    absurd (short_of_guard (show shapeGuard a (.exec file argv) = true from hg)) hlong
  copy := fun hs hc => ⟨hs.1.copy hc, hs.2.copy hc⟩
  missing := fun hs hmiss => absurd hmiss hs.1.not_missing
  fault := fun hs hv hno => by
    obtain ⟨e, he⟩ := hs.1.page hv
    exact absurd ⟨e, he, hs.2 _ e he⟩ hno
  files := ⟨Or.inl rfl, Or.inr (Or.inl rfl), Or.inr (Or.inr rfl)⟩

end Rules

-- ======== failing

/-- The calls that give a process other pages. -/
def Machine.Call.resizes : Machine.Call → Bool
  | .growproc _ => true
  | .makex _ _ => true
  | .exec _ _ => true
  | _ => false

namespace Machine

section Failed

variable {s s' : Machine} {p : Slot} {t : Task} {v : Int}

theorem onSpace_ok {r : Except VmPanic (Int × Kmem × Space)} (h : s.onSpace p t r = .ok (v, s')) :
    ∃ m a, r = .ok (v, m, a) ∧ s'.kmem = m ∧ s'.proc p = some { t with space := a } := by
  obtain ⟨⟨v', m, a⟩, hr, h⟩ := bind_eq_ok.1 h
  cases h
  exact ⟨m, a, hr, rfl, Function.update_self ..⟩

/-- A call that fails changes nothing about the pages. -/
theorem call_failed (h : s.Good Shaped) (ht : s.proc p = some t) {c : Call}
    (hg : shapeGuard t.space c = true) (hc : c.resizes = true) (hr : s.call p t c = .ok (v, s'))
    (hv : v ≠ 0) : ∃ t', s'.proc p = some t' ∧ Same s.kmem t.space s'.kmem t'.space := by
  obtain ⟨hd, -⟩ := h.lend ht
  have hs := h.shape p t ht
  have hput : ∀ {r : Except VmPanic (Int × Kmem × Space)}, s.onSpace p t r = .ok (v, s') →
      (∀ m a, r = .ok (v, m, a) → Same s.kmem t.space m a) →
      ∃ t', s'.proc p = some t' ∧ Same s.kmem t.space s'.kmem t'.space := by
    intro r hr hsame
    obtain ⟨m, a, hok, hm, ht'⟩ := onSpace_ok hr
    exact ⟨_, ht', by rw [hm]; exact hsame m a hok⟩
  cases c with
  | growproc n =>
    refine hput hr fun m a hok => ?_
    have hspec := growproc_shaped hd hs (not_emptied hg)
    rw [hok] at hspec
    exact hspec.1.failed hv
  | makex val n =>
    refine hput hr fun m a hok => ?_
    have hspec := makex_shaped hd hs val n
    rw [hok] at hspec
    exact hspec.failed hv
  | exec file argv =>
    refine hput hr fun m a hok => ?_
    have hspec := exec_spec hd file argv
    rw [hok] at hspec
    rcases hspec.2 with ⟨-, -, hsame⟩ | ⟨h0, -⟩
    · exact hsame
    · exact absurd h0 hv
  | fork | pipe fd | close fd | exit | wait | store va b => cases hc

end Failed

/-- What a call returns, and the machine after it. -/
def after (s : Machine) (e : Event) : Option (Int × Machine) :=
  match s.run e with
  | some (.ok r) => some r
  | _ => none

/-- The panic that a call ends with. -/
def panics (s : Machine) (e : Event) : Option VmPanic :=
  match s.run e with
  | some (.error x) => some x
  | _ => none

theorem run_of_after {s s' : Machine} {e : Event} {v : Int} (h : s.after e = some (v, s')) :
    s.run e = some (.ok (v, s')) := by
  unfold after at h
  split at h
  · next r hr =>
    cases h
    exact hr
  · cases h

theorem run_of_panics {s : Machine} {e : Event} {x : VmPanic} (h : s.panics e = some x) :
    s.run e = some (.error x) := by
  unfold panics at h
  split at h
  · next r hr =>
    cases h
    exact hr
  · cases h

theorem after_cases {s s' : Machine} {e : Event} {v : Int} (h : s.after e = some (v, s')) :
    ∃ t, s.proc e.proc = some t ∧ (s.withLimit e.limit).call e.proc t e.call = .ok (v, s') := by
  have hr := run_of_after h
  unfold run at hr
  split at hr
  · cases hr
  · next t ht =>
    split at hr
    · cases hr
    · exact ⟨t, ht, Option.some.inj hr⟩

end Machine

-- ======== results

theorem shapeGuard_good {s : Machine}
    (h : Reach (only (guardStep shapeGuard) vmStep) Booted s) : s.Good Shaped :=
  h.invariant (fun _ h0 => h0.good fun _ hs _ => hs) fun _ _ _ hs hstep =>
    vmStep_good shapeRules hs (fun _ ht => guardStep_call (only_eq_some.1 hstep).1 ht)
      (only_eq_some.1 hstep).2

/-- Every run whose calls the guard lets through: the pages are those below
the size, a call that fails leaves them as they were, and `copyuvm` and
`mappages` do not panic. -/
theorem address_spaces_keep_shape {s : Machine}
    (h : Reach (only (guardStep shapeGuard) vmStep) Booted s) :
    (∀ p t, s.proc p = some t →
      (∀ u, (t.space.pgdir.ptes u).isSome ↔ u < npages t.space.sz) ∧ t.space.sz < kernbase) ∧
    (∀ e v s', guardStep shapeGuard e s = true → e.call.resizes = true →
      s.after e = some (v, s') → v ≠ 0 → ∃ t t', s.proc e.proc = some t ∧
        s'.proc e.proc = some t' ∧ Same s.kmem t.space s'.kmem t'.space) ∧
    ∀ e x, guardStep shapeGuard e s = true → s.panics e = some x →
      x ≠ .noPte ∧ x ≠ .notPresent ∧ x ≠ .remap := by
  have hgood := shapeGuard_good h
  refine ⟨fun p t ht => ⟨(hgood.shape p t ht).present, (hgood.shape p t ht).lt⟩,
    fun e v s' hg hc hr hv => ?_, fun e x hg hx => ?_⟩
  · obtain ⟨t, ht, hcall⟩ := Machine.after_cases hr
    obtain ⟨t', ht', hsame⟩ := Machine.call_failed (hgood.withLimit e.limit) ht
      (guardStep_call hg ht) hc hcall hv
    exact ⟨t, t', ht, ht', hsame.sz, hsame.ptes, hsame.mem⟩
  · have hspec := Machine.run_spec shapeRules hgood (fun _ ht => guardStep_call hg ht)
      (Machine.run_of_panics hx)
    rcases hspec with (rfl | rfl | rfl) | rfl <;> exact ⟨nofun, nofun, nofun⟩

/-- After `fork`, and `sbrk` in the child that has no page to have. -/
theorem address_spaces_keep_shape_fork :
    ∃ s, Reach (only (guardStep shapeGuard) vmStep) Booted s ∧
      (s.proc 1).map (fun t => t.space.sz) = some 4096 ∧
      (∀ p t, s.proc p = some t →
        (∀ u, (t.space.pgdir.ptes u).isSome ↔ u < npages t.space.sz) ∧ t.space.sz < kernbase) := by
  obtain ⟨s, hs, hobs⟩ := Reach.eval_from smallBoot_booted (only (guardStep shapeGuard) vmStep)
    [⟨0, 1000, .fork⟩, ⟨1, 0, .growproc 4096⟩]
    (fun s => (s.proc 1).map fun t => t.space.sz) (some 4096) (by decide +kernel)
  exact ⟨s, hs, hobs, (address_spaces_keep_shape hs).1⟩

/-- `growproc` of the first process by the negative of its size: it
returns -1, the size is still one page, the page is gone, and `fork`
panics. -/
theorem growproc_loses_pages : ∃ s s', Reach vmStep Booted s ∧
    s.after ⟨0, 1000, .growproc 0xFFFFF000⟩ = some (-1, s') ∧
    (s'.proc 0).map (fun t => (t.space.sz, (t.space.pgdir.ptes 0).isSome)) = some (4096, false) ∧
    s'.panics ⟨0, 1000, .fork⟩ = some .notPresent := by
  obtain ⟨s, hs, hobs⟩ := Reach.eval_from smallBoot_booted vmStep []
    (fun s => (s.after ⟨0, 1000, .growproc 0xFFFFF000⟩).map fun r =>
      (r.1, (r.2.proc 0).map (fun t => (t.space.sz, (t.space.pgdir.ptes 0).isSome)),
        r.2.panics ⟨0, 1000, .fork⟩))
    (some (-1, some (4096, false), some .notPresent)) (by decide +kernel)
  obtain ⟨⟨v, s'⟩, hr, hval⟩ := Option.map_eq_some_iff.1 hobs
  obtain ⟨rfl, hrest⟩ := Prod.mk.inj hval
  obtain ⟨hsize, hpanic⟩ := Prod.mk.inj hrest
  exact ⟨s, s', hs, hr, hsize, hpanic⟩

/-- Every run whose calls the guard lets through: what `argptr` accepts can
be written to, and no call faults. -/
theorem argptr_is_writable {s : Machine}
    (h : Reach (only (guardStep writeGuard) vmStep) Booted s) :
    (∀ p t i size, s.proc p = some t → Machine.argptr t.space.sz i size →
      ∀ v, i ≤ v → v < i + size →
        ∃ e, t.space.pgdir.ptes (v / pgsize) = some e ∧ e.w = true) ∧
    ∀ e, guardStep writeGuard e s = true → s.panics e ≠ some .fault := by
  have hgood : s.Good (fun a => Shaped a ∧ Writable a.pgdir) :=
    h.invariant (fun _ h0 => h0.good fun _ hs hw => ⟨hs, hw⟩) fun _ _ _ hs hstep =>
      vmStep_good writeRules hs (fun _ ht => guardStep_call (only_eq_some.1 hstep).1 ht)
        (only_eq_some.1 hstep).2
  refine ⟨fun p t i size ht harg v hlo hhi => ?_, fun e hg hx => ?_⟩
  · obtain ⟨hs, hw⟩ := hgood.shape p t ht
    obtain ⟨e, he⟩ := hs.page (v := v) (by have := harg.2; omega)
    exact ⟨e, he, hw _ e he⟩
  · have hspec := Machine.run_spec writeRules hgood (fun _ ht => guardStep_call hg ht)
      (Machine.run_of_panics hx)
    rcases hspec with hx | hx | hx <;> cases hx

/-- The child of a `fork`, one page larger. -/
theorem argptr_is_writable_fork : ∃ s t, Reach (only (guardStep writeGuard) vmStep) Booted s ∧
    s.proc 1 = some t ∧ t.space.sz = 8192 ∧
    ∃ e, t.space.pgdir.ptes (5000 / pgsize) = some e ∧ e.w = true := by
  obtain ⟨s, hs, hobs⟩ := Reach.eval_from smallBoot_booted (only (guardStep writeGuard) vmStep)
    [⟨0, 1000, .fork⟩, ⟨1, 1000, .growproc 4096⟩]
    (fun s => (s.proc 1).map fun t => t.space.sz) (some 8192) (by decide +kernel)
  obtain ⟨t, ht, hsz⟩ := Option.map_eq_some_iff.1 hobs
  refine ⟨s, t, hs, ht, hsz, (argptr_is_writable hs).1 1 t 5000 8 ht ?_ 5000 (by omega) (by omega)⟩
  rw [hsz]
  decide

/-- `sbrkx` of one byte: `argptr` accepts the first word of the new page,
which cannot be written to, and `sys_pipe` faults there. -/
theorem sbrkx_page_faults : ∃ s t, Reach vmStep Booted s ∧ s.proc 0 = some t ∧
    Machine.argptr t.space.sz 4096 8 ∧
    (t.space.pgdir.ptes 1).map (·.w) = some false ∧
    s.panics ⟨0, 1000, .pipe 4096⟩ = some .fault := by
  obtain ⟨s, hs, hobs⟩ := Reach.eval_from smallBoot_booted vmStep [⟨0, 1000, .makex 0 1⟩]
    (fun s => ((s.proc 0).map fun t => (decide (Machine.argptr t.space.sz 4096 8),
      (t.space.pgdir.ptes 1).map (·.w)), s.panics ⟨0, 1000, .pipe 4096⟩))
    (some (true, some false), some .fault) (by decide +kernel)
  obtain ⟨hproc, hpanic⟩ := Prod.mk.inj hobs
  obtain ⟨t, ht, hval⟩ := Option.map_eq_some_iff.1 hproc
  obtain ⟨harg, hw⟩ := Prod.mk.inj hval
  exact ⟨s, t, hs, ht, of_decide_eq_true harg, hw, hpanic⟩

end Xv6Sume32.Vm
