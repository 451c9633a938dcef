/-
Who is killed.

# What goes wrong

`kill` looks for a slot by its pid and does not look at the state of the
slot. A free slot holds the pid 0, after `wait` has cleared it or before
its first use, or the pid of a `fork` that failed. `kill` of such a pid
returns 0 and sets `killed` in a slot that nobody uses; `allocproc` does
not clear it, and the next process in that slot is killed from its first
system call on. The same comes of a `fork` that fails after its embryo
has been killed.

# When it does not

If `kill` is not called with a pid that a free slot holds, and no `fork`
fails with `killed` set in the slot it fills (`aimed`), then no free slot
has `killed` set, and every process that has it set is to blame (`Blamed`).
Most steps touch neither `killed` nor who is in use (`Quiet`).
-/
import Xv6Sume32.Proc.Proofs.Tree

namespace Xv6Sume32.Proc

open Lib

variable {u : Ptable} {q : ProcSlot} {pid : Word}

/-- `kill` is aimed at a process, and `fork` does not fail on a slot with
`killed` set. -/
def aimed (e : ProcEvent) (s : Ptable) : Bool :=
  match e with
  | .kill _ pid => decide (∀ i, (s.proc i).pid = pid → s.inUse i)
  | .fill p none =>
      match s.pc p with
      | .fork np .kalloc | .fork np .copy => !(s.proc np).killed
      | _ => true
  | _ => true

namespace Ptable

open Function (update)

variable {s t : Ptable} {p np i : Slot}

structure Blamed (s : Ptable) : Prop where
  clean : ∀ i, ¬ s.inUse i → (s.proc i).killed = false
  fair : ∀ i, s.inUse i → (s.proc i).killed = true → s.blamed i = true

-- ======== quiet steps

/-- A step that kills nobody, and creates and frees nothing. -/
structure Quiet (s t : Ptable) : Prop where
  used : ∀ i, t.inUse i ↔ s.inUse i
  killed : ∀ i, (t.proc i).killed = (s.proc i).killed
  blamed : t.blamed = s.blamed

theorem Quiet.refl (s : Ptable) : Quiet s s := ⟨fun _ => Iff.rfl, fun _ => rfl, rfl⟩

theorem Quiet.trans (h : Quiet s t) (h' : Quiet t u) : Quiet s u where
  used := fun i => (h'.used i).trans (h.used i)
  killed := fun i => (h'.killed i).trans (h.killed i)
  blamed := h'.blamed.trans h.blamed

theorem Blamed.quiet (h : Blamed s) (hq : Quiet s t) : Blamed t where
  clean := fun i hi => by
    rw [hq.killed]
    exact h.clean i (mt (hq.used i).2 hi)
  fair := fun i hi hk => by
    rw [hq.blamed]
    exact h.fair i ((hq.used i).1 hi) (hq.killed i ▸ hk)

theorem Quiet.set (hstate : q.state ≠ .unused ↔ s.inUse i)
    (hkilled : q.killed = (s.proc i).killed) : Quiet s (s.set i q) where
  used := fun j => by
    by_cases hj : j = i
    · subst hj
      simpa [inUse, Ptable.set] using hstate
    · simp [inUse, Ptable.set, hj]
  killed := fun j => by
    by_cases hj : j = i
    · subst hj
      simpa [Ptable.set] using hkilled
    · simp [Ptable.set, hj]
  blamed := rfl

/-- What is neither in a slot nor in `blamed` does not matter. -/
theorem Quiet.of_proc (h : Quiet s t) (hp : u.proc = t.proc)
    (hb : u.blamed = t.blamed) : Quiet s u where
  used := fun i => by
    unfold inUse
    rw [hp]
    exact h.used i
  killed := fun i => by
    rw [hp]
    exact h.killed i
  blamed := hb.trans h.blamed

theorem Quiet.ret (s : Ptable) (p : Slot) (v : Word) : Quiet s (s.ret p v) := by
  have h : Quiet s (s.set p { s.proc p with eax := v }) := .set Iff.rfl rfl
  exact h.of_proc rfl rfl

theorem Quiet.wakeup1 (s : Ptable) (c : Option Channel) : Quiet s (s.wakeup1 c) where
  used := fun i => by
    unfold inUse Ptable.wakeup1
    dsimp only
    split
    · next h => simp [h.1]
    · rfl
  killed := fun i => by
    unfold Ptable.wakeup1
    dsimp only
    split <;> rfl
  blamed := rfl

theorem Quiet.abandon (s : Ptable) (p i : Slot) : Quiet s (Ptable.abandon p s i) := by
  unfold Ptable.abandon
  split
  · have h : Quiet s (s.set i { s.proc i with parent := some initproc }) := .set Iff.rfl rfl
    dsimp only
    split
    · exact h.trans (.wakeup1 _ _)
    · exact h
  · exact .refl s

theorem Quiet.abandon_all (s : Ptable) (p : Slot) (is : List Slot) :
    Quiet s (is.foldl (Ptable.abandon p) s) := by
  induction is generalizing s with
  | nil => exact .refl s
  | cons i is ih => exact (Quiet.abandon s p i).trans (ih _)

theorem Quiet.exit (hp : s.inUse p) : Quiet s (s.exit p) := by
  have h : Quiet s ((List.finRange nproc).foldl (Ptable.abandon p)
      (s.wakeup1 ((s.proc p).parent.map .proc))) := (Quiet.wakeup1 s _).trans (.abandon_all _ p _)
  have hset : ∀ u, Quiet s u → Quiet s (u.set p { u.proc p with state := .zombie }) :=
    fun u hu => hu.trans (.set (by simp [(hu.used p).2 hp]) rfl)
  exact hset _ h

-- ======== the other steps

/-- A slot is filled or freed with `killed` not set. -/
theorem Blamed.set (h : Blamed s) (hk : q.killed = false) :
    Blamed (s.set i q) where
  clean := fun j hj => by
    by_cases hji : j = i
    · subst hji
      simpa [Ptable.set] using hk
    · simp only [inUse, Ptable.set, ne_eq, hji, not_false_eq_true, Function.update_of_ne] at hj ⊢
      exact h.clean j hj
  fair := fun j hj hkj => by
    by_cases hji : j = i
    · subst hji
      simp [Ptable.set, hk] at hkj
    · simp only [inUse, Ptable.set, ne_eq, hji, not_false_eq_true, Function.update_of_ne] at hj hkj
      exact h.fair j hj hkj

/-- The blame of those that are killed stays. -/
theorem Blamed.of_proc (h : Blamed s) (hp : t.proc = s.proc)
    (hb : ∀ i, (s.proc i).killed = true → s.blamed i = true → t.blamed i = true) :
    Blamed t where
  clean := fun i hi => by
    unfold inUse at hi
    rw [hp] at hi ⊢
    exact h.clean i hi
  fair := fun i hi hk => by
    unfold inUse at hi
    rw [hp] at hi hk
    exact hb i hk (h.fair i hi hk)

theorem Blamed.kfree (h : Blamed s) (k : Option Page) : Blamed (s.kfree k) := by
  cases k with
  | none => exact h
  | some k => exact h.of_proc rfl fun _ _ hb => hb

theorem kfree_proc (s : Ptable) (k : Option Page) : (s.kfree k).proc = s.proc := by
  cases k <;> rfl

theorem Blamed.forkAlloc (h : Blamed s) (p : Slot) : Blamed (s.forkAlloc p) := by
  have h' : Blamed { s with forks := s.forks + 1 } := h.of_proc rfl fun _ _ hb => hb
  unfold Ptable.forkAlloc
  dsimp only
  split
  · exact h'.quiet (.ret _ _ _)
  · next np hnp =>
    have hfree : ¬ s.inUse np := by
      have := List.find?_some hnp
      simpa [inUse] using this
    have hset := h'.set (i := np) (q := { s.proc np with state := .embryo, pid := s.nextpid })
      (h.clean np hfree)
    refine hset.of_proc rfl fun i hk hb => ?_
    by_cases hi : i = np
    · subst hi
      simp [Ptable.set, h.clean _ hfree] at hk
    · simpa [hi, Ptable.set] using hb

theorem Blamed.forkStack {k : Option Page} (h : Blamed s)
    (hk : k = none → (s.proc np).killed = false) (hs : s.forkStack p np k = some t) : Blamed t := by
  cases k with
  | none =>
    cases hs
    have hset : Blamed (s.set np { s.proc np with kstack := none, state := .unused }) :=
      h.set (hk rfl)
    exact hset.quiet (.ret _ _ _)
  | some k =>
    simp only [Ptable.forkStack, Option.ite_none_left_eq_some, Option.some.injEq] at hs
    obtain ⟨-, rfl⟩ := hs
    have hq : Quiet s (s.set np { s.proc np with kstack := some k }) := .set Iff.rfl rfl
    exact h.quiet (hq.of_proc rfl rfl)

theorem Blamed.forkCopy {d : Option Page} (h : Blamed s)
    (hk : d = none → (s.proc np).killed = false) (hs : s.forkCopy p np d = some t) : Blamed t := by
  cases d with
  | none =>
    cases hs
    have hfree := h.kfree (s.proc np).kstack
    have hset : Blamed ((s.kfree (s.proc np).kstack).set np
        { (s.kfree (s.proc np).kstack).proc np with
          pgdir := none, kstack := none, state := .unused }) := by
      refine hfree.set ?_
      rw [kfree_proc]
      exact hk rfl
    exact hset.quiet (.ret _ _ _)
  | some d =>
    simp only [Ptable.forkCopy, Option.ite_none_left_eq_some, Option.some.injEq] at hs
    obtain ⟨-, rfl⟩ := hs
    have hq : Quiet s (s.set np { s.proc np with
        pgdir := some d, parent := some p, eax := 0 }) := .set Iff.rfl rfl
    exact h.quiet (hq.of_proc rfl rfl)

theorem Blamed.forkPublish (h : Blamed s) (hnp : s.inUse np) : Blamed (s.forkPublish p np) := by
  have hq : Quiet s (s.set np { s.proc np with state := .runnable }) := .set (by simpa) rfl
  exact h.quiet (hq.trans (.ret _ _ _))

theorem Blamed.wait (h : Blamed s) (hp : s.inUse p) : Blamed (s.wait p) := by
  rcases wait_cases s p with ⟨i, _, _, hw⟩ | ⟨_, hw⟩ | hw
  · rw [hw]
    have hreap : Blamed (s.reap i) := ((h.kfree _).kfree _).set rfl
    exact (hreap.quiet (.ret _ _ _)).of_proc rfl fun _ _ hb => hb
  · rw [hw]
    exact (h.quiet (.ret _ _ _)).of_proc rfl fun _ _ hb => hb
  · rw [hw]
    have hq : Quiet s (s.set p { s.proc p with chan := some (.proc p), state := .sleeping }) :=
      .set (by simpa) rfl
    exact h.quiet (hq.of_proc rfl rfl)

theorem Blamed.run (h : Blamed s) (hp : s.inUse p) : Blamed (s.run p) := by
  have hq : Quiet s (s.set p { s.proc p with state := .running, chan := none }) :=
    .set (by simpa) rfl
  unfold Ptable.run
  dsimp only
  split
  · exact (h.quiet hq).wait ((hq.used p).2 hp)
  · exact h.quiet hq

/-- A process in use may be killed if it is to blame. -/
theorem Blamed.blame (h : Blamed s) (hq : q.state ≠ .unused) {b : Slot → Bool}
    (hb : b i = true) (hkeep : ∀ j, s.blamed j = true → b j = true) :
    Blamed { s.set i q with blamed := b } where
  clean := fun j hj => by
    by_cases hji : j = i
    · subst hji
      simp [inUse, Ptable.set, hq] at hj
    · simp only [inUse, Ptable.set, ne_eq, hji, not_false_eq_true, Function.update_of_ne] at hj ⊢
      exact h.clean j hj
  fair := fun j hj hk => by
    by_cases hji : j = i
    · subst hji
      exact hb
    · simp only [inUse, Ptable.set, ne_eq, hji, not_false_eq_true, Function.update_of_ne] at hj hk
      exact hkeep j (h.fair j hj hk)

theorem killTarget_pid (hi : s.killTarget pid = some i) : (s.proc i).pid = pid := by
  have := List.find?_some hi
  simpa using this

/-- `kill` of a pid that no free slot holds. -/
theorem Blamed.kill (h : Blamed s) (ha : ∀ i, (s.proc i).pid = pid → s.inUse i) :
    Blamed { (s.kill pid).1 with
      blamed := fun i => s.blamed i || decide (s.inUse i ∧ (s.proc i).pid = pid) } := by
  unfold Ptable.kill
  split
  · exact h.of_proc rfl fun i _ hb => by simp [hb]
  · next i hi =>
    have hpid := killTarget_pid hi
    have hused := ha i hpid
    refine h.blame ?_ ?_ fun j hj => ?_
    · dsimp only
      split
      · simp
      · exact hused
    · simp [hused, hpid]
    · simp [hj]

-- ======== every step

theorem Blamed.step {e : ProcEvent} (h : Blamed s) (hg : s.tree.Good) (ha : aimed e s = true)
    (hs : procStep e s = some t) : Blamed t := by
  cases e with
  | fork p =>
    simp only [procStep, Option.ite_some_none_eq_some] at hs
    obtain ⟨-, rfl⟩ := hs
    exact h.forkAlloc p
  | fill p page =>
    simp only [procStep, Option.ite_none_right_eq_some] at hs
    obtain ⟨-, hs⟩ := hs
    split at hs
    · next hpc =>
      refine h.forkStack (fun hnone => ?_) hs
      simpa [aimed, hnone, hpc] using ha
    · next hpc =>
      refine h.forkCopy (fun hnone => ?_) hs
      simpa [aimed, hnone, hpc] using ha
    · next np hpc =>
      cases hs
      refine h.forkPublish ((kind_free_iff s np).1 ?_)
      have hm : s.tree.making p = some (np, .publish) := by simp [tree, hpc, Pc.making]
      simp [(hg.making _ _ _ hm).2.1]
    · cases hs
  | exit p =>
    simp only [procStep, Option.ite_some_none_eq_some] at hs
    obtain ⟨⟨hp, -⟩, rfl⟩ := hs
    exact h.quiet (.exit (by simp [inUse, hp.1]))
  | wait p =>
    simp only [procStep, Option.ite_some_none_eq_some] at hs
    obtain ⟨hp, rfl⟩ := hs
    exact h.wait (by simp [inUse, hp.1])
  | kill p pid =>
    simp only [procStep, Option.ite_some_none_eq_some] at hs
    obtain ⟨-, rfl⟩ := hs
    have hk := h.kill (by simpa [aimed] using ha)
    exact hk.quiet ((Quiet.ret _ p _).of_proc rfl rfl)
  | fault p =>
    simp only [procStep, Option.ite_some_none_eq_some] at hs
    obtain ⟨hp, rfl⟩ := hs
    refine h.blame ?_ ?_ fun j hj => ?_
    · simp [hp.1]
    · simp
    · by_cases hjp : j = p <;> simp [hjp, hj]
  | run p =>
    simp only [procStep, Option.ite_some_none_eq_some] at hs
    obtain ⟨hp, rfl⟩ := hs
    exact h.run (by simp [inUse, hp])
  | yield p =>
    simp only [procStep, Option.ite_some_none_eq_some] at hs
    obtain ⟨hp, rfl⟩ := hs
    exact h.quiet (.set (by simp [inUse, hp]) rfl)
  | sleep p n =>
    simp only [procStep, Option.ite_some_none_eq_some] at hs
    obtain ⟨hp, rfl⟩ := hs
    exact h.quiet (.set (by simp [inUse, hp.1]) rfl)
  | wakeup n =>
    cases hs
    exact h.quiet (.wakeup1 s _)

theorem Blamed.booted (h : Booted s) : Blamed s := by
  obtain ⟨k, d, page, -, -, -, rfl⟩ := h
  have hkilled : ∀ i, (update (fun _ => ProcSlot.zero) initproc { ProcSlot.zero with
      state := .runnable, pid := 1, kstack := some k, pgdir := some d } i).killed = false := by
    intro i
    by_cases hi : i = initproc <;> simp [hi, ProcSlot.zero]
  constructor
  · intro i _
    exact hkilled i
  · intro i _ hk
    rw [hkilled] at hk
    cases hk

theorem Blamed.reach (h : Reach (only aimed procStep) Booted s) : Blamed s := by
  refine h.invariant_with (K := fun s => s.tree.Good) (fun s hr => tree_good hr.of_only)
    (fun _ => Blamed.booted) ?_
  intro e s t hg hb hs
  obtain ⟨ha, hs⟩ := only_eq_some.1 hs
  exact hb.step hg ha hs

/-- `allocproc` takes `killed` as it finds it. -/
theorem forkAlloc_killed (s : Ptable) (p i : Slot) :
    ((s.forkAlloc p).proc i).killed = (s.proc i).killed := by
  unfold forkAlloc
  dsimp only
  split
  · exact (Quiet.ret _ _ _).killed i
  · next np _ =>
    by_cases hi : i = np <;> simp [Ptable.set, hi]

end Ptable

open Ptable

/-- As long as `kill` is aimed at processes and no `fork` fails on a slot
with `killed` set: a process that has `killed` set is to blame for it, a
process that `fork` creates does not have it set, and `kill` returns 0
only where a process in use has the pid. -/
theorem kill_only_its_target (s : Ptable) (hr : Reach (only aimed procStep) Booted s) :
    (∀ i, s.inUse i → (s.proc i).killed = true → s.blamed i = true) ∧
    (∀ p t i, procStep (.fork p) s = some t → ¬ s.inUse i → t.inUse i →
      (t.proc i).killed = false) ∧
    ∀ p pid t, only aimed procStep (.kill p pid) s = some t → (t.proc p).eax = 0 →
      ∃ i, s.inUse i ∧ (s.proc i).pid = pid := by
  have hb := Blamed.reach hr
  refine ⟨hb.fair, fun p t i hs hi _ => ?_, fun p pid t hs h0 => ?_⟩
  · simp only [procStep, Option.ite_some_none_eq_some] at hs
    obtain ⟨-, rfl⟩ := hs
    rw [forkAlloc_killed]
    exact hb.clean i hi
  · obtain ⟨ha, hs⟩ := only_eq_some.1 hs
    simp only [procStep, Option.ite_some_none_eq_some] at hs
    obtain ⟨-, rfl⟩ := hs
    have hret : (s.kill pid).2 = 0 := by simpa [Ptable.ret, Ptable.set] using h0
    unfold Ptable.kill at hret
    split at hret
    · dsimp only at hret
      exact absurd hret (by decide)
    · next i hi =>
      have hpid := killTarget_pid hi
      have haim : ∀ i, (s.proc i).pid = pid → s.inUse i := by simpa [aimed] using ha
      exact ⟨i, haim i hpid, hpid⟩

/-- init kills its child. -/
theorem kill_only_its_target_child : ∃ s : Ptable, Reach (only aimed procStep) Booted s ∧
    (s.proc 1).state = .runnable ∧ (s.proc 1).killed = true ∧ s.blamed 1 = true := by
  obtain ⟨s, hr, hs⟩ := Reach.eval (only aimed procStep)
    [.run 0, .fork 0, .fill 0 (some 2), .fill 0 (some 3), .fill 0 none, .kill 0 2]
    (fun s => ((s.proc 1).state, (s.proc 1).killed)) (.runnable, true) bootTable_booted
    (by decide +kernel)
  obtain ⟨hstate, hkilled⟩ := Prod.mk.inj hs
  exact ⟨s, hr, hstate, hkilled,
    (kill_only_its_target s hr).1 1 (by simp [inUse, hstate]) hkilled⟩

/-- `kill(0)` returns 0 although no process has that pid; the child that
init forks after that has `killed` set from the start. -/
theorem killed_from_birth :
    (∃ s : Ptable, Reach procStep Booted s ∧
      s.free 0 ∧ (s.kill 0).2 = 0 ∧ ∀ i, s.inUse i → (s.proc i).pid ≠ 0) ∧
    ∃ s : Ptable, Reach procStep Booted s ∧
      (s.proc 1).state = .runnable ∧ (s.proc 1).killed = true ∧ s.blamed 1 = false := by
  constructor
  · obtain ⟨s, hr, hs⟩ := Reach.eval procStep [.run 0]
      (fun s => decide (s.free 0 ∧ (s.kill 0).2 = 0 ∧ ∀ i, s.inUse i → (s.proc i).pid ≠ 0)) true
      bootTable_booted (by decide +kernel)
    exact ⟨s, hr, of_decide_eq_true hs⟩
  · obtain ⟨s, hr, hs⟩ := Reach.eval procStep
      [.run 0, .kill 0 0, .fork 0, .fill 0 (some 2), .fill 0 (some 3), .fill 0 none]
      (fun s => ((s.proc 1).state, (s.proc 1).killed, s.blamed 1)) (.runnable, true, false)
      bootTable_booted (by decide +kernel)
    simp only [Prod.mk.injEq] at hs
    exact ⟨s, hr, hs⟩

end Xv6Sume32.Proc
