/-
Sleep locks (`sleeplock.c`), built of a spin lock and of `sleep` and
`wakeup` (`proc.c`).

Every access to `lk->locked` is made under `lk->lk`, and `sleep` takes
`ptable.lock` before it lets go of `lk->lk`, so that no `wakeup` falls
between the test of `locked` and the process being marked as asleep. The
steps are the stretches between these events, by any number of processes.
`waits` is the invariant: who is on the way to sleep or asleep finds the
lock taken, or a process that is about to wake everybody.
-/
import Xv6Sume32.Lib.System

namespace Xv6Sume32.Proc.Sleeplock

open Lib
open Function (update)

/-- Where a process is in `acquiresleep`, `releasesleep`, `sleep` and
`wakeup`: what it does next. -/
inductive Pc
  | out      -- may call `acquiresleep`
  | enter    -- `acquire(&lk->lk)` of `acquiresleep` or `sleep`
  | test     -- `while (lk->locked)`
  | sleep1   -- `acquire(&ptable.lock)`
  | sleep2   -- `release(lk)`
  | sleep3   -- `p->state = SLEEPING; sched()`
  | asleep
  | ready    -- RUNNABLE, to be switched to
  | leave    -- `release(&lk->lk)` of `acquiresleep`
  | has      -- may call `releasesleep`
  | exit     -- `acquire(&lk->lk)` of `releasesleep`
  | clear    -- `lk->locked = 0`
  | wake     -- `wakeup(lk)`
  | done     -- `release(&lk->lk)` of `releasesleep`
deriving DecidableEq

/-- The process is between an `acquire` and a `release` of `lk->lk`. -/
def Pc.spins : Pc → Bool
  | .test | .sleep1 | .sleep2 | .leave | .clear | .wake | .done => true
  | _ => false

/-- The same for `ptable.lock`, where it is kept over several steps. -/
def Pc.schedules : Pc → Bool
  | .sleep2 | .sleep3 => true
  | _ => false

/-- The process has taken the sleep lock and not given it back. -/
def Pc.owns : Pc → Bool
  | .leave | .has | .exit | .clear => true
  | _ => false

/-- The process has found the lock taken and has not been woken since. -/
def Pc.waits : Pc → Bool
  | .sleep1 | .sleep2 | .sleep3 | .asleep => true
  | _ => false

structure State (P : Type) where
  lk : Option P
  ptable : Option P
  locked : Bool
  pid : Option P
  pc : P → Pc

/-- What happens next: `p` calls `acquiresleep`, or `releasesleep` where it
has the lock, goes on, or is killed while asleep. -/
inductive Event (P : Type)
  | call (p : P)
  | run (p : P)
  | kill (p : P)

variable {P : Type} [DecidableEq P] {e : Event P} {s t : State P} {p q : P}

def State.goto (s : State P) (p : P) (c : Pc) : State P := { s with pc := update s.pc p c }

/-- `wakeup1(lk)`. -/
def wakeup1 (pc : P → Pc) (q : P) : Pc := if pc q = .asleep then .ready else pc q

def step : Event P → State P → Option (State P)
  | .call p, s => match s.pc p with
    | .out => some (s.goto p .enter)
    | .has => some (s.goto p .exit)
    | _ => none
  | .kill p, s =>
    if s.pc p = .asleep ∧ s.ptable = none then some (s.goto p .ready) else none
  | .run p, s => match s.pc p with
    | .out | .has | .asleep => none
    | .enter => if s.lk = none then some ({ s with lk := some p }.goto p .test) else none
    | .test => if s.locked then some (s.goto p .sleep1)
      else some ({ s with locked := true, pid := some p }.goto p .leave)
    | .sleep1 => if s.ptable = none then some ({ s with ptable := some p }.goto p .sleep2) else none
    | .sleep2 => some ({ s with lk := none }.goto p .sleep3)
    | .sleep3 => some ({ s with ptable := none }.goto p .asleep)
    | .ready => if s.ptable = none then some (s.goto p .enter) else none
    | .leave => some ({ s with lk := none }.goto p .has)
    | .exit => if s.lk = none then some ({ s with lk := some p }.goto p .clear) else none
    | .clear => some ({ s with locked := false, pid := none }.goto p .wake)
    | .wake => if s.ptable = none then some ({ s with pc := wakeup1 s.pc }.goto p .done) else none
    | .done => some ({ s with lk := none }.goto p .out)

/-- `initsleeplock`. -/
def init : State P := ⟨none, none, false, none, fun _ => .out⟩

def Fresh (s : State P) : Prop := s = init

structure Inv (s : State P) : Prop where
  lk : HeldBy Pc.spins s.lk s.pc
  ptable : HeldBy Pc.schedules s.ptable s.pc
  pid : HeldBy Pc.owns s.pid s.pc
  locked : s.locked = s.pid.isSome
  waits : ∀ p, (s.pc p).waits = true → s.locked = true ∨ ∃ q, s.pc q = .wake

/-- What one step of `p` does: the three locks, `locked`, and the others. -/
structure Moved (s t : State P) (p : P) : Prop where
  lk : Moves Pc.spins p (s.pc p) (t.pc p) s.lk t.lk
  ptable : Moves Pc.schedules p (s.pc p) (t.pc p) s.ptable t.ptable
  pid : Moves Pc.owns p (s.pc p) (t.pc p) s.pid t.pid
  locked : t.locked = t.pid.isSome
  waits : (t.pc p).waits = true → (s.pc p).waits = true ∨ t.locked = true
  clear : s.locked = true → t.locked = true ∨ t.pc p = .wake
  wake : s.pc p = .wake → s.ptable = none
  others : ∀ q, q ≠ p → t.pc q = if s.pc p = .wake then wakeup1 s.pc q else s.pc q

theorem step_moved (h : s.locked = s.pid.isSome)
    (hs : step e s = some t) : ∃ p, Moved s t p := by
  cases e with
  | call p | kill p | run p =>
    unfold Sleeplock.step at hs
    dsimp only at hs
    split at hs
    -- one goal for each place `p` may be at, two where the code tests something
    all_goals try split at hs
    all_goals cases hs
    all_goals
      refine ⟨p, ?_, ?_, ?_, ?_, ?_, ?_, ?_, fun q hq => ?_⟩
      all_goals simp_all [Moves, Pc.spins, Pc.schedules, Pc.owns, Pc.waits, State.goto]

omit [DecidableEq P] in
/-- A woken process is under no lock, as it was when asleep. -/
theorem Moved.same (h : Moved s t p) (hq : q ≠ p) (f : Pc → Bool)
    (hf : f .ready = f .asleep) : f (t.pc q) = f (s.pc q) := by
  rw [h.others q hq, wakeup1]
  grind

theorem Pc.waits_where {c : Pc} (h : c.waits = true) :
    c = .asleep ∨ c.spins = true ∨ c.schedules = true := by
  cases c <;> simp_all [Pc.waits, Pc.spins, Pc.schedules]

omit [DecidableEq P] in
/-- `wakeup` misses nobody: a process on the way to sleep keeps `lk->lk` or
`ptable.lock` until it is seen asleep. -/
theorem Inv.woken (h : Inv s) (hm : Moved s t p)
    (hp : s.pc p = .wake) (hq : q ≠ p) : (t.pc q).waits = false := by
  have hlk : s.lk = some p := (h.lk p).1 (by rw [hp]; rfl)
  rw [hm.others q hq, if_pos hp, wakeup1]
  split
  · rfl
  · next hna =>
    by_contra hw
    rcases Pc.waits_where (Bool.eq_true_of_not_eq_false hw) with ha | hl | hl
    · exact hna ha
    · exact hq (Option.some.inj (((h.lk q).1 hl).symm.trans hlk))
    · cases (hm.wake hp).symm.trans ((h.ptable q).1 hl)

theorem Inv.step (h : Inv s) (hs : step e s = some t) : Inv t := by
  obtain ⟨p, hm⟩ := step_moved h.locked hs
  refine ⟨h.lk.move hm.lk fun _ hq => hm.same hq _ rfl,
    h.ptable.move hm.ptable fun _ hq => hm.same hq _ rfl,
    h.pid.move hm.pid fun _ hq => hm.same hq _ rfl, hm.locked, fun q hw => ?_⟩
  by_cases hp : s.pc p = .wake
  · -- only `p` itself can be waiting now, and it was not
    have hqp : q = p := by
      by_contra hq
      exact absurd hw (by simp [h.woken hm hp hq])
    subst hqp
    exact .inl ((hm.waits hw).resolve_left (by simp [hp, Pc.waits]))
  · have hother : ∀ r, r ≠ p → t.pc r = s.pc r := fun r hr => by rw [hm.others r hr, if_neg hp]
    have hwas : (s.pc q).waits = true ∨ t.locked = true := by
      by_cases hq : q = p
      · subst hq
        exact hm.waits hw
      · exact .inl (hother q hq ▸ hw)
    rcases hwas with hwas | hl
    · rcases h.waits q hwas with hl | ⟨r, hr⟩
      · exact (hm.clear hl).imp_right fun hc => ⟨p, hc⟩
      · exact .inr ⟨r, (hother r fun hrp => hp (hrp ▸ hr)).trans hr⟩
    · exact .inl hl

omit [DecidableEq P] in
theorem Inv.init : Inv (init : State P) :=
  ⟨fun _ => ⟨nofun, nofun⟩, fun _ => ⟨nofun, nofun⟩, fun _ => ⟨nofun, nofun⟩, rfl, nofun⟩

theorem Inv.reach (h : Reach Sleeplock.step Fresh s) : Inv s :=
  h.invariant (fun _ h0 => h0 ▸ .init) fun _ _ _ hi hs => hi.step hs

/-- At most one process is between its `acquiresleep` and its
`releasesleep`, `locked` and `pid` say which, and nobody sleeps on a free
lock unless a `releasesleep` is about to wake it. -/
theorem sleeplock_excludes (h : Reach step Fresh s) :
    (∀ p, (s.pc p).owns = true ↔ s.pid = some p) ∧ s.locked = s.pid.isSome ∧
      ∀ p, s.pc p = .asleep → s.locked = true ∨ ∃ q, s.pc q = .wake :=
  have hi := Inv.reach h
  ⟨hi.pid, hi.locked, fun p hp => hi.waits p (by rw [hp]; rfl)⟩

/-- Of two processes one has the lock and the other sleeps. -/
def contended : List (Event Bool) :=
  [.call false, .run false, .run false, .run false,
    .call true, .run true, .run true, .run true, .run true, .run true]

theorem contended_reached : ∃ s, Reach step Fresh s ∧ (s.pc false, s.pc true) = (.has, .asleep) :=
  Reach.eval (s := init) step contended (fun s => (s.pc false, s.pc true)) _ rfl (by decide)

theorem sleeplock_excludes_contended : ∃ s : State Bool, Reach step Fresh s ∧
    (s.pc false, s.pc true) = (.has, .asleep) ∧ s.locked = s.pid.isSome := by
  obtain ⟨s, hs, hp⟩ := contended_reached
  exact ⟨s, hs, hp, (sleeplock_excludes hs).2.1⟩

/-- A process goes on by itself unless a lock it needs is taken, and a
process that has locks gets on with those it has and `ptable.lock`. -/
theorem run_enabled (hlk : s.lk = none ∨ (s.pc q).spins = true)
    (hpt : s.ptable = none) (hq : s.pc q ≠ .out ∧ s.pc q ≠ .has ∧ s.pc q ≠ .asleep) :
    (step (.run q) s).isSome = true := by
  unfold step
  dsimp only
  cases hpc : s.pc q <;> simp_all [Pc.spins]
  split <;> rfl

/-- Whoever waits does so for a process that can go on by itself, or for
the one that has the lock. -/
theorem sleeplock_progress (h : Reach step Fresh s)
    (hp : s.pc p ≠ .out) : (∃ q, (step (.run q) s).isSome = true) ∨ ∃ q, s.pc q = .has := by
  have hi := Inv.reach h
  cases hpt : s.ptable with
  | some q =>
    have hq := (hi.ptable q).2 hpt
    refine .inl ⟨q, ?_⟩
    unfold step
    dsimp only
    cases hpc : s.pc q <;> simp_all [Pc.schedules]
  | none =>
    cases hlk : s.lk with
    | some q =>
      have hq := (hi.lk q).2 hlk
      refine .inl ⟨q, run_enabled (.inr hq) hpt ?_⟩
      refine ⟨?_, ?_, ?_⟩ <;> intro hc <;> rw [hc] at hq <;> cases hq
    | none =>
      by_cases hhas : ∃ q, s.pc q = .has
      · exact .inr hhas
      · by_cases hasleep : s.pc p = .asleep
        · have hw : (s.pc p).waits = true := by
            rw [hasleep]
            rfl
          rcases hi.waits p hw with hl | ⟨r, hr⟩
          · obtain ⟨r, hr⟩ := Option.isSome_iff_exists.1 (hi.locked ▸ hl)
            have hown := (hi.pid r).2 hr
            refine .inl ⟨r, run_enabled (.inl hlk) hpt ⟨?_, fun hc => hhas ⟨r, hc⟩, ?_⟩⟩ <;>
              intro hc <;> rw [hc] at hown <;> cases hown
          · cases hlk.symm.trans ((hi.lk r).1 (by rw [hr]; rfl))
        · exact .inl ⟨p, run_enabled (.inl hlk) hpt ⟨hp, fun hc => hhas ⟨p, hc⟩, hasleep⟩⟩

theorem sleeplock_progress_contended : ∃ s : State Bool, Reach step Fresh s ∧
    s.pc true = .asleep ∧ ((∃ q, (step (.run q) s).isSome = true) ∨ ∃ q, s.pc q = .has) := by
  obtain ⟨s, hs, hp⟩ := contended_reached
  have hp : s.pc true = .asleep := congrArg Prod.snd hp
  exact ⟨s, hs, hp, sleeplock_progress (p := true) hs (by simp [hp])⟩

end Xv6Sume32.Proc.Sleeplock
