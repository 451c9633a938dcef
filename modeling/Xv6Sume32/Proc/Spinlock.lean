/-
Spin locks (`spinlock.c`) on several CPUs, and the interrupt flag under
them.

Every access to a lock is a step of its own. The exchange that takes a
lock is atomic, but `lk->cpu` is stored after it and cleared before the
lock is freed, so that for a moment a lock is taken and nobody's, and
`holding` reads the two one after the other. Interrupts are off from
before the exchange until after the lock is free: `ncli` counts the calls
of `pushcli` that are outstanding on the CPU, and `intena` keeps the flag
for when none is. A CPU may be in the middle of calls for several locks,
which is more than one that runs them one after the other can do.
-/
import Xv6Sume32.Lib.Refs
import Xv6Sume32.Lib.System

namespace Xv6Sume32.Proc.Spinlock

open Lib
open Function (update update_self update_of_ne)

/-- Where a CPU is with a lock: what it does next. -/
inductive Stage
  | out        -- may call `acquire`
  | test       -- `holding` reads `lk->locked`
  | testCpu    -- and `lk->cpu`
  | spin       -- `xchg(&lk->locked, 1)`
  | own        -- `lk->cpu = mycpu()`
  | has        -- may call `release`
  | check      -- `holding` reads `lk->locked`
  | checkCpu   -- and `lk->cpu`
  | disown     -- `lk->cpu = 0`
  | free       -- `movl $0`
  | restore    -- `popcli()`
deriving DecidableEq

/-- The CPU has made the exchange and not freed the lock. -/
def Stage.inside : Stage → Bool
  | .own | .has | .check | .checkCpu | .disown | .free => true
  | _ => false

/-- `lk->cpu` is the CPU. -/
def Stage.owns : Stage → Bool
  | .has | .check | .checkCpu | .disown => true
  | _ => false

def Stage.depth (st : Stage) : Nat := if st = .out then 0 else 1

/-- `wants` is the flag that was set last with nothing outstanding, or that
`sched` gave back. -/
structure Cpu where
  intr : Bool
  ncli : Int
  intena : Bool
  wants : Bool

inductive Panic
  | acquire
  | release
  | interruptible
  | popcli

def Cpu.pushcli (k : Cpu) : Cpu :=
  { k with intr := false, ncli := k.ncli + 1, intena := if k.ncli = 0 then k.intr else k.intena }

def Cpu.popcli (k : Cpu) : Except Panic Cpu :=
  if k.intr then .error .interruptible
  else if k.ncli - 1 < 0 then .error .popcli
  else .ok { k with ncli := k.ncli - 1, intr := k.ncli - 1 = 0 && k.intena }

/-- `pushed` counts the outstanding calls of `pushcli` that are not made by
`acquire`. -/
structure State (C L : Type) where
  locked : L → Bool
  owner : L → Option C
  stage : C → L → Stage
  cpu : C → Cpu
  pushed : C → Nat

/-- A CPU calls `acquire` or `release`, goes on with it, calls `pushcli` or
`popcli`, sets its flag (`sti`, a trap or the return from one), or comes
back from `swtch` in `sched`. -/
inductive Event (C L : Type)
  | acquire (c : C) (lk : L)
  | release (c : C) (lk : L)
  | run (c : C) (lk : L)
  | pushcli (c : C)
  | popcli (c : C)
  | flag (c : C) (b : Bool)
  | sched (c : C) (b : Bool)

variable {C L : Type} [DecidableEq C] [DecidableEq L]

def State.move (s : State C L) (c : C) (lk : L) (st : Stage) (locked : Bool) (owner : Option C)
    (k : Cpu) : State C L :=
  { s with
    locked := update s.locked lk locked
    owner := update s.owner lk owner
    stage := update s.stage c (update (s.stage c) lk st)
    cpu := update s.cpu c k }

def State.go (s : State C L) (c : C) (lk : L) (st : Stage) : State C L :=
  s.move c lk st (s.locked lk) (s.owner lk) (s.cpu c)

def State.count (s : State C L) (c : C) (pushed : Nat) (k : Cpu) : State C L :=
  { s with cpu := update s.cpu c k, pushed := update s.pushed c pushed }

/-- What a CPU does next with a lock. -/
def State.run (s : State C L) (c : C) (lk : L) : Option (Except Panic (State C L)) :=
  match s.stage c lk with
  | .out | .has => none
  | .test => some (.ok (s.go c lk (if s.locked lk then .testCpu else .spin)))
  | .testCpu => some (if s.owner lk = some c then .error .acquire else .ok (s.go c lk .spin))
  | .spin => some (.ok (if s.locked lk then s else s.move c lk .own true (s.owner lk) (s.cpu c)))
  | .own => some (.ok (s.move c lk .has (s.locked lk) (some c) (s.cpu c)))
  | .check => some (if s.locked lk then .ok (s.go c lk .checkCpu) else .error .release)
  | .checkCpu => some (if s.owner lk = some c then .ok (s.go c lk .disown) else .error .release)
  | .disown => some (.ok (s.move c lk .free (s.locked lk) none (s.cpu c)))
  | .free => some (.ok (s.move c lk .restore false (s.owner lk) (s.cpu c)))
  | .restore => some ((s.cpu c).popcli.map (s.move c lk .out (s.locked lk) (s.owner lk)))

/-- `acquire` is called without the lock, `release` with it, and `popcli`
after a `pushcli`. -/
def step : Event C L → Except Panic (State C L) → Option (Except Panic (State C L))
  | _, .error _ => none
  | .acquire c lk, .ok s => if s.stage c lk = .out then
      some (.ok (s.move c lk .test (s.locked lk) (s.owner lk) (s.cpu c).pushcli)) else none
  | .release c lk, .ok s => if s.stage c lk = .has then some (.ok (s.go c lk .check)) else none
  | .run c lk, .ok s => s.run c lk
  | .pushcli c, .ok s => some (.ok (s.count c (s.pushed c + 1) (s.cpu c).pushcli))
  | .popcli c, .ok s =>
    if 0 < s.pushed c then some ((s.cpu c).popcli.map (s.count c (s.pushed c - 1))) else none
  | .flag c b, .ok s => if (s.cpu c).ncli = 0 then
      some (.ok (s.count c (s.pushed c) { s.cpu c with intr := b, wants := b })) else none
  | .sched c b, .ok s => if (s.cpu c).ncli = 1 then
      some (.ok (s.count c (s.pushed c) { s.cpu c with intena := b, wants := b })) else none

def init : State C L :=
  ⟨fun _ => false, fun _ => none, fun _ _ => .out, fun _ => ⟨false, 0, false, false⟩, fun _ => 0⟩

def Fresh (x : Except Panic (State C L)) : Prop := x = .ok init

-- ======== the invariant

/-- A CPU with `n` calls of `pushcli` outstanding. -/
structure Cpu.Ok (k : Cpu) (n : Nat) : Prop where
  ncli : k.ncli = n
  intr : k.intr = (n = 0 && k.wants)
  intena : n ≠ 0 → k.intena = k.wants

theorem Cpu.Ok.pushcli {k : Cpu} {n : Nat} (h : k.Ok n) : k.pushcli.Ok (n + 1) := by
  refine ⟨congrArg (· + 1) h.ncli, rfl, fun _ => ?_⟩
  show (if k.ncli = 0 then k.intr else k.intena) = k.wants
  rw [h.ncli, h.intr]
  split
  · simp_all
  · exact h.intena (by omega)

theorem Cpu.Ok.popcli {k : Cpu} {n : Nat} (h : k.Ok (n + 1)) : ∃ k', k.popcli = .ok k' ∧ k'.Ok n := by
  have hn := h.ncli
  refine ⟨_, (if_neg (by simp [h.intr])).trans (if_neg (by omega)), by simp [hn], ?_, fun _ => ?_⟩
  · simp [hn, h.intena]
  · exact h.intena (by omega)

variable [Fintype L] {s : State C L} {x : Except Panic (State C L)} {e : Event C L} {c d : C}
  {lk : L} {st : Stage} {k : Cpu}

/-- Taken by the CPU that is past the exchange, and owned by the one that
`acquire` has returned to. -/
structure Inv (s : State C L) : Prop where
  locks : ∀ lk, ∃ o, HeldBy Stage.inside o (s.stage · lk) ∧ s.locked lk = o.isSome
  owner : ∀ lk, HeldBy Stage.owns (s.owner lk) (s.stage · lk)
  cpu : ∀ c, (s.cpu c).Ok (∑ lk, (s.stage c lk).depth + s.pushed c)

omit [Fintype L] in
theorem move_stage (locked : Bool) (owner : Option C) (lk' : L) :
    (s.move c lk st locked owner k).stage d lk' =
      if d = c ∧ lk' = lk then st else s.stage d lk' := by
  unfold State.move
  by_cases hd : d = c
  · subst hd
    by_cases hl : lk' = lk <;> simp [hl]
  · simp [hd]

/-- A CPU goes on with one lock. -/
theorem Inv.move {locked : Bool} {owner : Option C} (h : Inv s)
    (hlocks : ∀ o, s.locked lk = o.isSome → ∃ o', Moves Stage.inside c (s.stage c lk) st o o'
      ∧ locked = o'.isSome)
    (howner : Moves Stage.owns c (s.stage c lk) st (s.owner lk) owner)
    (hk : ∀ m n, n + (s.stage c lk).depth = m + st.depth → (s.cpu c).Ok m → k.Ok n) :
    Inv (s.move c lk st locked owner k) := by
  have hself : (s.move c lk st locked owner k).stage c lk = st :=
    (move_stage ..).trans (if_pos ⟨rfl, rfl⟩)
  have hother : ∀ {d lk'}, d ≠ c ∨ lk' ≠ lk →
      (s.move c lk st locked owner k).stage d lk' = s.stage d lk' :=
    fun hne => (move_stage ..).trans (if_neg fun he => hne.elim (· he.1) (· he.2))
  refine ⟨fun lk' => ?_, fun lk' => ?_, fun d => ?_⟩
  · obtain ⟨o, ho, hl⟩ := h.locks lk'
    by_cases hlk : lk' = lk
    · subst hlk
      obtain ⟨o', hm, hl'⟩ := hlocks o hl
      exact ⟨o', ho.move (hself ▸ hm) fun d hd => by rw [hother (.inl hd)],
        (update_self ..).trans hl'⟩
    · simp only [hother (.inr hlk)]
      exact ⟨o, ho, (update_of_ne hlk ..).trans hl⟩
  · have ho := h.owner lk'
    by_cases hlk : lk' = lk
    · subst hlk
      rw [show (s.move c lk' st locked owner k).owner lk' = owner from update_self ..]
      exact ho.move (hself ▸ howner) fun d hd => by rw [hother (.inl hd)]
    · simp only [hother (.inr hlk)]
      rwa [show (s.move c lk st locked owner k).owner lk' = _ from update_of_ne hlk ..]
  · have hd := h.cpu d
    by_cases hdc : d = c
    · subst hdc
      have hsum := sum_update Stage.depth (s.stage d) lk st
      simp only [State.move, update_self]
      exact hk _ _ (by omega) hd
    · simp only [hother (.inl hdc)]
      rwa [show (s.move c lk st locked owner k).cpu d = _ from update_of_ne hdc ..]

/-- A step that leaves the lock alone. -/
theorem Inv.go (h : Inv s) (hin : (s.stage c lk).inside = st.inside)
    (hown : (s.stage c lk).owns = st.owns) (hdep : (s.stage c lk).depth = st.depth) :
    Inv (s.go c lk st) :=
  h.move (fun o ho => ⟨o, by simp [Moves, hin], ho⟩) (by simp [Moves, hown]) fun m n hn hm => by
    rw [hdep] at hn
    rwa [Nat.add_right_cancel hn]

omit [DecidableEq L] in
theorem Inv.count {n : Nat} (h : Inv s)
    (hk : ∀ m n', n' + s.pushed c = m + n → (s.cpu c).Ok m → k.Ok n') : Inv (s.count c n k) := by
  refine ⟨h.locks, h.owner, fun d => ?_⟩
  have hd := h.cpu d
  by_cases hdc : d = c
  · subst hdc
    simp only [State.count, update_self]
    exact hk _ _ (by omega) hd
  · simpa [State.count, hdc] using hd

omit [DecidableEq C] [DecidableEq L] in
theorem depth_pos (hne : s.stage c lk ≠ .out) : 0 < ∑ lk, (s.stage c lk).depth :=
  Finset.sum_pos' (fun _ _ => Nat.zero_le _) ⟨lk, Finset.mem_univ lk, by simp [Stage.depth, hne]⟩

omit [DecidableEq C] [DecidableEq L] in
theorem Inv.excludes (h : Inv s) (hc : (s.stage c lk).inside = true)
    (hd : (s.stage d lk).inside = true) : c = d := by
  obtain ⟨o, ho, -⟩ := h.locks lk
  exact Option.some.inj (((ho c).1 hc).symm.trans ((ho d).1 hd))

omit [DecidableEq C] [DecidableEq L] in
theorem Inv.locked (h : Inv s) (hc : (s.stage c lk).inside = true) : s.locked lk = true := by
  obtain ⟨o, ho, hl⟩ := h.locks lk
  rw [hl, (ho c).1 hc]
  rfl

omit [DecidableEq C] [DecidableEq L] in
/-- `popcli` where something is outstanding. -/
theorem Inv.popcli {f : Cpu → State C L} (h : Inv s)
    (hpos : 0 < ∑ lk, (s.stage c lk).depth + s.pushed c)
    (hf : ∀ k, (∀ m n, n + 1 = m → (s.cpu c).Ok m → k.Ok n) → Inv (f k)) :
    ∃ t, (s.cpu c).popcli.map f = .ok t ∧ Inv t := by
  obtain ⟨n, hn⟩ := Nat.exists_eq_add_one.2 hpos
  have hc := h.cpu c
  rw [hn] at hc
  obtain ⟨k, hk, -⟩ := hc.popcli
  refine ⟨f k, by rw [hk]; rfl, hf k ?_⟩
  rintro m n rfl hm
  obtain ⟨k', hk', hok⟩ := hm.popcli
  rwa [Except.ok.inj (hk.symm.trans hk')]

theorem Stage.owns_inside (h : st.owns = true) : st.inside = true := by
  cases st <;> first | rfl | cases h

theorem Inv.run (h : Inv s) (hs : s.run c lk = some x) : ∃ t, x = .ok t ∧ Inv t := by
  -- what a step that keeps the depth asks of the CPU
  have hsame : ∀ {a : Nat} m n, n + a = m + a → (s.cpu c).Ok m → (s.cpu c).Ok n :=
    fun m n hn hm => Nat.add_right_cancel hn ▸ hm
  have hown : (s.stage c lk).owns = true ↔ s.owner lk = some c := h.owner lk c
  unfold State.run at hs
  split at hs <;> cases hs
  case h_3 hst => exact ⟨_, rfl, h.go (by rw [hst]; split <;> rfl) (by rw [hst]; split <;> rfl)
      (by rw [hst]; split <;> rfl)⟩
  case h_4 hst =>
    rw [hst] at hown
    rw [if_neg fun ho => nomatch hown.2 ho]
    exact ⟨_, rfl, h.go (by rw [hst]; rfl) (by rw [hst]; rfl) (by rw [hst]; rfl)⟩
  case h_5 hst =>
    refine ⟨_, rfl, ?_⟩
    split
    · exact h
    · next hfree =>
      refine h.move (fun o ho => ⟨some c, ?_, rfl⟩) (by rw [hst]; rfl) (by rw [hst]; exact hsame)
      cases o <;> simp_all [Moves, Stage.inside]
  case h_6 hst =>
    refine ⟨_, rfl, h.move (fun o ho => ⟨o, by rw [hst]; rfl, ho⟩) ?_ (by rw [hst]; exact hsame)⟩
    -- whoever owns the lock is past the exchange, and that is `c`
    cases ho : s.owner lk with
    | none => simp [Moves, hst, Stage.owns]
    | some d =>
      have hd : (s.stage d lk).owns = true := (h.owner lk d).2 ho
      obtain rfl : c = d := h.excludes (by rw [hst]; rfl) (Stage.owns_inside hd)
      rw [hst] at hd
      cases hd
  case h_7 hst =>
    rw [if_pos (h.locked (c := c) (by rw [hst]; rfl))]
    exact ⟨_, rfl, h.go (by rw [hst]; rfl) (by rw [hst]; rfl) (by rw [hst]; rfl)⟩
  case h_8 hst =>
    rw [hst] at hown
    rw [if_pos (hown.1 rfl)]
    exact ⟨_, rfl, h.go (by rw [hst]; rfl) (by rw [hst]; rfl) (by rw [hst]; rfl)⟩
  case h_9 hst =>
    exact ⟨_, rfl, h.move (fun o ho => ⟨o, by rw [hst]; rfl, ho⟩) (by rw [hst]; rfl)
      (by rw [hst]; exact hsame)⟩
  case h_10 hst =>
    exact ⟨_, rfl, h.move (fun o ho => ⟨none, by rw [hst]; rfl, rfl⟩) (by rw [hst]; rfl)
      (by rw [hst]; exact hsame)⟩
  case h_11 hst =>
    have hne : s.stage c lk ≠ .out := by rw [hst]; decide
    exact h.popcli (Nat.add_pos_left (depth_pos hne) _) fun k hk =>
      h.move (fun o ho => ⟨o, by rw [hst]; rfl, ho⟩) (by rw [hst]; rfl) (by rw [hst]; exact hk)

theorem Inv.step (h : Inv s) (hs : step e (.ok s) = some x) : ∃ t, x = .ok t ∧ Inv t := by
  cases e with
  | acquire c lk =>
    obtain ⟨hst, hs⟩ := Option.ite_none_right_eq_some.1 hs
    cases hs
    refine ⟨_, rfl, h.move (fun o ho => ⟨o, by rw [hst]; rfl, ho⟩) (by rw [hst]; rfl)
      fun m n hn hm => ?_⟩
    rw [hst] at hn
    obtain rfl : n = m + 1 := hn
    exact hm.pushcli
  | release c lk =>
    obtain ⟨hst, hs⟩ := Option.ite_none_right_eq_some.1 hs
    cases hs
    exact ⟨_, rfl, h.go (by rw [hst]; rfl) (by rw [hst]; rfl) (by rw [hst]; rfl)⟩
  | run c lk => exact h.run hs
  | pushcli c =>
    cases hs
    refine ⟨_, rfl, h.count fun m n hn hm => ?_⟩
    obtain rfl : n = m + 1 := by omega
    exact hm.pushcli
  | popcli c =>
    obtain ⟨hpos, hs⟩ := Option.ite_none_right_eq_some.1 hs
    cases hs
    exact h.popcli (Nat.add_pos_right _ hpos) fun k hk =>
      h.count fun m n hn hm => hk m n (by omega) hm
  | flag c b =>
    obtain ⟨h0, hs⟩ := Option.ite_none_right_eq_some.1 hs
    cases hs
    refine ⟨_, rfl, h.count fun m n hn hm => ?_⟩
    obtain rfl : n = m := by omega
    have hn := hm.ncli
    obtain rfl : n = 0 := by omega
    exact ⟨hn, rfl, nofun⟩
  | sched c b =>
    obtain ⟨h1, hs⟩ := Option.ite_none_right_eq_some.1 hs
    cases hs
    refine ⟨_, rfl, h.count fun m n hn hm => ?_⟩
    obtain rfl : n = m := by omega
    have hn := hm.ncli
    obtain rfl : n = 1 := by omega
    exact ⟨hn, hm.intr, fun _ => rfl⟩

omit [DecidableEq C] [DecidableEq L] in
theorem Inv.init : Inv (init : State C L) :=
  ⟨fun _ => ⟨none, fun _ => ⟨nofun, nofun⟩, rfl⟩, fun _ _ => ⟨nofun, nofun⟩,
    fun _ => ⟨by simp [Spinlock.init, Stage.depth], by simp [Spinlock.init], fun _ => rfl⟩⟩

/-- No call panics, one CPU at most is past the exchange of a lock,
`lk->cpu` is the CPU that `acquire` has returned to, interrupts are off on
a CPU from its call of `acquire` to the end of `release`, and with nothing
outstanding they are as they should be. -/
theorem spinlock_excludes (h : Reach step Fresh x) : ∃ s : State C L, x = .ok s ∧
    (∀ c d lk, (s.stage c lk).inside = true → (s.stage d lk).inside = true → c = d) ∧
    (∀ c lk, s.owner lk = some c ↔ (s.stage c lk).owns = true) ∧
    (∀ c lk, s.stage c lk ≠ .out → (s.cpu c).intr = false) ∧
    ∀ c, (∀ lk, s.stage c lk = .out) → s.pushed c = 0 → (s.cpu c).intr = (s.cpu c).wants := by
  obtain ⟨s, rfl, hi⟩ := h.invariant
    (I := fun x : Except Panic (State C L) => ∃ s, x = Except.ok s ∧ Inv s)
    (fun _ h0 => ⟨_, h0, .init⟩) fun e y t ⟨s, hy, hi⟩ ht => hi.step (hy ▸ ht)
  refine ⟨s, rfl, fun c d lk => hi.excludes, fun c lk => (hi.owner lk c).symm,
    fun c lk hne => ?_, fun c hout hp => ?_⟩
  · have := depth_pos hne
    rw [(hi.cpu c).intr, decide_eq_false (by omega), Bool.false_and]
  · rw [(hi.cpu c).intr]
    simp [hout, hp, Stage.depth]

/-- Of two CPUs one has the lock, and the other spins. -/
theorem spinlock_excludes_contended : ∃ s : State Bool Unit, Reach step Fresh (.ok s) ∧
    s.stage false () = .has ∧ s.stage true () = .spin ∧ (s.cpu true).intr = false := by
  obtain ⟨x, hx, hst⟩ := Reach.eval (s := Except.ok init) step [.flag true true,
      .acquire false (), .run false (), .run false (), .run false (),
      .acquire true (), .run true (), .run true (), .run true ()]
    (fun x : Except Panic (State Bool Unit) => x.toOption.map fun s =>
      (s.stage false (), s.stage true ())) (some (.has, .spin))
    (show Fresh (.ok init) from rfl) (by decide)
  obtain ⟨s, rfl, -, -, hoff, -⟩ := spinlock_excludes hx
  have hst : (s.stage false (), s.stage true ()) = (.has, .spin) := Option.some.inj hst
  obtain ⟨h1, h2⟩ := Prod.mk.inj hst
  exact ⟨s, hx, h1, h2, hoff true () (by rw [h2]; decide)⟩

end Xv6Sume32.Proc.Spinlock
