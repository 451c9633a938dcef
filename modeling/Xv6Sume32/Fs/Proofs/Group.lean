/-
The group-commit protocol, over every interleaving of operations.

`Group` says what holds in every state. Its heart is the account of the
log space (`room`): what is in the log and what the operations that are
under way may still add fit into `LOGSIZE` together. An operation adds to
the log only blocks it has not logged before, because nothing leaves the
log while an operation is under way, so a new block is paid from the
operation's own reservation.

# The panic

`log_write` panics when `lh.n` has reached `log.size - 1`, one less than
what `begin_op` gives out. Three operations that use their reservations
up get there (`transaction_too_big`); operations that leave one block of
theirs unused do not (`no_panic`).
-/
import Xv6Sume32.Lib.Refs
import Xv6Sume32.Fs.Log

namespace Xv6Sume32.Fs

open Lib
open Function (update update_of_ne update_self)

variable {g : Phase → Nat} {ph : Phase} {block : List Nat} {b : Nat}

-- ======== phases

namespace Phase

/-- 1 between `begin_op` and `end_op`. -/
def active : Phase → Nat
  | .op _ | .logging _ _ => 1
  | _ => 0

/-- 1 in the commit of an `end_op`. -/
def committers : Phase → Nat
  | .commit => 1
  | _ => 0

/-- What is left of an operation's reservation. -/
def reserve : Phase → Nat
  | .op us | .logging us _ => maxOpBlocks - us.length
  | _ => 0

end Phase

theorem sum_wake {P : Type} [Fintype P] (hg : g .woken = g .asleep) (proc : P → Phase) :
    (∑ q, g (LogState.wake proc q)) = ∑ q, g (proc q) := by
  refine Finset.sum_congr rfl fun q _ => ?_
  unfold LogState.wake
  split
  · next h => rw [h, hg]
  · rfl

-- ======== the invariant

/-- The blocks an operation has logged are different, in the log, and at
most `bound`. -/
structure UsedOk (bound : Nat) (block used : List Nat) : Prop where
  nodup : used.Nodup
  logged : ∀ b ∈ used, b ∈ block
  le : used.length ≤ bound

variable {P D : Type}

/-- What a sleeper waits for: the end of a commit, or log space. -/
def Waits (s : LogState P D) : Prop :=
  s.committing = true
    ∨ (logSize : Int) < s.block.length + (s.outstanding + 1) * maxOpBlocks

/-- What holds of a process, by its phase. -/
def PhaseOk (bound : Nat) (s : LogState P D) : Phase → Prop
  | .idle | .woken | .commit => True
  | .asleep => s.recovering = false ∧ Waits s
  | .op used => UsedOk bound s.block used
  | .logging used b => UsedOk bound s.block used ∧ (b ∈ used ∨ used.length < bound)

variable {bound : Nat} {s t : LogState P D}

/-- A process that is not in an operation does not depend on the log. -/
theorem PhaseOk.of_inactive (hph : ph.active = 0)
    (hsleep : ph = .asleep → t.recovering = false ∧ Waits t) : PhaseOk bound t ph := by
  cases ph with
  | idle | woken | commit => trivial
  | asleep => exact hsleep rfl
  | op _ | logging _ _ => cases hph

/-- A longer log and a longer wait change nothing. -/
theorem PhaseOk.mono (h : PhaseOk bound s ph)
    (hr : t.recovering = s.recovering) (hb : ∀ b ∈ s.block, b ∈ t.block)
    (hw : Waits s → Waits t) : PhaseOk bound t ph := by
  have hused : ∀ {us}, UsedOk bound s.block us → UsedOk bound t.block us :=
    fun hu => ⟨hu.nodup, fun b hm => hb b (hu.logged b hm), hu.le⟩
  cases ph with
  | idle | woken | commit => trivial
  | asleep => exact ⟨hr.trans h.1, hw h.2⟩
  | op us => exact hused h
  | logging us b => exact ⟨hused h.1, h.2⟩

/-- Behind a wakeup nobody sleeps, so that there is no wait to account
for. -/
theorem PhaseOk.wake {proc : P → Phase} {p : P} (h : PhaseOk bound s (proc p))
    (hb : t.block = s.block) : PhaseOk bound t (LogState.wake proc p) := by
  unfold LogState.wake
  cases hp : proc p with
  | idle | woken | commit | asleep => trivial
  | op us | logging us b =>
    rw [hp] at h
    unfold PhaseOk at h ⊢
    rw [hb]
    exact h

/-- Processes take their steps outside recovery. -/
theorem of_up {x : Option (LogState P D)} (h : (if s.up then x else none) = some t) :
    s.recovering = false ∧ x = some t := by
  split at h
  · next hu =>
    unfold LogState.up at hu
    rw [Bool.and_eq_true] at hu
    exact ⟨by simpa using hu.2, h⟩
  · cases h

variable [Fintype P]

/-- What holds in every state the protocol reaches. -/
structure Group (bound : Nat) (s : LogState P D) : Prop where
  count : s.outstanding = ((∑ p, (s.proc p).active : Nat) : Int)
  commits : (∑ p, (s.proc p).committers) = if s.committing then 1 else 0
  quiet : s.committing = true → s.outstanding = 0
  boot : s.recovering = true → s.outstanding = 0 ∧ s.committing = false
  busy : s.job ≠ .none → s.committing = true ∨ s.recovering = true
  cleared : s.job = .none → s.outstanding = 0 → s.block = []
  nodup : s.block.Nodup
  headNodup : s.head.Nodup
  headRoom : s.head.length ≤ logSize
  fits : s.block.length ≤ logSize
  room : bound ≤ maxOpBlocks → s.block.length + ∑ p, (s.proc p).reserve ≤ logSize
  slack : bound < maxOpBlocks → s.outstanding = 1 →
    s.block.length + ∑ p, (s.proc p).reserve < logSize
  procs : ∀ p, PhaseOk bound s (s.proc p)
  panic : s.panic = none ∨ s.panic = some .tooBig ∧ maxOpBlocks ≤ bound
    ∨ s.panic = some .overrun ∧ maxOpBlocks < bound

-- -------- the sums

theorem reserve_le (ph : Phase) : ph.reserve ≤ maxOpBlocks * ph.active := by
  cases ph <;> simp [Phase.reserve, Phase.active]

/-- Reservations are at most `MAXOPBLOCKS` an operation. -/
theorem sum_reserve_le (proc : P → Phase) :
    (∑ p, (proc p).reserve) ≤ maxOpBlocks * ∑ p, (proc p).active := by
  rw [Finset.mul_sum]
  exact Finset.sum_le_sum fun p _ => reserve_le _

theorem le_sum (g : Phase → Nat) (proc : P → Phase) (p : P) : g (proc p) ≤ ∑ q, g (proc q) :=
  Finset.single_le_sum (f := fun q => g (proc q)) (fun _ _ => Nat.zero_le _) (Finset.mem_univ p)

/-- A process in an operation is outstanding, and there is no commit. -/
theorem Group.counted (h : Group bound s) {p : P} (hp : (s.proc p).active = 1) :
    1 ≤ s.outstanding ∧ s.committing = false := by
  have hle := le_sum Phase.active s.proc p
  have hc := h.count
  refine ⟨by omega, ?_⟩
  cases hcom : s.committing with
  | false => rfl
  | true =>
    have := h.quiet hcom
    omega

/-- With nothing outstanding no process is in an operation. -/
theorem Group.idle (h : Group bound s) (h0 : s.outstanding = 0) (p : P) :
    (s.proc p).active = 0 := by
  have hle := le_sum Phase.active s.proc p
  have hc := h.count
  omega

/-- A process in its commit is the one that is. -/
theorem Group.committer (h : Group bound s) {p : P} (hp : s.proc p = .commit) :
    s.committing = true := by
  have hle := le_sum Phase.committers s.proc p
  have hc := h.commits
  rw [hp] at hle
  cases hcom : s.committing with
  | true => rfl
  | false =>
    rw [hcom, if_neg (by decide)] at hc
    rw [hc] at hle
    exact absurd hle (by decide)

-- -------- what it says together

theorem Group.count_card (h : Group bound s) :
    s.outstanding = (Finset.univ.filter fun p => (s.proc p).active = 1).card := by
  rw [h.count, Finset.card_filter]
  refine congrArg Nat.cast (Finset.sum_congr rfl fun p _ => ?_)
  cases s.proc p <;> rfl

/-- There are disk writes in a commit and in recovery only. -/
theorem Group.job_none (h : Group bound s) (hr : s.recovering = false)
    (hc : s.committing = false) : s.job = .none := by
  by_contra hj
  rcases h.busy hj with hb | hb
  · rw [hc] at hb
    cases hb
  · rw [hr] at hb
    cases hb

/-- Outside recovery an empty account is an empty log. -/
theorem Group.empty (h : Group bound s) (hr : s.recovering = false)
    (hc : s.committing = false) (h0 : s.outstanding = 0) : s.block = [] :=
  h.cleared (h.job_none hr hc) h0

/-- A sleeper waits for someone: a commit, or an operation whose end
gives space back. -/
theorem Group.waker (h : Group bound s) (hr : s.recovering = false) (hw : Waits s) :
    ∃ q, s.proc q = .commit ∨ (s.proc q).active = 1 := by
  have hex : ∀ g : Phase → Nat, (∑ q, g (s.proc q)) ≠ 0 → ∃ q, g (s.proc q) ≠ 0 := by
    intro g hne
    obtain ⟨q, -, hq⟩ := Finset.exists_ne_zero_of_sum_ne_zero hne
    exact ⟨q, hq⟩
  cases hc : s.committing with
  | true =>
    have hsum := h.commits
    rw [hc, if_pos rfl] at hsum
    obtain ⟨q, hq⟩ := hex Phase.committers (by omega)
    refine ⟨q, Or.inl ?_⟩
    cases hph : s.proc q <;> rw [hph] at hq <;> first | rfl | exact absurd rfl hq
  | false =>
    have hfull := hw.resolve_left (by rw [hc]; decide)
    have hne : s.outstanding ≠ 0 := by
      intro h0
      rw [h.empty hr hc h0, h0] at hfull
      exact absurd hfull (by decide)
    have hcount := h.count
    obtain ⟨q, hq⟩ := hex Phase.active (by omega)
    refine ⟨q, Or.inr ?_⟩
    cases hph : s.proc q <;> rw [hph] at hq <;> first | rfl | exact absurd rfl hq

/-- Where every operation leaves a block of its reservation unused, two
are free while one is under way: that of a second operation, or what the
operations before have left. -/
theorem Group.spare (h : Group bound s) (hlt : bound < maxOpBlocks) {p : P}
    (hp : (s.proc p).active = 1) : s.block.length + 1 < logSize := by
  have hres : ∀ q, (s.proc q).active ≤ (s.proc q).reserve := by
    intro q
    have hq := h.procs q
    cases hph : s.proc q with
    | idle | woken | commit | asleep => exact Nat.zero_le _
    | op us =>
      rw [hph] at hq
      exact Nat.le_sub_of_add_le (Nat.add_comm 1 _ ▸ Nat.lt_of_le_of_lt hq.le hlt)
    | logging us b =>
      rw [hph] at hq
      exact Nat.le_sub_of_add_le (Nat.add_comm 1 _ ▸ Nat.lt_of_le_of_lt hq.1.le hlt)
  have hsum : (∑ q, (s.proc q).active) ≤ ∑ q, (s.proc q).reserve :=
    Finset.sum_le_sum fun q _ => hres q
  have hcount := h.count
  have hone := (h.counted hp).1
  have hroom := h.room (Nat.le_of_lt hlt)
  rcases Nat.lt_or_ge 1 (∑ q, (s.proc q).active) with h2 | h1
  · omega
  · have := h.slack hlt (by omega)
    omega

-- ======== start and crash

theorem group_init (blocks : Nat → D) :
    Group bound (LogState.init blocks : LogState P D) where
  count := by simp [LogState.init, Phase.active]
  commits := by simp [LogState.init, Phase.committers]
  quiet := fun _ => rfl
  boot := fun h => by cases h
  busy := fun h => absurd rfl h
  cleared := fun _ _ => rfl
  nodup := List.nodup_nil
  headNodup := List.nodup_nil
  headRoom := Nat.zero_le _
  fits := Nat.zero_le _
  room := by simp [LogState.init, Phase.reserve]
  slack := fun _ h => (by cases h)
  procs := fun _ => trivial
  panic := Or.inl rfl

theorem Group.crash (h : Group bound s) : Group bound s.crash where
  count := by simp [LogState.crash, Phase.active]
  commits := by simp [LogState.crash, Phase.committers]
  quiet := fun _ => rfl
  boot := fun _ => ⟨rfl, rfl⟩
  busy := fun _ => Or.inr rfl
  cleared := fun hj => by cases hj
  nodup := h.headNodup
  headNodup := h.headNodup
  headRoom := h.headRoom
  fits := h.headRoom
  room := fun _ => by
    have := h.headRoom
    simpa [LogState.crash, Phase.reserve] using this
  slack := fun _ h => (by cases h)
  procs := fun _ => trivial
  panic := Or.inl rfl

-- ======== the steps

/-- A disk write keeps the protocol's state, the last one clears the
log. -/
theorem Group.diskWrite (h : Group bound s) (hs : s.diskWrite = some t) : Group bound t := by
  unfold LogState.diskWrite at hs
  have hkeep : ∀ {u : LogState P D}, u.block = s.block → u.outstanding = s.outstanding →
      u.committing = s.committing → u.recovering = s.recovering →
      ∀ p, PhaseOk bound u (s.proc p) := by
    intro u hb ho hc hr p
    refine (h.procs p).mono hr (fun b hm => by rw [hb]; exact hm) fun hw => ?_
    unfold Waits at hw ⊢
    rw [hb, ho, hc]
    exact hw
  split at hs
  · cases hs
  · next tail hj =>
    have hbusy := h.busy (by rw [hj]; exact Job.noConfusion)
    split at hs
    · cases hs
      exact { h with
        busy := fun _ => hbusy
        cleared := fun hn => (by cases hn)
        procs := hkeep rfl rfl rfl rfl }
    · cases hs
      exact { h with
        busy := fun _ => hbusy
        cleared := fun hn => (by cases hn)
        headNodup := h.nodup
        headRoom := h.fits
        procs := hkeep rfl rfl rfl rfl }
  · next tail hj =>
    have hbusy := h.busy (by rw [hj]; exact Job.noConfusion)
    split at hs
    · cases hs
      exact { h with
        busy := fun _ => hbusy
        cleared := fun hn => (by cases hn)
        procs := hkeep rfl rfl rfl rfl }
    · cases hs
      -- nothing is under way, so nobody counts on the log
      have h0 : s.outstanding = 0 := by
        rcases hbusy with hc | hr
        · exact h.quiet hc
        · exact (h.boot hr).1
      exact { h with
        boot := fun hr => (by cases hr)
        busy := fun hn => absurd rfl hn
        cleared := fun _ _ => rfl
        nodup := List.nodup_nil
        headNodup := List.nodup_nil
        headRoom := Nat.zero_le _
        fits := Nat.zero_le _
        room := fun hb => Nat.le_trans (Nat.add_le_add_right (Nat.zero_le _) _) (h.room hb)
        slack := fun _ h1 => absurd (h0.symm.trans h1) (by decide)
        procs := fun p => PhaseOk.of_inactive (h.idle h0 p) fun hp => by
          have hok := h.procs p
          rw [hp] at hok
          refine ⟨rfl, Or.inl ?_⟩
          rcases hbusy with hc | hr
          · exact hc
          · rw [hok.1] at hr
            cases hr }

section Steps

variable [DecidableEq P]

/-- A process moves on within or outside its operation, and pays from its
reservation for what it adds to the log. -/
theorem Group.moves (h : Group bound s) {p : P}
    {cache : Nat → D} (hact : ph.active = (s.proc p).active)
    (hcom : ph.committers = (s.proc p).committers) (hfits : block.length ≤ logSize)
    (hres : bound ≤ maxOpBlocks → block.length + ph.reserve ≤ s.block.length + (s.proc p).reserve)
    (hnodup : block.Nodup) (hsub : ∀ b ∈ s.block, b ∈ block)
    (hclear : s.outstanding = 0 → block = s.block)
    (hph : PhaseOk bound { s with block := block } ph) :
    Group bound { s with
      block := block, cache := cache, proc := update s.proc p ph } := by
  have ha := sum_update Phase.active s.proc p ph
  have hc := sum_update Phase.committers s.proc p ph
  have hr := sum_update Phase.reserve s.proc p ph
  have hlen : s.block.length ≤ block.length := (List.subperm_of_subset h.nodup hsub).length_le
  rw [hact] at ha
  rw [hcom] at hc
  refine { h with count := ?_, commits := ?_, cleared := ?_, nodup := hnodup, fits := hfits,
                  room := ?_, slack := ?_, procs := ?_ }
  · rw [h.count]
    exact congrArg Nat.cast (Nat.add_right_cancel ha).symm
  · rw [← h.commits]
    exact Nat.add_right_cancel hc
  · intro hj h0
    rw [← h.cleared hj h0]
    exact hclear h0
  · intro hb
    have hmine := hres hb
    have hall := h.room hb
    show block.length + ∑ q, (update s.proc p ph q).reserve ≤ logSize
    omega
  · intro hb h1
    have hmine := hres (Nat.le_of_lt hb)
    have hall := h.slack hb h1
    show block.length + ∑ q, (update s.proc p ph q).reserve < logSize
    omega
  · refine (Function.forall_update_iff s.proc _).2 ⟨?_, fun q _ => ?_⟩
    · exact hph.mono rfl (fun _ hm => hm) id
    · refine (h.procs q).mono rfl hsub fun hw => hw.imp id fun hw => ?_
      show (logSize : Int) < block.length + (s.outstanding + 1) * maxOpBlocks
      omega

/-- A process that goes to sleep waits for something. -/
theorem Group.sleeps (h : Group bound s) {p : P}
    (hp : s.proc p = .idle ∨ s.proc p = .woken) (hr : s.recovering = false)
    (hw : Waits s) : Group bound { s with proc := update s.proc p .asleep } := by
  rcases hp with hp | hp <;>
    exact h.moves (by rw [hp]; rfl) (by rw [hp]; rfl) h.fits
      (fun _ => by rw [hp]; exact Nat.le_refl _) h.nodup (fun _ hm => hm) (fun _ => rfl) ⟨hr, hw⟩

theorem Group.begins (h : Group bound s) {p : P}
    (hp : s.proc p = .idle ∨ s.proc p = .woken) (hr : s.recovering = false) (hw : ¬ Waits s) :
    Group bound { s with
      outstanding := s.outstanding + 1
      proc := update s.proc p (.op []) } := by
  have ha := sum_update Phase.active s.proc p (.op [])
  have hc := sum_update Phase.committers s.proc p (.op [])
  have hres := sum_reserve_le (update s.proc p (.op []))
  have hcount := h.count
  obtain ⟨hcom, hfit⟩ := not_or.1 hw
  have ha0 : (s.proc p).active = 0 := by rcases hp with hp | hp <;> rw [hp] <;> rfl
  have hc0 : (s.proc p).committers = 0 := by rcases hp with hp | hp <;> rw [hp] <;> rfl
  have ha1 : (∑ q, (update s.proc p (.op []) q).active)
      = (∑ q, (s.proc q).active) + 1 := by
    rw [ha0] at ha
    exact ha
  refine { h with count := ?_, commits := ?_, quiet := fun hq => absurd hq hcom, boot := ?_,
                  cleared := ?_, room := ?_, slack := ?_, procs := ?_ }
  · show s.outstanding + 1 = _
    rw [ha1, Nat.cast_add, ← hcount]
    rfl
  · rw [← h.commits]
    rw [hc0] at hc
    exact hc
  · intro hrec
    rw [hr] at hrec
    cases hrec
  · intro _ h0
    have h0 : s.outstanding + 1 = 0 := h0
    omega
  · -- at most `MAXOPBLOCKS` for everyone, the new one included
    intro _
    show s.block.length + (∑ q, (update s.proc p (.op []) q).reserve) ≤ logSize
    rw [ha1] at hres
    unfold maxOpBlocks at hres hfit
    omega
  · -- the first one starts on an empty log
    intro _ h1
    have h0 : s.outstanding = 0 := by
      have h1 : s.outstanding + 1 = 1 := h1
      omega
    show s.block.length + (∑ q, (update s.proc p (.op []) q).reserve) < logSize
    rw [ha1] at hres
    rw [h.empty hr (Bool.eq_false_of_not_eq_true hcom) h0]
    unfold logSize
    unfold maxOpBlocks at hres ⊢
    rw [List.length_nil]
    omega
  · refine (Function.forall_update_iff s.proc _).2
      ⟨⟨List.nodup_nil, fun _ hm => (by cases hm), Nat.zero_le _⟩, fun q _ => ?_⟩
    exact (h.procs q).mono rfl (fun _ hm => hm) fun hw' => absurd hw' hw

theorem Group.beginOp (h : Group bound s) {p : P} (hr : s.recovering = false)
    (hs : s.beginOp p = some t) : Group bound t := by
  have hgo : ∀ {u : LogState P D}, s.proc p = .idle ∨ s.proc p = .woken → (if s.committing then
        some { s with proc := update s.proc p .asleep }
      else if (logSize : Int) < s.block.length + (s.outstanding + 1) * maxOpBlocks then
        some { s with proc := update s.proc p .asleep } else
        some { s with
          outstanding := s.outstanding + 1
          proc := update s.proc p (.op []) }) = some u → Group bound u := by
    intro u hp hu
    split at hu
    · next hc =>
      cases hu
      exact h.sleeps hp hr (Or.inl hc)
    · next hc =>
      split at hu
      · next hfull =>
        cases hu
        exact h.sleeps hp hr (Or.inr hfull)
      · next hfit =>
        cases hu
        exact h.begins hp hr fun hw => hw.elim hc hfit
  unfold LogState.beginOp at hs
  split at hs
  · next hp => exact hgo (Or.inl hp) hs
  · next hp => exact hgo (Or.inr hp) hs
  · cases hs

theorem Group.check (h : Group bound s) {p : P}
    (hs : s.check bound p b = some t) : Group bound t := by
  unfold LogState.check at hs
  split at hs
  case h_2 => cases hs
  next used hp =>
  have hok : UsedOk bound s.block used := by
    have := h.procs p
    rw [hp] at this
    exact this
  have hone := (h.counted (p := p) (by rw [hp]; rfl)).1
  split at hs
  case isFalse => cases hs
  next hb =>
  split at hs
  · next hfull =>
    cases hs
    refine { h with panic := Or.inr (Or.inl ⟨rfl, Nat.le_of_not_lt fun hlt => ?_⟩) }
    have := h.spare hlt (p := p) (by rw [hp]; rfl)
    unfold nlog at hfull
    omega
  · rw [if_neg (by omega)] at hs
    cases hs
    exact h.moves (by rw [hp]; rfl) (by rw [hp]; rfl) h.fits
      (fun _ => by rw [hp]; exact Nat.le_refl _) h.nodup (fun _ hm => hm) (fun _ => rfl) ⟨hok, hb.2⟩

/-- One more block in an operation's account. -/
theorem UsedOk.note {used : List Nat} (h : UsedOk bound block used)
    (hb : b ∈ block) (hle : b ∈ used ∨ used.length < bound) :
    UsedOk bound block (LogState.note used b) := by
  unfold LogState.note
  split
  · exact h
  · next hnew =>
    refine ⟨?_, ?_, ?_⟩
    · exact List.nodup_append.2 ⟨h.nodup, List.nodup_singleton b, fun x hx y hy => by
        rw [List.mem_singleton.1 hy]
        exact fun he => hnew (he ▸ hx)⟩
    · intro x hx
      rcases List.mem_append.1 hx with hx | hx
      · exact h.logged x hx
      · rw [List.mem_singleton.1 hx]
        exact hb
    · rw [List.length_append, List.length_singleton]
      exact (hle.resolve_left hnew)

theorem Group.logWrite (h : Group bound s) {p : P} {d : D}
    (hs : s.logWrite p d = some t) : Group bound t := by
  unfold LogState.logWrite at hs
  split at hs
  case h_2 => cases hs
  next used b hp =>
  have hok : UsedOk bound s.block used ∧ (b ∈ used ∨ used.length < bound) := by
    have := h.procs p
    rw [hp] at this
    exact this
  have hone := (h.counted (p := p) (by rw [hp]; rfl)).1
  split at hs
  · -- absorbed
    next hb =>
    cases hs
    refine h.moves (by rw [hp]; rfl) (by rw [hp]; rfl) h.fits (fun _ => ?_) h.nodup
      (fun _ hm => hm) (fun _ => rfl) (hok.1.note hb hok.2)
    rw [hp]
    have : used.length ≤ (LogState.note used b).length := by
      unfold LogState.note
      split
      · exact Nat.le_refl _
      · rw [List.length_append]
        exact Nat.le_add_right _ _
    show s.block.length + (maxOpBlocks - (LogState.note used b).length)
      ≤ s.block.length + (maxOpBlocks - used.length)
    omega
  · -- a new block, which the operation has not logged before either
    next hb =>
    have hnew : b ∉ used := fun hm => hb (hok.1.logged b hm)
    have hlt : used.length < bound := hok.2.resolve_left hnew
    have hsub : ∀ x ∈ s.block, x ∈ s.block ++ [b] := fun x hx => List.mem_append_left _ hx
    have hlen : (s.block ++ [b]).length = s.block.length + 1 := by
      rw [List.length_append, List.length_singleton]
    split at hs
    · next hfit =>
      cases hs
      refine h.moves (by rw [hp]; rfl) (by rw [hp]; rfl) (by omega) (fun hle => ?_) ?_ hsub
        (fun h0 => by omega) ?_
      · rw [hp]
        have hnote : (LogState.note used b).length = used.length + 1 := by
          rw [LogState.note, if_neg hnew, List.length_append, List.length_singleton]
        show (s.block ++ [b]).length + (maxOpBlocks - (LogState.note used b).length)
          ≤ s.block.length + (maxOpBlocks - used.length)
        omega
      · exact List.nodup_append.2 ⟨h.nodup, List.nodup_singleton b, fun x hx y hy => by
          rw [List.mem_singleton.1 hy]
          exact fun he => hb (he ▸ hx)⟩
      · exact UsedOk.note ⟨hok.1.nodup, fun x hx => hsub x (hok.1.logged x hx), hok.1.le⟩
          (List.mem_append_right _ (List.mem_singleton_self b)) hok.2
    · -- the log is full, but not of reservations
      next hfull =>
      cases hs
      refine { h with panic := Or.inr (Or.inr ⟨rfl, Nat.lt_of_not_le fun hle => ?_⟩) }
      have hroom := h.room hle
      have hmine := le_sum Phase.reserve s.proc p
      rw [hp] at hmine
      have hmine : maxOpBlocks - used.length ≤ ∑ q, (s.proc q).reserve := hmine
      omega

/-- The last operation that is under way starts the commit. -/
theorem Group.commits_op (h : Group bound s) {p : P} {used : List Nat} {job : Job}
    {boundary : Nat → D} {boundaries : List (Nat → D)} (hp : s.proc p = .op used)
    (hone : s.outstanding = 1) (hr : s.recovering = false) (hjob : job = .none → s.block = []) :
    Group bound { s with
      outstanding := 0
      committing := true
      proc := update s.proc p .commit
      job := job
      boundary := boundary
      boundaries := boundaries } := by
  have ha := sum_update Phase.active s.proc p .commit
  have hc := sum_update Phase.committers s.proc p .commit
  have hres := sum_update Phase.reserve s.proc p .commit
  have hcount := h.count
  have hcom := h.commits
  rw [(h.counted (p := p) (by rw [hp]; rfl)).2] at hcom
  rw [hp] at ha hc
  refine { h with count := ?_, commits := ?_, quiet := fun _ => rfl, boot := ?_,
                  busy := fun _ => Or.inl rfl, cleared := fun hj _ => hjob hj, room := ?_,
                  slack := fun _ h1 => (by cases h1), procs := ?_ }
  · have ha : (∑ q, (update s.proc p .commit q).active) + 1 = ∑ q, (s.proc q).active := ha
    show (0 : Int) = ((∑ q, (update s.proc p .commit q).active : Nat) : Int)
    omega
  · rw [hcom] at hc
    exact hc
  · intro hrec
    rw [hr] at hrec
    cases hrec
  · intro hb
    have hroom := h.room hb
    have hres : (∑ q, (update s.proc p .commit q).reserve) + (s.proc p).reserve
        = ∑ q, (s.proc q).reserve := hres
    show s.block.length + (∑ q, (update s.proc p .commit q).reserve) ≤ logSize
    omega
  · exact (Function.forall_update_iff s.proc _).2
      ⟨trivial, fun q _ => (h.procs q).mono rfl (fun _ hm => hm) fun _ => Or.inl rfl⟩

/-- The sums when a process is done and wakes the others. -/
theorem sum_done (hg : g .woken = g .asleep) (hidle : g .idle = 0)
    (proc : P → Phase) {p : P} (hp : proc p ≠ .asleep) :
    (∑ q, g (update (LogState.wake proc) p .idle q)) + g (proc p) = ∑ q, g (proc q) := by
  have hsum := sum_update g (LogState.wake proc) p .idle
  have hsame : LogState.wake proc p = proc p := by
    unfold LogState.wake
    split
    · next h => exact absurd h hp
    · rfl
  rw [sum_wake hg, hsame, hidle] at hsum
  exact hsum

theorem procs_done (h : Group bound s) {p : P} (hb : t.block = s.block) (q : P) :
    PhaseOk bound t (update (LogState.wake s.proc) p .idle q) :=
  (Function.forall_update_iff (a := p) (b := Phase.idle) (LogState.wake s.proc)
    fun _ ph => PhaseOk bound t ph).2 ⟨trivial, fun q _ => (h.procs q).wake hb⟩ q

theorem Group.endOp (h : Group bound s) {p : P} (hr : s.recovering = false)
    (hs : s.endOp p = some t) : Group bound t := by
  unfold LogState.endOp at hs
  split at hs
  case h_2 => cases hs
  next used hp =>
  obtain ⟨hone, hcom⟩ := h.counted (p := p) (by rw [hp]; rfl)
  have hnot : ¬ s.committing = true := by rw [hcom]; decide
  rw [if_neg hnot] at hs
  split at hs
  · next hlast =>
    cases hs
    refine h.commits_op hp (by omega) hr fun hj => ?_
    split at hj
    · assumption
    · cases hj
  · next hmore =>
    cases hs
    have hne : s.proc p ≠ .asleep := by rw [hp]; exact Phase.noConfusion
    have ha := sum_done (g := Phase.active) rfl rfl s.proc hne
    have hc := sum_done (g := Phase.committers) rfl rfl s.proc hne
    have hres := sum_done (g := Phase.reserve) rfl rfl s.proc hne
    have hcount := h.count
    rw [hp] at ha hc
    refine { h with count := ?_, commits := ?_, quiet := fun hq => absurd hq hnot,
                    boot := ?_, cleared := ?_, room := ?_, slack := ?_,
                    procs := procs_done h rfl }
    · have ha : (∑ q, (update (LogState.wake s.proc) p .idle q).active) + 1
          = ∑ q, (s.proc q).active := ha
      show s.outstanding - 1
        = ((∑ q, (update (LogState.wake s.proc) p .idle q).active : Nat) : Int)
      omega
    · rw [← h.commits]
      exact hc
    · intro hrec
      rw [hr] at hrec
      cases hrec
    · exact fun _ h0 => absurd h0 hmore
    · intro hb
      have hroom := h.room hb
      show s.block.length
        + (∑ q, (update (LogState.wake s.proc) p .idle q).reserve) ≤ logSize
      omega
    · -- what is left of the reservation is free
      intro hb _
      have hroom := h.room (Nat.le_of_lt hb)
      have hok := h.procs p
      rw [hp] at hok hres
      have hle : used.length ≤ bound := hok.le
      have hmine : (Phase.op used).reserve = maxOpBlocks - used.length := rfl
      show s.block.length
        + (∑ q, (update (LogState.wake s.proc) p .idle q).reserve) < logSize
      omega

theorem Group.commitDone (h : Group bound s) {p : P} (hr : s.recovering = false)
    (hs : s.commitDone p = some t) : Group bound t := by
  unfold LogState.commitDone at hs
  split at hs
  case h_2 => cases hs
  next hp hj =>
  cases hs
  have hne : s.proc p ≠ .asleep := by rw [hp]; exact Phase.noConfusion
  have ha := sum_done (g := Phase.active) rfl rfl s.proc hne
  have hc := sum_done (g := Phase.committers) rfl rfl s.proc hne
  have hres := sum_done (g := Phase.reserve) rfl rfl s.proc hne
  have hcom := h.commits
  rw [h.committer hp, if_pos rfl] at hcom
  rw [hp] at ha hc
  refine { h with count := ?_, commits := ?_, quiet := fun hq => (by cases hq), boot := ?_,
                  busy := fun hn => absurd hj hn, room := ?_, slack := ?_,
                  procs := procs_done h rfl }
  · rw [h.count]
    exact congrArg Nat.cast ha.symm
  · have hc : (∑ q, (update (LogState.wake s.proc) p .idle q).committers) + 1
        = ∑ q, (s.proc q).committers := hc
    show (∑ q, (update (LogState.wake s.proc) p .idle q).committers) = 0
    omega
  · intro hrec
    rw [hr] at hrec
    cases hrec
  · intro hb
    have hroom := h.room hb
    show s.block.length
      + (∑ q, (update (LogState.wake s.proc) p .idle q).reserve) ≤ logSize
    omega
  · exact fun _ h1 => absurd ((h.quiet (h.committer hp)).symm.trans h1) (by decide)

/-- Every step of a process, the disk or the power supply. -/
theorem Group.step (h : Group bound s) {e : Event P D} (hs : Fs.step bound e s = some t) :
    Group bound t := by
  cases e with
  | beginOp p =>
    obtain ⟨hr, hs⟩ := of_up hs
    exact h.beginOp hr hs
  | check p b => exact h.check (of_up hs).2
  | logWrite p d => exact h.logWrite (of_up hs).2
  | endOp p =>
    obtain ⟨hr, hs⟩ := of_up hs
    exact h.endOp hr hs
  | commitDone p =>
    obtain ⟨hr, hs⟩ := of_up hs
    exact h.commitDone hr hs
  | disk =>
    unfold Fs.step at hs
    dsimp only at hs
    split at hs
    · exact h.diskWrite hs
    · cases hs
  | crash =>
    cases hs
    exact h.crash

-- ======== the results

/-- The state at the start: the log of mkfs, which is empty. -/
def Fresh (s : LogState P D) : Prop := ∃ blocks, s = LogState.init blocks

omit [Fintype P] [DecidableEq P] in
theorem fresh_init (blocks : Nat → D) : Fresh (LogState.init blocks : LogState P D) :=
  ⟨blocks, rfl⟩

theorem Group.reach (h : Reach (Fs.step bound) Fresh s) : Group bound s :=
  h.invariant (I := Group bound) (fun _ ⟨blocks, hs⟩ => by rw [hs]; exact group_init blocks)
    fun _ _ _ hg hs => hg.step hs

/-- The group-commit protocol, in every state that processes reach. -/
theorem group_commit (h : Reach (Fs.step maxOpBlocks) Fresh s)
    (hr : s.recovering = false) :
    s.outstanding = (Finset.univ.filter fun p => (s.proc p).active = 1).card
      ∧ (s.committing = true → s.outstanding = 0)
      ∧ (s.outstanding = 0 → s.committing = false → s.block = [])
      ∧ s.block.Nodup ∧ s.block.length ≤ logSize
      ∧ ∀ p, s.proc p = .asleep →
          (s.committing = true
            ∨ (logSize : Int) < s.block.length + (s.outstanding + 1) * maxOpBlocks)
          ∧ ∃ q, s.proc q = .commit ∨ (s.proc q).active = 1 := by
  have hg := Group.reach h
  refine ⟨hg.count_card, hg.quiet, fun h0 hc => hg.empty hr hc h0, hg.nodup, hg.fits,
    fun p hp => ?_⟩
  have hok := hg.procs p
  rw [hp] at hok
  exact ⟨hok.2, hg.waker hr hok.2⟩

/-- Three operations take the whole log, and a fourth waits for one of
them. -/
theorem group_commit_sleeper :
    ∃ s : LogState (Fin 4) Unit, s.proc 3 = .asleep ∧ s.committing = false
      ∧ s.outstanding = (Finset.univ.filter fun p => (s.proc p).active = 1).card
      ∧ ∃ q, s.proc q = .commit ∨ (s.proc q).active = 1 := by
  obtain ⟨s, hs, hf⟩ := Reach.eval (Fs.step maxOpBlocks)
    [.beginOp 0, .beginOp 1, .beginOp 2, .beginOp (3 : Fin 4)]
    (fun s => (s.proc 3, s.committing, s.recovering)) (.asleep, false, false)
    (fresh_init fun _ => ()) (by decide +kernel)
  obtain ⟨hp, hc, hr⟩ : s.proc 3 = .asleep ∧ s.committing = false ∧ s.recovering = false := by
    simpa using hf
  have hall := group_commit hs hr
  exact ⟨s, hp, hc, hall.1, (hall.2.2.2.2.2 3 hp).2⟩

/-- Operations that leave one block of their reservation unused never
find the log full. -/
theorem no_panic (hlt : bound < maxOpBlocks) (h : Reach (Fs.step bound) Fresh s) :
    s.panic ≠ some .tooBig := by
  intro hp
  rcases (Group.reach h).panic with hnone | ⟨-, hle⟩ | ⟨-, hle⟩
  · rw [hp] at hnone
    cases hnone
  · omega
  · omega

/-- Three operations side by side that log the blocks from 100 on, `each`
of them `each` many, the first `n` of which are done. -/
def threeOps (each n : Nat) : List (Event (Fin 3) Unit) :=
  (List.finRange 3).map .beginOp
    ++ (List.range n).flatMap fun i => (List.finRange 3)[i / each]?.toList.flatMap fun p =>
      [.check p (100 + i), .logWrite p ()]

theorem no_panic_nine :
    ∃ s : LogState (Fin 3) Unit, s.block.length = 27 ∧ s.panic ≠ some .tooBig := by
  obtain ⟨s, hs, hn⟩ := Reach.eval (Fs.step 9) (threeOps 9 27) (fun s => s.block.length) 27
    (fresh_init fun _ => ()) (by decide +kernel)
  exact ⟨s, hn, no_panic (by decide) hs⟩

/-- The thirtieth block of three operations that log ten each: there is
space reserved for it, but `log_write` counts the header block. -/
theorem transaction_too_big :
    ∃ s : LogState (Fin 3) Unit, Reach (Fs.step maxOpBlocks) Fresh s
      ∧ s.panic = some .tooBig :=
  Reach.eval (Fs.step maxOpBlocks) (threeOps 10 29 ++ [.check 2 129]) LogState.panic
    (some .tooBig) (fresh_init fun _ => ()) (by decide +kernel)

end Steps

end Xv6Sume32.Fs
