/-
Crash atomicity of the log.

`Stored` relates the disk to `durable`, the contents at the last commit
whose header write was made: what the header on disk lists is in the log
blocks, and everything else is in its place. This is what recovery needs,
and every disk write keeps it, those of recovery included, so that a crash
may come at any point and any number of times.

# The thirtieth block

The log has `nlog - 1` blocks behind its header. `log_write` tests for
that, but before it takes the lock: two processes that both find the last
block free put one block too many into the log, and `write_log` writes it
behind the log's end, over the first inode block (`log_overrun`). Commits
of at most `nlog - 1` blocks are atomic (`crash_atomic`).
-/
import Xv6Sume32.Fs.Proofs.Group

namespace Xv6Sume32.Fs

open Lib
open Function (update update_of_ne update_self)

variable {i b : Nat}

-- ======== the invariant

variable {P D : Type}

/-- The block that holds what `lh.block[i]` logs. -/
def logBlock (i : Nat) : Nat := logStart + i + 1

theorem logBlock_not_home (hi : i < nlog - 1) : ¬ home (logBlock i) := by
  unfold home logBlock
  omega

/-- The cache and the disk agree outside the blocks that are logged. -/
def Clean (s : LogState P D) : Prop :=
  ∀ b, home b → b ∉ s.block → s.cache b = s.disk b

/-- How far the writes under way have come. -/
def JobOk (s : LogState P D) : Job → Prop
  | .none => s.head = [] ∧ Clean s
  | .writeLog tail =>
      s.head = [] ∧ Clean s ∧ s.block.length ≤ nlog - 1
        ∧ (∀ b, home b → s.cache b = s.boundary b)
        ∧ ∀ i b, i < tail → s.block[i]? = some b →
            s.disk (logBlock i) = s.boundary b ∧ s.cache (logBlock i) = s.boundary b
  | .install tail =>
      s.head = s.block ∧ Clean s
        ∧ (∀ i b, s.block[i]? = some b → s.cache (logBlock i) = s.durable b)
        ∧ ∀ i b, i < tail → s.block[i]? = some b →
            s.disk b = s.durable b ∧ s.cache b = s.durable b

/-- What recovery would restore is `durable`. -/
structure Stored (s : LogState P D) : Prop where
  homes : ∀ b ∈ s.block, home b
  logging : ∀ p used b, s.proc p = .logging used b → home b
  headHomes : ∀ b ∈ s.head, home b
  headLe : s.head.length ≤ nlog - 1
  log : ∀ i b, s.head[i]? = some b → s.disk (logBlock i) = s.durable b
  rest : ∀ b, home b → b ∉ s.head → s.disk b = s.durable b
  durable : s.durable ∈ s.boundaries
  boundary : s.boundary ∈ s.boundaries
  job : JobOk s s.job

variable {s t : LogState P D}

theorem stored_init (blocks : Nat → D) : Stored (LogState.init blocks : LogState P D) where
  homes := fun _ hb => by cases hb
  logging := fun _ _ _ h => by cases h
  headHomes := fun _ hb => by cases hb
  headLe := Nat.zero_le _
  log := fun _ _ h => by cases h
  rest := fun _ _ _ => rfl
  durable := List.mem_singleton_self _
  boundary := List.mem_singleton_self _
  job := ⟨rfl, fun _ _ _ => rfl⟩

theorem Stored.crash (h : Stored s) : Stored s.crash where
  homes := h.headHomes
  logging := fun _ _ _ hp => by cases hp
  headHomes := h.headHomes
  headLe := h.headLe
  log := h.log
  rest := h.rest
  durable := h.durable
  boundary := h.boundary
  job := ⟨rfl, fun _ _ _ => rfl, h.log, fun _ _ hi => absurd hi (Nat.not_lt_zero _)⟩

-- ======== disk writes

theorem lt_of_some {l : List Nat} (h : l[i]? = some b) : i < l.length :=
  (List.getElem?_eq_some_iff.1 h).1

/-- A write to a log block changes no home block. -/
theorem update_home {f : Nat → D} {d : D} (hi : i < nlog - 1) (hb : home b) :
    update f (logBlock i) d b = f b := by
  refine update_of_ne (fun he => logBlock_not_home hi ?_) _ _
  rw [← he]
  exact hb

/-- A write to a home block changes no log block. -/
theorem update_log {f : Nat → D} {d : D} (hi : i < nlog - 1) (hb : home b) :
    update f b d (logBlock i) = f (logBlock i) := by
  refine update_of_ne (fun he => logBlock_not_home hi ?_) _ _
  rw [he]
  exact hb

theorem logBlock_ne {j : Nat} (h : i ≠ j) : logBlock i ≠ logBlock j := by
  unfold logBlock
  omega

/-- `write_log` writes the next log block. -/
theorem Stored.write_log (h : Stored s) {tail : Nat} (hj : s.job = .writeLog tail)
    (hb : s.block[tail]? = some b) :
    Stored { s with
      cache := update s.cache (logBlock tail) (s.cache b)
      disk := update s.disk (logBlock tail) (s.cache b)
      job := .writeLog (tail + 1) } := by
  have hok := h.job
  rw [hj] at hok
  obtain ⟨hhead, hclean, hle, hcache, hdone⟩ := hok
  have hlt : tail < nlog - 1 := Nat.lt_of_lt_of_le (lt_of_some hb) hle
  have hhome : home b := h.homes b (List.mem_of_getElem? hb)
  refine { h with log := ?_, rest := ?_, job := ⟨hhead, ?_, hle, ?_, ?_⟩ }
  · intro i c hc
    rw [show s.head = [] from hhead] at hc
    cases hc
  · intro c hc hn
    exact (update_home hlt hc).trans (h.rest c hc hn)
  · intro c hc hn
    exact (update_home hlt hc).trans ((hclean c hc hn).trans (update_home hlt hc).symm)
  · intro c hc
    exact (update_home hlt hc).trans (hcache c hc)
  · intro i c hi hc
    rcases Nat.lt_succ_iff_lt_or_eq.1 hi with hi | hi
    · have hne := logBlock_ne (Nat.ne_of_lt hi)
      have hold := hdone i c hi hc
      exact ⟨(update_of_ne hne _ _).trans hold.1,
        (update_of_ne hne _ _).trans hold.2⟩
    · subst hi
      cases hb.symm.trans hc
      exact ⟨(update_self _ _ _).trans (hcache b hhome),
        (update_self _ _ _).trans (hcache b hhome)⟩

/-- The header write that commits. -/
theorem Stored.write_head (h : Stored s) {tail : Nat} (hj : s.job = .writeLog tail)
    (hb : s.block[tail]? = none) :
    Stored { s with head := s.block, durable := s.boundary, job := .install 0 } := by
  have hok := h.job
  rw [hj] at hok
  obtain ⟨hhead, hclean, hle, hcache, hdone⟩ := hok
  have hall : ∀ {i b}, s.block[i]? = some b → i < tail := fun hi =>
    Nat.lt_of_lt_of_le (lt_of_some hi) (List.getElem?_eq_none_iff.1 hb)
  exact { h with
    headHomes := h.homes
    headLe := hle
    log := fun i b hi => (hdone i b (hall hi) hi).1
    rest := fun b hb hn => (hclean b hb hn).symm.trans (hcache b hb)
    durable := h.boundary
    job := ⟨rfl, hclean, fun i b hi => (hdone i b (hall hi) hi).2,
      fun _ _ hi => absurd hi (Nat.not_lt_zero _)⟩ }

/-- `install_trans` writes the next block to its place. -/
theorem Stored.install (h : Stored s) {tail : Nat} (hj : s.job = .install tail)
    (hb : s.block[tail]? = some b) :
    Stored { s with
      cache := update s.cache b (s.cache (logBlock tail))
      disk := update s.disk b (s.cache (logBlock tail))
      job := .install (tail + 1) } := by
  have hok := h.job
  rw [hj] at hok
  obtain ⟨hhead, hclean, hlog, hdone⟩ := hok
  have hmem : b ∈ s.block := List.mem_of_getElem? hb
  have hhome : home b := h.homes b hmem
  have hlt : ∀ {i c}, s.block[i]? = some c → i < nlog - 1 := fun hi =>
    Nat.lt_of_lt_of_le (lt_of_some hi) (hhead ▸ h.headLe)
  refine { h with log := ?_, rest := ?_, job := ⟨hhead, ?_, ?_, ?_⟩ }
  · intro i c hc
    have hi : i < nlog - 1 := Nat.lt_of_lt_of_le (lt_of_some hc) h.headLe
    exact (update_log hi hhome).trans (h.log i c hc)
  · intro c hc hn
    have hne : c ≠ b := fun he => hn (by rw [hhead, he]; exact hmem)
    exact (update_of_ne hne _ _).trans (h.rest c hc hn)
  · intro c hc hn
    have hne : c ≠ b := fun he => hn (he ▸ hmem)
    exact (update_of_ne hne _ _).trans
      ((hclean c hc hn).trans (update_of_ne hne _ _).symm)
  · intro i c hc
    exact (update_log (hlt hc) hhome).trans (hlog i c hc)
  · intro i c hi hc
    -- a block that is in the log twice gets the same contents twice
    by_cases hcb : c = b
    · subst hcb
      exact ⟨(update_self _ _ _).trans (hlog tail c hb),
        (update_self _ _ _).trans (hlog tail c hb)⟩
    · have hne : i ≠ tail := by
        rintro rfl
        exact hcb (Option.some.inj (hc.symm.trans hb))
      have hold := hdone i c (by omega) hc
      exact ⟨(update_of_ne hcb _ _).trans hold.1,
        (update_of_ne hcb _ _).trans hold.2⟩

/-- The header write that clears the log. -/
theorem Stored.clear (h : Stored s) {tail : Nat} (hj : s.job = .install tail)
    (hb : s.block[tail]? = none) :
    Stored { s with block := [], head := [], job := .none, recovering := false } := by
  have hok := h.job
  rw [hj] at hok
  obtain ⟨hhead, hclean, -, hdone⟩ := hok
  have hdisk : ∀ b, b ∈ s.block → s.disk b = s.durable b ∧ s.cache b = s.durable b := by
    intro b hm
    obtain ⟨i, hi, hib⟩ := List.mem_iff_getElem.1 hm
    have hlen := List.getElem?_eq_none_iff.1 hb
    exact hdone i b (by omega) (List.getElem?_eq_some_iff.2 ⟨hi, hib⟩)
  refine { h with
    homes := fun _ hm => (by cases hm)
    headHomes := fun _ hm => (by cases hm)
    headLe := Nat.zero_le _
    log := fun _ _ hi => (by cases hi)
    rest := fun b hb _ => ?_
    job := ⟨rfl, fun b hb _ => ?_⟩ }
  · by_cases hm : b ∈ s.block
    · exact (hdisk b hm).1
    · exact h.rest b hb (hhead ▸ hm)
  · by_cases hm : b ∈ s.block
    · exact (hdisk b hm).2.trans (hdisk b hm).1.symm
    · exact hclean b hb hm

theorem Stored.diskWrite (h : Stored s) (hs : s.diskWrite = some t) : Stored t := by
  unfold LogState.diskWrite at hs
  split at hs
  · cases hs
  · next tail hj =>
    split at hs
    · next b hb =>
      cases hs
      exact h.write_log hj hb
    · next hb =>
      cases hs
      exact h.write_head hj hb
  · next tail hj =>
    split at hs
    · next b hb =>
      cases hs
      exact h.install hj hb
    · next hb =>
      cases hs
      exact h.clear hj hb

-- ======== process steps

variable [DecidableEq P]

/-- A change of phase is nothing to the disk. -/
theorem Stored.phase (h : Stored s) (p : P) (ph : Phase) (outstanding : Int)
    (hph : ∀ used b, ph = .logging used b → home b) :
    Stored { s with
      outstanding := outstanding, proc := update s.proc p ph } :=
  { h with
    logging := (Function.forall_update_iff s.proc
        fun _ ph => ∀ used b, ph = Phase.logging used b → home b).2
      ⟨hph, fun q _ => h.logging q⟩ }

theorem Stored.done (h : Stored s) {p : P} {outstanding : Int} {committing : Bool} :
    Stored { s with
      outstanding := outstanding
      committing := committing
      proc := update (LogState.wake s.proc) p .idle } :=
  { h with
    logging := (Function.forall_update_iff (LogState.wake s.proc)
        fun _ ph => ∀ used b, ph = Phase.logging used b → home b).2
      ⟨fun _ _ he => (by cases he), fun q _ used b hq => by
        unfold LogState.wake at hq
        split at hq
        · cases hq
        · exact h.logging q used b hq⟩ }

theorem Stored.beginOp (h : Stored s) {p : P} (hs : s.beginOp p = some t) : Stored t := by
  have hsleep : Stored { s with proc := update s.proc p .asleep } :=
    h.phase p _ _ fun _ _ he => (by cases he)
  have hstart : Stored { s with
      outstanding := s.outstanding + 1, proc := update s.proc p (.op []) } :=
    h.phase p _ _ fun _ _ he => (by cases he)
  unfold LogState.beginOp at hs
  split at hs
  case h_3 => cases hs
  all_goals
    split at hs
    · cases hs
      exact hsleep
    · split at hs
      · cases hs
        exact hsleep
      · cases hs
        exact hstart

theorem Stored.check (h : Stored s) {bound : Nat} {p : P}
    (hs : s.check bound p b = some t) : Stored t := by
  unfold LogState.check at hs
  split at hs
  case h_2 => cases hs
  split at hs
  case isFalse => cases hs
  next hb =>
  split at hs
  · cases hs
    exact { h with }
  · split at hs
    · cases hs
      exact { h with }
    · cases hs
      exact h.phase p _ _ fun _ _ he => by
        cases he
        exact hb.1

/-- `log_write` changes a block in the cache that is in the log then. -/
theorem Stored.write (h : Stored s) {p : P} {used block : List Nat} {d : D}
    (hj : s.job = .none) (hb : home b) (hmem : b ∈ block)
    (hsub : ∀ c ∈ s.block, c ∈ block) (hsup : ∀ c ∈ block, c ∈ s.block ∨ c = b) :
    Stored { s with
      block := block
      cache := update s.cache b d
      proc := update s.proc p (.op used) } := by
  have hok := h.job
  rw [hj] at hok
  refine { h with homes := ?_, logging := ?_, job := ?_ }
  · intro c hc
    rcases hsup c hc with hc | hc
    · exact h.homes c hc
    · rw [hc]
      exact hb
  · exact (h.phase p (.op used) s.outstanding fun _ _ he => (by cases he)).logging
  · show JobOk _ s.job
    rw [hj]
    refine ⟨hok.1, fun c hc hn => ?_⟩
    have hne : c ≠ b := fun he => hn (he ▸ hmem)
    exact (update_of_ne hne _ _).trans (hok.2 c hc fun hm => hn (hsub c hm))

theorem Stored.logWrite (h : Stored s) {p : P} {d : D} (hj : s.job = .none)
    (hs : s.logWrite p d = some t) : Stored t := by
  unfold LogState.logWrite at hs
  split at hs
  case h_2 => cases hs
  next used b hp =>
  have hb := h.logging p used b hp
  split at hs
  · next hmem =>
    cases hs
    exact h.write hj hb hmem (fun _ hc => hc) fun _ hc => Or.inl hc
  · split at hs
    · cases hs
      refine h.write hj hb (List.mem_append_right _ (List.mem_singleton_self b))
        (fun _ hc => List.mem_append_left _ hc) fun c hc => ?_
      exact (List.mem_append.1 hc).imp id List.mem_singleton.1
    · cases hs
      exact { h with }

/-- The contents at the end of the last operation are a boundary, and the
commit starts from there. -/
theorem Stored.endOp (h : Stored s) {p : P} (hj : s.job = .none)
    (hle : s.block.length ≤ nlog - 1) (hs : s.endOp p = some t) : Stored t := by
  have hok := h.job
  rw [hj] at hok
  unfold LogState.endOp at hs
  split at hs
  case h_2 => cases hs
  split at hs
  · cases hs
    exact { h with }
  split at hs
  · cases hs
    refine { h with
      logging := (h.phase p .commit 0 fun _ _ he => (by cases he)).logging
      durable := List.mem_cons_of_mem _ h.durable
      boundary := List.mem_cons_self
      job := ?_ }
    show JobOk _ (if s.block = [] then Job.none else Job.writeLog 0)
    split
    · exact hok
    · exact ⟨hok.1, hok.2, hle, fun _ _ => rfl, fun _ _ hi => absurd hi (Nat.not_lt_zero _)⟩
  · cases hs
    exact h.done

theorem Stored.commitDone (h : Stored s) {p : P} (hs : s.commitDone p = some t) : Stored t := by
  unfold LogState.commitDone at hs
  split at hs
  case h_2 => cases hs
  cases hs
  exact h.done

-- ======== the results

variable [Fintype P] {bound : Nat}

/-- Operations end with at most as many blocks in the log as it has. -/
def commitsFit (e : Event P D) (s : LogState P D) : Bool :=
  match e with
  | .endOp _ => decide (s.block.length ≤ nlog - 1)
  | _ => true

theorem Stored.step (h : Stored s) (hg : Group bound s) {e : Event P D}
    (hfit : commitsFit e s = true) (hs : Fs.step bound e s = some t) : Stored t := by
  cases e with
  | beginOp p => exact h.beginOp (of_up hs).2
  | check p b => exact h.check (of_up hs).2
  | logWrite p d =>
    obtain ⟨hr, hs⟩ := of_up hs
    cases hp : s.proc p with
    | logging used b => exact h.logWrite (hg.job_none hr (hg.counted (by rw [hp]; rfl)).2) hs
    | _ =>
      rw [LogState.logWrite, hp] at hs
      cases hs
  | endOp p =>
    obtain ⟨hr, hs⟩ := of_up hs
    cases hp : s.proc p with
    | op used =>
      exact h.endOp (hg.job_none hr (hg.counted (by rw [hp]; rfl)).2)
        (of_decide_eq_true hfit) hs
    | _ =>
      rw [LogState.endOp, hp] at hs
      cases hs
  | commitDone p => exact h.commitDone (of_up hs).2
  | disk =>
    unfold Fs.step at hs
    dsimp only at hs
    split at hs
    · exact h.diskWrite hs
    · cases hs
  | crash =>
    cases hs
    exact h.crash

theorem Stored.reach (h : Reach (only commitsFit (Fs.step bound)) Fresh s) : Stored s :=
  h.invariant_with (I := Stored) (K := Group bound) (fun _ hr => Group.reach hr.of_only)
    (fun _ ⟨blocks, hs⟩ => by rw [hs]; exact stored_init blocks)
    fun _ _ _ hg hi hs => hi.step hg (only_eq_some.1 hs).1 (only_eq_some.1 hs).2

end Xv6Sume32.Fs
