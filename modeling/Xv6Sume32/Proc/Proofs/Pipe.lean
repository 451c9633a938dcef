/-
What holds of a pipe over every interleaving of its users.

# First in, first out

The buffer holds the bytes that have been stored and not returned
(`Fifo`). That is kept by one byte stored and by one byte read, so by the
loops, and no other step touches the buffer or the history.

# Sleepers

A reader sleeps only on an empty pipe that can still be written, a writer
only on a full one that can still be read (`Sleepers`). Every stretch
that ends this wakes the channel, with one exception: a `pipewrite` that
starts on an empty pipe, fills it and then finds its process killed, or
the reading end closed, returns -1 without waking the readers. In runs in
which no stretch is of this kind (`fillsQuietly`) nobody is left behind.
-/
import Xv6Sume32.Proc.Pipe
import Xv6Sume32.Lib.Ring

namespace Xv6Sume32.Proc

open Lib

-- ======== the loops

/-- A pipe holds the bytes of `q`. -/
def Pipe.Holds (p : Pipe) (q : List Byte) : Prop :=
  Queued pipeSize p.data p.nread p.nwrite q

namespace Pipe

variable {p p' : Pipe} {q : List Byte}

theorem pipeSize_dvd : pipeSize ∣ 2 ^ 32 := by decide

theorem pipeSize_lt : pipeSize < 2 ^ 32 := by decide

theorem Holds.full_iff (h : p.Holds q) : p.full ↔ q.length = pipeSize :=
  Queued.full_iff pipeSize_lt h

theorem Holds.empty_iff (h : p.Holds q) : p.nread = p.nwrite ↔ q = [] :=
  Queued.empty_iff pipeSize_lt h

theorem Holds.store (h : p.Holds q) (hf : ¬ p.full) (c : Byte) : (p.store c).Holds (q ++ [c]) := by
  refine Queued.push pipeSize_dvd h ?_
  have hne : q.length ≠ pipeSize := fun he => hf (h.full_iff.2 he)
  have hle := h.le
  omega

/-- What a stretch of `pipewrite` does, and why it stops. -/
structure Wrote (killed : Bool) (addr : Nat → Byte) (k i : Nat) (p : Pipe) (q : List Byte)
    (p' : Pipe) (i' : Nat) (stop : Stop) : Prop where
  holds : p'.Holds (q ++ (List.range' i (i' - i)).map addr)
  le : i ≤ i'
  readopen : p'.readopen = p.readopen
  writeopen : p'.writeopen = p.writeopen
  same : p.full → p' = p
  done : stop = .done → i' = i + k
  stopped : stop ≠ .done → p'.full ∧ i' < i + k
  refused : stop = .refused → p.readopen = false ∨ killed = true
  sleep : stop = .sleep → p.readopen = true

/-- A full pipe is left as it is. -/
theorem Wrote.at_once {killed : Bool} {addr : Nat → Byte} {k i : Nat} {stop : Stop}
    (h : p.Holds q) (hf : p.full) (hne : stop ≠ .done)
    (href : stop = .refused → p.readopen = false ∨ killed = true)
    (hsl : stop = .sleep → p.readopen = true) : Wrote killed addr (k + 1) i p q p i stop where
  holds := by simpa using h
  le := Nat.le_refl _
  readopen := rfl
  writeopen := rfl
  same := fun _ => rfl
  done := fun hd => absurd hd hne
  stopped := fun _ => ⟨hf, by omega⟩
  refused := href
  sleep := hsl

theorem writeLoop_wrote (killed : Bool) (addr : Nat → Byte) {k i i' : Nat} {stop : Stop}
    (h : p.Holds q) (hr : p.writeLoop killed addr k i = (p', i', stop)) :
    Wrote killed addr k i p q p' i' stop := by
  induction k generalizing p q i with
  | zero =>
    cases hr
    exact {
      holds := by simpa using h
      le := Nat.le_refl _
      readopen := rfl
      writeopen := rfl
      same := fun _ => rfl
      done := fun _ => rfl
      stopped := fun hne => absurd rfl hne
      refused := nofun
      sleep := nofun }
  | succ k ih =>
    unfold writeLoop at hr
    by_cases hf : p.full
    · rw [if_pos hf] at hr
      by_cases hno : p.readopen = false ∨ killed = true
      · rw [if_pos hno] at hr
        cases hr
        exact .at_once h hf nofun (fun _ => hno) nofun
      · rw [if_neg hno] at hr
        cases hr
        refine .at_once h hf nofun nofun fun _ => ?_
        push Not at hno
        simpa using hno.1
    · rw [if_neg hf] at hr
      have hw := ih (h.store hf (addr i)) hr
      have hlt : i < i' := hw.le
      have hrange : List.range' i (i' - i) = i :: List.range' (i + 1) (i' - (i + 1)) := by
        rw [show i' - i = (i' - (i + 1)) + 1 by omega, List.range'_succ]
      exact {
        holds := by
          rw [hrange, List.map_cons, List.append_cons]
          exact hw.holds
        le := Nat.le_of_lt hlt
        readopen := hw.readopen
        writeopen := hw.writeopen
        same := fun hfull => absurd hfull hf
        done := fun hd => by rw [hw.done hd]; omega
        stopped := fun hne => ⟨(hw.stopped hne).1, by have := (hw.stopped hne).2; omega⟩
        refused := hw.refused
        sleep := hw.sleep }

/-- The copying loop takes bytes from the front. -/
theorem readLoop_holds {k : Nat} {bytes : List Byte} (h : p.Holds q)
    (hr : p.readLoop k = (p', bytes)) : (∃ q', q = bytes ++ q' ∧ p'.Holds q') ∧
      p'.readopen = p.readopen ∧ p'.writeopen = p.writeopen := by
  induction k generalizing p q bytes with
  | zero =>
    cases hr
    exact ⟨⟨q, rfl, h⟩, rfl, rfl⟩
  | succ k ih =>
    unfold readLoop at hr
    by_cases he : p.nread = p.nwrite
    · rw [if_pos he] at hr
      cases hr
      exact ⟨⟨q, rfl, h⟩, rfl, rfl⟩
    · rw [if_neg he] at hr
      cases q with
      | nil => exact absurd (h.empty_iff.2 rfl) he
      | cons c q =>
        obtain ⟨hc, hpop⟩ := Queued.pop h
        have hpop' : Holds { p with nread := p.nread + 1 } q := hpop
        cases hrest : readLoop k { p with nread := p.nread + 1 } with
        | mk p'' rest =>
          simp only [hrest] at hr
          cases hr
          obtain ⟨⟨q', rfl, hq'⟩, hro, hwo⟩ := ih hpop' hrest
          exact ⟨⟨q', by rw [hc, List.cons_append], hq'⟩, hro, hwo⟩

/-- What a stretch of `piperead` does. -/
theorem readStretch_cases (killed : Bool) (n : Int) (h : p.Holds q) {bytes : List Byte}
    {stop : Stop} (hr : p.readStretch killed n = (p', bytes, stop)) :
    (stop = .done ∧ ¬ (p.nread = p.nwrite ∧ p.writeopen = true) ∧
        (∃ q', q = bytes ++ q' ∧ p'.Holds q') ∧ p'.readopen = p.readopen ∧
        p'.writeopen = p.writeopen) ∨ (stop ≠ .done ∧ p.nread = p.nwrite ∧ p.writeopen = true) := by
  unfold readStretch at hr
  by_cases he : p.nread = p.nwrite ∧ p.writeopen = true
  · rw [if_pos he] at hr
    right
    by_cases hk : killed = true
    · rw [if_pos hk] at hr
      cases hr
      exact ⟨nofun, he⟩
    · rw [if_neg hk] at hr
      cases hr
      exact ⟨nofun, he⟩
  · rw [if_neg he] at hr
    left
    cases hl : p.readLoop n.toNat with
    | mk p'' rest =>
      simp only [hl] at hr
      cases hr
      exact ⟨rfl, he, readLoop_holds h hl⟩

end Pipe

-- ======== first in, first out

variable {P : Type} [DecidableEq P] {s t : PipeState P}

/-- The pipe holds what has been stored and not returned. -/
def Fifo (s : PipeState P) : Prop := ∃ q, s.stored = s.returned ++ q ∧ s.pipe.Holds q

omit [DecidableEq P] in
theorem Fifo.of_buffer (h : Fifo s) (hd : t.pipe.data = s.pipe.data)
    (hr : t.pipe.nread = s.pipe.nread) (hw : t.pipe.nwrite = s.pipe.nwrite)
    (hs : t.stored = s.stored) (hret : t.returned = s.returned) : Fifo t := by
  obtain ⟨q, he, hq⟩ := h
  refine ⟨q, by rw [hs, hret, he], ?_⟩
  unfold Pipe.Holds
  rw [hd, hr, hw]
  exact hq

theorem Fifo.write (h : Fifo s) (p : P) (addr : Nat → Byte) (n : Int) (i : Nat) :
    Fifo (s.write p addr n i) := by
  obtain ⟨q, he, hq⟩ := h
  unfold PipeState.write
  cases hl : s.pipe.writeLoop (s.killed p) addr (n.toNat - i) i with
  | mk pipe rest =>
    obtain ⟨i', stop⟩ := rest
    have hw := Pipe.writeLoop_wrote _ _ hq hl
    have hfifo : s.stored ++ (List.range' i (i' - i)).map addr
        = s.returned ++ (q ++ (List.range' i (i' - i)).map addr) := by
      rw [he, List.append_assoc]
    cases stop <;> exact ⟨_, hfifo, hw.holds⟩

theorem Fifo.read (h : Fifo s) (p : P) (n : Int) : Fifo (s.read p n) := by
  obtain ⟨q, he, hq⟩ := h
  unfold PipeState.read
  cases hl : s.pipe.readStretch (s.killed p) n with
  | mk pipe rest =>
    obtain ⟨bytes, stop⟩ := rest
    rcases Pipe.readStretch_cases _ _ hq hl with ⟨rfl, _, ⟨q', rfl, hq'⟩, _⟩ | ⟨hne, _⟩
    · exact ⟨q', by rw [List.append_assoc]; exact he, hq'⟩
    · cases stop with
      | done => exact absurd rfl hne
      | refused => exact ⟨q, he, hq⟩
      | sleep => exact ⟨q, he, hq⟩

theorem call_some {p : P} {ph : Phase} (h : s.call p ph = some t) :
    t = { s with phase := Function.update s.phase p ph } := by
  unfold PipeState.call at h
  split at h
  · cases h
    rfl
  · cases h

theorem run_some {p : P} (h : s.run p = some t) : s.chan p = none ∧
      ((∃ addr n i, s.phase p = .write addr n i ∧ t = s.write p addr n i)
        ∨ ∃ n, s.phase p = .read n ∧ t = s.read p n) := by
  unfold PipeState.run at h
  split at h
  · next hc hp =>
    cases h
    exact ⟨hc, Or.inl ⟨_, _, _, hp, rfl⟩⟩
  · next hc hp =>
    cases h
    exact ⟨hc, Or.inr ⟨_, hp, rfl⟩⟩
  · cases h

/-- What a step is. -/
theorem pipeStep_cases {e : PipeEvent P} (h : pipeStep e s = some t) :
    (∃ p, e = .kill p ∧ t = s.kill p) ∨
    (∃ p ph, t = { s with phase := Function.update s.phase p ph }) ∨
    (∃ p addr n i, e = .run p ∧ s.chan p = none ∧ s.phase p = .write addr n i ∧
      t = s.write p addr n i) ∨
    (∃ p n, e = .run p ∧ s.chan p = none ∧ s.phase p = .read n ∧ t = s.read p n) ∨
    ∃ w, e = .close w ∧ t = s.close w := by
  cases e with
  | kill p =>
    cases h
    exact Or.inl ⟨p, rfl, rfl⟩
  | write p addr n =>
    simp only [pipeStep] at h
    split at h
    · cases h
    · exact Or.inr (Or.inl ⟨p, _, call_some h⟩)
  | read p n =>
    simp only [pipeStep] at h
    split at h
    · cases h
    · exact Or.inr (Or.inl ⟨p, _, call_some h⟩)
  | run p =>
    simp only [pipeStep] at h
    split at h
    · cases h
    · obtain ⟨hc, ⟨addr, n, i, hp, rfl⟩ | ⟨n, hp, rfl⟩⟩ := run_some h
      · exact Or.inr (Or.inr (Or.inl ⟨p, addr, n, i, rfl, hc, hp, rfl⟩))
      · exact Or.inr (Or.inr (Or.inr (Or.inl ⟨p, n, rfl, hc, hp, rfl⟩)))
  | close w =>
    simp only [pipeStep] at h
    split at h
    · cases h
    · cases h
      exact Or.inr (Or.inr (Or.inr (Or.inr ⟨w, rfl, rfl⟩)))

omit [DecidableEq P] in
theorem Fifo.close (h : Fifo s) (w : Bool) : Fifo (s.close w) := by
  cases w <;> exact h.of_buffer rfl rfl rfl rfl rfl

theorem Fifo.step {e : PipeEvent P} (h : Fifo s) (hs : pipeStep e s = some t) : Fifo t := by
  rcases pipeStep_cases hs with ⟨p, _, rfl⟩ | ⟨p, ph, rfl⟩ | ⟨p, addr, n, i, _, _, _, rfl⟩
    | ⟨p, n, _, _, _, rfl⟩ | ⟨w, _, rfl⟩
  · exact h
  · exact h
  · exact h.write p addr n i
  · exact h.read p n
  · exact h.close w

omit [DecidableEq P] in
theorem Fifo.fresh (h : freshPipe s) : Fifo s := by
  obtain ⟨data, killed, rfl⟩ := h
  exact ⟨[], rfl, Queued.nil⟩

theorem Fifo.reach (h : Reach pipeStep freshPipe s) : Fifo s :=
  h.invariant (fun _ => Fifo.fresh) fun _ _ _ hi hs => hi.step hs

/-- In every interleaving of calls of `pipewrite` and `piperead`, with the
pipe closed and processes killed at any time: the bytes returned are the
first of those stored; the counters are as far apart as there are bytes
stored and not returned, at most `PIPESIZE`; and these bytes are in the
cells where `piperead` takes them from. -/
theorem pipe_fifo (s : PipeState P) (hr : Reach pipeStep freshPipe s) :
    s.returned <+: s.stored ∧
    (s.pipe.nwrite - s.pipe.nread).toNat = s.stored.length - s.returned.length ∧
    s.stored.length - s.returned.length ≤ pipeSize ∧
    ∀ k, s.returned.length + k < s.stored.length →
      s.stored[s.returned.length + k]?
        = some (s.pipe.data ((s.pipe.nread + BitVec.ofNat 32 k).toNat % pipeSize)) := by
  obtain ⟨q, he, hq⟩ := Fifo.reach hr
  have hlen : s.stored.length - s.returned.length = q.length := by
    rw [he, List.length_append]
    omega
  refine ⟨⟨q, he.symm⟩, ?_, ?_, fun k hk => ?_⟩
  · rw [hlen]
    exact Queued.distance Pipe.pipeSize_lt hq
  · rw [hlen]
    exact hq.le
  · rw [he, List.length_append] at hk
    rw [he, List.getElem?_append_right (by omega), Nat.add_sub_cancel_left]
    exact hq.cell k (by omega)

/-- A pipe that nobody has used, between two processes. -/
def emptyPipe : PipeState (Fin 2) where
  pipe := .alloc fun _ => 0
  freed := false
  phase := fun _ => .idle
  chan := fun _ => none
  killed := fun _ => false
  stored := []
  returned := []

theorem emptyPipe_fresh : freshPipe emptyPipe := ⟨_, _, rfl⟩

/-- Three bytes are written and two of them read. -/
theorem pipe_fifo_third : ∃ s : PipeState (Fin 2), Reach pipeStep freshPipe s ∧
    (s.stored, s.returned) = ([10, 11, 12], [10, 11]) ∧
    s.stored[s.returned.length + 0]?
      = some (s.pipe.data ((s.pipe.nread + BitVec.ofNat 32 0).toNat % pipeSize)) := by
  obtain ⟨s, hr, hs⟩ := Reach.eval pipeStep
    [.write 0 (fun i => BitVec.ofNat 8 (10 + i)) 3, .run 0, .read 1 2, .run 1]
    (fun s => (s.stored, s.returned)) ([10, 11, 12], [10, 11]) emptyPipe_fresh
    (by decide +kernel)
  obtain ⟨hst, hret⟩ := Prod.mk.inj hs
  exact ⟨s, hr, hs, (pipe_fifo s hr).2.2.2 0 (by rw [hst, hret]; decide)⟩

-- ======== sleepers

/-- Who sleeps on a pipe waits for something that is not there. -/
structure Sleepers (s : PipeState P) : Prop where
  readers : ∀ p, s.chan p = some .nread → s.pipe.nread = s.pipe.nwrite ∧ s.pipe.writeopen = true
  writers : ∀ p, s.chan p = some .nwrite → s.pipe.full ∧ s.pipe.readopen = true

/-- A stretch of `pipewrite` that starts on an empty pipe, has more to
store than the pipe takes, and is refused when the pipe is full. -/
def fillsQuietly (e : PipeEvent P) (s : PipeState P) : Bool :=
  match e with
  | .run p =>
      match s.phase p with
      | .write _ n i =>
          decide (s.pipe.nread = s.pipe.nwrite) && decide (pipeSize < n.toNat - i) &&
            (s.killed p || !s.pipe.readopen)
      | _ => false
  | _ => false

omit [DecidableEq P] in
open PipeState in
theorem wake_eq_some {c d : Chan} {chan : P → Option Chan} {p : P} :
    wake c chan p = some d ↔ chan p = some d ∧ d ≠ c := by
  unfold wake
  split
  · next h => simp [h, eq_comm]
  · next h =>
    refine ⟨fun hd => ⟨hd, ?_⟩, fun hd => hd.1⟩
    rintro rfl
    exact h hd

theorem Sleepers.write (hs : Sleepers s) (hf : Fifo s) {p : P} {addr : Nat → Byte} {n : Int}
    {i : Nat} (hp : s.phase p = .write addr n i) (hq : fillsQuietly (.run p) s = false) :
    Sleepers (s.write p addr n i) := by
  obtain ⟨q, -, hq'⟩ := hf
  unfold PipeState.write
  cases hl : s.pipe.writeLoop (s.killed p) addr (n.toNat - i) i with
  | mk pipe rest =>
    obtain ⟨i', stop⟩ := rest
    have hw := Pipe.writeLoop_wrote _ _ hq' hl
    -- the writers that were asleep still are, and the pipe is still full
    have hwriters : ∀ r, s.chan r = some .nwrite → pipe.full ∧ pipe.readopen = true := by
      intro r hr
      obtain ⟨hfull, hopen⟩ := hs.writers r hr
      rw [hw.same hfull]
      exact ⟨hfull, hopen⟩
    cases stop with
    | done =>
      constructor
      · intro r hr
        exact absurd rfl (wake_eq_some.1 hr).2
      · intro r hr
        exact hwriters r (wake_eq_some.1 hr).1
    | sleep =>
      have hstop := hw.stopped (by simp)
      constructor
      · intro r hr
        by_cases hrp : r = p
        · simp [hrp] at hr
        · simp only [Function.update_of_ne hrp] at hr
          exact absurd rfl (wake_eq_some.1 hr).2
      · intro r _
        exact ⟨hstop.1, by rw [hw.readopen]; exact hw.sleep rfl⟩
    | refused =>
      obtain ⟨hfull, hi⟩ := hw.stopped (by simp)
      refine ⟨fun r hr => ?_, hwriters⟩
      -- a reader is asleep: then the pipe was empty and has been filled
      exfalso
      have he := (hs.readers r hr).1
      have hlen := hw.holds.full_iff.1 hfull
      rw [hq'.empty_iff.1 he, List.nil_append, List.length_map, List.length_range'] at hlen
      have hlong : pipeSize < n.toNat - i := by
        have hle := hw.le
        omega
      have href : s.killed p = true ∨ s.pipe.readopen = false := (hw.refused rfl).symm
      simp only [fillsQuietly, hp, he, hlong, decide_true, Bool.true_and,
        Bool.or_eq_false_iff] at hq
      rcases href with h | h
      · rw [hq.1] at h
        cases h
      · rw [h] at hq
        cases hq.2

theorem Sleepers.read (hs : Sleepers s) (hf : Fifo s) (p : P) (n : Int) :
    Sleepers (s.read p n) := by
  obtain ⟨q, -, hq⟩ := hf
  unfold PipeState.read
  cases hl : s.pipe.readStretch (s.killed p) n with
  | mk pipe rest =>
    obtain ⟨bytes, stop⟩ := rest
    rcases Pipe.readStretch_cases _ _ hq hl with ⟨rfl, hne, _⟩ | ⟨hne, he, hopen⟩
    · constructor
      · intro r hr
        exact absurd (hs.readers r (wake_eq_some.1 hr).1) hne
      · intro r hr
        exact absurd rfl (wake_eq_some.1 hr).2
    · cases stop with
      | done => exact absurd rfl hne
      | refused => exact ⟨hs.readers, hs.writers⟩
      | sleep =>
        constructor
        · intro r _
          exact ⟨he, hopen⟩
        · intro r hr
          by_cases hrp : r = p
          · simp [hrp] at hr
          · simp only [Function.update_of_ne hrp] at hr
            exact hs.writers r hr

theorem Sleepers.kill (hs : Sleepers s) (p : P) : Sleepers (s.kill p) := by
  have hchan : ∀ r c, (s.kill p).chan r = some c → s.chan r = some c := by
    intro r c hr
    by_cases hrp : r = p
    · simp [PipeState.kill, hrp] at hr
    · simpa [PipeState.kill, hrp] using hr
  exact ⟨fun r hr => hs.readers r (hchan r _ hr), fun r hr => hs.writers r (hchan r _ hr)⟩

omit [DecidableEq P] in
theorem Sleepers.close (hs : Sleepers s) (w : Bool) : Sleepers (s.close w) := by
  cases w with
  | false =>
    exact ⟨fun r hr => hs.readers r (wake_eq_some.1 hr).1,
      fun r hr => absurd rfl (wake_eq_some.1 hr).2⟩
  | true =>
    exact ⟨fun r hr => absurd rfl (wake_eq_some.1 hr).2,
      fun r hr => hs.writers r (wake_eq_some.1 hr).1⟩

theorem Sleepers.step {e : PipeEvent P} (hs : Sleepers s) (hf : Fifo s)
    (hq : fillsQuietly e s = false) (hst : pipeStep e s = some t) : Sleepers t := by
  rcases pipeStep_cases hst with ⟨p, _, rfl⟩ | ⟨p, ph, rfl⟩ | ⟨p, addr, n, i, rfl, _, hp, rfl⟩
    | ⟨p, n, _, _, _, rfl⟩ | ⟨w, _, rfl⟩
  · exact hs.kill p
  · exact ⟨hs.readers, hs.writers⟩
  · exact hs.write hf hp hq
  · exact hs.read hf p n
  · exact hs.close w

/-- A run in which no `pipewrite` fills the pipe quietly. -/
abbrev Heard (s : PipeState P) : Prop :=
  Reach (only (fun e s => !fillsQuietly e s) pipeStep) freshPipe s

/-- No wakeup is lost as long as no `pipewrite` that starts on an empty
pipe is refused after filling it. -/
theorem no_lost_wakeup (s : PipeState P) (hr : Heard s) (p : P) :
    (s.chan p = some .nread → s.pipe.nread = s.pipe.nwrite ∧ s.pipe.writeopen = true) ∧
    (s.chan p = some .nwrite → s.pipe.full ∧ s.pipe.readopen = true) := by
  have h : Sleepers s := by
    refine Reach.invariant_with (K := Fifo) (fun s h => Fifo.reach h.of_only) ?_ ?_ hr
    · rintro s ⟨data, killed, rfl⟩
      exact ⟨nofun, nofun⟩
    · intro e s t hf hs hst
      obtain ⟨hg, hst⟩ := only_eq_some.1 hst
      exact hs.step hf (by simpa using hg) hst
  exact ⟨h.readers p, h.writers p⟩

/-- A reader that finds the pipe empty and sleeps. -/
theorem no_lost_wakeup_empty : ∃ s : PipeState (Fin 2), Heard s ∧ s.chan 0 = some .nread ∧
    s.pipe.nread = s.pipe.nwrite ∧ s.pipe.writeopen = true := by
  obtain ⟨s, hr, hs⟩ := Reach.eval (only (fun e s => !fillsQuietly e s) pipeStep)
    [.read 0 1, .run 0] (fun s => s.chan 0) (some .nread) emptyPipe_fresh (by decide +kernel)
  exact ⟨s, hr, hs, (no_lost_wakeup s hr 0).1 hs⟩

/-- A reader sleeps on the empty pipe; a writer of 513 bytes is killed
before it gets the lock, fills the pipe and returns -1. The reader is
still asleep, with 512 bytes to read. -/
theorem reader_left_asleep : ∃ s : PipeState (Fin 2), Reach pipeStep freshPipe s ∧
    s.chan 0 = some .nread ∧ s.pipe.full ∧ s.pipe.nread ≠ s.pipe.nwrite := by
  obtain ⟨s, hr, hs⟩ := Reach.eval pipeStep
    [.read 0 1, .run 0, .write 1 (fun _ => 7) 513, .kill 1, .run 1]
    (fun s => (s.chan 0, s.pipe.nread, s.pipe.nwrite)) (some .nread, 0, 512) emptyPipe_fresh
    (by decide +kernel)
  simp only [Prod.mk.injEq] at hs
  obtain ⟨hc, hread, hwrite⟩ := hs
  refine ⟨s, hr, hc, ?_, ?_⟩
  · unfold Pipe.full
    rw [hread, hwrite]
    decide
  · rw [hread, hwrite]
    decide

end Xv6Sume32.Proc
