/-
Reference counts of open files.

# The books

`Good hand ihand` is the state in the middle of a call that has the files
`hand` and the inodes `ihand` in its hands: references that are counted
but in no descriptor, entry or working directory yet. Its parts look at
different variables, so that an operation has to be followed only in the
parts it touches:

- `Counts`: `ref` is the number of descriptors and hands on an entry, and
  an entry without references has type FD_NONE;
- the history of every entry ends with what the entry holds (`ledger`);
- `Handed`: an inode's references are those of entries, working
  directories and hands;
- `Piped`: an end of a pipe is open exactly if an entry holds it, and then
  it is the only one; pages that are free are no pipes;
- a descriptor is of an entry that holds something (`full`);
- `Procs`: a process that is gone has no descriptors.

# Shape of the argument

The operations move references between hands and places (`filealloc_spec`,
`filedup_spec`, `Good.fill`, `Good.clear`, `fileclose_spec`). Every call is
a sequence of such moves that starts and ends with empty hands, on its
error paths too (`call_spec`). `fileclose` and `filedup` are only ever
called for what is in hand, or in a descriptor: so they do not panic.
-/
import Xv6Sume32.Proc.Ftable
import Xv6Sume32.Vm.Proofs.Holders

namespace Xv6Sume32.Ftable

open Lib
open Function (update update_apply update_eq_self update_of_ne update_self)
open Proc (Slot initproc nproc ProcState)
open Vm (nofile nfile Ends)

variable {g f₀ f₁ : Fin nfile} {old : Ino} {fds : List (Fin nofile)}

-- ======== the books

/-- The inode that is held. -/
def Held.ino : Held → Option Ino
  | .pipe _ _ => none
  | .inode ip => some ip

structure Counts (file : Fin nfile → File) (ofile : Slot × Fin nofile → Option (Fin nfile))
    (hand : List (Fin nfile)) : Prop where
  ref : ∀ f, (file f).ref = refs ofile f + hand.count f
  idle : ∀ f, (file f).ref = 0 → (file f).type = .fdNone
  whole : ∀ f, (file f).type ≠ .fdNone → (file f).held ≠ none

def Booked (held : Fin nfile → Option Held) (log : List (Fin nfile × Bool × Held)) : Prop :=
  ∀ f, ledger f log = some (held f)

/-- The inodes that entries hold. -/
def inos (held : Fin nfile → Option Held) (f : Fin nfile) : Option Ino := (held f).bind Held.ino

def Handed (held : Fin nfile → Option Held) (cwd : Slot → Option Ino) (iref : Ino → Int)
    (ihand : List Ino) : Prop :=
  ∀ ip, iref ip = ((refs (inos held) ip + refs cwd ip + ihand.count ip : Nat) : Int)

structure Piped (held : Fin nfile → Option Held) (pipe : Nat → Option Ends) (free : List Nat) :
    Prop where
  opened : ∀ k w, (∃ e, pipe k = some e ∧ e.side w = true) ↔ ∃ f, held f = some (.pipe k w)
  one : ∀ {f g k w}, held f = some (.pipe k w) → held g = some (.pipe k w) → f = g
  alive : ∀ {k e}, pipe k = some e → ∃ w, e.side w = true
  nodup : free.Nodup
  fresh : ∀ k ∈ free, pipe k = none

structure Procs (state : Slot → ProcState) (ofile : Slot × Fin nofile → Option (Fin nfile))
    (cwd : Slot → Option Ino) : Prop where
  live : ∀ {p}, state p = .runnable → cwd p ≠ none
  gone : ∀ {p}, state p = .unused ∨ state p = .zombie →
    cwd p = none ∧ ∀ fd, ofile (p, fd) = none

def Full (ofile : Slot × Fin nofile → Option (Fin nfile)) (held : Fin nfile → Option Held) : Prop :=
  ∀ q f, ofile q = some f → held f ≠ none

def Sys.holds (s : Sys) (f : Fin nfile) : Option Held := (s.file f).held

structure Good (hand : List (Fin nfile)) (ihand : List Ino) (s : Sys) : Prop where
  counts : Counts s.file s.ofile hand
  booked : Booked s.holds s.log
  handed : Handed s.holds s.cwd s.iref ihand
  piped : Piped s.holds s.pipe s.free
  full : Full s.ofile s.holds
  procs : Procs s.state s.ofile s.cwd

/-- The books, for what the entries hold. -/
theorem Good.of_holds {s : Sys} {hand : List (Fin nfile)} {ihand : List Ino}
    {held : Fin nfile → Option Held} (hholds : s.holds = held)
    (hcounts : Counts s.file s.ofile hand) (hbooked : Booked held s.log)
    (hhanded : Handed held s.cwd s.iref ihand) (hpiped : Piped held s.pipe s.free)
    (hfull : Full s.ofile held) (hprocs : Procs s.state s.ofile s.cwd) : Good hand ihand s := by
  subst hholds
  exact ⟨hcounts, hbooked, hhanded, hpiped, hfull, hprocs⟩

variable {s s' : Sys} {f : Fin nfile} {hand : List (Fin nfile)} {ihand : List Ino} {p : Slot}
  {fd : Fin nofile} {ip : Ino} {held : Fin nfile → Option Held} {k : Nat} {w : Bool}

-- ======== entries

section Entries

variable {file : Fin nfile → File} {ofile : Slot × Fin nofile → Option (Fin nfile)}
  {hand' : List (Fin nfile)} {new : File}

/-- One entry changes, and how many hands are on it. -/
theorem Counts.set (h : Counts file ofile hand) (href : new.ref = refs ofile f + hand'.count f)
    (hhand : ∀ g, g ≠ f → hand'.count g = hand.count g) (hidle : new.ref = 0 → new.type = .fdNone)
    (hwhole : new.type ≠ .fdNone → new.held ≠ none) :
    Counts (update file f new) ofile hand' := by
  refine ⟨fun g => ?_, fun g => ?_, fun g => ?_⟩ <;> by_cases hg : g = f
  · rw [hg, update_self, href]
  · rw [update_of_ne hg, hhand g hg, h.ref]
  · rw [hg, update_self]
    exact hidle
  · rw [update_of_ne hg]
    exact h.idle g
  · rw [hg, update_self]
    exact hwhole
  · rw [update_of_ne hg]
    exact h.whole g

theorem count_cons_other (hg : g ≠ f) : (f :: hand).count g = hand.count g :=
  List.count_cons_of_ne (Ne.symm hg)

theorem holds_setFile : (s.setFile f new).holds = update s.holds f new.held := by
  funext g
  by_cases hg : g = f
  · subst hg
    simp [Sys.holds, Sys.setFile]
  · simp [Sys.holds, Sys.setFile, hg]

/-- An entry that goes on holding what it held. -/
theorem holds_setFile_same (h : new.held = s.holds f) : (s.setFile f new).holds = s.holds := by
  rw [holds_setFile, h, update_eq_self]

theorem Counts.holds_idle (h : Counts s.file s.ofile hand) (href : (s.file f).ref = 0) :
    s.holds f = none := by
  unfold Sys.holds File.held
  rw [h.idle f href]

/-- An entry is given something to hold. -/
theorem Full.update {x : Held} (h : Full ofile held) :
    Full ofile (update held f (some x)) := by
  intro q g hq
  rw [update_apply]
  split
  · nofun
  · exact h q g hq

end Entries

-- ======== history

section History

variable {log : List (Fin nfile × Bool × Held)} {x : Held}

theorem Booked.note {took : Bool} {v : Option Held} (h : Booked held log)
    (hf : ledger f ((f, took, x) :: log) = some v) :
    Booked (update held f v) ((f, took, x) :: log) := by
  intro g
  by_cases hg : g = f
  · rw [hg, update_self, hf]
  · rw [update_of_ne hg, ledger_other (Ne.symm hg), h g]

theorem Booked.take (h : Booked held log) (hf : held f = none) :
    Booked (update held f (some x)) ((f, true, x) :: log) :=
  h.note (ledger_take (by rw [h f, hf]))

theorem Booked.put (h : Booked held log) (hf : held f = some x) :
    Booked (update held f none) ((f, false, x) :: log) :=
  h.note (ledger_put (by rw [h f, hf]))

end History

-- ======== inodes

section Inodes

variable {cwd : Slot → Option Ino} {iref : Ino → Int} {v : Option Held}

theorem inos_update : inos (update held f v)
    = update (inos held) f (v.bind Held.ino) := by
  funext g
  by_cases hg : g = f
  · subst hg
    simp [inos]
  · simp [inos, hg]

/-- A reference goes from an entry to the hands. -/
theorem Handed.put (h : Handed held cwd iref ihand) (hf : held f = some (.inode ip)) :
    Handed (update held f none) cwd iref (ip :: ihand) := by
  intro j
  have hino : inos held f = some ip := by
    simp [inos, hf, Held.ino]
  have hclear := refs_clear hino j
  rw [h j, inos_update, List.count_cons]
  simp only [Option.bind_none, beq_iff_eq]
  omega

/-- A reference goes from the hands to an entry. -/
theorem Handed.take (h : Handed held cwd iref (ip :: ihand)) (hf : held f = none) :
    Handed (update held f (some (.inode ip))) cwd iref ihand := by
  intro j
  have hino : inos held f = none := by
    simp [inos, hf]
  have hfill := refs_fill hino ip j
  rw [h j, inos_update, List.count_cons]
  simp only [Option.bind_some, Held.ino, beq_iff_eq]
  omega

/-- What is held changes, but not which inode. -/
theorem Handed.quiet (h : Handed held cwd iref ihand)
    (hf : v.bind Held.ino = (held f).bind Held.ino) :
    Handed (update held f v) cwd iref ihand := by
  intro j
  rw [h j, inos_update, hf, show (held f).bind Held.ino = inos held f from rfl,
    update_eq_self]

theorem Handed.idup (h : Handed held cwd iref ihand) :
    Handed held cwd (update iref ip (iref ip + 1)) (ip :: ihand) := by
  intro j
  by_cases hj : j = ip
  · subst hj
    rw [update_self, h j, List.count_cons_self]
    omega
  · rw [update_of_ne hj, h j, List.count_cons_of_ne (Ne.symm hj)]

theorem Handed.iput (h : Handed held cwd iref (ip :: ihand)) :
    Handed held cwd (update iref ip (iref ip - 1)) ihand := by
  intro j
  by_cases hj : j = ip
  · subst hj
    rw [update_self, h j, List.count_cons_self]
    omega
  · rw [update_of_ne hj, h j, List.count_cons_of_ne (Ne.symm hj)]

/-- A process enters a directory. -/
theorem Handed.enter (h : Handed held cwd iref (ip :: ihand)) (hp : cwd p = none) :
    Handed held (update cwd p (some ip)) iref ihand := by
  intro j
  rw [h j, refs_fill hp, List.count_cons]
  simp only [beq_iff_eq]
  omega

/-- A process leaves its directory. -/
theorem Handed.leave (h : Handed held cwd iref ihand) (hp : cwd p = some ip) :
    Handed held (update cwd p none) iref (ip :: ihand) := by
  intro j
  have := refs_clear hp j
  rw [h j, List.count_cons]
  simp only [beq_iff_eq]
  omega

/-- A process goes from one directory to another. -/
theorem Handed.move (h : Handed held cwd iref (ip :: ihand)) (hp : cwd p = some old) :
    Handed held (update cwd p (some ip)) iref (old :: ihand) := by
  intro j
  have := refs_update cwd p (some ip) j
  rw [hp] at this
  simp only [Option.some.injEq] at this
  rw [h j, List.count_cons, List.count_cons]
  simp only [beq_iff_eq]
  omega

end Inodes

-- ======== pipes

section Pipes

variable {pipe : Nat → Option Ends} {free : List Nat} {v : Option Held} {e : Ends}

/-- What is held changes, but not the pipes. -/
theorem Piped.quiet (h : Piped held pipe free) (hf : ∀ k w, held f ≠ some (.pipe k w))
    (hv : ∀ k w, v ≠ some (.pipe k w)) : Piped (update held f v) pipe free := by
  have hsame : ∀ g k w, update held f v g = some (.pipe k w)
      ↔ held g = some (.pipe k w) := by
    intro g k w
    by_cases hg : g = f
    · rw [hg, update_self]
      exact ⟨fun hk => absurd hk (hv k w), fun hk => absurd hk (hf k w)⟩
    · rw [update_of_ne hg]
  refine ⟨fun k w => ?_, fun {f g k w} hf hg => ?_, h.alive, h.nodup, h.fresh⟩
  · simp only [hsame]
    exact h.opened k w
  · exact h.one ((hsame _ _ _).1 hf) ((hsame _ _ _).1 hg)

/-- The entries that hold an end when one of them has let go. -/
theorem Piped.held_drop (h : Piped held pipe free) (hf : held f = some (.pipe k w))
    (g : Fin nfile) (j : Nat) (v : Bool) : update held f none g = some (.pipe j v)
      ↔ held g = some (.pipe j v) ∧ ¬ (j = k ∧ v = w) := by
  by_cases hg : g = f
  · rw [hg, update_self, hf]
    refine ⟨nofun, fun ⟨he, hne⟩ => absurd ?_ hne⟩
    cases he
    exact ⟨rfl, rfl⟩
  · rw [update_of_ne hg]
    refine ⟨fun hj => ⟨hj, ?_⟩, fun hj => hj.1⟩
    rintro ⟨rfl, rfl⟩
    exact hg (h.one hj hf)

/-- The ends of a pipe after one was shut. -/
theorem Ends.side_shut (e : Ends) (w v : Bool) :
    (e.shut w).side v = true ↔ e.side v = true ∧ v ≠ w := by
  cases w <;> cases v <;> simp [Ends.shut, Ends.side]

/-- The entry that holds one end lets go while the other is open. -/
theorem Piped.shut (h : Piped held pipe free) (hf : held f = some (.pipe k w))
    (hk : pipe k = some e) (hopen : ∃ v, (e.shut w).side v = true) :
    Piped (update held f none) (update pipe k (some (e.shut w))) free := by
  refine ⟨fun j v => ?_, fun {a b j v} ha hb => ?_, fun {j e'} hj => ?_, h.nodup, fun j hj => ?_⟩
  · simp only [h.held_drop hf, exists_and_right]
    rw [← h.opened j v]
    by_cases hjk : j = k
    · subst hjk
      simp [Ends.side_shut, hk]
    · simp [hjk]
  · exact h.one ((h.held_drop hf _ _ _).1 ha).1 ((h.held_drop hf _ _ _).1 hb).1
  · by_cases hjk : j = k
    · rw [hjk, update_self] at hj
      cases hj
      exact hopen
    · rw [update_of_ne hjk] at hj
      exact h.alive hj
  · have hne : j ≠ k := by
      rintro rfl
      rw [h.fresh j hj] at hk
      cases hk
    rw [update_of_ne hne]
    exact h.fresh j hj

/-- The entry that holds the last end lets go, and the pipe is freed. -/
theorem Piped.freed (h : Piped held pipe free) (hf : held f = some (.pipe k w))
    (hk : pipe k = some e) (hshut : ∀ v, (e.shut w).side v = false) :
    Piped (update held f none) (update pipe k none) (k :: free) := by
  refine ⟨fun j v => ?_, fun {a b j v} ha hb => ?_, fun {j e'} hj => ?_, ?_, fun j hj => ?_⟩
  · simp only [h.held_drop hf, exists_and_right]
    rw [← h.opened j v]
    by_cases hjk : j = k
    · subst hjk
      have hv : e.side v = true → v = w := by
        intro hv
        by_contra hne
        exact absurd ((Ends.side_shut e w v).2 ⟨hv, hne⟩) (by simp [hshut v])
      simpa [hk] using hv
    · simp [hjk]
  · exact h.one ((h.held_drop hf _ _ _).1 ha).1 ((h.held_drop hf _ _ _).1 hb).1
  · by_cases hjk : j = k
    · rw [hjk, update_self] at hj
      cases hj
    · rw [update_of_ne hjk] at hj
      exact h.alive hj
  · refine List.nodup_cons.2 ⟨fun hmem => ?_, h.nodup⟩
    rw [h.fresh k hmem] at hk
    cases hk
  · by_cases hjk : j = k
    · rw [hjk, update_self]
    · rw [update_of_ne hjk]
      exact h.fresh j ((List.mem_cons.1 hj).resolve_left hjk)

/-- Two entries are given the ends of a new pipe. -/
theorem Piped.create (h : Piped held pipe (k :: free)) (hne : f ≠ g)
    (hf : held f = none) (hg : held g = none) :
    Piped (update (update held f (some (.pipe k false))) g
      (some (.pipe k true))) (update pipe k (some ⟨true, true⟩)) free := by
  have hk : pipe k = none := h.fresh k (List.mem_cons_self ..)
  have hold : ∀ a j v, update (update held f (some (.pipe k false))) g
      (some (.pipe k true)) a = some (.pipe j v)
      ↔ (j = k ∧ a = if v then g else f) ∨ (j ≠ k ∧ held a = some (.pipe j v)) := by
    intro a j v
    have hno : ∀ v, held a ≠ some (.pipe k v) := by
      intro v ha
      obtain ⟨e, he, -⟩ := (h.opened k v).2 ⟨a, ha⟩
      rw [hk] at he
      cases he
    by_cases hag : a = g
    · subst hag
      cases v with
      | false => simp [hg, Ne.symm hne]
      | true => simp [hg, eq_comm]
    · by_cases haf : a = f
      · subst haf
        cases v with
        | false => simp [hf, hne, eq_comm]
        | true => simp [hf, hne]
      · rw [update_of_ne hag, update_of_ne haf]
        constructor
        · intro ha
          refine Or.inr ⟨?_, ha⟩
          rintro rfl
          exact hno v ha
        · rintro (⟨rfl, ha⟩ | ⟨-, ha⟩)
          · cases v
            · exact absurd ha haf
            · exact absurd ha hag
          · exact ha
  refine ⟨fun j v => ?_, fun {a b j v} ha hb => ?_, fun {j e} hj => ?_,
    (List.nodup_cons.1 h.nodup).2, fun j hj => ?_⟩
  · simp only [hold]
    by_cases hjk : j = k
    · subst hjk
      cases v <;> simp [Ends.side]
    · simp only [update_of_ne hjk, hjk, false_and, false_or, ne_eq, not_false_eq_true,
        true_and]
      exact h.opened j v
  · rcases (hold a j v).1 ha with ⟨rfl, rfl⟩ | ⟨hjk, ha⟩
    · rcases (hold b j v).1 hb with ⟨-, rfl⟩ | ⟨hjk, -⟩
      · rfl
      · exact absurd rfl hjk
    · rcases (hold b j v).1 hb with ⟨hjk', -⟩ | ⟨-, hb⟩
      · exact absurd hjk' hjk
      · exact h.one ha hb
  · by_cases hjk : j = k
    · rw [hjk, update_self] at hj
      cases hj
      exact ⟨true, rfl⟩
    · rw [update_of_ne hjk] at hj
      exact h.alive hj
  · have hjk : j ≠ k := by
      rintro rfl
      exact (List.nodup_cons.1 h.nodup).1 hj
    rw [update_of_ne hjk]
    exact h.fresh j (List.mem_cons_of_mem _ hj)

end Pipes

-- ======== hands and descriptors

/-- What the operations on files leave as it was. -/
def Same (s s' : Sys) : Prop := s'.ofile = s.ofile ∧ s'.state = s.state ∧ s'.cwd = s.cwd

theorem Same.refl : Same s s := ⟨rfl, rfl, rfl⟩

theorem Same.trans {s'' : Sys} (h : Same s s') (h' : Same s' s'') : Same s s'' :=
  ⟨h'.1.trans h.1, h'.2.1.trans h.2.1, h'.2.2.trans h.2.2⟩

/-- A file goes from the hands into a descriptor. -/
theorem Good.fill (h : Good (f :: hand) ihand s) (hfd : s.ofile (p, fd) = none)
    (hf : s.holds f ≠ none) (hp : s.state p ≠ .unused ∧ s.state p ≠ .zombie) :
    Good hand ihand (s.setFd p fd (some f)) := by
  refine ⟨⟨fun g => ?_, h.counts.idle, h.counts.whole⟩, h.booked, h.handed, h.piped,
    fun q g hq => ?_, ⟨h.procs.live, fun {q} hq => ⟨(h.procs.gone hq).1, fun fd' => ?_⟩⟩⟩
  · show (s.file g).ref = refs (update s.ofile (p, fd) (some f)) g + hand.count g
    rw [h.counts.ref g, refs_fill hfd, List.count_cons]
    simp only [beq_iff_eq]
    omega
  · simp only [Sys.setFd, update_apply] at hq
    split at hq
    · cases hq
      exact hf
    · exact h.full _ _ hq
  · have hne : (q, fd') ≠ (p, fd) := by
      intro he
      cases he
      exact hq.elim hp.1 hp.2
    show update s.ofile (p, fd) (some f) (q, fd') = none
    rw [update_of_ne hne]
    exact (h.procs.gone hq).2 fd'

/-- A file goes from a descriptor into the hands. -/
theorem Good.clear (h : Good hand ihand s) (hfd : s.ofile (p, fd) = some f) :
    Good (f :: hand) ihand (s.setFd p fd none) := by
  refine ⟨⟨fun g => ?_, h.counts.idle, h.counts.whole⟩, h.booked, h.handed, h.piped,
    fun q g hq => ?_, ⟨h.procs.live, fun {q} hq => ⟨(h.procs.gone hq).1, fun fd' => ?_⟩⟩⟩
  · show (s.file g).ref = refs (update s.ofile (p, fd) none) g + (f :: hand).count g
    have := refs_clear hfd g
    rw [h.counts.ref g, List.count_cons]
    simp only [beq_iff_eq]
    omega
  · simp only [Sys.setFd, update_apply] at hq
    split at hq
    · cases hq
    · exact h.full _ _ hq
  · show update s.ofile (p, fd) none (q, fd') = none
    by_cases hne : (q, fd') = (p, fd)
    · rw [hne, update_self]
    · rw [update_of_ne hne]
      exact (h.procs.gone hq).2 fd'

/-- The hands are told apart only by what is in them. -/
theorem Good.swap (h : Good (f :: g :: hand) ihand s) :
    Good (g :: f :: hand) ihand s := by
  refine ⟨⟨fun a => ?_, h.counts.idle, h.counts.whole⟩, h.booked, h.handed, h.piped, h.full,
    h.procs⟩
  rw [h.counts.ref a, (List.Perm.swap g f hand).count_eq]

-- ======== file.c

/-- An entry's count goes up by a hand on it. -/
theorem Good.grab (h : Good hand ihand s) :
    Good (f :: hand) ihand (s.setFile f { s.file f with ref := (s.file f).ref + 1 }) := by
  refine .of_holds (holds_setFile_same rfl)
    (h.counts.set ?_ (fun g => count_cons_other) ?_ (h.counts.whole f))
    h.booked h.handed h.piped h.full h.procs
  · show (s.file f).ref + 1 = _
    rw [List.count_cons_self, h.counts.ref f]
    omega
  · exact fun h => absurd h (Nat.succ_ne_zero _)

theorem filealloc_spec (h : Good hand ihand s) (hf : s.filealloc = some (f, s')) :
    Good (f :: hand) ihand s' ∧ Same s s' ∧ s'.holds = s.holds ∧ s'.holds f = none
      ∧ (s.file f).ref = 0 := by
  unfold Sys.filealloc at hf
  split at hf
  · cases hf
  · next f' hfind =>
    cases hf
    have href : (s.file f).ref = 0 := by
      have := List.find?_some hfind
      exact of_decide_eq_true this
    have hsame : (s.setFile f { s.file f with ref := 1 }).holds = s.holds := holds_setFile_same rfl
    have hgrab := h.grab (f := f)
    rw [href] at hgrab
    refine ⟨hgrab, Same.refl, hsame, ?_, href⟩
    rw [hsame]
    exact h.counts.holds_idle href

/-- `filedup` of a file that is referred to. -/
theorem filedup_spec (h : Good hand ihand s) (hf : 1 ≤ (s.file f).ref) :
    ∃ s', s.filedup f = .ok s' ∧ Good (f :: hand) ihand s' ∧ Same s s' ∧ s'.holds = s.holds :=
  ⟨_, if_neg (by omega), h.grab, Same.refl, holds_setFile_same rfl⟩

/-- What an entry holds, by its type. -/
theorem Counts.held_cases (h : Counts s.file s.ofile hand) (f : Fin nfile) :
    ((s.file f).type = .fdNone ∧ s.holds f = none)
      ∨ (∃ k, (s.file f).type = .fdPipe ∧ (s.file f).pipe = some k
        ∧ s.holds f = some (.pipe k (s.file f).writable))
      ∨ ∃ ip, (s.file f).type = .fdInode ∧ (s.file f).ip = some ip
        ∧ s.holds f = some (.inode ip) := by
  have hwhole := h.whole f
  unfold Sys.holds
  unfold File.held at hwhole ⊢
  cases ht : (s.file f).type with
  | fdNone => exact Or.inl ⟨rfl, rfl⟩
  | fdPipe =>
    cases hk : (s.file f).pipe with
    | none => simp [ht, hk] at hwhole
    | some k => exact Or.inr (Or.inl ⟨k, rfl, rfl, rfl⟩)
  | fdInode =>
    cases hip : (s.file f).ip with
    | none => simp [ht, hip] at hwhole
    | some ip => exact Or.inr (Or.inr ⟨ip, rfl, rfl, rfl⟩)

/-- The end that `f` let go of is shut, and the pipe freed with the last
end. -/
theorem pipeclose_spec {pre : Fin nfile → Option Held} (hp : Piped pre s.pipe s.free)
    (hf : pre f = some (.pipe k w)) :
    Outcome (fun _ => False) (fun s' => Piped (update pre f none) s'.pipe s'.free
      ∧ s' = { s with pipe := s'.pipe, free := s'.free }) (s.pipeclose k w) := by
  obtain ⟨e, he, hside⟩ := (hp.opened k w).2 ⟨f, hf⟩
  unfold Sys.pipeclose
  rw [he]
  change Outcome _ _ (if (e.shut w).readopen = false ∧ (e.shut w).writeopen = false then _ else _)
  split
  · next hshut =>
    refine ⟨hp.freed hf he fun v => ?_, rfl⟩
    cases v with
    | false => exact hshut.1
    | true => exact hshut.2
  · next hopen =>
    refine ⟨hp.shut hf he ?_, rfl⟩
    by_contra hnone
    refine hopen ⟨?_, ?_⟩
    · exact Bool.eq_false_of_not_eq_true fun h => hnone ⟨false, h⟩
    · exact Bool.eq_false_of_not_eq_true fun h => hnone ⟨true, h⟩

/-- What a freed entry held is released. -/
theorem release_spec (h : Good (f :: hand) ihand s) (hlast : (s.file f).ref = 1) :
    Outcome (fun _ => False) (fun s' => Good hand ihand s' ∧ Same s s')
      ((s.setFile f { s.file f with ref := 0, type := .fdNone }).release f (s.file f)) := by
  have hcounts : Counts (update s.file f { s.file f with ref := 0, type := .fdNone })
      s.ofile hand := by
    have href := h.counts.ref f
    rw [List.count_cons_self] at href
    exact h.counts.set (by show 0 = _; omega) (fun g hg => (count_cons_other hg).symm)
      (fun _ => rfl) (fun hne => absurd rfl hne)
  have hholds : (s.setFile f { s.file f with ref := 0, type := .fdNone }).holds
      = update s.holds f none := holds_setFile
  have hfull : Full s.ofile (update s.holds f none) := by
    intro q g hq
    have hne : g ≠ f := by
      rintro rfl
      have href := h.counts.ref g
      have hpos := refs_pos q hq
      rw [List.count_cons_self] at href
      omega
    rw [update_of_ne hne]
    exact h.full q g hq
  unfold Sys.release
  rcases h.counts.held_cases f with ⟨ht, hheld⟩ | ⟨k, ht, hk, hheld⟩ | ⟨ip, ht, hip, hheld⟩
  · rw [ht]
    rw [← hheld, update_eq_self] at hholds
    exact ⟨.of_holds hholds hcounts h.booked h.handed h.piped h.full h.procs, Same.refl⟩
  · rw [ht, hk]
    refine (pipeclose_spec (s := (s.setFile f { s.file f with ref := 0, type := .fdNone }).note f
      false (.pipe k (s.file f).writable)) h.piped hheld).imp (fun _ => id) ?_
    rintro s' ⟨hpiped, hs'⟩
    rw [hs']
    exact ⟨.of_holds hholds hcounts (h.booked.put hheld) (h.handed.quiet (by rw [hheld]; rfl))
      hpiped hfull h.procs, Same.refl⟩
  · rw [ht, hip]
    exact ⟨.of_holds hholds hcounts (h.booked.put hheld) (h.handed.put hheld).iput
      (h.piped.quiet (by rw [hheld]; exact nofun) nofun) hfull h.procs, Same.refl⟩

theorem fileclose_spec (h : Good (f :: hand) ihand s) :
    Outcome (fun _ => False) (fun s' => Good hand ihand s' ∧ Same s s') (s.fileclose f) := by
  have href := h.counts.ref f
  rw [List.count_cons_self] at href
  unfold Sys.fileclose
  dsimp only
  split
  · omega
  split
  · next hmany =>
    refine ⟨.of_holds (holds_setFile_same rfl) (h.counts.set (by show (s.file f).ref - 1 = _; omega)
      (fun g hg => (count_cons_other hg).symm) (fun h0 => ?_) (h.counts.whole f))
      h.booked h.handed h.piped h.full h.procs, Same.refl⟩
    change (s.file f).ref - 1 = 0 at h0
    omega
  · exact release_spec h (by omega)

-- ======== inodes

theorem Good.idup (h : Good hand ihand s) : Good hand (ip :: ihand) (s.idup ip) :=
  ⟨h.counts, h.booked, h.handed.idup, h.piped, h.full, h.procs⟩

theorem Good.iput (h : Good hand (ip :: ihand) s) : Good hand ihand (s.iput ip) :=
  ⟨h.counts, h.booked, h.handed.iput, h.piped, h.full, h.procs⟩

-- ======== descriptors

/-- A process that is not gone. -/
def Live (s : Sys) (p : Slot) : Prop := s.state p ≠ .unused ∧ s.state p ≠ .zombie

theorem live_of_runnable (h : s.state p = .runnable) : Live s p := by
  unfold Live
  rw [h]
  exact ⟨nofun, nofun⟩

theorem argfd_spec {i : Int} (h : s.argfd p i = some (fd, f)) : s.ofile (p, fd) = some f := by
  unfold Sys.argfd at h
  split at h
  · obtain ⟨f', hf', he⟩ := Option.map_eq_some_iff.1 h
    cases he
    exact hf'
  · cases h

theorem fdalloc_eq (h : s.fdalloc p f = some (fd, s')) :
    s.ofile (p, fd) = none ∧ s' = s.setFd p fd (some f) := by
  unfold Sys.fdalloc at h
  split at h
  · cases h
  · next fd' hfind =>
    cases h
    have := List.find?_some hfind
    exact ⟨of_decide_eq_true this, rfl⟩

/-- What a call has to end with: no panic but that of init, empty hands. -/
def Sound (x : Except Panic (Int × Sys)) : Prop :=
  Outcome (fun e => e = .initExiting) (fun r => Good [] [] r.2) x

theorem sysDup_spec (h : Good [] [] s) (hp : s.state p = .runnable) (i : Int) :
    Sound (s.sysDup p i) := by
  unfold Sys.sysDup
  cases harg : s.argfd p i with
  | none => exact h
  | some r =>
    obtain ⟨fd0, f⟩ := r
    dsimp only
    cases hfd : s.fdalloc p f with
    | none => exact h
    | some r =>
      obtain ⟨fd, s1⟩ := r
      obtain ⟨hnone, rfl⟩ := fdalloc_eq hfd
      have href : 1 ≤ (s.file f).ref := by
        have := refs_pos _ (argfd_spec harg)
        rw [h.counts.ref f]
        omega
      -- the count goes up after the descriptor is filled; the order
      -- does not matter
      obtain ⟨s2, hdup, hgood, ⟨hofile, hstate, -⟩, hholds⟩ := filedup_spec h href
      have hdup' : (s.setFd p fd (some f)).filedup f = .ok (s2.setFd p fd (some f)) := by
        unfold Sys.filedup at hdup ⊢
        rw [if_neg (by omega)] at hdup
        cases hdup
        exact if_neg (show ¬ (s.file f).ref < 1 by omega)
      dsimp only
      rw [hdup']
      exact hgood.fill (by rw [hofile]; exact hnone)
        (by rw [hholds]; exact h.full _ _ (argfd_spec harg))
        (live_of_runnable (by rw [hstate]; exact hp))

theorem sysClose_spec (h : Good [] [] s) (i : Int) : Sound (s.sysClose p i) := by
  unfold Sys.sysClose
  cases harg : s.argfd p i with
  | none => exact h
  | some r =>
    obtain ⟨fd, f⟩ := r
    exact ((fileclose_spec (h.clear (argfd_spec harg))).imp (fun _ => False.elim)
      fun _ hs => hs.1).bind fun _ hs => hs

/-- An entry is given an inode. -/
theorem openInode_spec {omode : Word} (h : Good hand (ip :: ihand) s) (hf : s.holds f = none)
    (href : (s.file f).ref ≠ 0) : Good hand ihand (s.openInode f ip omode) :=
  .of_holds holds_setFile
    (h.counts.set (h.counts.ref f) (fun _ _ => rfl) (fun h0 => absurd h0 href) fun _ => nofun)
    (h.booked.take hf) (h.handed.take hf) (h.piped.quiet (by rw [hf]; exact nofun) nofun)
    h.full.update h.procs

theorem sysOpen_spec (h : Good [] [] s) (hp : s.state p = .runnable)
    (found : Option (Ino × Bool)) (omode : Word) : Sound (s.sysOpen p found omode) := by
  unfold Sys.sysOpen
  rcases found with _ | ⟨ip, dir⟩
  · exact h
  have hin : Good [] [ip] (s.idup ip) := h.idup
  dsimp only
  split
  · exact hin.iput
  cases halloc : (s.idup ip).filealloc with
  | none => exact hin.iput
  | some r =>
    obtain ⟨f, s1⟩ := r
    obtain ⟨hgood, ⟨-, hstate, -⟩, -, hnone, -⟩ := filealloc_spec hin halloc
    dsimp only
    cases hfd : s1.fdalloc p f with
    | none =>
      exact ((fileclose_spec hgood).imp (fun _ => False.elim) fun _ hs => hs.1).bind
        fun _ hs => hs.iput
    | some r =>
      obtain ⟨fd, s2⟩ := r
      obtain ⟨hfree, rfl⟩ := fdalloc_eq hfd
      have href := hgood.counts.ref f
      rw [List.count_cons_self] at href
      -- the descriptor is filled before the entry; the order does not
      -- matter
      have hopen : Good [f] [] (s1.openInode f ip omode) :=
        openInode_spec hgood hnone (by omega)
      refine hopen.fill (p := p) hfree ?_
        (live_of_runnable (by show s1.state p = _; rw [hstate]; exact hp))
      rw [Sys.openInode]
      show (s1.setFile f _).holds f ≠ none
      rw [holds_setFile, update_self]
      nofun

-- ======== pipes

theorem openPipe_holds : ((s.openPipe f₀ k false).openPipe f₁ k true).holds
    = update (update s.holds f₀ (some (.pipe k false))) f₁
      (some (.pipe k true)) :=
  holds_setFile.trans (congrArg (fun g => update g f₁ _) holds_setFile)

/-- Two entries are given the ends of a pipe on a free page. -/
theorem openPipe_spec {free : List Nat} (h : Good (f₁ :: f₀ :: hand) ihand s)
    (hfree : s.free = k :: free) (hne : f₀ ≠ f₁) (h₀ : s.holds f₀ = none) (h1 : s.holds f₁ = none) :
    Good (f₀ :: f₁ :: hand) ihand
      ((({ s with free := free, pipe := update s.pipe k (some ⟨true, true⟩) } : Sys).openPipe
        f₀ k false).openPipe f₁ k true) := by
  have hc0 : Counts (update s.file f₀ { s.file f₀ with
      type := .fdPipe, readable := true, writable := false, pipe := some k })
      s.ofile (f₁ :: f₀ :: hand) := h.counts.set (h.counts.ref f₀) (fun _ _ => rfl) (fun h0 => by
        have := h.swap.counts.ref f₀
        rw [List.count_cons_self] at this
        exact absurd h0 (show (s.file f₀).ref ≠ 0 by omega)) fun _ => nofun
  have hf1 : update s.file f₀ { s.file f₀ with
      type := .fdPipe, readable := true, writable := false, pipe := some k } f₁ = s.file f₁ :=
    update_of_ne (Ne.symm hne) _ _
  have hupd : update s.holds f₀ (some (.pipe k false)) f₁ = none := by
    rw [update_of_ne (Ne.symm hne)]
    exact h1
  refine Good.swap (.of_holds openPipe_holds (hc0.set ?_ (fun _ _ => rfl) ?_ fun _ => nofun)
    ((h.booked.take h₀).take hupd) ?_ ((hfree ▸ h.piped).create hne h₀ h1)
    h.full.update.update h.procs)
  · exact (congrArg File.ref hf1).trans (h.counts.ref f₁)
  · intro h0
    have h0 : (s.file f₁).ref = 0 := (congrArg File.ref hf1).symm.trans h0
    have := h.counts.ref f₁
    rw [List.count_cons_self] at this
    omega
  · exact (h.handed.quiet (by rw [h₀]; rfl)).quiet (by rw [hupd]; rfl)

/-- What `pipealloc` ends with: both files in hand, or neither. -/
def PipeMade (s : Sys) (r : Sys × Option (Fin nfile × Fin nfile)) : Prop :=
  Same s r.1 ∧ match r.2 with
    | none => Good [] [] r.1
    | some (f₀, f₁) => Good [f₀, f₁] [] r.1 ∧ r.1.holds f₀ ≠ none ∧ r.1.holds f₁ ≠ none

theorem pipealloc_spec (h : Good [] [] s) : Outcome (fun _ => False) (PipeMade s) s.pipealloc := by
  unfold Sys.pipealloc
  cases ha : s.filealloc with
  | none => exact ⟨Same.refl, h⟩
  | some r =>
    obtain ⟨f₀, s1⟩ := r
    obtain ⟨h1, hsame1, -, hnone0, -⟩ := filealloc_spec h ha
    dsimp only
    cases hb : s1.filealloc with
    | none =>
      exact (fileclose_spec h1).bind fun s' hs => ⟨hsame1.trans hs.2, hs.1⟩
    | some r =>
      obtain ⟨f₁, s2⟩ := r
      obtain ⟨h2, hsame2, hholds, hnone1, hidle⟩ := filealloc_spec h1 hb
      have hsame := hsame1.trans hsame2
      dsimp only
      unfold Sys.kalloc
      cases hfree : s2.free with
      | nil =>
        refine (fileclose_spec h2.swap).bind fun s3 h3 => ?_
        exact (fileclose_spec h3.1).bind fun s4 h4 =>
          ⟨hsame.trans (h3.2.trans h4.2), h4.1⟩
      | cons k free =>
        have hne : f₀ ≠ f₁ := by
          rintro rfl
          have := h1.counts.ref f₀
          rw [List.count_cons_self] at this
          omega
        refine ⟨hsame, openPipe_spec (s := s2) (k := k) h2 hfree hne
          (by rw [hholds]; exact hnone0) hnone1, ?_, ?_⟩
        all_goals rw [openPipe_holds]
        · rw [update_of_ne hne, update_self]
          nofun
        · rw [update_self]
          nofun

theorem sysPipe_spec (h : Good [] [] s) (hp : s.state p = .runnable) (good : Bool) :
    Sound (s.sysPipe p good) := by
  unfold Sys.sysPipe
  split
  · exact h
  refine Outcome.bind ((pipealloc_spec h).imp (fun _ => False.elim) fun _ => id) ?_
  rintro ⟨s1, _ | ⟨rf, wf⟩⟩ ⟨⟨-, hstate, -⟩, h1⟩
  · exact h1
  obtain ⟨h1, hrf, hwf⟩ := h1
  have hlive : Live s1 p := live_of_runnable (by rw [hstate]; exact hp)
  -- both files are given back
  have hback : ∀ {s : Sys}, Good [rf, wf] [] s → Sound (do
      let s ← s.fileclose rf
      let s ← s.fileclose wf
      .ok (-1, s)) := by
    intro s hs
    refine Outcome.bind ((fileclose_spec hs).imp (fun _ => False.elim) fun _ => id) ?_
    intro s' hs'
    exact Outcome.bind ((fileclose_spec hs'.1).imp (fun _ => False.elim) fun _ => id)
      fun _ hs'' => hs''.1
  dsimp only
  cases hr : s1.fdalloc p rf with
  | none => exact hback h1
  | some r =>
    obtain ⟨fd0, s2⟩ := r
    obtain ⟨hfd0, rfl⟩ := fdalloc_eq hr
    have h2 := h1.fill hfd0 hrf hlive
    dsimp only
    cases hw : (s1.setFd p fd0 (some rf)).fdalloc p wf with
    | none => exact hback (h2.clear (update_self ..))
    | some r =>
      obtain ⟨fd1, s3⟩ := r
      obtain ⟨hfd1, rfl⟩ := fdalloc_eq hw
      exact h2.fill hfd1 hwf hlive

-- ======== processes

/-- The child's descriptors, one after another. -/
theorem dupFiles_spec {np : Slot} (hnodup : fds.Nodup)
    (h : Good [] [] s) (hlive : Live s np) (hfds : ∀ fd ∈ fds, s.ofile (np, fd) = none) :
    Outcome (fun _ => False) (fun s' => Good [] [] s' ∧ s'.state = s.state ∧ s'.cwd = s.cwd)
      (s.dupFiles p np fds) := by
  unfold Sys.dupFiles
  induction fds generalizing s with
  | nil => exact ⟨h, rfl, rfl⟩
  | cons fd fds ih =>
    obtain ⟨hnot, hnodup⟩ := List.nodup_cons.1 hnodup
    rw [List.foldlM_cons]
    cases hfd : s.ofile (p, fd) with
    | none => exact ih hnodup h hlive fun fd' hmem => hfds fd' (List.mem_cons_of_mem _ hmem)
    | some f =>
      have href : 1 ≤ (s.file f).ref := by
        have := refs_pos _ hfd
        rw [h.counts.ref f]
        omega
      obtain ⟨s1, hdup, h1, ⟨hofile, hstate, hcwd⟩, hholds⟩ := filedup_spec h href
      dsimp only
      rw [hdup]
      have hlive1 : Live s1 np := by
        unfold Live
        rw [hstate]
        exact hlive
      have h2 : Good [] [] (s1.setFd np fd (some f)) := h1.fill
        (by rw [hofile]; exact hfds fd (List.mem_cons_self ..))
        (by rw [hholds]; exact h.full _ _ hfd) hlive1
      refine (ih hnodup h2 hlive1 fun fd' hmem => ?_).imp (fun _ => id)
        fun s' hs => ⟨hs.1, hs.2.1.trans hstate, hs.2.2.trans hcwd⟩
      have hne : (np, fd') ≠ (np, fd) := by
        intro he
        cases he
        exact hnot hmem
      show update s1.ofile (np, fd) (some f) (np, fd') = none
      rw [update_of_ne hne, hofile]
      exact hfds fd' (List.mem_cons_of_mem _ hmem)

/-- `pipeclose` does not look at descriptors. -/
theorem pipeclose_setFd (v : Option (Fin nfile)) :
    (s.setFd p fd v).pipeclose k w = (s.pipeclose k w).map fun s => s.setFd p fd v := by
  unfold Sys.pipeclose
  rw [show (s.setFd p fd v).pipe k = s.pipe k from rfl]
  cases s.pipe k with
  | none => rfl
  | some e =>
    change (if (e.shut w).readopen = false ∧ (e.shut w).writeopen = false then _ else _)
      = Except.map _ (if (e.shut w).readopen = false ∧ (e.shut w).writeopen = false then _ else _)
    split <;> rfl

/-- `fileclose` does not look at descriptors. -/
theorem fileclose_setFd (v : Option (Fin nfile)) :
    (s.setFd p fd v).fileclose f = (s.fileclose f).map fun s => s.setFd p fd v := by
  unfold Sys.fileclose
  dsimp only
  rw [show (s.setFd p fd v).file f = s.file f from rfl]
  split
  · rfl
  split
  · rfl
  unfold Sys.release
  cases (s.file f).type with
  | fdNone => rfl
  | fdPipe =>
    cases (s.file f).pipe with
    | none => rfl
    | some k => exact pipeclose_setFd (s := (s.setFile f _).note f false _) v
  | fdInode => cases (s.file f).ip <;> rfl

/-- The descriptors of a process that exits, one after another. -/
theorem closeFiles_spec (h : Good [] [] s) :
    Outcome (fun _ => False) (fun s' => Good [] [] s' ∧ s'.state = s.state ∧ s'.cwd = s.cwd
      ∧ (∀ fd ∈ fds, s'.ofile (p, fd) = none)
      ∧ ∀ q fd, s.ofile (q, fd) = none → s'.ofile (q, fd) = none) (s.closeFiles p fds) := by
  unfold Sys.closeFiles
  induction fds generalizing s with
  | nil => exact ⟨h, rfl, rfl, nofun, fun _ _ => id⟩
  | cons fd fds ih =>
    rw [List.foldlM_cons]
    cases hfd : s.ofile (p, fd) with
    | none =>
      refine (ih h).imp (fun _ => id) fun s' ⟨hg, hst, hcwd, hall, hkeep⟩ =>
        ⟨hg, hst, hcwd, fun fd' hmem => ?_, hkeep⟩
      rcases List.mem_cons.1 hmem with rfl | hmem
      · exact hkeep p fd' hfd
      · exact hall fd' hmem
    | some f =>
      -- the descriptor is cleared after the file is closed; the order
      -- does not matter
      have hclose : (s.fileclose f >>= fun s => .ok (s.setFd p fd none))
          = (s.setFd p fd none).fileclose f := by
        rw [fileclose_setFd]
        cases s.fileclose f <;> rfl
      dsimp only
      rw [hclose]
      refine (fileclose_spec (h.clear hfd)).bind fun s1 ⟨h1, hofile, hstate, hcwd⟩ => ?_
      have hnone : ∀ q fd', (q, fd') = (p, fd) ∨ s.ofile (q, fd') = none →
          s1.ofile (q, fd') = none := by
        intro q fd' hor
        rw [hofile]
        show update s.ofile (p, fd) none (q, fd') = none
        by_cases he : (q, fd') = (p, fd)
        · rw [he, update_self]
        · rw [update_of_ne he]
          exact hor.resolve_left he
      refine (ih h1).imp (fun _ => id) fun s' ⟨hg, hst, hcwd', hall, hkeep⟩ =>
        ⟨hg, hst.trans hstate, hcwd'.trans hcwd, fun fd' hmem => ?_,
          fun q fd' hq => hkeep q fd' (hnone q fd' (Or.inr hq))⟩
      rcases List.mem_cons.1 hmem with rfl | hmem
      · exact hkeep p fd' (hnone p fd' (Or.inl rfl))
      · exact hall fd' hmem

/-- A process changes to a state that says no more of it than is so. -/
theorem Good.restate {st : ProcState} (h : Good hand ihand s)
    (hlive : st = .runnable → s.cwd p ≠ none)
    (hgone : st = .unused ∨ st = .zombie → s.cwd p = none ∧ ∀ fd, s.ofile (p, fd) = none) :
    Good hand ihand (s.setState p st) := by
  refine ⟨h.counts, h.booked, h.handed, h.piped, h.full, ⟨fun {q} hq => ?_, fun {q} hq => ?_⟩⟩
  all_goals
    simp only [Sys.setState, update_apply] at hq
    split at hq
  · next he =>
    subst he
    exact hlive hq
  · exact h.procs.live hq
  · next he =>
    subst he
    exact hgone hq
  · exact h.procs.gone hq

/-- A process that is not gone enters a directory. -/
theorem Good.enter (h : Good hand (ip :: ihand) s) (hp : s.cwd p = none) (hlive : Live s p) :
    Good hand ihand (s.setCwd p (some ip)) := by
  refine ⟨h.counts, h.booked, h.handed.enter hp, h.piped, h.full,
    ⟨fun {q} hq => ?_, fun {q} hq => ?_⟩⟩
  · simp only [Sys.setCwd, update_apply]
    split
    · nofun
    · exact h.procs.live hq
  · have hne : q ≠ p := by
      rintro rfl
      exact hq.elim hlive.1 hlive.2
    simp only [Sys.setCwd, update_of_ne hne]
    exact h.procs.gone hq

/-- A process without descriptors is gone, and its directory in hand. -/
theorem Good.depart (h : Good hand ihand s) (hp : s.cwd p = some ip)
    (hfds : ∀ fd, s.ofile (p, fd) = none) :
    Good hand (ip :: ihand) ((s.setCwd p none).setState p .zombie) := by
  refine ⟨h.counts, h.booked, h.handed.leave hp, h.piped, h.full,
    ⟨fun {q} hq => ?_, fun {q} hq => ?_⟩⟩
  all_goals
    simp only [Sys.setState, Sys.setCwd, update_apply] at hq ⊢
    split at hq
  · cases hq
  · next hne =>
    rw [if_neg hne]
    exact h.procs.live hq
  · next he =>
    subst he
    exact ⟨if_pos rfl, hfds⟩
  · next hne =>
    rw [if_neg hne]
    exact h.procs.gone hq

/-- A process goes from one directory to another. -/
theorem Good.chdir (h : Good hand (ip :: ihand) s) (hp : s.cwd p = some old)
    (hst : s.state p = .runnable) : Good hand (old :: ihand) (s.setCwd p (some ip)) := by
  refine ⟨h.counts, h.booked, h.handed.move hp, h.piped, h.full,
    ⟨fun {q} hq => ?_, fun {q} hq => ?_⟩⟩
  · simp only [Sys.setCwd, update_apply]
    split
    · nofun
    · exact h.procs.live hq
  · have hne : q ≠ p := by
      rintro rfl
      exact (live_of_runnable hst).1 (hq.resolve_right (live_of_runnable hst).2)
    simp only [Sys.setCwd, update_of_ne hne]
    exact h.procs.gone hq

theorem fork_spec (h : Good [] [] s) (hp : s.state p = .runnable) (copied : Bool) :
    Sound (s.fork p copied) := by
  unfold Sys.fork
  split
  · exact h
  next np hfind =>
  have hunused : s.state np = .unused := by
    have := List.find?_some hfind
    exact of_decide_eq_true this
  obtain ⟨hcwd, hofile⟩ := h.procs.gone (Or.inl hunused)
  have hne : p ≠ np := by
    rintro rfl
    rw [hp] at hunused
    cases hunused
  split
  · exact h
  have h1 : Good [] [] (s.setState np .embryo) := h.restate nofun nofun
  have hst : (s.setState np .embryo).state np = .embryo := update_self ..
  refine Outcome.bind ((dupFiles_spec (List.nodup_finRange _) h1
    (by unfold Live; rw [hst]; exact ⟨nofun, nofun⟩) fun fd _ => hofile fd).imp
    (fun _ => False.elim) fun _ => id) ?_
  rintro s2 ⟨h2, hstate, hcwds⟩
  have hst2 : s2.state np = .embryo := by rw [hstate, hst]
  cases hpc : s2.cwd p with
  | none =>
    rw [hcwds] at hpc
    exact absurd hpc (h.procs.live hp)
  | some ip =>
    have hin : Good [] [] ((s2.idup ip).setCwd np (some ip)) := by
      refine h2.idup.enter ?_ ⟨?_, ?_⟩
      · show s2.cwd np = none
        rw [hcwds]
        exact hcwd
      all_goals
        show s2.state np ≠ _
        rw [hst2]
        nofun
    refine hin.restate (fun _ => ?_) nofun
    show update s2.cwd np (some ip) np ≠ none
    rw [update_self]
    nofun

theorem exit_spec (h : Good [] [] s) (hp : s.state p = .runnable) : Sound (s.exit p) := by
  unfold Sys.exit
  split
  · exact rfl
  refine Outcome.bind ((closeFiles_spec h).imp (fun _ => False.elim) fun _ => id) ?_
  rintro s1 ⟨h1, hstate, hcwd, hall, -⟩
  cases hpc : s1.cwd p with
  | none =>
    rw [hcwd] at hpc
    exact absurd hpc (h.procs.live hp)
  | some ip => exact (h1.depart hpc fun fd => hall fd (List.mem_finRange fd)).iput

theorem sysChdir_spec (h : Good [] [] s) (hp : s.state p = .runnable)
    (found : Option (Ino × Bool)) : Sound (s.sysChdir p found) := by
  unfold Sys.sysChdir
  rcases found with _ | ⟨ip, dir⟩
  · exact h
  dsimp only
  split
  · exact h.idup.iput
  cases hpc : (s.idup ip).cwd p with
  | none => exact absurd hpc (h.procs.live hp)
  | some old => exact (h.idup.chdir hpc hp).iput

-- ======== runs

/-- A call from a good state ends in a good one. -/
theorem call_spec (h : Good [] [] s) (hp : s.state p = .runnable) (c : Sys.Call) :
    Sound (s.call p c) := by
  cases c with
  | open_ found omode => exact sysOpen_spec h hp found omode
  | dup fd => exact sysDup_spec h hp fd
  | pipe good => exact sysPipe_spec h hp good
  | close fd => exact sysClose_spec h fd
  | fork copied => exact fork_spec h hp copied
  | exit => exact exit_spec h hp
  | chdir found => exact sysChdir_spec h hp found
  | wait child =>
    unfold Sys.call
    dsimp only
    split
    · next hz => exact h.restate nofun fun _ => h.procs.gone (Or.inr hz)
    · exact h

theorem step_good {e : Event} (h : Good [] [] s) (hs : step e s = some s') : Good [] [] s' := by
  cases e with
  | call p c =>
    change (if s.state p = .runnable then (s.call p c).toOption.map Prod.snd else none)
      = some s' at hs
    split at hs
    · next hp =>
      have hspec := call_spec h hp c
      cases hc : s.call p c with
      | error x =>
        rw [hc] at hs
        cases hs
      | ok r =>
        rw [hc] at hs hspec
        cases hs
        exact hspec
    · cases hs
  | pages free =>
    change (if free.Nodup ∧ ∀ k ∈ free, (s.pipe k).isNone then some { s with free := free }
      else none) = some s' at hs
    split at hs
    · next hfree =>
      cases hs
      exact ⟨h.counts, h.booked, h.handed, ⟨h.piped.opened, h.piped.one, h.piped.alive, hfree.1,
          fun k hk => Option.isNone_iff_eq_none.1 (hfree.2 k hk)⟩, h.full, h.procs⟩
    · cases hs

theorem booted_good {free : List Nat} (hfree : free.Nodup) : Good [] [] (booted free) := by
  have hrefs : ∀ f : Fin nfile, refs (booted free).ofile f = 0 := fun f =>
    refs_eq_zero_iff.2 fun _ => nofun
  refine ⟨⟨fun f => ?_, fun _ _ => rfl, fun _ hne => absurd rfl hne⟩, fun _ => rfl,
    fun ip => ?_, ⟨fun k w => ⟨nofun, nofun⟩, nofun, nofun, hfree, fun _ _ => rfl⟩, nofun,
    ⟨fun {p} hp => ?_, fun {p} hp => ⟨?_, fun _ => rfl⟩⟩⟩
  · rw [hrefs]
    rfl
  · have hinos : refs (inos (booted free).holds) ip = 0 := refs_eq_zero_iff.2 fun _ => nofun
    -- the one working directory
    have hcwd : (booted free).cwd = update (fun _ => none) initproc (some rootino) := by
      funext p
      simp only [booted, update_apply]
    have hnone : refs (fun _ : Slot => (none : Option Ino)) ip = 0 :=
      refs_eq_zero_iff.2 fun _ => nofun
    rw [hinos, hcwd, refs_fill rfl, hnone]
    simp only [booted, eq_comm]
    split <;> rfl
  · simp only [booted] at hp ⊢
    split at hp
    · next he =>
      rw [if_pos he]
      nofun
    · cases hp
  · simp only [booted] at hp ⊢
    split at hp
    · rcases hp with hp | hp <;> cases hp
    · next he => rw [if_neg he]

theorem reach_good (h : Reach step Booted s) : Good [] [] s :=
  h.invariant (fun _ ⟨_, hfree, hs⟩ => hs ▸ booted_good hfree) fun _ _ _ hs he => step_good hs he

-- ======== results

/-- The counts as they are between two calls. -/
structure Counted (s : Sys) : Prop where
  /-- `ref` is the number of descriptors. -/
  ref : ∀ f, (s.file f).ref = refs s.ofile f
  idle : ∀ f, (s.file f).ref = 0 → (s.file f).type = .fdNone
  full : ∀ f, (s.file f).ref ≠ 0 → (s.file f).held ≠ none
  /-- What an entry was given it still holds, or has released once. -/
  once : ∀ f, ledger f s.log = some (s.file f).held
  /-- An inode has the references of its entries, and of those whose
  directory it is. -/
  inodes : ∀ ip, s.iref ip
    = ((refs (inos s.holds) ip + refs s.cwd ip : Nat) : Int)
  /-- An end of a pipe is open as long as an entry holds it. -/
  ends : ∀ k w, (∃ e, s.pipe k = some e ∧ e.side w = true)
    ↔ ∃ f, (s.file f).held = some (.pipe k w)
  one : ∀ f g k w, (s.file f).held = some (.pipe k w) → (s.file g).held = some (.pipe k w) → f = g

theorem Good.counted (h : Good [] [] s) : Counted s where
  ref := fun f => by simpa using h.counts.ref f
  idle := h.counts.idle
  full := by
    intro f href hnone
    rw [h.counts.ref f, List.count_nil, Nat.add_zero] at href
    obtain ⟨q, hq⟩ : ∃ q, s.ofile q = some f := by
      by_contra hno
      exact href (refs_eq_zero_iff.2 fun q hq => hno ⟨q, hq⟩)
    exact h.full q f hq hnone
  once := h.booked
  inodes := fun ip => by
    have hip := h.handed ip
    rwa [List.count_nil, Nat.add_zero] at hip
  ends := h.piped.opened
  one := fun _ _ _ _ => h.piped.one

/-- After every sequence of calls the counts are right, and no call panics
in `filedup` or `fileclose`, or uses a pipe that is gone. -/
theorem open_file_counts (h : Reach step Booted s) :
    Counted s ∧ ∀ p c x, s.state p = .runnable → s.call p c = .error x → x = .initExiting := by
  have hgood := reach_good h
  refine ⟨hgood.counted, fun p c x hp hx => ?_⟩
  have hspec := call_spec hgood hp c
  rw [hx] at hspec
  exact hspec

/-- Init opens a file and a pipe and forks; the child duplicates the file,
runs out of pages for a second pipe, closes and exits. The counts are
those of init alone again. -/
theorem open_file_counts_family :
    ∃ s, Reach step Booted s ∧ (s.file ⟨0, by decide⟩).ref = 1 ∧ s.iref 5 = 1 ∧ s.log.length = 3
      ∧ Counted s ∧ ∀ p c x, s.state p = .runnable → s.call p c = .error x → x = .initExiting := by
  obtain ⟨s, hs, hobs⟩ := Reach.eval (s := booted [7]) step
    [.call 0 (.open_ (some (5, false)) 2), .call 0 (.pipe true), .call 0 (.fork true),
      .call 1 (.dup 0), .call 1 (.pipe true), .call 1 (.close 0), .call 1 .exit,
      .call 0 (.wait 1)]
    (fun s => ((s.file ⟨0, by decide⟩).ref, s.iref 5, s.log.length)) (1, 1, 3)
    (show Booted (booted [7]) from ⟨[7], by decide, rfl⟩) (by decide +kernel)
  have hcounts := open_file_counts hs
  exact ⟨s, hs, congrArg Prod.fst hobs, congrArg (fun r => r.2.1) hobs,
    congrArg (fun r => r.2.2) hobs, hcounts⟩

end Xv6Sume32.Ftable
