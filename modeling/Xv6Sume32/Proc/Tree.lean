/-
What the process table is for: a forest of processes, each with its pages.

# The forest

A slot is free, being filled by the process that forks (`making`), taken
by a live process, or by one that has exited and waits for its parent.
The states SLEEPING, RUNNABLE and RUNNING are one kind, and channels,
`killed` and `eax` are not part of it: they decide when something happens,
not what it does to the forest.

# The invariant

`Good` is what every step keeps. Three parts carry it: who is filling a
slot, and how far (`making`); that parents are live; and that every page
has one holder (`Exclusive`). The pids are numbered by `nextpid`, which
does not wrap for as long as there are fewer than 2^31 forks.
-/
import Xv6Sume32.Proc.Table
import Xv6Sume32.Lib.Own

namespace Xv6Sume32.Proc

open Lib

-- ======== the forest

inductive Kind
  | free
  | embryo
  | live
  | zombie
deriving DecidableEq

@[ext]
structure Tree where
  kind : Slot → Kind
  pid : Slot → Word
  parent : Slot → Option Slot
  kstack : Slot → Option Page
  pgdir : Slot → Option Page
  making : Slot → Option (Slot × Stage)
  nextpid : Word
  page : Page → Bool
  forks : Nat
  waits : List (Slot × Option Word)

def ProcState.kind : ProcState → Kind
  | .unused => .free
  | .embryo => .embryo
  | .sleeping | .runnable | .running => .live
  | .zombie => .zombie

theorem ProcState.kind_free {st : ProcState} : st.kind = .free ↔ st = .unused := by
  cases st <;> simp [kind]

theorem ProcState.kind_zombie {st : ProcState} : st.kind = .zombie ↔ st = .zombie := by
  cases st <;> simp [kind]

def Pc.making : Pc → Option (Slot × Stage)
  | .fork np stage => some (np, stage)
  | .user | .wait => none

/-- The forest that a process table stands for. -/
def Ptable.tree (s : Ptable) : Tree where
  kind := fun i => (s.proc i).state.kind
  pid := fun i => (s.proc i).pid
  parent := fun i => (s.proc i).parent
  kstack := fun i => (s.proc i).kstack
  pgdir := fun i => (s.proc i).pgdir
  making := fun p => (s.pc p).making
  nextpid := s.nextpid
  page := s.page
  forks := s.forks
  waits := s.waits

namespace Tree

open Function (update)

/-- `p` gets the pid of its child `i`, whose slot, stack and page table
are free after that. -/
abbrev cleared (t : Tree) (p i : Slot) (k d : Page) : Tree :=
  { t with
    kind := update t.kind i .free
    kstack := update t.kstack i none
    pid := update t.pid i 0
    parent := update t.parent i none
    page := update (update t.page k false) d false
    waits := t.waits ++ [(p, some (t.pid i))] }

/-- What can happen to the forest. -/
inductive Step : Tree → Tree → Prop
  | stay (t : Tree) : Step t t
  | denied (t : Tree) : Step t { t with forks := t.forks + 1 }
  | alloc {t : Tree} {p np : Slot} (hp : t.kind p = .live) (hm : t.making p = none)
      (hf : t.kind np = .free) : Step t { t with
        kind := update t.kind np .embryo
        pid := update t.pid np t.nextpid
        making := update t.making p (some (np, .kalloc))
        nextpid := t.nextpid + 1
        forks := t.forks + 1 }
  | noStack {t : Tree} {p np : Slot} (hm : t.making p = some (np, .kalloc)) : Step t { t with
        kind := update t.kind np .free
        kstack := update t.kstack np none
        making := update t.making p none }
  | stack {t : Tree} {p np : Slot} {k : Page} (hm : t.making p = some (np, .kalloc))
      (hk : t.page k = false) : Step t { t with
        kstack := update t.kstack np (some k)
        making := update t.making p (some (np, .copy))
        page := update t.page k true }
  | noCopy {t : Tree} {p np : Slot} {k : Page} (hm : t.making p = some (np, .copy))
      (hk : t.kstack np = some k) : Step t { t with
        kind := update t.kind np .free
        kstack := update t.kstack np none
        pgdir := update t.pgdir np none
        making := update t.making p none
        page := update t.page k false }
  | copied {t : Tree} {p np : Slot} {d : Page} (hm : t.making p = some (np, .copy))
      (hd : t.page d = false) : Step t { t with
        pgdir := update t.pgdir np (some d)
        parent := update t.parent np (some p)
        making := update t.making p (some (np, .publish))
        page := update t.page d true }
  | publish {t : Tree} {p np : Slot} (hm : t.making p = some (np, .publish)) : Step t { t with
        kind := update t.kind np .live
        making := update t.making p none }
  | exit {t : Tree} {p : Slot} (hp : t.kind p = .live) (hm : t.making p = none)
      (hi : p ≠ initproc) : Step t { t with
        kind := update t.kind p .zombie
        parent := fun i => if t.parent i = some p then some initproc else t.parent i }
  | reap {t : Tree} {p i : Slot} {k d : Page} (hi : t.kind i = .zombie)
      (hp : t.parent i = some p) (hk : t.kstack i = some k) (hd : t.pgdir i = some d) :
      Step t (t.cleared p i k d)
  | alone (t : Tree) (p : Slot) : Step t { t with waits := t.waits ++ [(p, none)] }

-- ======== the pages

/-- What a slot holds a page for. -/
inductive Role
  | stack
  | dir
deriving DecidableEq

/-- The page table of a slot is its own, and not what the process before
has left in `pgdir`. -/
def hasDir (t : Tree) (i : Slot) : Prop :=
  t.kind i = .live ∨ t.kind i = .zombie ∨ ∃ p, t.making p = some (i, .publish)

def holds (t : Tree) : Slot × Role → Page → Prop
  | (i, .stack), k => t.kstack i = some k
  | (i, .dir), k => t.pgdir i = some k ∧ t.hasDir i

-- ======== the invariant

/-- How far `fork` has got with the slot it fills. -/
def Filled (t : Tree) (p i : Slot) : Stage → Prop
  | .kalloc => t.parent i = none ∧ t.kstack i = none
  | .copy => t.parent i = none ∧ (t.kstack i).isSome
  | .publish => t.parent i = some p ∧ (t.kstack i).isSome ∧ (t.pgdir i).isSome

/-- The pids that calls of `wait` have returned. -/
def reaped (t : Tree) : List Word := t.waits.filterMap (·.2)

/-- Pids are given out in order. -/
structure Numbered (t : Tree) : Prop where
  next : t.nextpid.toNat ≤ t.forks + 2
  below : ∀ i, t.kind i ≠ .free → (t.pid i).toNat < t.nextpid.toNat
  distinct : ∀ i j, t.kind i ≠ .free → t.kind j ≠ .free → t.pid i = t.pid j → i = j
  gone : ∀ x ∈ t.reaped, x.toNat < t.nextpid.toNat ∧ ∀ i, t.kind i ≠ .free → t.pid i ≠ x
  once : t.reaped.Nodup

structure Good (t : Tree) : Prop where
  free : ∀ i, t.kind i = .free → t.parent i = none ∧ t.kstack i = none
  making : ∀ p i stage, t.making p = some (i, stage) →
    t.kind p = .live ∧ t.kind i = .embryo ∧ t.Filled p i stage
  one : ∀ p q i stage stage', t.making p = some (i, stage) → t.making q = some (i, stage') → p = q
  parent : ∀ i q, t.parent i = some q → t.kind q = .live
  init : t.kind initproc = .live
  grown : ∀ i, t.kind i = .live ∨ t.kind i = .zombie → (t.kstack i).isSome ∧ (t.pgdir i).isSome
  pages : Exclusive t.holds (t.page · = true)
  pids : t.forks < 2 ^ 31 → t.Numbered

end Tree

end Xv6Sume32.Proc
