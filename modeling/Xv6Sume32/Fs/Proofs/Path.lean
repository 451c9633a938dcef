/-
Path resolution (`namex` of `fs.c`) is a fold of `dirlookup` over the
components of the path.

The walk changes the state it reads: an inode without links that nobody
else references is freed when the walk leaves it. `Walked` says what the
state on the way has to do with the one before the call. What was freed
cannot be entered a second time, `ilock` panics, so the entries that are
read are always those before the call.
-/
import Xv6Sume32.Fs.Proofs.Dir

namespace Xv6Sume32.Dir

open Lib Fs
open Function (update update_of_ne update_self update_apply update_idem update_eq_self)

variable {names : List Name} {parent : Bool}

-- ======== components

variable {P : Type} {s t : Dirs P} {ip : Nat}

/-- `dirlookup` of a name in what may not be a directory. -/
def find (s : Dirs P) (ip : Nat) (name : Name) : Option Nat :=
  if (s.inode ip).kind = .dir then (lookup name (s.inode ip).entries 0).map Prod.fst else none

/-- The inode that the components lead to, or the directory that all but
the last lead to with the last. -/
def resolve (s : Dirs P) (ip : Nat) (names : List Name) (parent : Bool) : Option (Nat × Name) :=
  if parent then names.getLast?.bind fun name =>
    ((names.dropLast.foldlM (find s) ip).filter fun dp => (s.inode dp).kind = .dir).map (·, name)
  else (names.foldlM (find s) ip).map (·, [])

/-- The references before, and one to what was found. -/
def held (s : Dirs P) (r : Option (Nat × Name)) : Nat → Nat :=
  r.elim s.ref fun r => update s.ref r.1 (s.ref r.1 + 1)

/-- The walk from `s` has come to `ip` in `t`. -/
structure Walked (s t : Dirs P) (ip : Nat) : Prop where
  ref : t.ref = update s.ref ip (s.ref ip + 1)
  inode : ∀ j, t.inode j = s.inode j ∨ (t.inode j).kind = .free ∧ t.valid j = false

theorem Walked.ilock (h : Walked s t ip) : ilock ip t = .error .noType ∨
    ∃ u, Dir.ilock ip t = .ok ((), u) ∧ Walked s u ip ∧ u.inode ip = s.inode ip := by
  unfold Dir.ilock
  rw [if_neg (by rw [h.ref, update_self]; omega)]
  by_cases hv : t.valid ip = true
  · rw [if_pos hv]
    exact .inr ⟨t, rfl, h, (h.inode ip).resolve_right fun hf => by rw [hv] at hf; cases hf.2⟩
  rw [if_neg hv]
  by_cases hk : (t.inode ip).kind = .free
  · exact .inl (if_pos hk)
  have hip := (h.inode ip).resolve_right fun hf => hk hf.1
  refine .inr ⟨_, if_neg hk, ⟨h.ref, fun j => ?_⟩, hip⟩
  by_cases hj : j = ip
  · exact .inl (hj ▸ hip)
  · exact (h.inode j).imp_right fun hf => ⟨hf.1, (update_of_ne hj ..).trans hf.2⟩

theorem Walked.iput (h : Walked s t ip) : ∃ u, iput ip t = .ok ((), u) ∧ u.ref = s.ref := by
  have hback : update t.ref ip (t.ref ip - 1) = s.ref := by
    rw [h.ref, update_idem, update_self, Nat.add_sub_cancel, update_eq_self]
  unfold Dir.iput
  dsimp only
  split <;> exact ⟨_, rfl, hback⟩

/-- Into the next inode and out of this one. -/
theorem Walked.next (h : Walked s t ip) (i : Nat) :
    ∃ u, Dir.iput ip (t.igot i) = .ok ((), u) ∧ Walked s u i := by
  have href : update (t.igot i).ref ip ((t.igot i).ref ip - 1) = update s.ref i (s.ref i + 1) := by
    unfold Dirs.igot
    rw [h.ref]
    funext j
    simp only [update_apply]
    split_ifs <;> subst_vars <;> first | rfl | omega
  have hinode : ∀ j, (t.igot i).inode j = s.inode j ∨
      ((t.igot i).inode j).kind = .free ∧ (t.igot i).valid j = false := by
    intro j
    refine (h.inode j).imp_right fun hf => ⟨hf.1, ?_⟩
    unfold Dirs.igot
    dsimp only
    split
    · rw [update_apply, hf.2, ite_self]
    · exact hf.2
  unfold Dir.iput
  dsimp only
  split
  · refine ⟨_, rfl, href, fun j => ?_⟩
    by_cases hj : j = ip
    · rw [hj]
      refine .inr ⟨?_, update_self ..⟩
      unfold Dirs.freed
      dsimp only
      rw [update_self]
    · refine (hinode j).imp (fun he => (update_of_ne hj ..).trans he) fun hf => ?_
      exact ⟨(congrArg Node.kind (update_of_ne hj ..)).trans hf.1, (update_of_ne hj ..).trans hf.2⟩
  · exact ⟨_, rfl, href, hinode⟩

/-- Where the walk starts. -/
def start (cwd : Nat) (path : List Byte) : Nat :=
  if path.head? = some slash then rootIno else cwd

/-- A process in a directory that has been removed with the one above it. -/
def removed : Option (Dirs Unit) :=
  [Call.mkdir () [97], .mkdir () [97, 47, 98], .chdir () [97, 47, 98], .unlink () [47, 97, 47, 98],
    .unlink () [47, 97]].foldlM (fun s c => dirStep c s) (mkfsDirs [])

/-- A name next to it makes the kernel panic. -/
theorem namex_freed : ∃ s cwd, removed = some s ∧ s.cwd () = some cwd ∧
    (namex cwd [46, 46, 47, 120] false s).map (fun _ => ()) = .error .noType := by
  have hrun : (removed.bind fun s => (s.cwd ()).map fun cwd =>
      (namex cwd [46, 46, 47, 120] false s).map fun _ => ()) = some (.error .noType) := by
    decide +kernel
  obtain ⟨s, hs, hrun⟩ := Option.bind_eq_some_iff.1 hrun
  obtain ⟨cwd, hcwd, hrun⟩ := Option.map_eq_some_iff.1 hrun
  exact ⟨s, cwd, hs, hcwd, hrun⟩

end Xv6Sume32.Dir
