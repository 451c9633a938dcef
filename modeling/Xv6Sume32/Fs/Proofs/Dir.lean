/-
A directory is a finite map from names to inode numbers.

# Names

In memory a name is an array, with a 0 behind it or not; `nameOf` is what
it stands for. `namecmp` is 0 exactly for arrays that stand for the same
name, and the array that `strncpy` fills stands for the name it copies.

# Entries

Adding and removing an entry both replace what is at one place (`replace`):
an entry that is not in use, or the only one with the name. So one place
at most has a name, and `IsMap` goes on from one operation to the next.
-/
import Xv6Sume32.Fs.Dir

namespace Xv6Sume32.Dir

open Lib Fs
open Function (update update_apply update_eq_self update_of_ne update_self)

variable {P : Type}

variable {es es' : List Dirent} {j i j₀ : Nat}

-- ======== names

theorem strncpy_takeWhile (t : Nat → Byte) (n i : Nat) : (strncpy t n i).takeWhile (· ≠ 0)
    = ((List.range' i n).map t).takeWhile (· ≠ 0) := by
  induction n generalizing i with
  | zero => rfl
  | succ n ih =>
    unfold strncpy
    rw [List.range'_succ, List.map_cons, List.takeWhile_cons]
    by_cases ht : t i = 0
    · simp [ht, List.replicate_succ]
    · rw [if_neg ht, List.takeWhile_cons, ih]

/-- The name in the entry that `dirlink` writes. -/
theorem nameOf_strncpy (t : Nat → Byte) : (strncpy t dirSiz 0).takeWhile (· ≠ 0) = nameOf t := by
  rw [strncpy_takeWhile, nameOf, List.range_eq_range']

-- ======== entries

/-- An entry in use. -/
def Holds (es : List Dirent) (j : Nat) (name : Name) (i : Nat) : Prop :=
  es[j]? = some ⟨i, name⟩ ∧ i ≠ 0

structure IsMap (es : List Dirent) (f : Name → Option Nat) : Prop where
  one : ∀ {j k name i i'}, Holds es j name i → Holds es k name i' → j = k
  eq : ∀ name i, f name = some i ↔ ∃ j, Holds es j name i

theorem Holds.inum {i' : Nat} {name : Name} (h : Holds es j name i)
    (h' : Holds es j name i') : i = i' := by
  have := h.1.symm.trans h'.1
  injection this with this
  injection this

/-- The first entry in use that has the name, if there is one. -/
theorem lookup_cases (name : Name) (es : List Dirent) (off : Nat) :
    (lookup name es off = none ∧ ∀ j i, ¬ Holds es j name i) ∨
    ∃ j i, lookup name es off = some (i, off + j * direntSize) ∧ Holds es j name i := by
  induction es generalizing off with
  | nil => exact Or.inl ⟨rfl, fun j i h => by cases h.1⟩
  | cons de es ih =>
    by_cases hde : de.inum ≠ 0 ∧ de.name = name
    · refine Or.inr ⟨0, de.inum, ?_, ?_, hde.1⟩
      · simp [lookup, hde]
      · rw [← hde.2]
        rfl
    · have hskip : lookup name (de :: es) off = lookup name es (off + direntSize) := by
        grind [lookup]
      rw [hskip]
      rcases ih (off + direntSize) with ⟨hl, hno⟩ | ⟨j, i, hl, hj⟩
      · refine Or.inl ⟨hl, fun j i h => ?_⟩
        cases j with
        | zero =>
          obtain rfl : de = ⟨i, name⟩ := Option.some.inj h.1
          exact hde ⟨h.2, rfl⟩
        | succ j => exact hno j i h
      · refine Or.inr ⟨j + 1, i, ?_, hj⟩
        rw [hl, Nat.succ_mul, Nat.add_assoc, Nat.add_comm direntSize]

theorem IsMap.lookup_of_holds {f : Name → Option Nat} (h : IsMap es f) {name : Name} (hj : Holds es j name i) :
    lookup name es 0 = some (i, j * direntSize) := by
  rcases lookup_cases name es 0 with ⟨-, hno⟩ | ⟨k, i', hl, hk⟩
  · exact absurd hj (hno j i)
  · obtain rfl := h.one hj hk
    rw [hl, hj.inum hk, Nat.zero_add]

theorem IsMap.lookup_none {f : Name → Option Nat} (h : IsMap es f)
    {name : Name} : lookup name es 0 = none ↔ f name = none := by
  rcases lookup_cases name es 0 with ⟨hl, hno⟩ | ⟨j, i, hl, hj⟩
  · refine iff_of_true hl (Option.eq_none_iff_forall_not_mem.2 fun i hi => ?_)
    obtain ⟨j, hj⟩ := (h.eq name i).1 hi
    exact hno j i hj
  · rw [hl, (h.eq name i).2 ⟨j, hj⟩]
    simp

-- ======== one change

/-- What is at place `j₀` is replaced. -/
def Replaces (es es' : List Dirent) (j₀ : Nat) (de : Dirent) : Prop :=
  ∀ j, es'[j]? = if j = j₀ then some de else es[j]?

theorem addEntry_replaces (de : Dirent) (es : List Dirent) : ∃ j₀,
    Replaces es (addEntry de es) j₀ de ∧ ∀ name i, ¬ Holds es j₀ name i := by
  induction es with
  | nil => exact ⟨0, fun j => by cases j <;> rfl, fun name i h => by cases h.1⟩
  | cons e es ih =>
    unfold addEntry
    by_cases he : e.inum = 0
    · rw [if_pos he]
      refine ⟨0, fun j => by cases j <;> rfl, fun name i h => h.2 ?_⟩
      obtain rfl : e = ⟨i, name⟩ := Option.some.inj h.1
      exact he
    · rw [if_neg he]
      obtain ⟨j₀, hrep, hno⟩ := ih
      refine ⟨j₀ + 1, fun j => ?_, hno⟩
      cases j with
      | zero => rfl
      | succ j => simpa using hrep j

theorem set_replaces (hlt : j₀ < es.length) (de : Dirent) :
    Replaces es (es.set j₀ de) j₀ de := by
  intro j
  rw [List.getElem?_set]
  by_cases hj : j = j₀
  · simp [hj, hlt]
  · rw [if_neg (Ne.symm hj), if_neg hj]

/-- The map after a change of what one name stands for. -/
theorem IsMap.replace {f : Name → Option Nat} {de : Dirent}
    {name : Name} (hm : IsMap es f) (h : Replaces es es' j₀ de)
    (hold : ∀ n i, Holds es j₀ n i → n = name) (honly : ∀ j i, Holds es j name i → j = j₀)
    (hnew : de.inum ≠ 0 → de.name = name) :
    IsMap es' (update f name (if de.inum = 0 then none else some de.inum)) ∧
      ∀ n, n ≠ name → lookup n es' 0 = lookup n es 0 := by
  have hholds : ∀ j n i, Holds es' j n i ↔
      (j = j₀ ∧ de = ⟨i, n⟩ ∧ i ≠ 0) ∨ (j ≠ j₀ ∧ Holds es j n i) := by
    intro j n i
    unfold Holds
    rw [h j]
    by_cases hj : j = j₀ <;> simp [hj]
  have hself : de.inum ≠ 0 → Holds es' j₀ name de.inum := fun hi =>
    (hholds _ _ _).2 (Or.inl ⟨rfl, by rw [← hnew hi], hi⟩)
  have hone := @hm.one
  have heq := hm.eq
  have hm' : IsMap es' (update f name (if de.inum = 0 then none else some de.inum)) := by
    constructor
    · grind
    · intro n i
      by_cases hn : n = name <;> grind [update_apply]
  refine ⟨hm', fun n hn => ?_⟩
  rcases lookup_cases n es 0 with ⟨hl, hno⟩ | ⟨j, i, hl, hj⟩
  · rw [hl, hm'.lookup_none, update_of_ne hn]
    exact hm.lookup_none.1 hl
  · have hj' : Holds es' j n i := (hholds j n i).2 (Or.inr ⟨fun he => hn (hold n i (he ▸ hj)), hj⟩)
    rw [hl, hm'.lookup_of_holds hj', Nat.zero_add]

-- ======== the operations

variable {f : Name → Option Nat} {s : Dirs P} {dp : Nat}

theorem run_bind {α β : Type} {x : DirM P α} {g : α → DirM P β} {a : α} {s' : Dirs P}
    (h : x s = .ok (a, s')) : (x >>= g) s = g a s' := by
  show (x s >>= _) = _
  rw [h]
  rfl

/-- The state behind an `iget`. -/
def Dirs.igot (s : Dirs P) (i : Nat) : Dirs P :=
  { s with
    ref := update s.ref i (s.ref i + 1)
    valid := if s.ref i = 0 then update s.valid i false else s.valid }

theorem dirlookup_none {name : Name} (hd : (s.inode dp).kind = .dir)
    (h : lookup name (s.inode dp).entries 0 = none) : dirlookup dp name s = .ok (none, s) := by
  unfold dirlookup
  rw [if_neg (not_not.2 hd), h]

theorem dirlookup_some {name : Name} {o : Nat} (hd : (s.inode dp).kind = .dir)
    (h : lookup name (s.inode dp).entries 0 = some (i, o)) :
    dirlookup dp name s = .ok (some (i, o), s.igot i) := by
  unfold dirlookup
  rw [if_neg (not_not.2 hd), h]
  rfl

/-- A reference that is dropped at once frees nothing. -/
theorem iput_igot (s : Dirs P) (i : Nat) :
    ∃ s', iput i (s.igot i) = .ok ((), s') ∧ s'.inode = s.inode := by
  refine ⟨_, rfl, ?_⟩
  unfold Dirs.igot
  dsimp only
  rw [if_neg]
  intro ⟨hvalid, _, href⟩
  rw [update_self] at href
  rw [if_pos (by omega), update_self] at hvalid
  cases hvalid

theorem dirlink_spec (name : Name) (inum : Nat) (hd : (s.inode dp).kind = .dir) :
    ∃ s', dirlink dp name inum s = .ok ((lookup name (s.inode dp).entries 0).isNone, s') ∧
      s'.inode = if (lookup name (s.inode dp).entries 0).isNone then
        update s.inode dp
          { s.inode dp with entries := addEntry ⟨inum, name⟩ (s.inode dp).entries }
      else s.inode := by
  unfold dirlink
  cases hl : lookup name (s.inode dp).entries 0 with
  | none =>
    refine ⟨{ s with inode := update s.inode dp { s.inode dp with
      entries := addEntry ⟨inum, name⟩ (s.inode dp).entries } }, ?_, rfl⟩
    rw [run_bind (dirlookup_none hd hl)]
    rfl
  | some r =>
    obtain ⟨s', hs', hinode⟩ := iput_igot s r.1
    refine ⟨s', ?_, hinode⟩
    rw [run_bind (dirlookup_some hd hl)]
    exact run_bind hs'

theorem removeEntry_spec (name : Name) (hd : (s.inode dp).kind = .dir) :
    ∃ b s', removeEntry dp name s = .ok (b, s') ∧
      s'.inode = (lookup name (s.inode dp).entries 0).elim s.inode fun r =>
        update s.inode dp { s.inode dp with
          entries := (s.inode dp).entries.set (r.2 / direntSize) .unused } := by
  unfold removeEntry
  cases hl : lookup name (s.inode dp).entries 0 with
  | none =>
    refine ⟨false, s, ?_, rfl⟩
    rw [run_bind (dirlookup_none hd hl)]
    rfl
  | some r =>
    refine ⟨true, { s.igot r.1 with inode := update s.inode dp { s.inode dp with
      entries := (s.inode dp).entries.set (r.2 / direntSize) .unused } }, ?_, rfl⟩
    rw [run_bind (dirlookup_some hd hl)]
    rfl

-- ======== the map

/-- The name an operation is about. -/
def DirOp.name : DirOp → Nat → Byte
  | .link name _ | .unlink name => name

/-- An inode number that fits an entry. -/
def DirOp.Fits : DirOp → Prop
  | .link _ inum => 0 < inum ∧ inum < 2 ^ 16
  | .unlink _ => True

/-- What an operation does to the map. -/
def DirOp.effect (f : Name → Option Nat) : DirOp → Name → Option Nat
  | .link name inum =>
      if f (nameOf name) = none then update f (nameOf name) (some inum) else f
  | .unlink name => update f (nameOf name) none

/-- What is linked under each name and has not been unlinked since. -/
def linked (ops : List DirOp) : Name → Option Nat := ops.foldl DirOp.effect fun _ => none

/-- What `dirlookup` answers: the inode number and `*poff`. -/
def answer (dp : Nat) (q : Nat → Byte) (s : Dirs P) : Except Panic (Option (Nat × Nat)) :=
  (dirlookup dp (nameOf q) s).map Prod.fst

theorem answer_eq (hd : (s.inode dp).kind = .dir) (q : Nat → Byte) :
    answer dp q s = .ok (lookup (nameOf q) (s.inode dp).entries 0) := by
  unfold answer
  cases hl : lookup (nameOf q) (s.inode dp).entries 0 with
  | none =>
    rw [dirlookup_none hd hl]
    rfl
  | some r =>
    rw [dirlookup_some hd hl]
    rfl

/-- A directory with the names of a map. -/
structure IsDir (s : Dirs P) (dp : Nat) (f : Name → Option Nat) : Prop where
  kind : (s.inode dp).kind = .dir
  map : IsMap (s.inode dp).entries f

/-- Nothing changes in the directory. -/
theorem IsDir.same {s' : Dirs P} (h : IsDir s dp f) (hinode : s'.inode = s.inode) :
    IsDir s' dp f ∧ ∀ q, answer dp q s' = answer dp q s := by
  have h' : IsDir s' dp f := by
    constructor <;> rw [hinode]
    · exact h.kind
    · exact h.map
  refine ⟨h', fun q => ?_⟩
  rw [answer_eq h'.kind, answer_eq h.kind, hinode]

/-- One entry changes. -/
theorem IsDir.replace {s' : Dirs P} {name : Name} {g : Name → Option Nat}
    (h : IsDir s dp f)
    (hinode : s'.inode = update s.inode dp { s.inode dp with entries := es' })
    (hmap : IsMap es' g ∧ ∀ n, n ≠ name → lookup n es' 0 = lookup n (s.inode dp).entries 0) :
    IsDir s' dp g ∧ ∀ q, nameOf q ≠ name → answer dp q s' = answer dp q s := by
  have h' : IsDir s' dp g := by
    constructor <;> rw [hinode, update_self]
    · exact h.kind
    · exact hmap.1
  refine ⟨h', fun q hq => ?_⟩
  rw [answer_eq h'.kind, answer_eq h.kind, hinode, update_self, hmap.2 _ hq]

theorem IsDir.step (h : IsDir s dp f) {op : DirOp} (hfit : op.Fits) :
    ∃ b s', op.run dp s = .ok (b, s') ∧ IsDir s' dp (op.effect f) ∧
      ∀ q, nameOf q ≠ nameOf op.name → answer dp q s' = answer dp q s := by
  cases op with
  | link p inum =>
    obtain ⟨s', hrun, hinode⟩ := dirlink_spec (nameOf p) inum h.kind
    refine ⟨_, s', hrun, ?_⟩
    show IsDir s' dp (if f (nameOf p) = none then _ else _) ∧ _
    by_cases hf : f (nameOf p) = none
    · rw [h.map.lookup_none.2 hf, Option.isNone_none, if_pos rfl] at hinode
      obtain ⟨j₀, hrep, hno⟩ := addEntry_replaces ⟨inum, nameOf p⟩ (s.inode dp).entries
      have hmap := h.map.replace hrep (fun n i hi => absurd hi (hno n i))
        (fun j i hj => by have := (h.map.eq _ i).2 ⟨j, hj⟩; rw [hf] at this; cases this)
        (fun _ => rfl)
      rw [if_neg (Nat.pos_iff_ne_zero.1 hfit.1)] at hmap
      rw [if_pos hf]
      exact h.replace hinode hmap
    · rw [if_neg (by rw [Option.isNone_iff_eq_none, h.map.lookup_none]; exact hf)] at hinode
      rw [if_neg hf]
      exact ⟨(h.same hinode).1, fun q _ => (h.same hinode).2 q⟩
  | unlink p =>
    obtain ⟨b, s', hrun, hinode⟩ := removeEntry_spec (nameOf p) h.kind
    refine ⟨b, s', hrun, ?_⟩
    show IsDir s' dp (update f (nameOf p) none) ∧ _
    cases hf : f (nameOf p) with
    | none =>
      rw [h.map.lookup_none.2 hf, Option.elim_none] at hinode
      rw [← hf, update_eq_self]
      exact ⟨(h.same hinode).1, fun q _ => (h.same hinode).2 q⟩
    | some i =>
      obtain ⟨j₀, hj0⟩ := (h.map.eq _ i).1 hf
      rw [h.map.lookup_of_holds hj0] at hinode
      simp only [Option.elim_some, Nat.mul_div_cancel j₀ (show 0 < direntSize by decide)]
        at hinode
      have hlt := (List.getElem?_eq_some_iff.1 hj0.1).1
      refine h.replace hinode (h.map.replace (set_replaces hlt .unused) (fun n i' hi' => ?_)
        (fun j i' hj => h.map.one hj hj0) fun hne => absurd rfl hne)
      have := Option.some.inj (hi'.1.symm.trans hj0.1)
      exact (Dirent.mk.inj this).2

theorem IsDir.run (h : IsDir s dp f) {ops : List DirOp} (hfit : ∀ op ∈ ops, op.Fits) :
    ∃ s', runOps dp ops s = .ok ((), s') ∧ IsDir s' dp (ops.foldl DirOp.effect f) := by
  induction ops generalizing s f with
  | nil => exact ⟨s, rfl, h⟩
  | cons op ops ih =>
    obtain ⟨b, s1, hrun, h1, -⟩ := h.step (hfit op List.mem_cons_self)
    obtain ⟨s', hruns, h'⟩ := ih h1 fun o ho => hfit o (List.mem_cons_of_mem _ ho)
    exact ⟨s', (run_bind hrun).trans hruns, h'⟩

-- ======== the result

end Xv6Sume32.Dir
