/-
Two memories that differ in their free pages.

# The relation

`Alike D m m'` is that two memories have the same free pages, in the same
order, and hold the same in every page that is not free, but for the pages
of `D`. Nothing of the kernel looks into a page before it is its own: what
`kalloc` gives comes from the list, and what `kfree` writes is the list.
So a function that runs in both goes the same way, and what it gives out
is the same.

# Pages between free and written

A page that was just allocated holds what was in it. It stands in `D` until
something is written to all of it, or it is freed again. `fork` never
writes to the kernel stack here, and the stack stays in `D`.

# What is read

`copyuvm`, `loaduvm` and `copyout` look into pages. That these are not free
is what the first of the two memories knows (`Held`, `Img`).
-/
import Xv6Sume32.Vm.Proofs.Shape

namespace Xv6Sume32.Vm

open Lib
open Proc (Slot initproc nproc)

-- ======== the relation

def SamePage (page page' : Page) : Prop := ∀ o, o < pgsize → page' o = page o

structure Alike (D : Nat → Prop) (m m' : Kmem) : Prop where
  first : m'.first = m.first
  top : m'.top = m.top
  free : m'.free = m.free
  limit : m'.limit = m.limit
  mem : ∀ k, k ∉ m.free → ¬ D k → SamePage (m.mem k) (m'.mem k)

/-- Memories that are alike, and the same value. -/
def AlikeFst {α : Type} (D : Nat → Prop) (x y : Kmem × α) : Prop :=
  Alike D x.1 y.1 ∧ y.2 = x.2

/-- The same, with a value on either side. -/
def AlikeMid {α β : Type} (D : Nat → Prop) (x y : α × Kmem × β) : Prop :=
  y.1 = x.1 ∧ AlikeFst D x.2 y.2

section Alike

variable {D : Nat → Prop} {m m' m1 : Kmem} {f : Nat} {page page' : Page} {pd : Pgdir}

theorem Alike.mono {D' : Nat → Prop} (h : Alike D m m') (hD : ∀ k, D k → D' k) : Alike D' m m' :=
  { h with mem := fun k hk hn => h.mem k hk fun hd => hn (hD k hd) }

theorem Alike.kalloc_none (h : Alike D m m') (hk : m.kalloc = none) : m'.kalloc = none := by
  unfold Kmem.kalloc at hk ⊢
  rw [h.limit, h.free]
  revert hk
  cases m.limit <;> cases m.free <;> simp

theorem free_of_kalloc (hk : m.kalloc = some (f, m1)) : m.free = f :: m1.free := by
  unfold Kmem.kalloc at hk
  split at hk
  · next hfree =>
    cases hk
    exact hfree
  · cases hk

theorem Alike.kalloc (h : Alike D m m') (hk : m.kalloc = some (f, m1)) :
    ∃ m1', m'.kalloc = some (f, m1') ∧ Alike (fun k => D k ∨ k = f) m1 m1' := by
  have hcons := free_of_kalloc hk
  unfold Kmem.kalloc at hk ⊢
  rw [h.limit, h.free]
  split at hk
  · next limit f' free hlimit hfree =>
    cases hk
    refine ⟨{ m' with free := free, limit := limit }, rfl,
      ⟨h.first, h.top, rfl, rfl, fun k hk hn => h.mem k ?_ fun hd => hn (Or.inl hd)⟩⟩
    rw [hcons, List.mem_cons, not_or]
    exact ⟨fun he => hn (Or.inr he), hk⟩
  · cases hk

/-- The same is written to a page. -/
theorem Alike.write (h : Alike (fun k => D k ∨ k = f) m m') (hp : D f ∨ SamePage page page') :
    Alike D (m.write f page) (m'.write f page') := by
  refine ⟨h.first, h.top, h.free, h.limit, fun k hk hn => ?_⟩
  by_cases hkf : k = f
  · rw [hkf, Kmem.write_mem, Kmem.write_mem]
    rw [hkf] at hn
    exact hp.resolve_left hn
  · rw [Kmem.write_mem_of_ne _ hkf, Kmem.write_mem_of_ne _ hkf]
    exact h.mem k hk fun hd => hd.elim hn hkf

/-- A page that is freed holds the same in both. -/
theorem Alike.kfree (h : Alike (fun k => D k ∨ k = f) m m') :
    Both (Alike D) (m.kfree f) (m'.kfree f) := by
  unfold Kmem.kfree
  rw [h.first, h.top, h.free]
  split
  · exact .error _
  split
  · exact .error _
  refine .ok ⟨h.first, h.top, rfl, h.limit, fun k hk hn => ?_⟩
  have hkf : k ≠ f := fun he => hk (he ▸ List.mem_cons_self)
  show SamePage ((m.write f _).mem k) ((m'.write f _).mem k)
  rw [Kmem.write_mem_of_ne _ hkf, Kmem.write_mem_of_ne _ hkf]
  exact h.mem k (fun hmem => hk (List.mem_cons_of_mem f hmem)) fun hd => hd.elim hn hkf

theorem Alike.walkpgdir (h : Alike D m m') (pd : Pgdir) (v : Nat) :
    (walkpgdir m pd v = none ∧ walkpgdir m' pd v = none) ∨
      ∃ m1 m1' pd1, walkpgdir m pd v = some (m1, pd1) ∧ walkpgdir m' pd v = some (m1', pd1) ∧
        Alike D m1 m1' ∧ m1.free ⊆ m.free := by
  unfold Vm.walkpgdir
  cases pd.tables (v / npt) with
  | some t => exact Or.inr ⟨m, m', pd, rfl, rfl, h, List.Subset.refl _⟩
  | none =>
    cases hk : m.kalloc with
    | none =>
      rw [h.kalloc_none hk]
      exact Or.inl ⟨rfl, rfl⟩
    | some r =>
      obtain ⟨f, m1⟩ := r
      obtain ⟨m1', hk', h1⟩ := h.kalloc hk
      have hfree := free_of_kalloc hk
      rw [hk']
      refine Or.inr ⟨_, _, _, rfl, rfl, h1.write (Or.inr fun _ _ => rfl), ?_⟩
      rw [hfree]
      exact List.subset_cons_self ..

theorem Alike.mappages (h : Alike D m m') (pd : Pgdir) (v : Nat) (e : Pte) :
    (mappages m pd v e = .error .remap ∧ mappages m' pd v e = .error .remap) ∨
      (mappages m pd v e = .ok none ∧ mappages m' pd v e = .ok none) ∨
      ∃ m1 m1' pd1, mappages m pd v e = .ok (some (m1, pd1)) ∧
        mappages m' pd v e = .ok (some (m1', pd1)) ∧ Alike D m1 m1' ∧ m1.free ⊆ m.free := by
  unfold Vm.mappages
  rcases h.walkpgdir pd v with ⟨hw, hw'⟩ | ⟨m1, m1', pd1, hw, hw', h1, hfree⟩
  · rw [hw, hw']
    exact Or.inr (Or.inl ⟨rfl, rfl⟩)
  · rw [hw, hw']
    dsimp only
    split
    · exact Or.inl ⟨rfl, rfl⟩
    · exact Or.inr (Or.inr ⟨_, _, _, rfl, rfl, h1, hfree⟩)

-- ======== giving back

theorem Alike.deallocLoop (h : Alike D m m') (last fuel v : Nat) :
    Both (AlikeFst D) (deallocLoop last fuel v m pd) (deallocLoop last fuel v m' pd) := by
  induction fuel generalizing v m m' pd with
  | zero => exact .ok ⟨h, rfl⟩
  | succ fuel ih =>
    unfold Vm.deallocLoop
    split
    swap
    · exact .ok ⟨h, rfl⟩
    cases pd.tables (v / npt) with
    | none => exact ih h _
    | some t =>
      cases pd.ptes v with
      | none => exact ih h _
      | some e => exact ((h.mono fun _ => Or.inl).kfree (f := e.frame)).bind fun _ _ h1 => ih h1 _

theorem Alike.deallocuvm (h : Alike D m m') (oldsz newsz : Nat) :
    Both (AlikeMid D) (deallocuvm m pd oldsz newsz) (deallocuvm m' pd oldsz newsz) := by
  unfold Vm.deallocuvm
  split
  · exact .ok ⟨rfl, h, rfl⟩
  · exact (h.deallocLoop _ _ _).bind fun _ _ h1 => .ok ⟨rfl, h1⟩

theorem Alike.freeTables (h : Alike D m m') (tables : Nat → Option Nat) (ds : List Nat) :
    Both (Alike D)
      (ds.foldlM (fun m d => match tables d with | some f => m.kfree f | none => .ok m) m)
      (ds.foldlM (fun m d => match tables d with | some f => m.kfree f | none => .ok m) m') := by
  refine Both.foldlM (fun m m' d hm => ?_) h
  cases tables d with
  | none => exact .ok hm
  | some f => exact (hm.mono fun _ => Or.inl).kfree

theorem Alike.freevm (h : Alike D m m') (pd : Pgdir) :
    Both (Alike D) (freevm m pd) (freevm m' pd) := by
  unfold Vm.freevm
  generalize List.range npt = ds
  refine (h.deallocuvm kernbase 0).bind ?_
  rintro ⟨r, m1, pd1⟩ ⟨r', m1', pd1'⟩ ⟨-, h1, hpd⟩
  cases hpd
  exact (h1.freeTables pd1.tables ds).bind fun _ _ h2 =>
    (h2.mono fun _ => Or.inl).kfree

/-- A page directory that is given up. -/
theorem Alike.giveUp {α : Type} (h : Alike D m m') (pd : Pgdir) (a : α) :
    Both (AlikeFst D) (do let m ← Vm.freevm m pd; .ok (m, a))
      (do let m ← Vm.freevm m' pd; .ok (m, a)) :=
  (h.freevm pd).bind fun _ _ h1 => .ok ⟨h1, rfl⟩

-- ======== new spaces

theorem Alike.kmapLoop (h : Alike D m m') (ds : List Nat) :
    Both (AlikeFst D) (kmapLoop ds m pd) (kmapLoop ds m' pd) := by
  induction ds generalizing m m' pd with
  | nil => exact .ok ⟨h, rfl⟩
  | cons d ds ih =>
    unfold Vm.kmapLoop
    rcases h.walkpgdir pd (npt * d) with ⟨hw, hw'⟩ | ⟨m1, m1', pd1, hw, hw', h1, -⟩
    · rw [hw, hw']
      exact h.giveUp pd none
    · rw [hw, hw']
      exact ih h1

theorem Alike.setupkvm (h : Alike D m m') : Both (AlikeFst D) (setupkvm m) (setupkvm m') := by
  unfold Vm.setupkvm
  cases hk : m.kalloc with
  | none =>
    rw [h.kalloc_none hk]
    exact .ok ⟨h, rfl⟩
  | some r =>
    obtain ⟨f, m1⟩ := r
    obtain ⟨m1', hk', h1⟩ := h.kalloc hk
    rw [hk']
    exact (h1.write (Or.inr fun _ _ => rfl)).kmapLoop kmapDirs

-- ======== growing

variable {R : Nat → Prop} {w : Bool} {oldsz newsz N : Nat} {F : List Nat}
  {fill : Nat → Nat → Kmem → Pgdir → Except VmPanic Page}

/-- The loop goes the same way if what a page is filled with is the same,
or the page need not be. -/
theorem Alike.growLoop
    (hfill : ∀ i f m m1 m1' pd, i < N → Held R m pd → m.free ⊆ F → m.kalloc = some (f, m1) →
      Alike (fun k => D k ∨ k = f) m1 m1' →
      Both (fun page page' => D f ∨ SamePage page page') (fill i f m1 pd) (fill i f m1' pd))
    (n : Nat) {i : Nat} (hn : i + n ≤ N) (hd : Held R m pd) (hF : m.free ⊆ F) (h : Alike D m m') :
    Both (AlikeMid D) (growLoop w fill oldsz newsz n i m pd)
      (growLoop w fill oldsz newsz n i m' pd) := by
  induction n generalizing i m m' pd with
  | zero => exact .ok ⟨rfl, h, rfl⟩
  | succ n ih =>
    unfold Vm.growLoop
    cases hk : m.kalloc with
    | none =>
      rw [h.kalloc_none hk]
      exact (h.deallocuvm newsz oldsz).bind fun _ _ hr => .ok ⟨rfl, hr.2⟩
    | some r =>
      obtain ⟨f, m1⟩ := r
      obtain ⟨m1', hk', h1⟩ := h.kalloc hk
      have hfree := free_of_kalloc hk
      rw [hk']
      refine (hfill i f m m1 m1' pd (by omega) hd hF hk h1).bind fun page page' hp => ?_
      have h2 := h1.write hp
      rcases h2.mappages pd (npages oldsz + i) ⟨f, w, true⟩ with
        ⟨hm, hm'⟩ | ⟨hm, hm'⟩ | ⟨m2, m2', pd2, hm, hm', h3, hsub⟩
      · rw [hm, hm']
        exact .error _
      · rw [hm, hm']
        refine (h2.deallocuvm newsz oldsz).bind fun x y hr => ?_
        obtain ⟨-, hmem, hpd⟩ := hr
        refine ((hmem.mono fun _ => Or.inl).kfree (f := f)).bind fun _ _ h4 => .ok ⟨rfl, h4, hpd⟩
      · rw [hm, hm']
        refine ih (by omega) ?_ (fun k hk => hF ?_) h3
        · obtain ⟨-, hf, hu, -, -⟩ := Kmem.kalloc_spec hk hd.good
          have htake := (hd.kalloc hk).write ((hu f).2 (Or.inr rfl)) page
          rcases mappages_spec (v := npages oldsz + i) (e := ⟨f, w, true⟩) htake
            (fun hR => hf (hd.safe.rest f hR)) with hno | ⟨hno, -⟩ | ⟨m3, pd3, hyes, h3, -⟩
          · rw [hm] at hno
            cases hno
          · rw [hm] at hno
            cases hno
          · rw [hm] at hyes
            cases hyes
            exact h3
        · rw [hfree]
          exact List.mem_cons_of_mem f (hsub hk)

theorem Alike.grow (hfill : ∀ i f m0 m1 m1' pd0, i < npages newsz - npages oldsz → Held R m0 pd0 →
      m0.free ⊆ m.free → m0.kalloc = some (f, m1) → Alike (fun k => D k ∨ k = f) m1 m1' →
      Both (fun page page' => D f ∨ SamePage page page') (fill i f m1 pd0) (fill i f m1' pd0))
    (hd : Held R m pd) (h : Alike D m m') :
    Both (AlikeMid D) (grow w fill m pd oldsz newsz) (grow w fill m' pd oldsz newsz) := by
  unfold Vm.grow
  split
  · exact .ok ⟨rfl, h, rfl⟩
  split
  · exact .ok ⟨rfl, h, rfl⟩
  refine (h.growLoop hfill _ (Nat.le_of_eq (Nat.zero_add _)) hd (List.Subset.refl _)).bind ?_
  rintro ⟨done, m1, pd1⟩ ⟨done', m1', pd1'⟩ ⟨hdone, hr⟩
  cases hdone
  exact .ok ⟨rfl, hr⟩

theorem Alike.allocuvm (hd : Held R m pd) (h : Alike D m m') (oldsz newsz : Nat) :
    Both (AlikeMid D) (allocuvm m pd oldsz newsz) (allocuvm m' pd oldsz newsz) :=
  h.grow (fun _ _ _ _ _ _ _ _ _ _ _ => .ok (Or.inr fun _ _ => rfl)) hd

-- ======== copying

/-- The pages of a page directory, which hold the same in both. -/
def Solid (D : Nat → Prop) (m : Kmem) (pd : Pgdir) : Prop :=
  ∀ u e, pd.ptes u = some e → e.frame ∉ m.free ∧ ¬ D e.frame

theorem Held.solid (h : Held R m pd) : Solid (fun _ => False) m pd :=
  fun u e he => ⟨(h.used (l := .page u) ⟨e, he, rfl⟩).1, id⟩

theorem Alike.copyLoop {src d : Pgdir} (n v : Nat) (hsrc : Solid D m src) (h : Alike D m m') :
    Both (AlikeFst D) (copyLoop src n v m d) (copyLoop src n v m' d) := by
  induction n generalizing v m m' d with
  | zero => exact .ok ⟨h, rfl⟩
  | succ n ih =>
    unfold Vm.copyLoop
    cases src.tables (v / npt) with
    | none => exact .error _
    | some t =>
      cases he : src.ptes v with
      | none => exact .error _
      | some e =>
        cases hk : m.kalloc with
        | none =>
          rw [h.kalloc_none hk]
          exact h.giveUp d none
        | some r =>
          obtain ⟨f, m1⟩ := r
          obtain ⟨m1', hk', h1⟩ := h.kalloc hk
          have hfree := free_of_kalloc hk
          rw [hk']
          -- the page that is copied is neither free nor the new one
          obtain ⟨hused, hD⟩ := hsrc v e he
          rw [hfree, List.mem_cons, not_or] at hused
          have h2 := h1.write (Or.inr (h1.mem e.frame hused.2 fun hd => hd.elim hD hused.1))
          dsimp only
          rcases h2.mappages d v { e with frame := f } with
            ⟨hm, hm'⟩ | ⟨hm, hm'⟩ | ⟨m2, m2', d2, hm, hm', h3, hsub⟩
          · rw [hm, hm']
            exact .error _
          · rw [hm, hm']
            exact h2.giveUp d none
          · rw [hm, hm']
            refine ih (v + 1) (fun u e' he' => ⟨fun hmem => ?_, (hsrc u e' he').2⟩) h3
            refine (hsrc u e' he').1 ?_
            rw [hfree]
            exact List.mem_cons_of_mem f (hsub hmem)

theorem Alike.copyuvm {src : Pgdir} (hs : Safe R m) (hsrc : ∀ u e, src.ptes u = some e → R e.frame)
    (hD : ∀ k, R k → ¬ D k) (sz : Nat) (h : Alike D m m') :
    Both (AlikeFst D) (copyuvm m src sz) (copyuvm m' src sz) := by
  have hset := setupkvm_spec hs
  have hboth := h.setupkvm
  unfold Vm.copyuvm
  match hr : Vm.setupkvm m, hset with
  | .ok (m1, none), _ =>
    rw [hr] at hboth
    refine hboth.bind_of_ok rfl ?_
    rintro ⟨m1', r⟩ ⟨h1, hnone⟩
    cases hnone
    exact .ok ⟨h1, rfl⟩
  | .ok (m1, some d), ⟨hd, _⟩ =>
    rw [hr] at hboth
    refine hboth.bind_of_ok rfl ?_
    rintro ⟨m1', r⟩ ⟨h1, hsome⟩
    cases hsome
    exact h1.copyLoop (npages sz) 0 fun u e he =>
      ⟨(hd.safe.rest _ (hsrc u e he)).1, hD _ (hsrc u e he)⟩

-- ======== writing

theorem SamePage.overwrite (h : SamePage page page') (off : Nat) (bytes : List Byte) :
    SamePage (overwrite page off bytes) (overwrite page' off bytes) := by
  intro o ho
  unfold Lib.overwrite
  rw [h o ho]

/-- Bytes are put into a page of the page directory. -/
theorem Alike.overwrite (h : Alike D m m') (hpd : Solid D m pd) {u : Nat} {e : Pte}
    (he : pd.ptes u = some e) (off : Nat) (bytes : List Byte) :
    Alike D (m.write e.frame (overwrite (m.mem e.frame) off bytes))
      (m'.write e.frame (overwrite (m'.mem e.frame) off bytes)) :=
  (h.mono fun _ => Or.inl).write
    (Or.inr ((h.mem e.frame (hpd u e he).1 (hpd u e he).2).overwrite off bytes))

theorem Alike.copyout (fuel : Nat) {va : Nat} {buf : List Byte} (hpd : Solid D m pd)
    (h : Alike D m m') :
    Both (fun x y => AlikeFst D x y ∧ Solid D x.1 pd) (copyout pd fuel va buf m)
      (copyout pd fuel va buf m') := by
  induction fuel generalizing va buf m m' with
  | zero => exact .ok ⟨⟨h, rfl⟩, hpd⟩
  | succ fuel ih =>
    by_cases hbuf : buf = []
    · unfold Vm.copyout
      rw [if_pos hbuf, if_pos hbuf]
      exact .ok ⟨⟨h, rfl⟩, hpd⟩
    by_cases ht : (pd.tables (va / pgsize / npt)).isSome
    swap
    · have hnone := Option.not_isSome_iff_eq_none.1 ht
      rw [copyout_null hbuf hnone, copyout_null hbuf hnone]
      exact .error _
    by_cases hstop : ∀ e, pd.ptes (va / pgsize) = some e → e.u = false
    · rw [copyout_stop hbuf ht hstop, copyout_stop hbuf ht hstop]
      exact .ok ⟨⟨h, rfl⟩, hpd⟩
    push Not at hstop
    obtain ⟨e, he, hu⟩ := hstop
    have hu := Bool.eq_true_of_not_eq_false hu
    rw [copyout_next hbuf ht he hu, copyout_next hbuf ht he hu]
    exact ih hpd (h.overwrite hpd he _ _)

theorem Alike.pushArgs (argv : List (List Byte)) {sp : Nat} {ptrs : List Nat} (hpd : Solid D m pd)
    (h : Alike D m m') :
    Both (fun x y => AlikeFst D x y ∧ Solid D x.1 pd) (pushArgs pd argv sp ptrs m)
      (pushArgs pd argv sp ptrs m') := by
  induction argv generalizing sp ptrs m m' with
  | nil => exact .ok ⟨⟨h, rfl⟩, hpd⟩
  | cons arg argv ih =>
    unfold Vm.pushArgs
    split
    · exact .ok ⟨⟨h, rfl⟩, hpd⟩
    refine (h.copyout (arg.length + 1) hpd).bind ?_
    rintro ⟨m1, done⟩ ⟨m1', done'⟩ ⟨⟨h1, hdone⟩, hpd1⟩
    cases hdone
    cases done with
    | false => exact .ok ⟨⟨h1, rfl⟩, hpd1⟩
    | true => exact ih hpd1 h1

theorem Alike.pushStack (sz : Nat) (argv : List (List Byte)) (hpd : Solid D m pd)
    (h : Alike D m m') :
    Both (AlikeFst D) (pushStack m pd sz argv) (pushStack m' pd sz argv) := by
  unfold Vm.pushStack
  refine (h.pushArgs argv hpd).bind ?_
  rintro ⟨m1, r⟩ ⟨m1', r'⟩ ⟨⟨h1, hr⟩, hpd1⟩
  cases hr
  match r with
  | none => exact .ok ⟨h1, rfl⟩
  | some (sp, ptrs) => exact (h1.copyout _ hpd1).imp fun _ _ => And.left

end Alike

-- ======== exec

section Exec

variable {R : Nat → Prop} {m m' : Kmem} {pd : Pgdir} {sz : Nat}

/-- Memories that differ in free pages only. -/
abbrev Twins : Kmem → Kmem → Prop := Alike fun _ => False

theorem Twins.loadLoop (file : List Byte) (addr offset filesz n : Nat) {i : Nat}
    (h : Img R m pd sz) (ha : Twins m m')
    (hin : ∀ j, j < n → (addr + (i + pgsize * j)) / pgsize < npages sz) :
    Both (AlikeFst fun _ => False) (loadLoop file pd addr offset filesz n i m)
      (loadLoop file pd addr offset filesz n i m') := by
  induction n generalizing m m' i with
  | zero => exact .ok ⟨ha, rfl⟩
  | succ n ih =>
    obtain ⟨e, he, htable⟩ := h.page (hin 0 (Nat.succ_pos n))
    rw [Nat.mul_zero, Nat.add_zero] at he htable
    obtain ⟨t, ht⟩ := Option.isSome_iff_exists.1 htable
    unfold Vm.loadLoop
    rw [ht, he]
    dsimp only [Option.map_some, Option.getD_some]
    cases readi file ((offset + i) % 2 ^ 32) (min pgsize (filesz - i)) with
    | none => exact .ok ⟨ha, rfl⟩
    | some bytes =>
      refine ih (h.write he _).1 (ha.overwrite h.held.solid he 0 bytes) fun j hj => ?_
      have := hin (j + 1) (by omega)
      rw [Nat.mul_succ] at this
      rw [show addr + (i + pgsize + pgsize * j) = addr + (i + (pgsize * j + pgsize)) by omega]
      exact this

theorem Twins.loaduvm (file : List Byte) {addr : Nat} (offset filesz : Nat) (h : Img R m pd sz)
    (ha : Twins m m') (hal : addr % pgsize = 0) (hle : addr + filesz ≤ sz) :
    Both (AlikeFst fun _ => False) (loaduvm m pd addr file offset filesz)
      (loaduvm m' pd addr file offset filesz) := by
  unfold Vm.loaduvm
  rw [if_neg (not_not.2 hal), if_neg (not_not.2 hal)]
  refine Twins.loadLoop file addr offset filesz (npages filesz) h ha fun j hj => ?_
  have hp : pgsize = 4096 := rfl
  unfold npages at hj ⊢
  rw [hp] at hal hj ⊢
  omega

theorem Twins.segLoop (file : List Byte) (n off : Nat) (h : Img R m pd sz) (ha : Twins m m') :
    Both (AlikeFst fun _ => False) (segLoop file n off sz m pd) (segLoop file n off sz m' pd) := by
  induction n generalizing off sz m m' pd with
  | zero => exact .ok ⟨ha, rfl⟩
  | succ n ih =>
    unfold Vm.segLoop
    cases readi file off Proghdr.size with
    | none => exact .ok ⟨ha, rfl⟩
    | some bytes =>
      dsimp only
      generalize Proghdr.ofBytes bytes = ph
      generalize (off + Proghdr.size) % 2 ^ 32 = next
      split
      · exact ih next h ha
      split
      · exact .ok ⟨ha, rfl⟩
      split
      · exact .ok ⟨ha, rfl⟩
      next hfile _ =>
      obtain ⟨r, m1, pd1, hr1, -, -, himg⟩ := h.allocuvm (ph.vaddr + ph.memsz)
      refine (Alike.allocuvm h.held ha sz (ph.vaddr + ph.memsz)).bind_of_ok hr1 ?_
      rintro ⟨r', m1', pd1'⟩ ⟨hr, ha1, hpd⟩
      cases hr
      cases hpd
      dsimp only
      by_cases h0 : r = 0
      · rw [if_pos h0, if_pos h0]
        exact .ok ⟨ha1, rfl⟩
      rw [if_neg h0, if_neg h0]
      obtain ⟨⟨himg1, -⟩, hsz⟩ := himg h0
      by_cases hal : ph.vaddr % pgsize = 0
      swap
      · rw [if_pos hal, if_pos hal]
        exact .ok ⟨ha1, rfl⟩
      rw [if_neg (not_not.2 hal), if_neg (not_not.2 hal)]
      obtain ⟨m2, done, hr2, himg2, -⟩ := himg1.loaduvm file ph.off ph.filesz hal (by omega)
      refine (Twins.loaduvm file ph.off ph.filesz himg1 ha1 hal (by omega)).bind_of_ok hr2 ?_
      rintro ⟨m2', done'⟩ ⟨ha2, hdone⟩
      cases hdone
      cases done with
      | false => exact .ok ⟨ha2, rfl⟩
      | true => exact ih next himg2 ha2

theorem Twins.loadImage (file : List Byte) (elf : Elfhdr) (argv : List (List Byte))
    (h : Img R m pd 0) (ha : Twins m m') :
    Both (AlikeFst fun _ => False) (loadImage file elf argv m pd)
      (loadImage file elf argv m' pd) := by
  obtain ⟨m1, pd1, r, hr1, -, -, himg1⟩ := h.segLoop file elf.phnum elf.phoff
  unfold Vm.loadImage
  refine (Twins.segLoop file elf.phnum elf.phoff h ha).bind_of_ok hr1 ?_
  rintro ⟨m1', pd1', r'⟩ ⟨ha1, hpd⟩
  cases hpd
  cases r with
  | none => exact .ok ⟨ha1, rfl⟩
  | some sz =>
    obtain ⟨hround, -⟩ := (himg1 sz rfl).1.pgroundup
    obtain ⟨sz', m2, pd2, hr2, -, -, himg2⟩ := hround.allocuvm (pgroundup sz + 2 * pgsize)
    refine (Alike.allocuvm hround.held ha1 (pgroundup sz) (pgroundup sz + 2 * pgsize)).bind_of_ok
      hr2 ?_
    rintro ⟨r', m2', pd2'⟩ ⟨hr, ha2, hpd⟩
    cases hr
    cases hpd
    dsimp only
    by_cases h0 : sz' = 0
    · rw [if_pos h0, if_pos h0]
      exact .ok ⟨ha2, rfl⟩
    rw [if_neg h0, if_neg h0]
    have hp : pgsize = 4096 := rfl
    obtain ⟨⟨himg2, -⟩, hor⟩ := himg2 h0
    obtain ⟨pd3, hr3, himg3, -⟩ := himg2.clearpteu (v := sz' / pgsize - 2) (by
      unfold npages
      rw [hp]
      omega)
    rw [hr3]
    refine (Alike.pushStack sz' argv himg3.held.solid ha2).bind fun x y hxy => ?_
    obtain ⟨hmem, hdone⟩ := hxy
    exact .ok ⟨hmem, by rw [hdone]⟩

theorem Twins.execImage (file : Option (List Byte)) (argv : List (List Byte)) (h : Safe R m)
    (ha : Twins m m') :
    Both (AlikeFst fun _ => False) (execImage m file argv) (execImage m' file argv) := by
  unfold Vm.execImage
  cases file with
  | none => exact .ok ⟨ha, rfl⟩
  | some file =>
    dsimp only
    cases readi file 0 Elfhdr.size with
    | none => exact .ok ⟨ha, rfl⟩
    | some bytes =>
      dsimp only
      by_cases hmagic : (Elfhdr.ofBytes bytes).magic ≠ elfMagic
      · rw [if_pos hmagic, if_pos hmagic]
        exact .ok ⟨ha, rfl⟩
      rw [if_neg hmagic, if_neg hmagic]
      have hset := setupkvm_spec h
      have hboth := Alike.setupkvm ha
      match hr : setupkvm m, hset with
      | .ok (m1, none), _ =>
        rw [hr] at hboth
        refine hboth.bind_of_ok rfl ?_
        rintro ⟨m1', r⟩ ⟨h1, hnone⟩
        cases hnone
        exact .ok ⟨h1, rfl⟩
      | .ok (m1, some pd), _ =>
        rw [hr] at hboth
        refine hboth.bind_of_ok rfl ?_
        rintro ⟨m1', r⟩ ⟨h1, hsome⟩
        cases hsome
        refine (Twins.loadImage file (.ofBytes bytes) argv (Img.start h hr).1 h1).bind ?_
        rintro ⟨m2, pd2, r⟩ ⟨m2', pd2', r'⟩ ⟨h2, hpd⟩
        cases hpd
        cases r with
        | none => exact h2.giveUp pd2 none
        | some sz => exact .ok ⟨h2, rfl⟩

theorem Twins.exec {a : Space} (file : Option (List Byte)) (argv : List (List Byte)) (h : Safe R m)
    (ha : Twins m m') :
    Both (AlikeMid fun _ => False) (exec m a file argv) (exec m' a file argv) := by
  unfold Vm.exec
  refine (Twins.execImage file argv h ha).bind ?_
  rintro ⟨m1, r⟩ ⟨m1', r'⟩ ⟨h1, hr⟩
  cases hr
  cases r with
  | none => exact .ok ⟨rfl, h1, rfl⟩
  | some new => exact (h1.freevm a.pgdir).bind fun _ _ h2 => .ok ⟨rfl, h2, rfl⟩

theorem Alike.sized {D : Nat → Prop} {x y : Except VmPanic (Nat × Kmem × Pgdir)} (sz : Nat)
    (h : Both (AlikeMid D) x y) : Both (AlikeMid D) (sized sz x) (sized sz y) := by
  refine h.bind ?_
  rintro ⟨r, m1, pd1⟩ ⟨r', m1', pd1'⟩ ⟨hr, h1, hpd⟩
  cases hr
  cases hpd
  dsimp only
  split
  · exact .ok ⟨rfl, h1, rfl⟩
  · exact .ok ⟨rfl, h1, rfl⟩

theorem Twins.growproc {a : Space} (n : Word) (h : Held R m a.pgdir) (ha : Twins m m') :
    Both (AlikeMid fun _ => False) (growproc m a n) (growproc m' a n) := by
  by_cases hpos : 0 < n.toInt
  · rw [growproc_grow hpos, growproc_grow hpos]
    exact Alike.sized _ (Alike.allocuvm h ha _ _)
  by_cases hneg : n.toInt < 0
  · rw [growproc_shrink hneg, growproc_shrink hneg]
    exact Alike.sized _ (Alike.deallocuvm ha _ _)
  · rw [growproc_zero hpos hneg, growproc_zero hpos hneg]
    exact .ok ⟨rfl, ha, rfl⟩

end Exec

-- ======== machines

namespace Machine

/-- Machines that differ in their memory only. -/
structure Alike (D : Nat → Prop) (s r : Machine) : Prop where
  kern : r.kern = s.kern
  kmem : Vm.Alike D s.kmem r.kmem
  proc : r.proc = s.proc
  file : r.file = s.file
  pipe : r.pipe = s.pipe

/-- What a call returns is the same, and the machines are alike. -/
def AlikeSnd (D : Machine → Nat → Prop) (x y : Int × Machine) : Prop :=
  y.1 = x.1 ∧ Alike (D x.2) x.2 y.2

/-- What a process sees: its size, and the bytes of the pages that are the
user's. -/
def view (s : Machine) (q : Slot) : Option (Nat × (Nat → Option Byte)) :=
  (s.proc q).map fun t => (t.space.sz, fun va => (t.space.pgdir.ptes (va / pgsize)).bind fun e =>
    if e.u then some (s.kmem.mem e.frame (va % pgsize)) else none)

/-- A page that is the kernel stack of a process. -/
def isStack (s : Machine) (k : Nat) : Prop := ∃ q, s.has (.stack q) k

section Calls

variable {S : Space → Prop} {D : Nat → Prop} {s r : Machine} {p : Slot} {t : Task}

/-- No process sees a difference that is in none of its pages. -/
theorem Alike.view (h : Alike D s r)
    (hpages : ∀ q t, s.proc q = some t → Solid D s.kmem t.space.pgdir) : r.view = s.view := by
  funext q
  unfold Machine.view
  rw [h.proc]
  cases ht : s.proc q with
  | none => rfl
  | some t =>
    refine congrArg (fun view => some (t.space.sz, view)) (funext fun va => ?_)
    cases he : t.space.pgdir.ptes (va / pgsize) with
    | none => rfl
    | some e =>
      obtain ⟨hfree, hD⟩ := hpages q t ht _ e he
      have hmem := h.kmem.mem e.frame hfree hD (va % pgsize) (Nat.mod_lt _ (by decide))
      show (if e.u = true then some (r.kmem.mem e.frame _) else none) = _
      rw [hmem]
      rfl

/-- A page of a process is not free, and nobody's stack. -/
theorem Good.solid (hg : s.Good S) (q : Slot) (t : Task) (ht : s.proc q = some t) :
    Solid s.isStack s.kmem t.space.pgdir := by
  intro u e he
  have hspot : s.has (.spot q (.page u)) e.frame := ⟨t, ht, e, he, rfl⟩
  refine ⟨(hg.apart.used hspot).1, fun ⟨q', hq'⟩ => ?_⟩
  cases hg.apart.one hspot hq'

theorem Alike.onSpace {D' : Nat → Prop} {x y : Except VmPanic (Int × Kmem × Space)}
    (h : Alike D s r) (hr : Both (AlikeMid D') x y) :
    Both (AlikeSnd fun _ => D') (s.onSpace p t x) (r.onSpace p t y) := by
  refine hr.bind ?_
  rintro ⟨v, m, a⟩ ⟨v', m', a'⟩ ⟨hv, hm, ha⟩
  cases hv
  cases ha
  refine .ok ⟨rfl, h.kern, hm, ?_, h.file, h.pipe⟩
  show Function.update r.proc p _ = Function.update s.proc p _
  rw [h.proc]

theorem Alike.dupAll (h : Alike D s r) (ofile : Fin nofile → Option (Fin nfile)) :
    Both (Alike D) (s.dupAll ofile) (r.dupAll ofile) := by
  refine Both.foldlM (fun s r fd hs => ?_) h
  cases ofile fd with
  | none => exact .ok hs
  | some f =>
    unfold filedup
    rw [hs.file]
    dsimp only
    split
    · exact .error _
    · refine .ok ⟨hs.kern, hs.kmem, hs.proc, ?_, hs.pipe⟩
      show Function.update r.file f _ = Function.update s.file f _
      rw [hs.file]

theorem Alike.fork (h : Alike (fun _ => False) s r) (hg : s.Good S) (ht : s.proc p = some t) :
    Both (AlikeSnd isStack) (s.fork p t) (r.fork p t) := by
  have hslot : r.freeSlot = s.freeSlot := by
    unfold freeSlot
    rw [h.proc]
  have hsame : Alike s.isStack s r := { h with kmem := h.kmem.mono fun _ => False.elim }
  unfold Machine.fork
  rw [hslot]
  cases s.freeSlot with
  | none => exact .ok ⟨rfl, hsame⟩
  | some np =>
    dsimp only
    cases hk : s.kmem.kalloc with
    | none =>
      rw [h.kmem.kalloc_none hk]
      exact .ok ⟨rfl, hsame⟩
    | some x =>
      obtain ⟨k, m⟩ := x
      obtain ⟨m', hk', hm⟩ := h.kmem.kalloc hk
      rw [hk']
      obtain ⟨hg1, hf, hu, -, -⟩ := Kmem.kalloc_spec hk hg.kmem
      have hsafe : Safe (fun j => ∃ b, s.has b j) m :=
        ⟨hg1, fun j ⟨_, hb⟩ => (hu j).2 (Or.inl (hg.apart.used hb))⟩
      -- the kernel stack is nobody's page
      have hout : ∀ j, (∃ b, s.has b j) → ¬ (False ∨ j = k) := by
        rintro j ⟨b, hb⟩ (hno | rfl)
        · exact hno
        · exact hf (hg.apart.used hb)
      dsimp only
      refine (hm.copyuvm hsafe (fun u e he => ⟨.spot p (.page u), t, ht, e, he, rfl⟩) hout
        t.space.sz).bind ?_
      rintro ⟨m1, d⟩ ⟨m1', d'⟩ ⟨hm1, hd⟩
      cases hd
      cases d with
      | none =>
        refine hm1.kfree.bind fun m2 m2' hm2 => .ok ⟨rfl, ?_⟩
        exact { hsame with kmem := hm2.mono fun _ => False.elim }
      | some d =>
        have hs1 : Alike (fun j => False ∨ j = k) { s with kmem := m1 } { r with kmem := m1' } :=
          ⟨h.kern, hm1, h.proc, h.file, h.pipe⟩
        refine (hs1.dupAll t.ofile).bind fun s2 r2 hs2 => .ok ⟨rfl, hs2.kern, ?_, ?_, hs2.file,
          hs2.pipe⟩
        · refine hs2.kmem.mono fun j hj => ⟨np, _, Function.update_self .., ?_⟩
          exact (hj.resolve_left id).symm
        · show Function.update r2.proc np _ = Function.update s2.proc np _
          rw [hs2.proc]

end Calls

end Machine

end Xv6Sume32.Vm
