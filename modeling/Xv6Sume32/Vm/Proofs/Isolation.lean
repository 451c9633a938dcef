/-
Every call keeps the pages apart.

# One proof for several invariants

The calls are followed once, for any property `S` of address spaces and
any set `E` of panics that goes with it (`Rules`): what `growproc`, `makex`
and `exec` do to one address space, that a copy is as good as the original,
and where `copyuvm` and the store of `sys_pipe` fail. For pages alone there
is nothing to know of an address space, and every panic but the two of
`kfree` is possible.

# Runs

The calls are steps of the machine; what they keep holds in every state
that is reached from `userinit`, and a call in such a state can end only
with a panic of `E`.
-/
import Xv6Sume32.Lib.System
import Xv6Sume32.Vm.Proofs.Holders

namespace Xv6Sume32.Vm

open Lib
open Proc (Slot initproc nproc)

-- ======== rules

/-- What the calls need to know of address spaces that have `S`. `guard`
says which calls are made. -/
structure Rules (S : Space → Prop) (E : VmPanic → Prop) (guard : Space → Machine.Call → Prop) :
    Prop where
  image : ∀ {a : Space}, Shaped a → Writable a.pgdir → S a
  growproc : ∀ {R m a n}, Held R m a.pgdir → S a → guard a (.growproc n) →
    Outcome E (fun r => Stays R m r ∧ S r.2.2) (growproc m a n)
  makex : ∀ {R m a val n}, Held R m a.pgdir → S a → guard a (.makex val n) →
    Outcome E (fun r => Stays R m r ∧ S r.2.2) (makex m a val n)
  exec : ∀ {a file argv}, guard a (.exec file argv) → ¬ Short argv → E .nullPte
  copy : ∀ {src d m m' sz}, S ⟨src, sz⟩ → Copied src m (npages sz) m' d → S ⟨d, sz⟩
  missing : ∀ {src sz e}, S ⟨src, sz⟩ → Missing src (npages sz) e → E e
  fault : ∀ {a : Space} {v}, S a → v < a.sz →
    ¬ (∃ e, a.pgdir.ptes (v / pgsize) = some e ∧ e.w = true) → E .fault
  files : E .filedup ∧ E .fileclose ∧ E .initExiting

namespace Machine

section Calls

variable {S : Space → Prop} {E : VmPanic → Prop} {guard : Space → Call → Prop} {s : Machine}
  {p : Slot} {t : Task}

theorem Kept.refl (h : s.Good S) : Kept S s s := ⟨h, rfl⟩

theorem Kept.trans {s1 s2 : Machine} (h : Kept S s s1) (h' : Kept S s1 s2) : Kept S s s2 :=
  ⟨h'.1, h'.2.trans h.2⟩

-- ======== pipes

/-- A page becomes a pipe. -/
theorem Good.create (h : s.Good S) {k : Nat} {m : Kmem} (hk : s.kmem.kalloc = some (k, m))
    {file : Fin nfile → File} (hp : Piped file (Function.update s.pipe k (some ⟨true, true⟩))) :
    Good S { s with
      kmem := m, file := file, pipe := Function.update s.pipe k (some ⟨true, true⟩) } := by
  obtain ⟨hg, hf, hu, -, -⟩ := Kmem.kalloc_spec hk h.kmem
  refine ⟨hg, h.apart.take (a := .pipe k) hf (fun b j hb => ?_) ((hu k).2 (Or.inr rfl))
    fun j hj => (hu j).2 (Or.inl hj), h.mapped, h.shape, hp⟩
  cases b with
  | stack q => exact Or.inl hb
  | spot q l => exact Or.inl hb
  | kernel i => exact Or.inl hb
  | pipe k' =>
    obtain ⟨rfl, hsome⟩ := hb
    change (Function.update s.pipe k _ k').isSome = true at hsome
    by_cases he : k' = k
    · exact Or.inr ⟨by rw [he], he⟩
    · rw [Function.update_of_ne he] at hsome
      exact Or.inl ⟨rfl, hsome⟩

/-- A page that is free is no pipe. -/
theorem Good.pipe_none (h : s.Good S) {k : Nat} (hk : ¬ s.kmem.used k) : s.pipe k = none := by
  by_contra hne
  exact hk (h.apart.used (a := .pipe k) ⟨rfl, Option.isSome_iff_ne_none.2 hne⟩)

theorem pipealloc_spec (h : s.Good S) :
    Outcome (fun e => e = .fileclose) (fun r => Kept S s r.1) s.pipealloc := by
  unfold pipealloc
  cases hf0 : s.filealloc with
  | none => exact .refl h
  | some r =>
    obtain ⟨f0, s1⟩ := r
    obtain ⟨h1, href0, -⟩ := filealloc_spec h hf0
    dsimp only
    cases hf1 : s1.filealloc with
    | none => exact (fileclose_spec h1.1 f0).bind fun _ hs => h1.trans hs
    | some r =>
      obtain ⟨f1, s2⟩ := r
      obtain ⟨h2, href1, hold⟩ := filealloc_spec h1.1 hf1
      obtain ⟨hne, hfile⟩ := hold f0 (by omega)
      have h2' := h1.trans h2
      dsimp only
      cases hk : s2.kmem.kalloc with
      | none =>
        exact (fileclose_spec h2.1 f0).bind fun _ hs3 =>
          (fileclose_spec hs3.1 f1).bind fun _ hs4 => (h2'.trans hs3).trans hs4
      | some r =>
        obtain ⟨k, m⟩ := r
        have hnone := h2.1.pipe_none (Kmem.kalloc_spec hk h2.1.kmem).2.1
        refine ⟨h2.1.create hk (h2.1.piped.create hnone hne rfl rfl ?_ ?_), h2'.2⟩
        · show 1 ≤ (s2.file f0).ref
          rw [hfile, href0]
        · show 1 ≤ (Function.update s2.file f0 _ f1).ref
          rw [Function.update_of_ne hne.symm, href1]

theorem store_spec {R : Nat → Prop} {pd : Pgdir} (bytes : List Byte) {va : Nat} {m : Kmem}
    (hE : ∀ v, va ≤ v → v < va + bytes.length →
      ¬ (∃ e, pd.ptes (v / pgsize) = some e ∧ e.w = true) → E .fault) (h : Held R m pd) :
    Outcome E (fun m' => Held R m' pd) (store pd va bytes m) := by
  induction bytes generalizing va m with
  | nil => exact h
  | cons b bytes ih =>
    unfold store
    cases he : pd.ptes (va / pgsize) with
    | none =>
      refine hE va (Nat.le_refl _) (Nat.lt_add_of_pos_right (Nat.succ_pos _)) ?_
      rintro ⟨e, he', -⟩
      rw [he] at he'
      cases he'
    | some e =>
      dsimp only
      split
      · have hused := h.used (l := .page (va / pgsize)) ⟨e, he, rfl⟩
        refine ih (fun v hlo hhi => hE v (by omega) ?_) (h.write hused _)
        rw [List.length_cons]
        omega
      · next hw =>
        refine hE va (Nat.le_refl _) (Nat.lt_add_of_pos_right (Nat.succ_pos _)) ?_
        rintro ⟨e', he', hw'⟩
        rw [he] at he'
        cases he'
        exact hw hw'

theorem fdalloc_spec {f : Fin nfile} {fd : Fin nofile} {t' : Task} {s' : Machine}
    (h : s.Good S) (ht : s.proc p = some t) (hf : s.fdalloc p t f = some (fd, t', s')) :
    s'.Good S ∧ s'.proc p = some t' ∧ t'.kstack = t.kstack ∧ t'.space = t.space := by
  unfold fdalloc at hf
  split at hf
  · cases hf
  · cases hf
    exact ⟨h.setTask ht rfl rfl, Function.update_self .., rfl, rfl⟩

theorem sysPipe_spec (D : Rules S E guard) (h : s.Good S) (ht : s.proc p = some t) (fd : Word) :
    Outcome E (fun r => r.2.Good S) (s.sysPipe p t fd) := by
  have hE : ∀ e, e = .fileclose → E e := fun e he => he ▸ D.files.2.1
  unfold sysPipe
  split
  · exact h
  next harg =>
  refine ((pipealloc_spec h).imp hE fun _ => id).bind fun r hr => ?_
  obtain ⟨s1, r⟩ := r
  obtain ⟨h1, hproc⟩ := hr
  cases r with
  | none => exact h1
  | some fs =>
    obtain ⟨rf, wf⟩ := fs
    have hback : Outcome E (fun r => r.2.Good S) (do
        let s ← s1.fileclose rf
        let s ← s.fileclose wf
        .ok (-1, s)) :=
      ((fileclose_spec h1 rf).imp hE fun _ => id).bind fun _ hs =>
        ((fileclose_spec hs.1 wf).imp hE fun _ => id).bind fun _ hs => hs.1
    dsimp only
    cases hfd0 : s1.fdalloc p t rf with
    | none => exact hback
    | some r =>
      obtain ⟨fd0, t0, s2⟩ := r
      have ht1 : s1.proc p = some t := by rw [hproc]; exact ht
      obtain ⟨h2, ht2, hstack, hspace⟩ := fdalloc_spec h1 ht1 hfd0
      dsimp only
      cases hfd1 : s2.fdalloc p t0 wf with
      | none => exact hback
      | some r =>
        obtain ⟨fd1, t1, s3⟩ := r
        obtain ⟨h3, ht3, hstack', hspace'⟩ := fdalloc_spec h2 ht2 hfd1
        obtain ⟨hheld, halone⟩ := h3.lend ht3
        have hsame : t1.space = t.space := hspace'.trans hspace
        rw [hsame] at hheld
        refine (store_spec _ (fun v hlo hhi => ?_) hheld).bind fun m hm => ?_
        · refine D.fault (h.shape p t ht) ?_
          have := (not_not.1 harg).2
          have hlen : (leBytes (BitVec.ofNat 32 fd0) ++ leBytes (BitVec.ofNat 32 fd1)).length
              = 8 := rfl
          omega
        · exact h3.back ht3 (by rw [hsame]; exact hm)

theorem sysClose_spec (D : Rules S E guard) (h : s.Good S) (ht : s.proc p = some t)
    (fd : Fin nofile) : Outcome E (fun r => r.2.Good S) (s.sysClose p t fd) := by
  unfold sysClose
  cases t.ofile fd with
  | none => exact h
  | some f =>
    have hE : ∀ e, e = .fileclose → E e := fun e he => he ▸ D.files.2.1
    have h' : Good S (s.setTask p { t with ofile := Function.update t.ofile fd none }) :=
      h.setTask ht rfl rfl
    exact ((fileclose_spec h' f).imp hE fun _ => id).bind fun _ hs => hs.1

-- ======== fork, exit, wait

theorem dupAll_spec (h : s.Good S) (ofile : Fin nofile → Option (Fin nfile)) :
    Outcome (fun e => e = .filedup)
      (fun s' => Kept S s s' ∧ s'.kmem = s.kmem ∧ s'.pipe = s.pipe ∧ s'.kern = s.kern)
      (s.dupAll ofile) := by
  refine Outcome.foldlM (fun s1 fd hs => ?_) ⟨.refl h, rfl, rfl, rfl⟩
  obtain ⟨hs, hsame⟩ := hs
  cases ofile fd with
  | none => exact ⟨hs, hsame⟩
  | some f =>
    have hdup := filedup_spec hs.1 f
    dsimp only
    unfold filedup at hdup ⊢
    split
    · rfl
    · next href =>
      rw [if_neg href] at hdup
      exact ⟨hs.trans hdup, hsame⟩

theorem freeSlot_none {np : Slot} (h : s.freeSlot = some np) : s.proc np = none := by
  have := List.find?_some h
  exact Option.isNone_iff_eq_none.1 this

theorem fork_spec (D : Rules S E guard) (h : s.Good S) (ht : s.proc p = some t) :
    Outcome E (fun r => r.2.Good S) (s.fork p t) := by
  unfold fork
  cases hslot : s.freeSlot with
  | none => exact h
  | some np =>
    dsimp only
    cases hk : s.kmem.kalloc with
    | none => exact h
    | some r =>
      obtain ⟨k, m⟩ := r
      have hnp := freeSlot_none hslot
      obtain ⟨hg, hf, hu, -, -⟩ := Kmem.kalloc_spec hk h.kmem
      -- the new kernel stack is one more page to leave alone
      have hsafe : Safe (fun j => (∃ b, s.has b j) ∨ j = k) m :=
        ⟨hg, fun j hj => (hu j).2 (hj.imp (fun ⟨_, hb⟩ => h.apart.used hb) id)⟩
      have hsrc : ∀ u e, t.space.pgdir.ptes u = some e → (∃ b, s.has b e.frame) ∨ e.frame = k :=
        fun u e he => Or.inl ⟨.spot p (.page u), t, ht, e, he, rfl⟩
      have hnot : ¬ ∃ b, s.has b k := fun ⟨b, hb⟩ => hf (h.apart.used hb)
      have hcopy := copyuvm_spec hsafe hsrc (h.mapped p t ht) t.space.sz
      dsimp only
      match hr : copyuvm m t.space.pgdir t.space.sz, hcopy with
      | .error e, hmiss => exact D.missing (h.shape p t ht) hmiss
      | .ok (m', none), ⟨hs, _⟩ =>
        obtain ⟨m2, hr2, hg2, hu2, -⟩ := Kmem.kfree_spec hs.good (hs.rest k (Or.inr rfl))
        have hback : Safe (fun j => ∃ b, s.has b j) m2 := by
          refine ⟨hg2, fun j hj => (hu2 j).2 ⟨hs.rest j (Or.inl hj), ?_⟩⟩
          rintro rfl
          exact hnot hj
        show Outcome E _ (m'.kfree k >>= _)
        rw [hr2]
        exact h.rekmem hback
      | .ok (m', some d), ⟨hd, _, hc⟩ =>
        have h1 : Good S { s with kmem := m' } :=
          h.rekmem ⟨hd.good, fun j hj => hd.safe.rest j (Or.inl hj)⟩
        have hdup := (dupAll_spec h1 t.ofile).imp (fun e he => he ▸ D.files.1) fun _ => id
        show Outcome E _ (dupAll _ t.ofile >>= _)
        refine hdup.bind fun s2 hs => ?_
        obtain ⟨⟨h2, hproc⟩, hkmem, hpipe, hkern⟩ := hs
        have hhas : ∀ b j, s2.has b j ↔ s.has b j := by
          intro b j
          cases b with
          | pipe k' => unfold has; rw [hpipe]
          | kernel i => unfold has; rw [hkern]
          | stack q => unfold has; rw [hproc]
          | spot q l => unfold has; rw [hproc]
        have hrest : ∀ j, s2.rest np k j → (∃ b, s.has b j) ∨ j = k := by
          rintro j (⟨b, -, hb⟩ | hj)
          · exact Or.inl ⟨b, (hhas b j).1 hb⟩
          · exact Or.inr hj
        have hput := h2.put (p := np) (m := m')
          (t := ⟨k, ⟨d, t.space.sz⟩, some p, false, t.ofile⟩)
          (fun b _ hb => hnot ⟨b, (hhas b k).1 hb⟩) (hd.weaken hrest)
          (D.copy (h.shape p t ht) hc)
        have hsame : { s2.setTask np ⟨k, ⟨d, t.space.sz⟩, some p, false, t.ofile⟩ with
            kmem := m' } = s2.setTask np ⟨k, ⟨d, t.space.sz⟩, some p, false, t.ofile⟩ := by
          unfold Machine.setTask
          rw [hkmem]
        rw [hsame] at hput
        exact hput

theorem exit_spec (D : Rules S E guard) (h : s.Good S) (ht : s.proc p = some t) :
    Outcome E (fun r => r.2.Good S) (s.exit p t) := by
  unfold exit
  split
  · exact D.files.2.2
  refine Outcome.bind (P := Kept S s) (Outcome.foldlM (fun s1 fd hs => ?_) (.refl h))
    fun s1 hs => ?_
  · cases t.ofile fd with
    | none => exact hs
    | some f =>
      exact (fileclose_spec hs.1 f).imp (fun e he => he ▸ D.files.2.1) fun _ hs' => hs.trans hs'
  obtain ⟨h1, hproc⟩ := hs
  refine h1.retask fun q t' hq => ?_
  by_cases hqp : q = p
  · rw [hqp, Function.update_self] at hq
    cases hq
    exact ⟨t, by rw [hqp, hproc]; exact ht, rfl, rfl⟩
  · rw [Function.update_of_ne hqp] at hq
    obtain ⟨c, hc, rfl⟩ := Option.map_eq_some_iff.1 hq
    refine ⟨c, hc, ?_⟩
    split <;> exact ⟨rfl, rfl⟩

theorem zombieChild_proc {i : Slot} {c : Task} (h : s.zombieChild p = some (i, c)) :
    s.proc i = some c := by
  obtain ⟨j, -, hj⟩ := List.exists_of_findSome?_eq_some h
  split at hj
  · cases hj
  · next c' hc =>
    split at hj
    · cases hj
      exact hc
    · cases hj

theorem wait_spec (h : s.Good S) : Outcome E (fun r => r.2.Good S) (s.wait p) := by
  unfold wait
  cases hz : s.zombieChild p with
  | none => exact h
  | some r =>
    obtain ⟨i, c⟩ := r
    obtain ⟨hd, halone⟩ := h.lend (zombieChild_proc hz)
    have hout : ¬ ∃ b, b.slot ≠ some i ∧ s.has b c.kstack := fun ⟨b, hb, hk⟩ => halone b hb hk
    obtain ⟨m1, hr1, hd1, -⟩ := hd.kfree_rest hout
    obtain ⟨m2, hr2, hs2, -⟩ := freevm_spec hd1
    dsimp only
    rw [bind_of_ok hr1 (bind_of_ok hr2 rfl)]
    exact h.drop hs2

-- ======== calls

theorem onSpace_spec {r : Except VmPanic (Int × Kmem × Space)} (h : s.Good S)
    (ht : s.proc p = some t)
    (hr : Outcome E (fun r => Stays (s.rest p t.kstack) s.kmem r ∧ S r.2.2) r) :
    Outcome E (fun r => r.2.Good S) (s.onSpace p t r) :=
  hr.bind fun _ hr => h.put (h.lend ht).2 hr.1.1 hr.2

theorem Good.userStore (h : s.Good S) (ht : s.proc p = some t) (va : Nat) (b : Byte) :
    (s.userStore t va b).Good S := by
  unfold Machine.userStore
  cases he : t.space.pgdir.ptes (va / pgsize) with
  | none => exact h
  | some e =>
    dsimp only
    split
    · obtain ⟨hd, -⟩ := h.lend ht
      exact h.back ht (hd.write (hd.used (l := .page (va / pgsize)) ⟨e, he, rfl⟩) _)
    · exact h

theorem call_spec (D : Rules S E guard) (h : s.Good S) (ht : s.proc p = some t) {c : Call}
    (hc : guard t.space c) : Outcome E (fun r => r.2.Good S) (s.call p t c) := by
  obtain ⟨hd, -⟩ := h.lend ht
  have hS := h.shape p t ht
  cases c with
  | growproc n => exact onSpace_spec h ht (D.growproc hd hS hc)
  | makex val n => exact onSpace_spec h ht (D.makex hd hS hc)
  | exec file argv =>
    refine onSpace_spec h ht ((exec_spec hd file argv).imp ?_ ?_)
    · rintro e ⟨rfl, hlong⟩
      exact D.exec hc hlong
    · rintro r ⟨hstays, ⟨-, hsame, -⟩ | ⟨-, hshape, hw⟩⟩
      · exact ⟨hstays, by rw [hsame]; exact hS⟩
      · exact ⟨hstays, D.image hshape hw⟩
  | fork => exact fork_spec D h ht
  | pipe fd => exact sysPipe_spec D h ht fd
  | close fd => exact sysClose_spec D h ht fd
  | exit => exact exit_spec D h ht
  | wait => exact wait_spec h
  | store va b => exact h.userStore ht va b

theorem Good.withLimit (h : s.Good S) (limit : Nat) : (s.withLimit limit).Good S :=
  ⟨⟨h.kmem.nodup, h.kmem.range, h.kmem.linked⟩, h.apart.mono (fun b _ hb => match b, hb with
    | .stack _, hb => hb
    | .spot _ _, hb => hb
    | .pipe _, hb => hb
    | .kernel _, hb => hb) fun _ _ _ => id, h.mapped, h.shape, h.piped⟩

/-- One step of the machine. -/
theorem run_spec (D : Rules S E guard) (h : s.Good S) {e : Event}
    (hc : ∀ t, s.proc e.proc = some t → guard t.space e.call)
    {x : Except VmPanic (Int × Machine)} (hx : s.run e = some x) :
    Outcome E (fun r => r.2.Good S) x := by
  unfold run at hx
  split at hx
  · cases hx
  · next t ht =>
    split at hx
    · cases hx
    · cases hx
      exact call_spec D (h.withLimit e.limit) ht (hc t ht)

end Calls

end Machine

end Xv6Sume32.Vm
