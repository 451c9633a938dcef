/-
One address space: `growproc`, `makex` and `exec`.

# Pages

Whatever the arguments, the three keep to the pages of their process and
to those that are free (`Stays`).

# Shape

`Shaped` says that the pages are those below the size. `growproc` and
`makex` keep it by adding pages behind the last and taking them back when
there are not enough, but for one case: when the size comes to be 0,
`growproc` takes the pages away and then takes the 0 that `deallocuvm`
returns for a failure, so the size stays (`growproc_shaped`).

A call that fails leaves the pages with their entries and their bytes
(`Same`).
-/
import Xv6Sume32.Lib.Outcome
import Xv6Sume32.Vm.Proofs.Image

namespace Xv6Sume32.Vm

open Lib

variable {val : Word} {x : Except VmPanic (Nat × Kmem × Pgdir)} {a' : Space}

-- ======== pages

/-- The process keeps to its pages and those that are free. -/
def Stays (R : Nat → Prop) (m : Kmem) (r : Int × Kmem × Space) : Prop :=
  Held R r.2.1 r.2.2.pgdir ∧ Keeps R m r.2.1

/-- The end of `growproc` and `makex`: 0 is a failure. -/
def sized (sz : Nat) (x : Except VmPanic (Nat × Kmem × Pgdir)) :
    Except VmPanic (Int × Kmem × Space) := do
  let (sz', m, pd) ← x
  .ok (if sz' = 0 then (-1, m, ⟨pd, sz⟩) else (0, m, ⟨pd, sz'⟩))

/-- The size that `growproc` asks for. -/
def Space.plus (a : Space) (n : Word) : Nat := (a.sz + n.toNat) % 2 ^ 32

section Pages

variable {R : Nat → Prop} {F : VmPanic → Prop} {C : Nat → Page → Prop} {w : Bool} {m : Kmem}
  {a : Space} {newsz : Nat} {n : Word}

theorem growproc_grow (hn : 0 < n.toInt) :
    growproc m a n = sized a.sz (allocuvm m a.pgdir a.sz (a.plus n)) := if_pos hn

theorem growproc_shrink (hn : n.toInt < 0) :
    growproc m a n = sized a.sz (deallocuvm m a.pgdir a.sz (a.plus n)) :=
  (if_neg (by omega)).trans (if_pos hn)

theorem growproc_zero (h1 : ¬ 0 < n.toInt) (h2 : ¬ n.toInt < 0) : growproc m a n = .ok (0, m, a) :=
  (if_neg h1).trans (if_neg h2)

theorem makex_grow (hk : 0 < pgroundup n.toNat ∧ pgroundup n.toNat < 2 ^ 31) :
    makex m a val n = sized a.sz (allocxuvm m a.pgdir a.sz
      ((a.sz + pgroundup n.toNat) % 2 ^ 32) val.toNat n.toInt) := if_pos hk

theorem makex_zero (hk : ¬ (0 < pgroundup n.toNat ∧ pgroundup n.toNat < 2 ^ 31)) :
    makex m a val n = .ok (0, m, a) := if_neg hk

theorem sized_fail (sz : Nat) (m : Kmem) (pd : Pgdir) :
    sized sz (.ok (0, m, pd)) = .ok (-1, m, ⟨pd, sz⟩) := rfl

theorem sized_done (sz : Nat) {sz' : Nat} (m : Kmem) (pd : Pgdir) (h0 : sz' ≠ 0) :
    sized sz (.ok (sz', m, pd)) = .ok (0, m, ⟨pd, sz'⟩) := congrArg Except.ok (if_neg h0)

theorem stays_sized {m' : Kmem} {pd : Pgdir} (sz sz' : Nat) (h : Held R m' pd) (hk : Keeps R m m') :
    Outcome F (Stays R m) (sized sz (.ok (sz', m', pd))) := by
  by_cases h0 : sz' = 0
  · rw [h0, sized_fail]
    exact ⟨h, hk⟩
  · rw [sized_done sz m' pd h0]
    exact ⟨h, hk⟩

theorem Resized.stays (hd : Held R m a.pgdir)
    (h : Resized R F C w a.sz newsz m a.pgdir x) :
    Outcome (fun e => F e ∨ e = .remap) (Stays R m) (sized a.sz x) := by
  cases h with
  | fault _ he => exact Or.inl he
  | remap _ => exact Or.inr rfl
  | refused _ => exact stays_sized _ _ hd (.refl R m)
  | same _ => exact stays_sized _ _ hd (.refl R m)
  | full _ _ h' hk _ _ => exact stays_sized _ _ h' hk
  | grown _ _ hg => exact stays_sized _ _ hg.held (hg.keep.keeps hd.safe)

theorem allocuvm_spec (h : Held R m a.pgdir) (newsz : Nat) :
    Resized R (fun _ => False) (fun _ _ => True) true a.sz newsz m a.pgdir
      (allocuvm m a.pgdir a.sz newsz) :=
  grow_spec a.sz newsz h nofun fun _ _ _ _ _ _ _ _ _ => trivial

theorem movein_fault {pd : Pgdir} {val k : Nat} {old : Page} {e : VmPanic}
    (h : movein m pd val k old = .error e) : e = .fault := by
  unfold movein at h
  split at h
  · cases h
  · cases h
    rfl

theorem allocxuvm_spec (h : Held R m a.pgdir) (newsz val : Nat) (valn : Int) :
    Resized R (fun e => e = .fault) (fun _ _ => True) false a.sz newsz m a.pgdir
      (allocxuvm m a.pgdir a.sz newsz val valn) :=
  grow_spec a.sz newsz h (fun _ _ _ _ _ => movein_fault) fun _ _ _ _ _ _ _ _ _ => trivial

theorem growproc_stays (h : Held R m a.pgdir) (n : Word) :
    Outcome (fun e => e = .remap) (Stays R m) (growproc m a n) := by
  by_cases hpos : 0 < n.toInt
  · rw [growproc_grow hpos]
    exact ((allocuvm_spec h _).stays h).imp (fun _ he => he.resolve_left id) fun _ => id
  by_cases hneg : n.toInt < 0
  · rw [growproc_shrink hneg]
    by_cases hlt : a.plus n < a.sz
    · obtain ⟨m', hr, h', hd⟩ := deallocuvm_spec h hlt
      rw [hr]
      exact stays_sized _ _ h' (hd.keeps h)
    · unfold deallocuvm
      rw [if_pos (Nat.not_lt.1 hlt)]
      exact stays_sized _ _ h (.refl R m)
  · rw [growproc_zero hpos hneg]
    exact ⟨h, .refl R m⟩

theorem makex_stays (h : Held R m a.pgdir) (val n : Word) :
    Outcome (fun e => e = .fault ∨ e = .remap) (Stays R m) (makex m a val n) := by
  by_cases hk : 0 < pgroundup n.toNat ∧ pgroundup n.toNat < 2 ^ 31
  · rw [makex_grow hk]
    exact (allocxuvm_spec h _ _ _).stays h
  · rw [makex_zero hk]
    exact ⟨h, .refl R m⟩

end Pages

-- ======== shape

structure Shaped (a : Space) : Prop where
  present : Present a.pgdir a.sz
  lt : a.sz < kernbase

/-- The pages, with their entries and their bytes. -/
structure Same (m : Kmem) (a : Space) (m' : Kmem) (a' : Space) : Prop where
  sz : a'.sz = a.sz
  ptes : a'.pgdir.ptes = a.pgdir.ptes
  mem : ∀ u e, a.pgdir.ptes u = some e → m'.mem e.frame = m.mem e.frame

section Shape

variable {R : Nat → Prop} {F : VmPanic → Prop} {C : Nat → Page → Prop} {w : Bool} {m m' : Kmem}
  {a : Space} {newsz : Nat} {n : Word}

theorem Same.refl (m : Kmem) (a : Space) : Same m a m a := ⟨rfl, rfl, fun _ _ _ => rfl⟩

theorem Same.shaped (h : Same m a m' a') (hs : Shaped a) : Shaped a' :=
  ⟨by rw [h.sz]; exact hs.present.congr h.ptes, by rw [h.sz]; exact hs.lt⟩

theorem Same.writable (h : Same m a m' a') (hw : Writable a.pgdir) :
    Writable a'.pgdir := by
  unfold Writable
  rw [h.ptes]
  exact hw

theorem Same.of_extends {pd : Pgdir} (h : Held R m a.pgdir) (hext : m.Extends m')
    (hp : pd.ptes = a.pgdir.ptes) : Same m a m' ⟨pd, a.sz⟩ :=
  ⟨rfl, hp, fun u e he => (hext _ (h.used (l := .page u) ⟨e, he, rfl⟩)).2⟩

/-- What a call makes of the address space. -/
structure Reshaped (m : Kmem) (a : Space) (r : Int × Kmem × Space) : Prop where
  shaped : Shaped r.2.2
  failed : r.1 ≠ 0 → Same m a r.2.1 r.2.2

theorem Same.reshaped {v : Int} (h : Same m a m' a') (hs : Shaped a) :
    Reshaped m a (v, m', a') := ⟨h.shaped hs, fun _ => h⟩

theorem Resized.reshaped (hd : Held R m a.pgdir)
    (hs : Shaped a) (h : Resized R F C w a.sz newsz m a.pgdir x) :
    Outcome F (fun r => Reshaped m a r ∧ (w = true → Writable a.pgdir → Writable r.2.2.pgdir))
      (sized a.sz x) := by
  have hsame : ∀ {v : Int} {m' a'}, Same m a m' a' →
      Reshaped m a (v, m', a') ∧ (w = true → Writable a.pgdir → Writable a'.pgdir) :=
    fun h => ⟨h.reshaped hs, fun _ => h.writable⟩
  cases h with
  | fault _ he => exact he
  | remap hno => exact absurd (hs.present.absent _) hno
  | refused _ => exact hsame (.refl m a)
  | same _ =>
    show Reshaped m a (if _ then _ else _) ∧ _
    split <;> exact hsame (.refl m a)
  | full _ _ _ _ _ hundo =>
    obtain ⟨hptes, hext⟩ := hundo (hs.present.absent _)
    exact hsame (.of_extends hd hext hptes)
  | grown hlt hle hg =>
    by_cases h0 : newsz = 0
    · -- nothing has been added
      have hnone : npages newsz = 0 := by rw [h0]; rfl
      have hold := funext fun u => hg.old u (by omega)
      rw [h0, sized_fail]
      exact hsame (.of_extends hd hg.keep hold)
    · rw [sized_done _ _ _ h0]
      refine ⟨⟨⟨hg.present hs.present hle, hlt⟩, fun hv => absurd rfl hv⟩, fun hw => ?_⟩
      subst hw
      exact hg.writable

theorem Present.without {pd : Pgdir} {oldsz : Nat} (h : Present pd oldsz) (hle : newsz ≤ oldsz) :
    Present (pd.without (npages newsz) (npages oldsz)) newsz := by
  intro u
  have hmono := npages_mono hle
  show Option.isSome (if _ then none else pd.ptes u) = true ↔ _
  split
  · next hu => exact iff_of_false nofun (by omega)
  · next hu =>
    rw [h u]
    omega

theorem growproc_shaped (hd : Held R m a.pgdir) (hs : Shaped a)
    (hn : ¬ (n.toInt < 0 ∧ a.plus n = 0)) : Outcome (fun _ => False)
      (fun r => Reshaped m a r ∧ (Writable a.pgdir → Writable r.2.2.pgdir)) (growproc m a n) := by
  by_cases hpos : 0 < n.toInt
  · rw [growproc_grow hpos]
    exact ((allocuvm_spec hd _).reshaped hd hs).imp (fun _ => id) fun _ hr => ⟨hr.1, hr.2 rfl⟩
  by_cases hneg : n.toInt < 0
  swap
  · rw [growproc_zero hpos hneg]
    exact ⟨(Same.refl m a).reshaped hs, id⟩
  rw [growproc_shrink hneg]
  by_cases hlt : a.plus n < a.sz
  · obtain ⟨m', hr, -, -⟩ := deallocuvm_spec hd hlt
    have h0 : a.plus n ≠ 0 := fun h0 => hn ⟨hneg, h0⟩
    rw [hr, sized_done _ _ _ h0]
    refine ⟨⟨⟨hs.present.without (Nat.le_of_lt hlt), Nat.lt_trans hlt hs.lt⟩,
      fun hv => absurd rfl hv⟩, fun hw u e he => ?_⟩
    change (if _ then none else a.pgdir.ptes u) = some e at he
    split at he
    · cases he
    · exact hw u e he
  · unfold deallocuvm
    rw [if_pos (Nat.not_lt.1 hlt)]
    show Reshaped m a (if _ then _ else _) ∧ _
    split <;> exact ⟨(Same.refl m a).reshaped hs, id⟩

theorem makex_shaped (hd : Held R m a.pgdir) (hs : Shaped a) (val n : Word) :
    Outcome (fun e => e = .fault) (Reshaped m a) (makex m a val n) := by
  by_cases hk : 0 < pgroundup n.toNat ∧ pgroundup n.toNat < 2 ^ 31
  · rw [makex_grow hk]
    exact ((allocxuvm_spec hd _ _ _).reshaped hd hs).imp (fun _ => id) fun _ hr => hr.1
  · rw [makex_zero hk]
    exact (Same.refl m a).reshaped hs

end Shape

-- ======== exec

section Exec

variable {R : Nat → Prop} {m m' : Kmem} {pd new : Pgdir}

/-- The pages of the process are part of what `exec` has to leave alone. -/
def withPages (R : Nat → Prop) (pd : Pgdir) (k : Nat) : Prop := R k ∨ ∃ l, pd.holds l k

theorem Held.safe_withPages (h : Held R m pd) : Safe (withPages R pd) m :=
  ⟨h.good, fun k hk => hk.elim (h.safe.rest k) fun ⟨_, hl⟩ => h.used hl⟩

/-- The allocator has changed, but not for these pages. -/
theorem Held.move (h : Held R m pd) (hs : Safe (withPages R pd) m') : Held R m' pd :=
  ⟨hs.good, h.apart.mono (fun _ _ => id) fun b k hk _ => hs.rest k (match b, hk with
    | none, hk => Or.inl hk
    | some l, hk => Or.inr ⟨l, hk⟩), h.mapped⟩

/-- The old page table beside the new one. -/
theorem Held.beside (h : Held R m pd) (hnew : Held (withPages R pd) m' new) :
    Held (withPages R new) m' pd := by
  have hmove := h.move hnew.safe
  refine ⟨hnew.good, ⟨fun {b c k} hb hc => ?_, fun {b k} hb => ?_⟩, h.mapped⟩
  · have hout : ∀ l, pd.holds l k → ¬ withPages R new k := by
      rintro l hl (hR | ⟨l', hl'⟩)
      · exact h.not_rest hl hR
      · exact hnew.not_rest hl' (Or.inr ⟨l, hl⟩)
    match b, c, hb, hc with
    | none, none, _, _ => rfl
    | some l, none, hb, hc => exact absurd hc (hout l hb)
    | none, some l, hb, hc => exact absurd hb (hout l hc)
    | some l, some l', hb, hc => exact h.apart.one (a := some l) (b := some l') hb hc
  · match b, hb with
    | none, Or.inl hR => exact hmove.safe.rest k hR
    | none, Or.inr ⟨l, hl⟩ => exact hnew.used hl
    | some l, hl => exact hmove.used hl

/-- What `exec` returns: the old address space, or a new one of the right
shape. -/
def Replaced (m : Kmem) (a : Space) (r : Int × Kmem × Space) : Prop :=
  (r.1 ≠ 0 ∧ r.2.2 = a ∧ Same m a r.2.1 r.2.2) ∨
    (r.1 = 0 ∧ Shaped r.2.2 ∧ Writable r.2.2.pgdir)

theorem exec_spec {a : Space} (h : Held R m a.pgdir) (file : Option (List Byte))
    (argv : List (List Byte)) :
    Outcome (fun e => e = .nullPte ∧ ¬ Short argv) (fun r => Stays R m r ∧ Replaced m a r)
      (exec m a file argv) := by
  match himage : execImage m file argv, execImage_spec h.safe_withPages file argv with
  | .error e, he =>
    unfold exec
    rw [himage]
    exact he
  | .ok (m1, none), ⟨hs, hk⟩ =>
    unfold exec
    rw [himage]
    refine ⟨⟨h.move hs, hk.mono fun _ => Or.inl⟩, Or.inl ⟨(nofun : (-1 : Int) ≠ 0), rfl, rfl, rfl, ?_⟩⟩
    exact fun u e he => hk _ (Or.inr ⟨.page u, e, he, rfl⟩)
  | .ok (m1, some new), ⟨himg, hlt, hk⟩ =>
    obtain ⟨m2, hr, hs2, hk2⟩ := freevm_spec (h.beside himg.held)
    have hok : exec m a file argv = .ok (0, m2, new) := by
      unfold exec
      exact bind_of_ok himage (bind_of_ok hr rfl)
    rw [hok]
    refine ⟨⟨(himg.held.weaken fun _ => Or.inl).move hs2, ?_⟩,
      Or.inr ⟨rfl, ⟨himg.present, hlt⟩, himg.writable⟩⟩
    exact (hk.mono fun _ => Or.inl).trans (hk2.mono fun _ => Or.inl)

end Exec

end Xv6Sume32.Vm
