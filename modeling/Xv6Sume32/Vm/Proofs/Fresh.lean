/-
What a process sees of pages that were free.

# Two machines

`Fresh sz c` is about a call `c` of a process of size `sz`, in two machines
that differ in what their free pages hold: it returns the same in both, and
every process sees the same after it. Memory lies below the addresses of
devices.

`kfree` fills a page and links it, so that what free pages hold is known in
every state that is reached. The statement does not rely on it.

# The four calls

`sbrk`, `fork` and `exec` are fresh: each page is cleared or copied as a
whole before a process has it. `sbrkx` is not. It leaves the rest of the
last page as it was, and it copies from any address the kernel can read,
among them those at which the kernel has all of physical memory. It is
fresh when it adds nothing, when the copy faults, and when it copies whole
pages from elsewhere (`sbrkxFresh`).
-/
import Xv6Sume32.Vm.Proofs.Sbrkx
import Xv6Sume32.Vm.Proofs.Twins

namespace Xv6Sume32.Vm

open Lib
open Proc (Slot initproc nproc)

-- ======== statement

/-- Memory that differs from that of `m` in free pages at most. -/
def OffFree (m : Kmem) (mem : Nat → Page) : Prop := ∀ k, k ∉ m.free → mem k = m.mem k

def Machine.withMem (s : Machine) (mem : Nat → Page) : Machine :=
  { s with kmem := { s.kmem with mem := mem } }

def Fresh (sz : Nat) (c : Machine.Call) : Prop :=
  ∀ s p t limit mem mem', Runs s p t → t.space.sz = sz → s.kmem.top ≤ devspace / pgsize →
    OffFree s.kmem mem → OffFree s.kmem mem' →
    Both (fun x y => y.1 = x.1 ∧ y.2.view = x.2.view)
      (((s.withMem mem).withLimit limit).call p t c)
      (((s.withMem mem').withLimit limit).call p t c)

/-- Where the kernel has physical memory. -/
def direct (va : Nat) : Prop := kernbase ≤ va ∧ va - kernbase < phystop

/-- What the kernel can read while a process has `c` pages. -/
def readable (c va : Nat) : Prop := (va < kernbase ∧ va / pgsize < c) ∨ direct va ∨ devspace ≤ va

/-- The arguments for which `sbrkx` is fresh: `n` is not positive or rounds
up to a negative number, the new size is too large, the copy faults, or
whole pages are copied from where physical memory is not. -/
def sbrkxFresh (sz : Nat) (val n : Word) : Prop :=
  n.toInt ≤ 0 ∨ 2 ^ 31 ≤ pgroundup n.toNat ∨ kernbase ≤ sz + pgroundup n.toNat ∨
    (∃ j, j < n.toNat ∧ ¬ readable (npages sz + j / pgsize) ((val.toNat + j) % 2 ^ 32)) ∨
    (n.toNat % pgsize = 0 ∧ ∀ j, j < n.toNat → ¬ direct ((val.toNat + j) % 2 ^ 32))

-- ======== the copy

section Copy

variable {R : Nat → Prop} {D : Nat → Prop} {m m' : Kmem} {pd : Pgdir} {a : Space} {va : Nat}

theorem load_isSome_iff {c : Nat} (hold : ∀ u, (pd.ptes u).isSome ↔ u < c) (va : Nat) :
    (m.load pd va).isSome ↔ readable c va := by
  have hb : kernbase = 0x80000000 := rfl
  have hd : devspace = 0xFE000000 := rfl
  unfold Kmem.load readable direct
  split
  · next hlt =>
    rw [Option.isSome_map, hold]
    exact ⟨fun h => Or.inl ⟨hlt, h⟩, fun h => by omega⟩
  split
  · next hge hphys => exact iff_of_true rfl (Or.inr (Or.inl ⟨by omega, hphys⟩))
  split
  · next hdev => exact iff_of_true rfl (Or.inr (Or.inr hdev))
  · next hge hphys hdev => exact iff_of_false nofun (by omega)

/-- Whether an address can be read is a matter of the page table. -/
theorem load_isSome_congr : (m'.load pd va).isSome = (m.load pd va).isSome := by
  unfold Kmem.load
  split
  · rw [Option.isSome_map, Option.isSome_map]
  split
  · rfl
  split <;> rfl

theorem Alike.load (h : Alike D m m') (hpd : Solid D m pd)
    (hdev : ∀ k, devspace / pgsize ≤ k → k ∉ m.free ∧ ¬ D k) (hva : ¬ direct va) :
    m'.load pd va = m.load pd va := by
  have hoff : va % pgsize < pgsize := Nat.mod_lt _ (by decide)
  unfold Kmem.load
  split
  · cases he : pd.ptes (va / pgsize) with
    | none => rfl
    | some e => exact congrArg some (h.mem e.frame (hpd _ e he).1 (hpd _ e he).2 _ hoff)
  split
  · next hge hphys => exact absurd ⟨Nat.not_lt.1 hge, hphys⟩ hva
  split
  · next hge =>
    obtain ⟨hfree, hD⟩ := hdev (va / pgsize) (Nat.div_le_div_right hge)
    exact congrArg some (h.mem _ hfree hD _ hoff)
  · rfl

theorem movein_both (val k : Nat) (old old' : Page) :
    Both (fun page page' => ∀ o, o < k → page o = (m.load pd ((val + o) % 2 ^ 32)).getD 0 ∧
        page' o = (m'.load pd ((val + o) % 2 ^ 32)).getD 0)
      (movein m pd val k old) (movein m' pd val k old') := by
  have hiff : (∀ o, o < k → (m'.load pd ((val + o) % 2 ^ 32)).isSome) ↔
      ∀ o, o < k → (m.load pd ((val + o) % 2 ^ 32)).isSome :=
    forall₂_congr fun o _ => by rw [load_isSome_congr]
  unfold movein
  by_cases hall : ∀ o, o < k → (m.load pd ((val + o) % 2 ^ 32)).isSome
  · rw [if_pos hall, if_pos (hiff.2 hall)]
    exact .ok fun o ho => ⟨if_pos ho, if_pos ho⟩
  · rw [if_neg hall, if_neg (hall ∘ hiff.1)]
    exact .error _

/-- `makex` does the same but for what is in the new pages. -/
theorem makex_alike (hd : Held R m a.pgdir) (ha : Twins m m') (val n : Word) :
    Both (AlikeMid (· ∈ m.free)) (makex m a val n) (makex m' a val n) := by
  have ha' : Alike (· ∈ m.free) m m' := ha.mono fun _ => False.elim
  by_cases hk : 0 < pgroundup n.toNat ∧ pgroundup n.toNat < 2 ^ 31
  swap
  · rw [makex_zero hk, makex_zero hk]
    exact .ok ⟨rfl, ha', rfl⟩
  rw [makex_grow hk, makex_grow hk]
  refine Alike.sized _ (ha'.grow (fun i f m0 m1 m1' pd0 _ _ hsub hk0 _ => ?_) hd)
  refine (movein_both _ _ _ _).imp fun _ _ _ => Or.inl (hsub ?_)
  rw [free_of_kalloc hk0]
  exact List.mem_cons_self

/-- Whole pages from where physical memory is not. -/
theorem makex_twins {val n : Word} (hd : Held R m a.pgdir) (hs : Shaped a) (hn : 0 < n.toInt)
    (htop : m.top ≤ devspace / pgsize) (hmod : n.toNat % pgsize = 0)
    (hout : ∀ j, j < n.toNat → ¬ direct ((val.toNat + j) % 2 ^ 32)) (ha : Twins m m') :
    Both (AlikeMid fun _ => False) (makex m a val n) (makex m' a val n) := by
  by_cases hk : 0 < pgroundup n.toNat ∧ pgroundup n.toNat < 2 ^ 31
  swap
  · rw [makex_zero hk, makex_zero hk]
    exact .ok ⟨rfl, ha, rfl⟩
  have hps : pgsize = 4096 := rfl
  have hb : kernbase = 0x80000000 := rfl
  have hlt := hs.lt
  have hnew : (a.sz + pgroundup n.toNat) % 2 ^ 32 = a.sz + pgroundup n.toNat := by omega
  rw [makex_grow hk, makex_grow hk, hnew, (toInt_of_pos hn).1]
  refine Alike.sized _ (ha.grow (fun i f m0 m1 m1' pd0 hi hd0 hsub hk0 h1 => ?_) hd)
  rw [npages_add hn, Nat.add_sub_cancel_left] at hi
  have hfree := free_of_kalloc hk0
  have hwhole : min pgsize ((n.toNat : Int) - pgsize * i).toNat = pgsize := by
    unfold npages at hi
    rw [hps] at hi hmod ⊢
    omega
  -- what is read is neither free nor the new page
  have hpd : Solid (fun k => False ∨ k = f) m1 pd0 := by
    intro u e he
    have hused := (hd0.solid u e he).1
    rw [hfree, List.mem_cons, not_or] at hused
    exact ⟨hused.2, fun hk => hused.1 (hk.resolve_left id)⟩
  have hdev : ∀ k, devspace / pgsize ≤ k → k ∉ m1.free ∧ ¬ (False ∨ k = f) := by
    intro k hk
    have hno : k ∉ m0.free := fun hmem => by
      have := (hd.good.range k (hsub hmem)).2
      omega
    rw [hfree, List.mem_cons, not_or] at hno
    exact ⟨hno.2, fun hk => hno.1 (hk.resolve_left id)⟩
  rw [hwhole]
  refine (movein_both _ _ _ _).imp fun page page' hpage => Or.inr fun o ho => ?_
  have hj : pgsize * i + o < n.toNat := by
    unfold npages at hi
    rw [hps] at hi hmod ho ⊢
    omega
  have hva := hout _ hj
  rw [← Nat.add_assoc] at hva
  rw [(hpage o ho).1, (hpage o ho).2, h1.load hpd hdev hva]

/-- A new page has been filled from addresses that can be read. -/
def FilledFrom (sz val n i : Nat) (_ : Page) : Prop :=
  ∀ o, o < pgsize → pgsize * i + o < n →
    readable (npages sz + i) ((val + (pgsize * i + o)) % 2 ^ 32)

theorem allocxuvm_readable (hd : Held R m a.pgdir) (hs : Shaped a) (newsz val n : Nat) :
    Resized R (fun e => e = .fault) (FilledFrom a.sz val n) false a.sz newsz m a.pgdir
      (allocxuvm m a.pgdir a.sz newsz val n) := by
  refine grow_spec a.sz newsz hd (fun _ _ _ _ _ => movein_fault) ?_
  intro i f m0 m1 pd page hg hk hp o ho hn
  have hold : ∀ u, (pd.ptes u).isSome ↔ u < npages a.sz + i := by
    intro u
    by_cases hu : npages a.sz ≤ u ∧ u < npages a.sz + i
    · obtain ⟨e, he, -⟩ := hg.new (u - npages a.sz) (by omega)
      rw [Nat.add_sub_cancel' hu.1] at he
      rw [he]
      exact iff_of_true rfl hu.2
    · rw [hg.old u hu, hs.present u]
      omega
  rw [← Nat.add_assoc, ← load_isSome_iff (m := m1) hold]
  unfold movein at hp
  split at hp
  · next hall => exact hall o (by omega)
  · cases hp

/-- A call that adds pages fails if the size or the range is no good. -/
theorem makex_fails {val n : Word} {v : Int} {a' : Space} (hd : Held R m a.pgdir) (hs : Shaped a)
    (hn : 0 < n.toInt) (hk : pgroundup n.toNat < 2 ^ 31)
    (hbad : kernbase ≤ a.sz + pgroundup n.toNat ∨
      ∃ j, j < n.toNat ∧ ¬ readable (npages a.sz + j / pgsize) ((val.toNat + j) % 2 ^ 32))
    (h : makex m a val n = .ok (v, m', a')) : v ≠ 0 := by
  rintro rfl
  obtain ⟨hless, -, hg⟩ := makex_grown hs hn ⟨adds_of_pos hn, hk⟩
    (allocxuvm_readable hd hs (a.sz + pgroundup n.toNat) val.toNat n.toNat) h
  rcases hbad with hbig | ⟨j, hj, hno⟩
  · omega
  have hps : pgsize = 4096 := rfl
  obtain ⟨e, -, -, -, -, hfill⟩ := hg.new (j / pgsize) (by
    unfold npages
    rw [hps]
    omega)
  have hsum : pgsize * (j / pgsize) + j % pgsize = j := Nat.div_add_mod j pgsize
  have hread := hfill (j % pgsize) (Nat.mod_lt _ (by decide)) (by rw [hsum]; exact hj)
  rw [hsum] at hread
  exact hno hread

end Copy

-- ======== calls that are fresh

section Calls

variable {s : Machine} {p : Slot} {t : Task} {limit sz : Nat} {mem : Nat → Page}
  {c : Machine.Call}

/-- What `Fresh` comes to: a call compares with that on linked pages. -/
def SameView (x y : Int × Machine) : Prop := y.1 = x.1 ∧ y.2.view = x.2.view

theorem fresh_of (h : ∀ s p t limit mem, Runs s p t → t.space.sz = sz →
      s.kmem.top ≤ devspace / pgsize → OffFree s.kmem mem →
      Both SameView ((s.withLimit limit).call p t c)
        (((s.withMem mem).withLimit limit).call p t c)) : Fresh sz c :=
  fun s p t limit mem mem' hrun hsz htop hmem hmem' =>
    (h s p t limit mem hrun hsz htop hmem).join (h s p t limit mem' hrun hsz htop hmem')
      fun _ _ _ hx hy => ⟨hy.1.trans hx.1.symm, hy.2.trans hx.2.symm⟩

theorem OffFree.alike (h : OffFree s.kmem mem) (limit : Nat) :
    Machine.Alike (fun _ => False) (s.withLimit limit) ((s.withMem mem).withLimit limit) :=
  ⟨rfl, ⟨rfl, rfl, rfl, rfl, fun k hk _ o _ => congrFun (h k hk) o⟩, rfl, rfl, rfl⟩

theorem Machine.Good.forget {S : Space → Prop} (h : s.Good S) : s.Good fun _ => True :=
  ⟨h.kmem, h.apart, h.mapped, fun _ _ _ => trivial, h.piped⟩

/-- A difference in free pages and stacks is not seen. -/
theorem sameView_of (hrun : Runs s p t)
    (h : Both (Machine.AlikeSnd Machine.isStack) ((s.withLimit limit).call p t c)
      (((s.withMem mem).withLimit limit).call p t c)) :
    Both SameView ((s.withLimit limit).call p t c)
      (((s.withMem mem).withLimit limit).call p t c) := by
  have hgood := Machine.call_spec pageRules (hrun.good.withLimit limit).forget hrun.proc
    (c := c) trivial
  refine h.known.imp fun x y hx => ?_
  rw [hx.2] at hgood
  exact ⟨hx.1.1, hx.1.2.view (Machine.Good.solid hgood)⟩

/-- A call that changes the address space of its process. -/
theorem sameView_of_space {x y : Except VmPanic (Int × Kmem × Space)} (hrun : Runs s p t)
    (hmem : OffFree s.kmem mem) (h : Both (AlikeMid fun _ => False) x y)
    (hx : (s.withLimit limit).call p t c = (s.withLimit limit).onSpace p t x)
    (hy : ((s.withMem mem).withLimit limit).call p t c
      = ((s.withMem mem).withLimit limit).onSpace p t y) :
    Both SameView ((s.withLimit limit).call p t c)
      (((s.withMem mem).withLimit limit).call p t c) := by
  refine sameView_of hrun ?_
  rw [hx, hy]
  exact ((hmem.alike _).onSpace h).imp fun _ _ hr =>
    ⟨hr.1, { hr.2 with kmem := hr.2.kmem.mono fun _ => False.elim }⟩

theorem growproc_fresh (n : Word) : Fresh sz (.growproc n) :=
  fresh_of fun _ _ _ limit _ hrun _ _ hmem => by
    obtain ⟨R, hd, -⟩ := hrun.held limit
    exact sameView_of_space hrun hmem (Twins.growproc n hd (hmem.alike limit).kmem) rfl rfl

theorem exec_fresh (file : Option (List Byte)) (argv : List (List Byte)) :
    Fresh sz (.exec file argv) :=
  fresh_of fun _ _ _ limit _ hrun _ _ hmem => by
    obtain ⟨R, hd, -⟩ := hrun.held limit
    exact sameView_of_space hrun hmem (Twins.exec file argv hd.safe (hmem.alike limit).kmem) rfl rfl

theorem fork_fresh : Fresh sz .fork :=
  fresh_of fun _ _ _ limit _ hrun _ _ hmem =>
    sameView_of hrun ((hmem.alike limit).fork (hrun.good.withLimit limit) hrun.proc)

/-- A call of `makex` that fails leaves every process with its pages. -/
theorem makex_sameView_of_fails {val n : Word} (hrun : Runs s p t) (hmem : OffFree s.kmem mem)
    (hfail : ∀ v m a, makex (s.withLimit limit).kmem t.space val n = .ok (v, m, a) → v ≠ 0) :
    Both SameView ((s.withLimit limit).call p t (.makex val n))
      (((s.withMem mem).withLimit limit).call p t (.makex val n)) := by
  obtain ⟨R, hd, -⟩ := hrun.held limit
  have hgood := hrun.good.withLimit limit
  have hspec := Machine.call_spec shapeRules hgood hrun.proc (c := .makex val n) rfl
  have hboth := (hmem.alike limit).onSpace (p := p) (t := t)
    (makex_alike hd (hmem.alike limit).kmem val n)
  refine hboth.known.imp ?_
  rintro ⟨v, s'⟩ ⟨v', r'⟩ ⟨⟨hv, hr⟩, hx⟩
  refine ⟨hv, hr.view fun q u hu w e he => ?_⟩
  have hcall : (s.withLimit limit).call p t (.makex val n) = .ok (v, s') := hx
  rw [hcall] at hspec
  refine ⟨((hspec : s'.Good Shaped).solid q u hu w e he).1, ?_⟩
  -- the page was there before
  obtain ⟨m, a, hm, -, -⟩ := Machine.onSpace_ok hcall
  obtain ⟨t', ht', hsame⟩ := Machine.call_failed hgood hrun.proc rfl rfl hcall (hfail v m a hm)
  by_cases hq : q = p
  · subst hq
    cases ht'.symm.trans hu
    rw [hsame.ptes] at he
    exact (hgood.solid q t hrun.proc w e he).1
  · obtain ⟨⟨v0, m0, a0⟩, -, hput⟩ := bind_eq_ok.1 hcall
    cases hput
    change Function.update s.proc p _ q = some u at hu
    rw [Function.update_of_ne hq] at hu
    exact (hgood.solid q u hu w e he).1

theorem makex_fresh {val n : Word} (h : sbrkxFresh sz val n) : Fresh sz (.makex val n) := by
  refine fresh_of fun s p t limit mem hrun hsz htop hmem => ?_
  obtain ⟨R, hd, hs⟩ := hrun.held limit
  by_cases hk : 0 < pgroundup n.toNat ∧ pgroundup n.toNat < 2 ^ 31
  swap
  · -- nothing is added
    have hsame : Both (AlikeMid fun _ => False) (.ok ((0 : Int), (s.withLimit limit).kmem, t.space))
        (.ok ((0 : Int), ((s.withMem mem).withLimit limit).kmem, t.space) : Except VmPanic _) :=
      .ok ⟨rfl, (hmem.alike limit).kmem, rfl⟩
    exact sameView_of_space hrun hmem hsame
      (congrArg ((s.withLimit limit).onSpace p t) (makex_zero hk))
      (congrArg (((s.withMem mem).withLimit limit).onSpace p t) (makex_zero hk))
  have hn : 0 < n.toInt := by
    by_contra hno
    exact not_adds_of_nonpos (Int.not_lt.1 hno) hk
  rw [← hsz] at h
  rcases h with hneg | hbig | hbig | hfault | ⟨hmod, hout⟩
  · omega
  · omega
  · exact makex_sameView_of_fails hrun hmem fun v m a hm =>
      makex_fails hd hs hn hk.2 (Or.inl hbig) hm
  · exact makex_sameView_of_fails hrun hmem fun v m a hm =>
      makex_fails hd hs hn hk.2 (Or.inr hfault) hm
  · exact sameView_of_space hrun hmem
      (makex_twins hd hs hn htop hmod hout (hmem.alike limit).kmem) rfl rfl

end Calls

-- ======== machines that show it

section Converse

variable {sz : Nat} {val n : Word}

/-- The pages for a process of size `sz`, behind those that the kernel can
read where it has physical memory. -/
def roomyNew (sz n : Nat) : List Nat := List.range' (2 ^ 16 + (npt * 4 + npages sz)) n

/-- A machine with `n` pages for the process, and page `q`. -/
def roomy (sz n q : Nat) : Machine := lone (2 ^ 16) (devspace / pgsize) (roomyNew sz n ++ [q]) sz

theorem roomyNew_get {c j : Nat} (hj : j < c) :
    (roomyNew sz c)[j]? = some (2 ^ 16 + (npt * 4 + npages sz) + j) := by
  rw [roomyNew, List.getElem?_range' hj, Nat.one_mul]

theorem roomy_runs {c q : Nat} (hsz : sz < kernbase) (hc : npages sz + c ≤ 2 ^ 19)
    (hq : q < 2 ^ 16) : Runs (roomy sz c q) initproc (loneTask (2 ^ 16) sz) := by
  have hnpt : npt = 1024 := rfl
  have htop : devspace / pgsize = 1040384 := by decide
  refine ⟨lone_good hsz ?_ (fun k hk => ?_) (by omega), lone_init, rfl⟩
  · refine List.nodup_append.2 ⟨List.nodup_range', List.nodup_singleton q, fun j hj k hk => ?_⟩
    have := List.mem_range'_1.1 hj
    rw [List.mem_singleton.1 hk]
    omega
  · rcases List.mem_append.1 hk with hk | hk
    · have := List.mem_range'_1.1 hk
      omega
    · rw [List.mem_singleton.1 hk]
      omega

/-- A range that can be read is copied. -/
theorem sbrkxFill_ok {j f : Nat} {m : Kmem} {pd : Pgdir}
    (hread : ∀ j, j < n.toNat → readable (npages sz + j / pgsize) ((val.toNat + j) % 2 ^ 32))
    (hold : ∀ u, (pd.ptes u).isSome ↔ u < npages sz + j) :
    ∃ page, sbrkxFill val.toNat n.toNat j f m pd = .ok page := by
  have hps : pgsize = 4096 := rfl
  refine ⟨_, if_pos fun o ho => ?_⟩
  have hj := hread (pgsize * j + o) (by omega)
  rw [show (pgsize * j + o) / pgsize = j by rw [hps] at ho ⊢; omega, ← Nat.add_assoc] at hj
  exact (load_isSome_iff hold _).2 hj

/-- The byte at place `j` of what is copied to a page, and where the copy
ends. -/
theorem sbrkxFill_byte {i f : Nat} {m : Kmem} {pd : Pgdir} {page : Page}
    (h : sbrkxFill val.toNat n.toNat i f m pd = .ok page) {o : Nat} (ho : o < pgsize) :
    page o = if pgsize * i + o < n.toNat then
        (m.load pd ((val.toNat + (pgsize * i + o)) % 2 ^ 32)).getD 0 else m.mem f o := by
  rw [movein_ok h o, Nat.add_assoc]
  by_cases hlt : pgsize * i + o < n.toNat
  · rw [if_pos hlt, if_pos (by omega)]
  · rw [if_neg hlt, if_neg (by omega)]

theorem load_direct {m : Kmem} {pd : Pgdir} {va : Nat} (h : direct va) :
    m.load pd va = some (m.mem ((va - kernbase) / pgsize) (va % pgsize)) :=
  (if_neg (Nat.not_lt.2 h.1)).trans (if_pos h.2)

/-- A byte of a page that is the user's. -/
theorem view_at {s : Machine} {q : Slot} {t : Task} {va : Nat} {e : Pte} (ht : s.proc q = some t)
    (he : t.space.pgdir.ptes (va / pgsize) = some e) (hu : e.u = true) :
    (s.view q).map (fun v => v.2 va) = some (some (s.kmem.mem e.frame (va % pgsize))) := by
  unfold Machine.view
  rw [ht]
  show some ((t.space.pgdir.ptes _).bind _) = _
  rw [he]
  exact congrArg some (if_pos hu)

/-- `sbrkx` in a machine with pages enough. -/
theorem roomy_makex (hn : 0 < n.toInt) (hk : pgroundup n.toNat < 2 ^ 31)
    (hnew : sz + pgroundup n.toNat < kernbase)
    (hread : ∀ j, j < n.toNat → readable (npages sz + j / pgsize) ((val.toNat + j) % 2 ^ 32))
    (mem : Nat → Page) (q : Nat) :
    ∃ m' pd', makex (((roomy sz (npages n.toNat) q).withMem mem).kmemFor (npages n.toNat))
        ⟨lonePgdir (2 ^ 16) sz, sz⟩ val n = .ok (0, m', ⟨pd', sz + pgroundup n.toNat⟩) ∧
      Filling false (sbrkxFill val.toNat n.toNat) (npages sz) 0 (roomyNew sz (npages n.toNat))
        (((roomy sz (npages n.toNat) q).withMem mem).kmemFor (npages n.toNat))
        (lonePgdir (2 ^ 16) sz) m' pd' := by
  obtain ⟨-, hpages, -⟩ := pages_of_sbrkx hn hk hnew
  have hkern : npages kernbase = 2 ^ 19 := by decide
  have hpresent : ∀ u, ((lonePgdir (2 ^ 16) sz).ptes u).isSome ↔ u < npages sz + 0 := by
    intro u
    show Option.isSome (if u < npages sz then _ else none) = true ↔ u < npages sz
    split
    · next hu => exact iff_of_true rfl hu
    · next hu => exact iff_of_false nofun hu
  rcases @growLoop_fills false (sbrkxFill val.toNat n.toNat) sz
    (sz + pgroundup n.toNat) (npages n.toNat) 0
    (((roomy sz (npages n.toNat) q).withMem mem).kmemFor (npages n.toNat))
    (lonePgdir (2 ^ 16) sz) (roomyNew sz (npages n.toNat)) [q] (fun _ => lone_tables)
    (by omega) hpresent rfl List.length_range' List.nodup_range' (Nat.le_refl _) with
    ⟨j, f, m1, pd1, e, -, hfill, hold⟩ | ⟨m', pd', hr, hg⟩
  · obtain ⟨page, hpage⟩ := sbrkxFill_ok (f := f) (m := m1) hread hold
    rw [hpage] at hfill
    cases hfill
  · exact ⟨m', pd', makex_ok hn hk hnew hr, hg⟩

/-- Where byte `j` of the new pages comes from, if it comes from a page that
was free: the page itself behind what is copied, or page `q`. -/
def FromFree (sz : Nat) (val n : Word) (q j k o : Nat) : Prop :=
  (n.toNat ≤ j ∧ k = 2 ^ 16 + (npt * 4 + npages sz) + j / pgsize ∧ o = j % pgsize) ∨
    (j < n.toNat ∧ direct ((val.toNat + j) % 2 ^ 32) ∧ k = q ∧
      q = ((val.toNat + j) % 2 ^ 32 - kernbase) / pgsize ∧ o = (val.toNat + j) % 2 ^ 32 % pgsize)

/-- What the process sees there is what the page held. -/
theorem roomy_view (hn : 0 < n.toInt) (hk : pgroundup n.toNat < 2 ^ 31)
    (hnew : sz + pgroundup n.toNat < kernbase)
    (hread : ∀ j, j < n.toNat → readable (npages sz + j / pgsize) ((val.toNat + j) % 2 ^ 32))
    {q j k o : Nat} (hq : q < 2 ^ 16) (hj : j < pgsize * npages n.toNat)
    (hfrom : FromFree sz val n q j k o) (mem : Nat → Page) :
    ∃ s', (((roomy sz (npages n.toNat) q).withMem mem).withLimit (npages n.toNat)).call initproc
        (loneTask (2 ^ 16) sz) (.makex val n) = .ok (0, s') ∧
      (s'.view initproc).map (fun v => v.2 (pgsize * npages sz + j)) = some (some (mem k o)) := by
  have hps : pgsize = 4096 := rfl
  obtain ⟨m', pd', hr, hg⟩ := roomy_makex hn hk hnew hread mem q
  obtain ⟨s', hcall⟩ : ∃ s', (((roomy sz (npages n.toNat) q).withMem mem).withLimit
      (npages n.toNat)).call initproc (loneTask (2 ^ 16) sz) (.makex val n) = .ok (0, s') :=
    ⟨_, bind_of_ok hr rfl⟩
  obtain ⟨m, a, hr', hkmem, hproc⟩ := Machine.onSpace_ok hcall
  cases hr.symm.trans hr'
  refine ⟨s', hcall, ?_⟩
  have hi : j / pgsize < npages n.toNat := Nat.div_lt_of_lt_mul hj
  have hsum : pgsize * (j / pgsize) + j % pgsize = j := Nat.div_add_mod j pgsize
  obtain ⟨hpte, m1, pd1, hfill, hmem⟩ := hg.new (j / pgsize) _ (roomyNew_get hi)
  rw [Nat.zero_add] at hfill
  have hbyte := sbrkxFill_byte hfill (Nat.mod_lt j (by decide : 0 < pgsize))
  rw [hsum] at hbyte
  -- the page is as it was when its turn comes
  have hkeep : ∀ k', k' < 2 ^ 16 ∨ k' = 2 ^ 16 + (npt * 4 + npages sz) + j / pgsize →
      m1.mem k' = mem k' := by
    intro k' hk'
    refine hmem k' fun hin => ?_
    obtain ⟨i, hi, rfl⟩ := List.mem_take_iff_getElem.1 hin
    unfold roomyNew at hk'
    rw [List.getElem_range'] at hk'
    omega
  have hview : m'.mem (2 ^ 16 + (npt * 4 + npages sz) + j / pgsize) (j % pgsize) = mem k o := by
    rw [hbyte]
    rcases hfrom with ⟨hge, rfl, rfl⟩ | ⟨hlt, hdir, rfl, hq', rfl⟩
    · rw [if_neg (by omega), hkeep _ (Or.inr rfl)]
    · rw [if_pos hlt, load_direct hdir, ← hq', hkeep _ (Or.inl hq)]
      rfl
  have hdiv : (pgsize * npages sz + j) / pgsize = npages sz + 0 + j / pgsize := by
    rw [hps]
    omega
  have hmod : (pgsize * npages sz + j) % pgsize = j % pgsize := by
    rw [hps]
    omega
  rw [← hdiv] at hpte
  rw [← hview, ← hmod, ← hkmem]
  exact view_at hproc hpte rfl

theorem byte_add_one_ne (b : Byte) : b + 1 ≠ b := by
  revert b
  decide

/-- Where a byte comes from a page that was free, `sbrkx` is not fresh. -/
theorem not_fresh_of_fromFree (hsz : sz < kernbase) (hn : 0 < n.toInt)
    (hk : pgroundup n.toNat < 2 ^ 31) (hnew : sz + pgroundup n.toNat < kernbase)
    (hread : ∀ j, j < n.toNat → readable (npages sz + j / pgsize) ((val.toNat + j) % 2 ^ 32))
    {q j k o : Nat} (hq : q < 2 ^ 16) (hj : j < pgsize * npages n.toNat)
    (hfrom : FromFree sz val n q j k o) : ¬ Fresh sz (.makex val n) := by
  intro hfresh
  obtain ⟨-, hpages, -⟩ := pages_of_sbrkx hn hk hnew
  have hrun := roomy_runs hsz hpages hq
  have hfree : k ∈ (roomy sz (npages n.toNat) q).kmem.free := by
    show k ∈ roomyNew sz (npages n.toNat) ++ [q]
    rcases hfrom with ⟨-, rfl, -⟩ | ⟨-, -, rfl, -⟩
    · have hi : j / pgsize < npages n.toNat := Nat.div_lt_of_lt_mul hj
      exact List.mem_append_left _ (List.mem_range'_1.2
        ⟨Nat.le_add_right _ _, Nat.add_lt_add_left hi _⟩)
    · exact List.mem_append_right _ List.mem_cons_self
  generalize hm : (roomy sz (npages n.toNat) q).kmem.mem = mem
  have hother : OffFree (roomy sz (npages n.toNat) q).kmem
      (Function.update mem k fun o => mem k o + 1) := by
    intro k' hk'
    have hne : k' ≠ k := fun he => hk' (he ▸ hfree)
    rw [hm]
    exact Function.update_of_ne hne ..
  obtain ⟨s1, hr1, hv1⟩ := roomy_view hn hk hnew hread hq hj hfrom mem
  obtain ⟨s2, hr2, hv2⟩ := roomy_view hn hk hnew hread hq hj hfrom
    (Function.update mem k fun o => mem k o + 1)
  have hboth := hfresh _ _ _ (npages n.toNat) mem _ hrun rfl (Nat.le_refl _)
    (fun k' _ => by rw [hm]) hother
  rw [hr1, hr2] at hboth
  cases hboth with
  | ok hsame =>
    rw [← hsame.2] at hv1
    rw [hv1, Function.update_self] at hv2
    exact byte_add_one_ne _ (Option.some.inj (Option.some.inj hv2)).symm

theorem sbrkxFresh_of_fresh (hsz : sz < kernbase) (hfresh : Fresh sz (.makex val n)) :
    sbrkxFresh sz val n := by
  by_contra hno
  unfold sbrkxFresh at hno
  push Not at hno
  obtain ⟨hn, hk, hnew, hread, hcopy⟩ := hno
  have hps : pgsize = 4096 := rfl
  have hb : kernbase = 0x80000000 := rfl
  by_cases hmod : n.toNat % pgsize = 0
  · -- a byte of physical memory is copied, from a page that may be free
    obtain ⟨j, hj, hdir⟩ := hcopy hmod
    refine not_fresh_of_fromFree hsz hn hk hnew hread (j := j) ?_ ?_
      (Or.inr ⟨hj, hdir, rfl, rfl, rfl⟩) hfresh
    · have hphys := hdir.2
      have hp : phystop = 0xE000000 := rfl
      rw [hps]
      omega
    · unfold npages
      rw [hps] at hmod ⊢
      omega
  · -- the byte behind the copy
    refine not_fresh_of_fromFree hsz hn hk hnew hread (q := 0) (j := n.toNat) (by decide) ?_
      (Or.inl ⟨Nat.le_refl _, rfl, rfl⟩) hfresh
    unfold npages
    rw [hps] at hmod ⊢
    omega

end Converse

-- ======== results

/-- `sbrk`, `exec` and `fork` are fresh for every process, and `sbrkx` for
which arguments. -/
theorem fresh_memory_iff (sz : Nat) :
    (∀ n, Fresh sz (.growproc n)) ∧ (∀ file argv, Fresh sz (.exec file argv)) ∧ Fresh sz .fork ∧
      ∀ val n, Fresh sz (.makex val n) ↔ sbrkxFresh sz val n := by
  refine ⟨growproc_fresh, exec_fresh, fork_fresh, fun val n => ⟨fun h => ?_, makex_fresh⟩⟩
  by_cases hsz : sz < kernbase
  · exact sbrkxFresh_of_fresh hsz h
  · exact Or.inr (Or.inr (Or.inl (by omega)))

/-- What a call returns, and what its process sees at an address after it. -/
def Machine.sees (s : Machine) (e : Event) (va : Nat) : Option (Int × Option (Option Byte)) :=
  (s.after e).map fun r => (r.1, (r.2.view e.proc).map fun v => v.2 va)

/-- `sbrkx` of one byte by the first process. The new page holds 1 behind
it, as `kfree` left it; were the free page to hold 7, the process would
see that. -/
theorem sbrkx_shows_free_page : ∃ s k, Reach vmStep Booted s ∧
    OffFree s.kmem (Function.update s.kmem.mem k fun _ => 7) ∧
    s.sees ⟨0, 1000, .makex 0 1⟩ 4100 = some (0, some (some 1)) ∧
    (s.withMem (Function.update s.kmem.mem k fun _ => 7)).sees ⟨0, 1000, .makex 0 1⟩ 4100
      = some (0, some (some 7)) := by
  obtain ⟨s, hs, hobs⟩ := Reach.eval_from smallBoot_booted vmStep []
    (fun s => s.kmem.free.head?.map fun k =>
      decide (s.sees ⟨0, 1000, .makex 0 1⟩ 4100 = some (0, some (some 1)) ∧
        (s.withMem (Function.update s.kmem.mem k fun _ => 7)).sees ⟨0, 1000, .makex 0 1⟩ 4100
          = some (0, some (some 7))))
    (some true) (by decide +kernel)
  obtain ⟨k, hk, hval⟩ := Option.map_eq_some_iff.1 hobs
  refine ⟨s, k, hs, fun k' hk' => Function.update_of_ne (fun he => hk' ?_) .., of_decide_eq_true hval⟩
  rw [he]
  exact List.mem_of_mem_head? hk

end Xv6Sume32.Vm
