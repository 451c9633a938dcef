/-
What `sbrkx` copies.

# The copy

`allocxuvm` copies from the address it is given, in kernel mode, and checks
nothing about it. The bytes come from the process when the range is below
its size; otherwise they come from the kernel or from whatever page is
there, or the copy faults. The rest of the last page is as `kalloc` gives
it: the first word of a free page is the address of the next one, the
others hold 1.

# When it is private

`Private sz val n` says of a process of size `sz` that a range it does not
have is refused, and that what it gets depends on its own memory only: two
machines in which it has the same memory give it the same pages.
`sbrkx_private_iff` says for which arguments that is so. Where it is not,
there are machines with pages enough that show it (`bare`).
-/
import Mathlib.Data.List.TakeWhile
import Xv6Sume32.Vm.Proofs.Shape

namespace Xv6Sume32.Vm

open Lib
open Function (update update_apply update_of_ne update_self)
open Proc (Slot initproc nproc)

-- ======== the copy

/-- The byte at place `j` of the new pages. -/
def sbrkxByte (m : Kmem) (a : Space) (val n j : Nat) : Option Byte :=
  if j < n then m.load a.pgdir (val + j) else some 1

/-- The new page `i`, if there is one. -/
def Filled (m : Kmem) (a : Space) (val n i : Nat) (page : Page) : Prop :=
  pgsize * i < n → ∀ o, o < pgsize → some (page o) = sbrkxByte m a val n (pgsize * i + o)

theorem mul_lt_of_lt_npages {n i : Nat} (h : i < npages n) : pgsize * i < n := by
  have hps : pgsize = 4096 := rfl
  unfold npages at h
  rw [hps] at h ⊢
  omega

section Copy

variable {R : Nat → Prop} {C : Nat → Page → Prop} {w : Bool} {m m' m₁ : Kmem} {a : Space}
  {pd : Pgdir} {val n i f : Nat} {page : Page}

theorem load_below {va : Nat} (hva : va < kernbase) :
    m.load pd va = (pd.ptes (va / pgsize)).map fun e => m.mem e.frame (va % pgsize) := if_pos hva

/-- The memory of the process while it grows. -/
theorem Grown.load (h : Grown R C w (npages a.sz) i m a.pgdir m' pd) (hd : Held R m a.pgdir)
    (hs : Shaped a) {va : Nat} (hva : va / pgsize < npages a.sz) :
    m'.load pd va = m.load a.pgdir va := by
  have hlt : va < kernbase := by
    have hsz := hs.lt
    have hp : pgsize = 4096 := rfl
    have hb : kernbase = 0x80000000 := rfl
    unfold npages at hva
    rw [hp] at hva
    rw [hb] at hsz ⊢
    omega
  rw [load_below hlt, load_below hlt, h.old _ (by omega)]
  cases he : a.pgdir.ptes (va / pgsize) with
  | none => rfl
  | some e =>
    have hused := hd.used (l := .page (va / pgsize)) ⟨e, he, rfl⟩
    show some (m'.mem e.frame _) = some (m.mem e.frame _)
    rw [(h.keep _ hused).2]

theorem movein_ok {k : Nat} {old : Page} (h : movein m pd val k old = .ok page) :
    ∀ o, page o = if o < k then (m.load pd ((val + o) % 2 ^ 32)).getD 0 else old o := by
  unfold movein at h
  split at h
  · cases h
    exact fun _ => rfl
  · cases h

/-- A byte of a range below the size, in the page it is copied to. -/
theorem moved_of_movein (hd : Held R m a.pgdir) (hs : Shaped a) (hin : val + n ≤ a.sz)
    (hg : Grown R C w (npages a.sz) i m a.pgdir m' pd) (hk : m'.kalloc = some (f, m₁))
    (hp : movein m₁ pd (val + pgsize * i) (min pgsize ((n : Int) - pgsize * i).toNat) (m₁.mem f)
      = .ok page) {o : Nat} (ho : o < pgsize) (hlo : pgsize * i + o < n) :
    some (page o) = m.load a.pgdir (val + (pgsize * i + o)) := by
  obtain ⟨-, -, -, hmem, -⟩ := Kmem.kalloc_spec hk hg.held.good
  have hlt := hs.lt
  have hb : kernbase = 0x80000000 := rfl
  have hva : (val + pgsize * i + o) % 2 ^ 32 = val + (pgsize * i + o) := by
    rw [hb] at hlt
    omega
  obtain ⟨e, he⟩ := hs.page (show val + (pgsize * i + o) < a.sz by omega)
  have hpage : (val + (pgsize * i + o)) / pgsize < npages a.sz := (hs.present _).1 (by rw [he]; rfl)
  have hload : m₁.load pd (val + (pgsize * i + o)) = m.load a.pgdir (val + (pgsize * i + o)) := by
    unfold Kmem.load
    rw [hmem]
    exact hg.load hd hs hpage
  have hsome : m.load a.pgdir (val + (pgsize * i + o))
      = some (m.mem e.frame ((val + (pgsize * i + o)) % pgsize)) := by
    rw [load_below (by omega), he]
    rfl
  rw [movein_ok hp o, if_pos (by omega), hva, hload, hsome]
  rfl

/-- The bytes of a range below the size, behind them those of a page that
`kfree` has left. -/
theorem filled_of_movein (hd : Held R m a.pgdir) (hs : Shaped a) (hin : val + n ≤ a.sz)
    (htail : n % pgsize = 0 ∨ 4 ≤ n % pgsize)
    (hg : Grown R C w (npages a.sz) i m a.pgdir m' pd) (hk : m'.kalloc = some (f, m₁))
    (hp : movein m₁ pd (val + pgsize * i) (min pgsize ((n : Int) - pgsize * i).toNat) (m₁.mem f)
      = .ok page) : Filled m a val n i page := by
  obtain ⟨-, -, -, hmem, hlink⟩ := Kmem.kalloc_spec hk hg.held.good
  have hps : pgsize = 4096 := rfl
  intro hi o ho
  unfold sbrkxByte
  by_cases hlo : pgsize * i + o < n
  · rw [if_pos hlo]
    exact moved_of_movein hd hs hin hg hk hp ho hlo
  · have h4 : ¬ o < 4 := by
      rw [hps] at hi hlo htail ho
      omega
    rw [movein_ok hp o, if_neg (by omega), if_neg hlo, hmem, hlink]
    exact congrArg some (if_neg h4)

theorem allocxuvm_inside (hd : Held R m a.pgdir) (hs : Shaped a) (hin : val + n ≤ a.sz)
    (htail : n % pgsize = 0 ∨ 4 ≤ n % pgsize) (newsz : Nat) :
    Resized R (fun e => e = .fault) (Filled m a val n) false a.sz newsz m a.pgdir
      (allocxuvm m a.pgdir a.sz newsz val n) :=
  grow_spec a.sz newsz hd (fun _ _ _ _ _ => movein_fault)
    fun _ _ _ _ _ _ hg hk hp => filled_of_movein hd hs hin htail hg hk hp

/-- The size after a call that succeeds. -/
def sizeAfter (sz n : Nat) : Nat :=
  if 0 < pgroundup n ∧ pgroundup n < 2 ^ 31 then sz + pgroundup n else sz

/-- The byte at an address after a call that succeeds. -/
def byteAfter (m : Kmem) (a : Space) (val n va : Nat) : Option Byte :=
  if va / pgsize < npages a.sz then m.load a.pgdir va
  else sbrkxByte m a val n (va - pgsize * npages a.sz)

theorem toInt_of_pos {n : Word} (hn : 0 < n.toInt) : n.toInt = n.toNat ∧ n.toNat < 2 ^ 31 := by
  have h := BitVec.toInt_eq_toNat_cond n
  have hlt := n.isLt
  split at h
  · next hsmall => exact ⟨h, by omega⟩
  · next hbig => omega

theorem pgroundup_of_pos {n : Word} (hn : 0 < n.toInt) :
    pgroundup n.toNat = pgsize * npages n.toNat := by
  have hps : pgsize = 4096 := rfl
  have := (toInt_of_pos hn).2
  unfold pgroundup npages
  rw [hps]
  omega

/-- The pages that are added. -/
theorem npages_add {n : Word} (hn : 0 < n.toInt) (sz : Nat) :
    npages (sz + pgroundup n.toNat) = npages sz + npages n.toNat := by
  have hps : pgsize = 4096 := rfl
  rw [pgroundup_of_pos hn]
  unfold npages
  rw [hps]
  omega

/-- A call of `makex` that adds pages and succeeds. -/
theorem makex_grown {val n : Word} {a' : Space} (hs : Shaped a) (hn : 0 < n.toInt)
    (hk : 0 < pgroundup n.toNat ∧ pgroundup n.toNat < 2 ^ 31)
    (hspec : Resized R (fun e => e = .fault) C false a.sz (a.sz + pgroundup n.toNat) m a.pgdir
      (allocxuvm m a.pgdir a.sz (a.sz + pgroundup n.toNat) val.toNat n.toNat))
    (h : makex m a val n = .ok (0, m', a')) :
    a.sz + pgroundup n.toNat < kernbase ∧ a'.sz = a.sz + pgroundup n.toNat ∧
      Grown R C false (npages a.sz) (npages n.toNat) m a.pgdir m' a'.pgdir := by
  have hlt := hs.lt
  have hb : kernbase = 0x80000000 := rfl
  have hnew : (a.sz + pgroundup n.toNat) % 2 ^ 32 = a.sz + pgroundup n.toNat := by
    rw [hb] at hlt
    omega
  rw [makex_grow hk, hnew, (toInt_of_pos hn).1] at h
  generalize allocxuvm m a.pgdir a.sz (a.sz + pgroundup n.toNat) val.toNat n.toNat = x at h hspec
  cases hspec with
  | fault _ he => cases h
  | remap _ => cases h
  | refused _ => cases h
  | full _ _ _ _ _ _ => cases h
  | same hless => omega
  | grown hless hle hg =>
    rw [sized_done _ _ _ (by omega)] at h
    cases h
    rw [npages_add hn, Nat.add_sub_cancel_left] at hg
    exact ⟨hless, rfl, hg⟩

/-- What a process has after `makex` of a range below its size. -/
theorem makex_inside {val n : Word} {a' : Space} (hd : Held R m a.pgdir) (hs : Shaped a)
    (hn : 0 < n.toInt) (hin : val.toNat + n.toNat ≤ a.sz)
    (htail : n.toNat % pgsize = 0 ∨ 4 ≤ n.toNat % pgsize) (h : makex m a val n = .ok (0, m', a')) :
    a'.sz = sizeAfter a.sz n.toNat ∧ ∀ va, va / pgsize < npages a'.sz →
      m'.load a'.pgdir va = byteAfter m a val.toNat n.toNat va := by
  unfold sizeAfter byteAfter
  by_cases hk : 0 < pgroundup n.toNat ∧ pgroundup n.toNat < 2 ^ 31
  swap
  · rw [makex_zero hk] at h
    cases h
    exact ⟨(if_neg hk).symm, fun va hva => (if_pos hva).symm⟩
  rw [if_pos hk]
  have hps : pgsize = 4096 := rfl
  obtain ⟨hless, hsz, hg⟩ := makex_grown hs hn hk
    (allocxuvm_inside hd hs hin htail (a.sz + pgroundup n.toNat)) h
  refine ⟨hsz, fun va hva => ?_⟩
  by_cases hold : va / pgsize < npages a.sz
  · rw [if_pos hold]
    exact hg.load hd hs hold
  rw [if_neg hold]
  -- an address in new page `i`
  have hcount := npages_add hn a.sz
  rw [hsz, hcount] at hva
  obtain ⟨e, he, -, -, -, hfill⟩ := hg.new (va / pgsize - npages a.sz) (by omega)
  rw [Nat.add_sub_cancel' (Nat.not_lt.1 hold)] at he
  have hin' := mul_lt_of_lt_npages (show va / pgsize - npages a.sz < npages n.toNat by omega)
  have hva' : va < kernbase := by
    have hmono := npages_mono (Nat.le_of_lt hless)
    have hkern : npages kernbase = 0x80000 := by decide
    have hb : kernbase = 0x80000000 := rfl
    rw [hps] at hva
    omega
  have hplace : pgsize * (va / pgsize - npages a.sz) + va % pgsize = va - pgsize * npages a.sz := by
    rw [hps] at hold ⊢
    omega
  rw [load_below hva', he, ← hplace]
  exact hfill hin' _ (Nat.mod_lt _ (by decide))

end Copy

-- ======== private

/-- A process that can make a call. -/
structure Runs (s : Machine) (p : Slot) (t : Task) : Prop where
  good : s.Good Shaped
  proc : s.proc p = some t
  alive : t.zombie = false

/-- Two processes have the same bytes in their pages. -/
structure SameMemory (s : Machine) (t : Task) (r : Machine) (u : Task) : Prop where
  sz : u.space.sz = t.space.sz
  load : ∀ va, va / pgsize < npages t.space.sz →
    r.kmem.load u.space.pgdir va = s.kmem.load t.space.pgdir va

/-- A process of size `sz` may call `sbrkx`: a range that it does not have
is refused, and what it gets depends on its memory only. -/
def Private (sz : Nat) (val n : Word) : Prop :=
  ∀ s p t limit, Runs s p t → t.space.sz = sz →
    (0 < n.toInt → ¬ val.toNat + n.toNat ≤ sz →
      ∃ s' t', s.after ⟨p, limit, .makex val n⟩ = some (-1, s') ∧ s'.proc p = some t' ∧
        Same s.kmem t.space s'.kmem t'.space) ∧
    ∀ r q u limit' s' t' r' u', Runs r q u → SameMemory s t r u →
      s.after ⟨p, limit, .makex val n⟩ = some (0, s') → s'.proc p = some t' →
      r.after ⟨q, limit', .makex val n⟩ = some (0, r') → r'.proc q = some u' →
      SameMemory s' t' r' u'

/-- The arguments for which that is so: `n` is not positive, the new size
is too large, or the range is below the size and its last page has no rest
in the first word. -/
def sbrkxSafe (sz : Nat) (val n : Word) : Prop :=
  n.toInt ≤ 0 ∨ (pgroundup n.toNat < 2 ^ 31 ∧ kernbase ≤ sz + pgroundup n.toNat) ∨
    (val.toNat + n.toNat ≤ sz ∧
      (n.toNat % pgsize = 0 ∨ 4 ≤ n.toNat % pgsize ∨ 2 ^ 31 ≤ pgroundup n.toNat))

section Private

variable {s s' r : Machine} {p q : Slot} {t t' u : Task} {val n : Word} {limit : Nat} {v : Int}

/-- What `makex` works on. -/
def Machine.kmemFor (s : Machine) (limit : Nat) : Kmem := { s.kmem with limit := limit }

theorem Runs.held (h : Runs s p t) (limit : Nat) :
    ∃ R, Held R (s.kmemFor limit) t.space.pgdir ∧ Shaped t.space := by
  have hgood := h.good.withLimit limit
  exact ⟨_, (hgood.lend h.proc).1, h.good.shape p t h.proc⟩

theorem Runs.after_makex (h : Runs s p t) {m : Kmem} {a : Space}
    (hr : makex (s.kmemFor limit) t.space val n = .ok (v, m, a)) :
    ∃ s', s.after ⟨p, limit, .makex val n⟩ = some (v, s') ∧ s'.kmem = m ∧
      s'.proc p = some { t with space := a } := by
  have hrun : s.run ⟨p, limit, .makex val n⟩
      = some ((s.withLimit limit).call p t (.makex val n)) := by
    unfold Machine.run
    rw [h.proc]
    show (if t.zombie = true then none else some _) = _
    rw [h.alive]
    rfl
  have hcall : (s.withLimit limit).call p t (.makex val n)
      = .ok (v, { (s.withLimit limit).setTask p { t with space := a } with kmem := m }) :=
    bind_of_ok hr rfl
  rw [hcall] at hrun
  refine ⟨{ (s.withLimit limit).setTask p { t with space := a } with kmem := m }, ?_, rfl,
    update_self ..⟩
  unfold Machine.after
  rw [hrun]

theorem Runs.makex_of_after (h : Runs s p t)
    (hr : s.after ⟨p, limit, .makex val n⟩ = some (v, s')) :
    ∃ m a, makex (s.kmemFor limit) t.space val n = .ok (v, m, a) ∧ s'.kmem = m ∧
      s'.proc p = some { t with space := a } := by
  obtain ⟨t', ht, hcall⟩ := Machine.after_cases hr
  cases h.proc.symm.trans ht
  exact Machine.onSpace_ok hcall

/-- A call that adds nothing. -/
theorem Runs.unchanged (h : Runs s p t)
    (hk : ¬ (0 < pgroundup n.toNat ∧ pgroundup n.toNat < 2 ^ 31))
    (hr : s.after ⟨p, limit, .makex val n⟩ = some (v, s')) (ht : s'.proc p = some t') :
    SameMemory s t s' t' := by
  obtain ⟨m, a, hm, hkmem, ht'⟩ := h.makex_of_after hr
  rw [makex_zero hk] at hm
  cases hm
  cases ht'.symm.trans ht
  exact ⟨rfl, fun va _ => by rw [hkmem]; rfl⟩

theorem SameMemory.symm (h : SameMemory s t r u) : SameMemory r u s t :=
  ⟨h.sz.symm, fun va hva => (h.load va (by rw [← h.sz]; exact hva)).symm⟩

theorem SameMemory.trans {r' : Machine} {u' : Task} (h : SameMemory s t r u)
    (h' : SameMemory r u r' u') : SameMemory s t r' u' :=
  ⟨h'.sz.trans h.sz, fun va hva => (h'.load va (by rw [h.sz]; exact hva)).trans (h.load va hva)⟩

theorem not_adds_of_nonpos (hn : n.toInt ≤ 0) :
    ¬ (0 < pgroundup n.toNat ∧ pgroundup n.toNat < 2 ^ 31) := by
  have h := BitVec.toInt_eq_toNat_cond n
  have hlt := n.isLt
  have hps : pgsize = 4096 := rfl
  unfold pgroundup
  rw [hps]
  split at h <;> omega

theorem adds_of_pos (hn : 0 < n.toInt) : 0 < pgroundup n.toNat := by
  have h := toInt_of_pos hn
  have hps : pgsize = 4096 := rfl
  unfold pgroundup
  rw [hps]
  omega

/-- The new memory of a process with a range below its size, from its old
memory. -/
theorem SameMemory.byteAfter (h : SameMemory s t r u) (hs : Shaped t.space) {val n : Nat}
    (hin : val + n ≤ t.space.sz) (va : Nat) :
    byteAfter r.kmem u.space val n va = byteAfter s.kmem t.space val n va := by
  unfold Vm.byteAfter sbrkxByte
  rw [h.sz]
  by_cases hva : va / pgsize < npages t.space.sz
  · rw [if_pos hva, if_pos hva, h.load va hva]
  · rw [if_neg hva, if_neg hva]
    by_cases hj : va - pgsize * npages t.space.sz < n
    · rw [if_pos hj, if_pos hj]
      obtain ⟨e, he⟩ := hs.page (v := val + (va - pgsize * npages t.space.sz)) (by omega)
      exact h.load _ ((hs.present _).1 (by rw [he]; rfl))
    · rw [if_neg hj, if_neg hj]

theorem Runs.memory_after (h : Runs s p t) (hn : 0 < n.toInt)
    (hin : val.toNat + n.toNat ≤ t.space.sz) (htail : n.toNat % pgsize = 0 ∨ 4 ≤ n.toNat % pgsize)
    (hr : s.after ⟨p, limit, .makex val n⟩ = some (0, s')) (ht : s'.proc p = some t') :
    t'.space.sz = sizeAfter t.space.sz n.toNat ∧ ∀ va, va / pgsize < npages t'.space.sz →
      s'.kmem.load t'.space.pgdir va = byteAfter s.kmem t.space val.toNat n.toNat va := by
  obtain ⟨R, hd, hs⟩ := h.held limit
  obtain ⟨m, a, hm, hkmem, ht'⟩ := h.makex_of_after hr
  cases ht'.symm.trans ht
  rw [hkmem]
  have hspec := makex_inside hd hs hn hin htail hm
  exact ⟨hspec.1, hspec.2⟩

theorem private_of_safe {sz : Nat} (hsafe : sbrkxSafe sz val n) : Private sz val n := by
  intro s p t limit hrun hsz
  have hs := hrun.good.shape p t hrun.proc
  have hquiet : ¬ (0 < pgroundup n.toNat ∧ pgroundup n.toNat < 2 ^ 31) →
      ∀ r q u limit' s' t' r' u', Runs r q u → SameMemory s t r u →
        s.after ⟨p, limit, .makex val n⟩ = some (0, s') → s'.proc p = some t' →
        r.after ⟨q, limit', .makex val n⟩ = some (0, r') → r'.proc q = some u' →
        SameMemory s' t' r' u' := fun hk r q u limit' s' t' r' u' hrun' hsame hr ht hr' hu =>
    ((hrun.unchanged hk hr ht).symm.trans hsame).trans (hrun'.unchanged hk hr' hu)
  by_cases hn : 0 < n.toInt
  swap
  · exact ⟨fun h => absurd h hn, hquiet (not_adds_of_nonpos (by omega))⟩
  have hpos := adds_of_pos hn
  rcases hsafe with hneg | ⟨hk, hbig⟩ | ⟨hin, htail⟩
  · omega
  · -- the new size is refused
    have hlt := hs.lt
    have hb : kernbase = 0x80000000 := rfl
    have hnew : (t.space.sz + pgroundup n.toNat) % 2 ^ 32 = sz + pgroundup n.toNat := by
      rw [hsz]
      rw [hb, hsz] at hlt
      omega
    have hfail : makex (s.kmemFor limit) t.space val n = .ok (-1, s.kmemFor limit, t.space) := by
      rw [makex_grow ⟨hpos, hk⟩, hnew]
      unfold allocxuvm grow
      rw [if_pos hbig]
      rfl
    obtain ⟨s1, hafter, hkmem, hproc⟩ := hrun.after_makex hfail
    refine ⟨fun _ _ => ⟨s1, _, hafter, hproc, rfl, rfl, fun u e _ => by rw [hkmem]; rfl⟩, ?_⟩
    intro r q u limit' s' t' r' u' _ _ hr
    rw [hafter] at hr
    cases hr
  · refine ⟨fun _ hout => absurd hin hout, ?_⟩
    by_cases hk : pgroundup n.toNat < 2 ^ 31
    swap
    · exact hquiet fun h => hk h.2
    have htail : n.toNat % pgsize = 0 ∨ 4 ≤ n.toNat % pgsize := by omega
    intro r q u limit' s' t' r' u' hrun' hsame hr ht hr' hu
    rw [← hsz] at hin
    obtain ⟨hsz1, hload1⟩ := hrun.memory_after hn hin htail hr ht
    obtain ⟨hsz2, hload2⟩ := hrun'.memory_after hn (by rw [hsame.sz]; exact hin) htail hr' hu
    rw [hsame.sz, ← hsz1] at hsz2
    refine ⟨hsz2, fun va hva => ?_⟩
    rw [hload1 va hva, hload2 va (by rw [hsz2]; exact hva), hsame.byteAfter hs hin]

end Private

-- ======== machines that show it

section Plenty

variable {w : Bool} {fill : Nat → Nat → Kmem → Pgdir → Except VmPanic Page} {oldsz newsz : Nat}

/-- One round with a page and a page table. -/
theorem growLoop_round {n i : Nat} {m m₁ : Kmem} {pd : Pgdir} {f : Nat} {page : Page}
    (hk : m.kalloc = some (f, m₁)) (hp : fill i f m₁ pd = .ok page)
    (htab : (pd.tables ((npages oldsz + i) / npt)).isSome)
    (hnone : pd.ptes (npages oldsz + i) = none) : growLoop w fill oldsz newsz (n + 1) i m pd
      = growLoop w fill oldsz newsz n (i + 1) (m₁.write f page)
          { pd with ptes := update pd.ptes (npages oldsz + i) (some ⟨f, w, true⟩) } := by
  obtain ⟨t, ht⟩ := Option.isSome_iff_exists.1 htab
  refine growLoop_next hk hp ?_
  unfold mappages walkpgdir
  rw [ht]
  dsimp only
  rw [hnone]
  rfl

theorem kalloc_cons {m : Kmem} {f : Nat} {fs : List Nat} (hfree : m.free = f :: fs)
    (hlimit : 0 < m.limit) : m.kalloc = some (f, { m with free := fs, limit := m.limit - 1 }) := by
  obtain ⟨l, hl⟩ := Nat.exists_eq_add_one_of_ne_zero (Nat.pos_iff_ne_zero.1 hlimit)
  unfold Kmem.kalloc
  rw [hl, hfree]
  rfl

/-- What the loop makes of the pages `fs`, from round `i` on: each is filled
in a memory that has changed in the pages before it only. -/
structure Filling (w : Bool) (fill : Nat → Nat → Kmem → Pgdir → Except VmPanic Page)
    (a i : Nat) (fs : List Nat) (m : Kmem) (pd : Pgdir) (m' : Kmem) (pd' : Pgdir) : Prop where
  old : ∀ u, u < a + i → pd'.ptes u = pd.ptes u
  rest : ∀ k, k ∉ fs → m'.mem k = m.mem k
  new : ∀ j f, fs[j]? = some f → pd'.ptes (a + i + j) = some ⟨f, w, true⟩ ∧
    ∃ m₁ pd₁, fill (i + j) f m₁ pd₁ = .ok (m'.mem f) ∧ ∀ k, k ∉ fs.take j → m₁.mem k = m.mem k

/-- The loop with pages enough and no page table missing: a fault, or the
pages. -/
theorem growLoop_fills (n i : Nat) (m : Kmem) (pd : Pgdir) {fs rest : List Nat}
    (htab : ∀ u, u < npages kernbase → (pd.tables (u / npt)).isSome)
    (hlast : npages oldsz + i + n ≤ npages kernbase)
    (hold : ∀ u, (pd.ptes u).isSome ↔ u < npages oldsz + i)
    (hfree : m.free = fs ++ rest) (hlen : fs.length = n) (hnd : fs.Nodup) (hlimit : n ≤ m.limit) :
    (∃ j f m₁ pd₁ e, growLoop w fill oldsz newsz n i m pd = .error e ∧
      fill j f m₁ pd₁ = .error e ∧ ∀ u, (pd₁.ptes u).isSome ↔ u < npages oldsz + j) ∨
    ∃ m' pd', growLoop w fill oldsz newsz n i m pd = .ok (true, m', pd') ∧
      Filling w fill (npages oldsz) i fs m pd m' pd' := by
  induction n generalizing i m pd fs with
  | zero =>
    rw [List.length_eq_zero_iff.1 hlen]
    exact Or.inr ⟨m, pd, rfl, fun _ _ => rfl, fun _ _ => rfl, fun j f hj => by cases hj⟩
  | succ n ih =>
    match fs, hlen with
    | f :: fs, hlen =>
    obtain ⟨hf, hnd⟩ := List.nodup_cons.1 hnd
    have hk := kalloc_cons hfree (by omega)
    have hnone : pd.ptes (npages oldsz + i) = none := by
      rw [← Option.not_isSome_iff_eq_none, hold]
      omega
    cases hp : fill i f { m with free := fs ++ rest, limit := m.limit - 1 } pd with
    | error e => exact Or.inl ⟨i, f, _, pd, e, growLoop_fault hk hp, hp, hold⟩
    | ok page =>
    rw [growLoop_round hk hp (htab _ (by omega)) hnone]
    have hold' : ∀ u, (update pd.ptes (npages oldsz + i) (some ⟨f, w, true⟩) u).isSome
        ↔ u < npages oldsz + (i + 1) := by
      intro u
      rw [update_apply]
      split
      · next hu => exact iff_of_true rfl (by omega)
      · next hu =>
        rw [hold u]
        omega
    refine (ih (i + 1) (Kmem.write { m with free := fs ++ rest, limit := m.limit - 1 } f page)
      { pd with ptes := update pd.ptes (npages oldsz + i) (some ⟨f, w, true⟩) }
      htab (by omega) hold' rfl (by rw [List.length_cons] at hlen; omega) hnd
      (show n ≤ m.limit - 1 by omega)).imp_right ?_
    rintro ⟨m', pd', hr, hg⟩
    refine ⟨m', pd', hr, fun u hu => ?_, fun k hk => ?_, fun j g hj => ?_⟩
    · rw [hg.old u (by omega)]
      exact update_of_ne (by omega) ..
    · rw [List.mem_cons, not_or] at hk
      rw [hg.rest k hk.2, Kmem.write_mem_of_ne _ hk.1]
    · cases j with
      | zero =>
        cases hj
        refine ⟨?_, { m with free := fs ++ rest, limit := m.limit - 1 }, pd, ?_, fun _ _ => rfl⟩
        · rw [hg.old _ (by omega)]
          exact update_self ..
        · rw [hg.rest f hf, Kmem.write_mem]
          exact hp
      | succ j =>
        obtain ⟨hpte, m₁, pd₁, hpage, hmem⟩ := hg.new j g hj
        rw [show npages oldsz + (i + 1) + j = npages oldsz + i + (j + 1) by omega] at hpte
        rw [show i + 1 + j = i + (j + 1) by omega] at hpage
        refine ⟨hpte, m₁, pd₁, hpage, fun k hk => ?_⟩
        rw [List.take_succ_cons, List.mem_cons, not_or] at hk
        rw [hmem k hk.2, Kmem.write_mem_of_ne _ hk.1]

end Plenty

section Bare

/-- Memory in which the pages of a list are linked. -/
def chainMem (l : List Nat) (k : Nat) : Page := linkPage (l.dropWhile (· ≠ k)).tail.head?

theorem chainMem_linked {l : List Nat} (pre suf : List Nat) (hl : l = pre ++ suf) (hnd : l.Nodup) :
    Kmem.Linked (chainMem l) suf := by
  induction suf generalizing pre with
  | nil => trivial
  | cons f suf ih =>
    refine ⟨?_, ih (pre ++ [f]) (by rw [hl, List.append_assoc]; rfl)⟩
    have hf : f ∉ pre := by
      rw [hl, List.nodup_append] at hnd
      exact fun hmem => hnd.2.2 f hmem f List.mem_cons_self rfl
    have hdrop : l.dropWhile (· ≠ f) = f :: suf := by
      rw [hl, List.dropWhile_append_of_pos, List.dropWhile_cons_of_neg (by simp)]
      intro k hk
      have hne : k ≠ f := fun he => hf (he ▸ hk)
      simpa using hne
    unfold chainMem
    rw [hdrop]
    rfl

theorem chainMem_of_not_mem {l : List Nat} {k : Nat} (hk : k ∉ l) :
    chainMem l k = linkPage none := by
  have hdrop : l.dropWhile (· ≠ k) = [] := by
    rw [List.dropWhile_eq_nil_iff]
    intro j hj
    have hne : j ≠ k := fun he => hk (he ▸ hj)
    simpa using hne
  unfold chainMem
  rw [hdrop]
  rfl

theorem npages_le {sz : Nat} (hsz : sz < kernbase) : npages sz ≤ 2 ^ 19 := by
  have hb : npages kernbase = 2 ^ 19 := by decide
  rw [← hb]
  exact npages_mono (Nat.le_of_lt hsz)

section Lone

/-- All page tables, and the pages of a process of size `sz`, from page `b`
on. -/
def lonePgdir (b sz : Nat) : Pgdir where
  frame := b
  tables := fun d => if d < npt then some (b + (1 + d)) else none
  ptes := fun v => if v < npages sz then some ⟨b + (npt * 4 + v), true, true⟩ else none

def loneTask (b sz : Nat) : Task := ⟨b + 2000, ⟨lonePgdir b sz, sz⟩, none, false, fun _ => none⟩

/-- A machine with one process. -/
def lone (b top : Nat) (free : List Nat) (sz : Nat) : Machine where
  kern := ⟨⟨b + 2001, fun _ => none, fun _ => none⟩, []⟩
  kmem := ⟨0, top, free, chainMem free, 0⟩
  proc := update (fun _ => none) initproc (some (loneTask b sz))
  file := fun _ => ⟨0, none⟩
  pipe := fun _ => none

/-- Who has a page. -/
def loneHolder (b k : Nat) : Holder :=
  if k = b then .spot initproc .dir
  else if k ≤ b + npt then .spot initproc (.table (k - (b + 1)))
  else if k = b + 2000 then .stack initproc
  else if k = b + 2001 then .kernel (.inl .dir)
  else .spot initproc (.page (k - (b + npt * 4)))

variable {b top sz : Nat} {free : List Nat}

theorem lone_proc {p : Slot} {t : Task} (h : (lone b top free sz).proc p = some t) :
    p = initproc ∧ t = loneTask b sz := by
  change update (fun _ => none) initproc (some (loneTask b sz)) p = some t at h
  by_cases hp : p = initproc
  · rw [hp, update_self] at h
    exact ⟨hp, (Option.some.inj h).symm⟩
  · rw [update_of_ne hp] at h
    cases h

theorem lone_init : (lone b top free sz).proc initproc = some (loneTask b sz) := by
  show update (fun _ => none) initproc (some (loneTask b sz)) initproc = _
  rw [update_self]

theorem lone_has {c : Holder} {k : Nat} (h : (lone b top free sz).has c k) :
    c = loneHolder b k ∧ b ≤ k ∧ k < b + (npt * 4 + npages sz) ∧ k ≠ b + 3000 := by
  have hn : npt = 1024 := rfl
  unfold loneHolder
  cases c with
  | pipe k' => cases h.2
  | stack p =>
    obtain ⟨t, ht, hk⟩ := h
    obtain ⟨rfl, rfl⟩ := lone_proc ht
    have hk : b + 2000 = k := hk
    subst hk
    rw [if_neg (by omega), if_neg (by omega), if_pos rfl]
    exact ⟨rfl, by omega, by omega, by omega⟩
  | kernel i =>
    match i, h with
    | .inl .dir, h =>
      have hk : b + 2001 = k := h
      subst hk
      rw [if_neg (by omega), if_neg (by omega), if_neg (by omega), if_pos rfl]
      exact ⟨rfl, by omega, by omega, by omega⟩
    | .inl (.table d), h => cases h
    | .inl (.page v), ⟨e, he, _⟩ => cases he
    | .inr j, h =>
      change ([] : List Nat)[j]? = some k at h
      cases h
  | spot p l =>
    obtain ⟨t, ht, hl⟩ := h
    obtain ⟨rfl, rfl⟩ := lone_proc ht
    cases l with
    | dir =>
      have hk : b = k := hl
      subst hk
      rw [if_pos rfl]
      exact ⟨rfl, by omega, by omega, by omega⟩
    | table d =>
      change (if d < npt then some (b + (1 + d)) else none) = some k at hl
      split at hl
      · next hd =>
        cases hl
        rw [if_neg (by omega), if_pos (by omega),
          show b + (1 + d) - (b + 1) = d by omega]
        exact ⟨rfl, by omega, by omega, by omega⟩
      · cases hl
    | page v =>
      obtain ⟨e, he, rfl⟩ := hl
      change (if v < npages sz then some ⟨b + (npt * 4 + v), true, true⟩ else none) = some e at he
      split at he
      · next hv =>
        cases he
        dsimp only
        rw [if_neg (by omega), if_neg (by omega), if_neg (by omega), if_neg (by omega),
          show b + (npt * 4 + v) - (b + npt * 4) = v by omega]
        exact ⟨rfl, by omega, by omega, by omega⟩
      · cases he

/-- Free pages that the process does not have. -/
theorem lone_good (hsz : sz < kernbase) (hnd : free.Nodup)
    (hfree : ∀ k ∈ free, k < top ∧ (k < b ∨ b + (npt * 4 + npages sz) ≤ k ∨ k = b + 3000))
    (htop : b + (npt * 4 + npages sz) ≤ top) : (lone b top free sz).Good Shaped := by
  refine ⟨⟨hnd, fun k hk => ⟨Nat.zero_le _, (hfree k hk).1⟩, chainMem_linked [] _ rfl hnd⟩,
    ⟨fun {b c k} hb hc => ?_, fun {c k} hc => ⟨fun hk => ?_, Nat.zero_le _, ?_⟩⟩,
    fun p t ht => ?_, fun p t ht => ?_, ⟨nofun, nofun⟩⟩
  · rw [(lone_has hb).1, (lone_has hc).1]
  · have := (lone_has hc).2
    have := (hfree k hk).2
    omega
  · have := (lone_has hc).2
    show k < top
    omega
  · obtain ⟨-, rfl⟩ := lone_proc ht
    intro v hv
    change (if v / npt < npt then some (b + (1 + v / npt)) else none) = none at hv
    split at hv
    · cases hv
    · next hbig =>
      refine if_neg fun hlt => hbig ?_
      have := npages_le hsz
      exact Nat.div_lt_of_lt_mul (Nat.lt_of_lt_of_le hlt (Nat.le_trans this (by decide)))
  · obtain ⟨-, rfl⟩ := lone_proc ht
    refine ⟨fun u => ?_, hsz⟩
    show Option.isSome (if u < npages sz then _ else none) = true ↔ u < npages sz
    split
    · next hu => exact iff_of_true rfl hu
    · next hu => exact iff_of_false nofun hu

theorem lone_tables {u : Nat} (hu : u < npages kernbase) :
    ((lonePgdir b sz).tables (u / npt)).isSome := by
  have hkern : npages kernbase = 2 ^ 19 := by decide
  rw [hkern] at hu
  show Option.isSome (if u / npt < npt then _ else none) = true
  rw [if_pos (Nat.div_lt_of_lt_mul (Nat.lt_of_lt_of_le hu (by decide)))]
  rfl

end Lone

/-- All page tables, and the pages of a process of size `sz`. -/
def barePgdir (sz : Nat) : Pgdir where
  frame := 0
  tables := fun d => if d < npt then some (1 + d) else none
  ptes := fun v => if v < npages sz then some ⟨npt * 4 + v, true, true⟩ else none

def bareTask (sz : Nat) : Task := ⟨2000, ⟨barePgdir sz, sz⟩, none, false, fun _ => none⟩

/-- The pages that are free: `n` of them, and others behind. -/
def bareFree (n : Nat) (rest : List Nat) : List Nat := List.range' (2 ^ 20) n ++ rest

/-- A machine with one process. -/
def bare (sz n : Nat) (rest : List Nat) : Machine where
  kern := ⟨⟨2001, fun _ => none, fun _ => none⟩, []⟩
  kmem := ⟨0, 2 ^ 21, bareFree n rest, chainMem (bareFree n rest), 0⟩
  proc := update (fun _ => none) initproc (some (bareTask sz))
  file := fun _ => ⟨0, none⟩
  pipe := fun _ => none

variable {sz n : Nat} {rest : List Nat}

theorem bare_eq : bare sz n rest = lone 0 (2 ^ 21) (bareFree n rest) sz := by
  simp only [bare, lone, bareTask, loneTask, barePgdir, lonePgdir, Nat.zero_add]

theorem bare_init : (bare sz n rest).proc initproc = some (bareTask sz) := by
  show update (fun _ => none) initproc (some (bareTask sz)) initproc = _
  rw [update_self]

theorem bareFree_mem (hrest : ∀ k ∈ rest, k = 3000) {k : Nat} (hk : k ∈ bareFree n rest) :
    (2 ^ 20 ≤ k ∧ k < 2 ^ 20 + n) ∨ k = 3000 := by
  rcases List.mem_append.1 hk with hk | hk
  · exact Or.inl (List.mem_range'_1.1 hk)
  · exact Or.inr (hrest k hk)

theorem bare_good (hsz : sz < kernbase) (hn : n ≤ 2 ^ 19) (hrest : ∀ k ∈ rest, k = 3000)
    (hnd : rest.Nodup) : (bare sz n rest).Good Shaped := by
  have hfree : (bareFree n rest).Nodup := by
    refine List.nodup_append.2 ⟨List.nodup_range', hnd, fun j hj k hk => ?_⟩
    rw [hrest k hk]
    have := List.mem_range'_1.1 hj
    omega
  have hpages := npages_le hsz
  have hnpt : npt = 1024 := rfl
  rw [bare_eq]
  refine lone_good hsz hfree (fun k hk => ?_) (by omega)
  rcases bareFree_mem hrest hk with hk | hk <;> omega

end Bare

-- ======== the range

section Converse

variable {sz : Nat} {val n : Word} {rest : List Nat}

theorem movein_inside {m : Kmem} {pd : Pgdir} {val n j : Nat} {old : Page} {e : VmPanic}
    (hsz : sz < kernbase) (hpd : ∀ u, u < npages sz → (pd.ptes u).isSome) (hin : val + n ≤ sz) :
    movein m pd (val + pgsize * j) (min pgsize ((n : Int) - pgsize * j).toNat) old ≠ .error e := by
  intro h
  unfold movein at h
  split at h
  · cases h
  · next hno =>
    refine hno fun o ho => ?_
    have hps : pgsize = 4096 := rfl
    have hb : kernbase = 0x80000000 := rfl
    rw [hb] at hsz
    have hva : (val + pgsize * j + o) % 2 ^ 32 = val + pgsize * j + o := by omega
    rw [hva, load_below (by omega), Option.isSome_map]
    refine hpd _ ?_
    unfold npages
    rw [hps] at ho ⊢
    omega

/-- What a new page is filled with. -/
def sbrkxFill (val n : Nat) (i f : Nat) (m : Kmem) (pd : Pgdir) : Except VmPanic Page :=
  movein m pd (val + pgsize * i) (min pgsize ((n : Int) - pgsize * i).toNat) (m.mem f)

section Loop

variable {m m' : Kmem} {pd pd' : Pgdir} (hn : 0 < n.toInt) (hk : pgroundup n.toNat < 2 ^ 31)
  (hnew : sz + pgroundup n.toNat < kernbase)

include hn hk hnew

/-- The number of pages. -/
theorem pages_of_sbrkx : npages (sz + pgroundup n.toNat) - npages sz = npages n.toNat ∧
    npages sz + npages n.toNat ≤ 2 ^ 19 ∧ 0 < npages n.toNat := by
  have hps : pgsize = 4096 := rfl
  have hb : kernbase = 0x80000000 := rfl
  obtain ⟨hint, hsmall⟩ := toInt_of_pos hn
  unfold pgroundup at hnew hk ⊢
  unfold npages
  rw [hps] at hnew hk ⊢
  rw [hb] at hnew
  omega

theorem makex_error {e : VmPanic} (hr : growLoop false (sbrkxFill val.toNat n.toNat) sz
      (sz + pgroundup n.toNat) (npages n.toNat) 0 m pd = .error e) :
    makex m ⟨pd, sz⟩ val n = .error e := by
  have hb : kernbase = 0x80000000 := rfl
  have hsum : (sz + pgroundup n.toNat) % 2 ^ 32 = sz + pgroundup n.toNat := by omega
  rw [makex_grow ⟨adds_of_pos hn, hk⟩, (toInt_of_pos hn).1, hsum]
  unfold allocxuvm grow
  rw [if_neg (by omega), if_neg (by dsimp only; omega), (pages_of_sbrkx hn hk hnew).1]
  exact bind_of_error (bind_of_error hr)

theorem makex_ok (hr : growLoop false (sbrkxFill val.toNat n.toNat) sz
      (sz + pgroundup n.toNat) (npages n.toNat) 0 m pd = .ok (true, m', pd')) :
    makex m ⟨pd, sz⟩ val n = .ok (0, m', ⟨pd', sz + pgroundup n.toNat⟩) := by
  have hb : kernbase = 0x80000000 := rfl
  have hpos := adds_of_pos hn
  have hsum : (sz + pgroundup n.toNat) % 2 ^ 32 = sz + pgroundup n.toNat := by omega
  rw [makex_grow ⟨hpos, hk⟩, (toInt_of_pos hn).1, hsum]
  unfold allocxuvm grow
  rw [if_neg (by omega), if_neg (by dsimp only; omega), (pages_of_sbrkx hn hk hnew).1]
  exact (congrArg (sized sz) (bind_of_ok hr rfl)).trans
    (sized_done sz m' pd' (show sz + pgroundup n.toNat ≠ 0 by omega))

end Loop

/-- `sbrkx` in a machine with pages enough: a fault, for a range that the
process does not have, or a last page whose rest tells what follows on the
free list. -/
theorem bare_makex (val : Word) (rest : List Nat) (hsz : sz < kernbase) (hn : 0 < n.toInt)
    (hk : pgroundup n.toNat < 2 ^ 31)
    (hnew : sz + pgroundup n.toNat < kernbase) (hrest : ∀ k ∈ rest, k = 3000) (hnd : rest.Nodup) :
    Runs (bare sz (npages n.toNat) rest) initproc (bareTask sz) ∧
    ((∃ e, makex ((bare sz (npages n.toNat) rest).kmemFor (npages n.toNat)) (bareTask sz).space val n
        = .error e ∧ ¬ val.toNat + n.toNat ≤ sz) ∨
      ∃ m a e, makex ((bare sz (npages n.toNat) rest).kmemFor (npages n.toNat))
        (bareTask sz).space val n = .ok (0, m, a) ∧ a.sz = sz + pgroundup n.toNat ∧
        a.pgdir.ptes (npages sz + (npages n.toNat - 1)) = some e ∧
        (n.toNat % pgsize ≠ 0 → ∀ o, n.toNat % pgsize ≤ o →
          m.mem e.frame o = linkPage rest.head? o)) := by
  obtain ⟨hcount, hpages, hpos⟩ := pages_of_sbrkx hn hk hnew
  have hkern : npages kernbase = 2 ^ 19 := by decide
  have hgood := bare_good hsz (show npages n.toNat ≤ 2 ^ 19 by omega) hrest hnd
  refine ⟨⟨hgood, bare_init, rfl⟩, ?_⟩
  have hold := (hgood.shape initproc _ bare_init).present
  have htab : ∀ u, u < npages kernbase → ((barePgdir sz).tables (u / npt)).isSome := by
    intro u hu
    have htables : (barePgdir sz).tables = (lonePgdir 0 sz).tables := by
      simp only [barePgdir, lonePgdir, Nat.zero_add]
    rw [htables]
    exact lone_tables hu
  have hloop := @growLoop_fills false (sbrkxFill val.toNat n.toNat) sz (sz + pgroundup n.toNat)
    (npages n.toNat) 0 ((bare sz (npages n.toNat) rest).kmemFor (npages n.toNat)) (barePgdir sz)
    (List.range' (2 ^ 20) (npages n.toNat)) rest htab (by omega) hold rfl List.length_range'
    List.nodup_range' (Nat.le_refl _)
  rcases hloop with ⟨j, f, m₁, pd₁, e, hr, hfill, hpd1⟩ | ⟨m', pd', hr, hg⟩
  · refine Or.inl ⟨e, makex_error hn hk hnew hr, fun hin => ?_⟩
    exact movein_inside hsz (fun u hu => (hpd1 u).2 (by omega)) hin hfill
  obtain ⟨c, hc⟩ := Nat.exists_eq_add_one_of_ne_zero (Nat.pos_iff_ne_zero.1 hpos)
  rw [show npages n.toNat - 1 = c by omega]
  have hlast : (List.range' (2 ^ 20) (npages n.toNat))[c]? = some (2 ^ 20 + c) := by
    rw [List.getElem?_range' (by omega), Nat.one_mul]
  obtain ⟨hpte, m₁, pd₁, hfill, hmem⟩ := hg.new c _ hlast
  refine Or.inr ⟨m', ⟨pd', sz + pgroundup n.toNat⟩, _, makex_ok hn hk hnew hr, rfl, hpte,
    fun hmod o ho => ?_⟩
  have hps : pgsize = 4096 := rfl
  have htail : ¬ o < min pgsize ((n.toNat : Int) - pgsize * (0 + c : Nat)).toNat := by
    unfold npages at hc
    rw [hps] at hc hmod ho ⊢
    omega
  -- the last page is linked to what follows
  have hfree : bareFree (npages n.toNat) rest = List.range' (2 ^ 20) c ++ (2 ^ 20 + c) :: rest := by
    unfold bareFree
    rw [hc, List.range'_concat, Nat.one_mul, List.append_assoc]
    rfl
  have hlink := (chainMem_linked _ _ hfree hgood.kmem.nodup).1
  have hout : 2 ^ 20 + c ∉ (List.range' (2 ^ 20) (npages n.toNat)).take c := by
    intro hin
    obtain ⟨i, hi, heq⟩ := List.mem_take_iff_getElem.1 hin
    rw [List.getElem_range'] at heq
    omega
  rw [movein_ok hfill o, if_neg htail, hmem _ hout]
  exact congrFun hlink o

/-- Two machines that differ in what follows on the free list. -/
theorem bare_sameMemory (hsz : sz < kernbase) (c : Nat) :
    SameMemory (bare sz c []) (bareTask sz) (bare sz c [3000]) (bareTask sz) := by
  refine ⟨rfl, fun va hva => ?_⟩
  have hps : pgsize = 4096 := rfl
  have hb : kernbase = 0x80000000 := rfl
  have hpages := npages_le hsz
  change va / pgsize < npages sz at hva
  have hlt : va < kernbase := by
    rw [hps] at hva
    omega
  have hout : ∀ rest : List Nat, (∀ k ∈ rest, k = 3000) →
      npt * 4 + va / pgsize ∉ bareFree c rest := by
    intro rest hrest hmem
    have hnpt : npt = 1024 := rfl
    generalize va / pgsize = v at hva hmem
    rcases bareFree_mem hrest hmem with hk | hk <;> omega
  rw [load_below hlt, load_below hlt]
  show ((barePgdir sz).ptes _).map (fun e => chainMem (bareFree c [3000]) e.frame _)
    = ((barePgdir sz).ptes _).map (fun e => chainMem (bareFree c []) e.frame _)
  have hpte : (barePgdir sz).ptes (va / pgsize) = some ⟨npt * 4 + va / pgsize, true, true⟩ :=
    if_pos hva
  rw [hpte]
  show some (chainMem (bareFree c [3000]) (npt * 4 + va / pgsize) _)
    = some (chainMem (bareFree c []) (npt * 4 + va / pgsize) _)
  rw [chainMem_of_not_mem (hout [3000] (by simp)), chainMem_of_not_mem (hout [] (by simp))]

theorem safe_of_private (hsz : sz < kernbase) (hp : Private sz val n) : sbrkxSafe sz val n := by
  by_contra hno
  unfold sbrkxSafe at hno
  push Not at hno
  obtain ⟨hn, hbig, hin⟩ := hno
  have hps : pgsize = 4096 := rfl
  by_cases hk : pgroundup n.toNat < 2 ^ 31
  swap
  · -- `n` rounds up to a negative number, and the call succeeds
    have hout : ¬ val.toNat + n.toNat ≤ sz := fun h => hk (hin h).2.2
    have hruns : Runs (bare sz 0 []) initproc (bareTask sz) :=
      ⟨bare_good hsz (Nat.zero_le _) (by simp) List.nodup_nil, bare_init, rfl⟩
    obtain ⟨s', t', hafter, -⟩ := (hp _ _ _ 0 hruns rfl).1 hn hout
    obtain ⟨m, a, hm, -⟩ := hruns.makex_of_after hafter
    rw [makex_zero fun h => hk h.2] at hm
    cases hm
  have hnew := hbig hk
  obtain ⟨hruns, hcases⟩ := bare_makex val [] hsz hn hk hnew (by simp) List.nodup_nil
  by_cases hinside : val.toNat + n.toNat ≤ sz
  swap
  · obtain ⟨s', t', hafter, -⟩ := (hp _ _ _ (npages n.toNat) hruns rfl).1 hn hinside
    obtain ⟨m, a, hm, -⟩ := hruns.makex_of_after hafter
    rcases hcases with ⟨e, he, -⟩ | ⟨m', a', e, hr, -⟩
    · rw [he] at hm
      cases hm
    · rw [hr] at hm
      cases hm
  · -- the rest of the last page begins in its first word
    obtain ⟨hmod, hfew, -⟩ := hin hinside
    obtain ⟨hruns2, hcases2⟩ := bare_makex val [3000] hsz hn hk hnew (by simp)
      (List.nodup_singleton _)
    rcases hcases with ⟨e, he, hout⟩ | ⟨m, a, e, hr, hsize, hpte, htail⟩
    · exact hout hinside
    rcases hcases2 with ⟨e, he, hout⟩ | ⟨m2, a2, e2, hr2, hsize2, hpte2, htail2⟩
    · exact hout hinside
    obtain ⟨s', hafter, hkmem, hproc⟩ := hruns.after_makex hr
    obtain ⟨r', hafter2, hkmem2, hproc2⟩ := hruns2.after_makex hr2
    have hsame := (hp _ _ _ _ hruns rfl).2 _ _ _ _ _ _ _ _ hruns2 (bare_sameMemory hsz _) hafter
      hproc hafter2 hproc2
    obtain ⟨hcount, hpages, hpos⟩ := pages_of_sbrkx hn hk hnew
    generalize hu : npages sz + (npages n.toNat - 1) = u at hpte hpte2
    have hdiv : (pgsize * u + 3) / pgsize = u := by
      rw [hps]
      omega
    have hmod3 : (pgsize * u + 3) % pgsize = 3 := by
      rw [hps]
      omega
    have hva : pgsize * u + 3 < kernbase := by
      have hb : kernbase = 0x80000000 := rfl
      rw [hps]
      omega
    have hload := hsame.load (pgsize * u + 3) (by
      show (pgsize * u + 3) / pgsize < npages a.sz
      rw [hdiv, hsize]
      omega)
    rw [load_below hva, load_below hva, hdiv, hmod3, hkmem, hkmem2] at hload
    change (a2.pgdir.ptes u).map (fun e => m2.mem e.frame 3)
      = (a.pgdir.ptes u).map (fun e => m.mem e.frame 3) at hload
    rw [hpte, hpte2] at hload
    have hbyte : m2.mem e2.frame 3 = m.mem e.frame 3 := Option.some.inj hload
    rw [htail hmod 3 (by omega), htail2 hmod 3 (by omega)] at hbyte
    exact absurd hbyte (by decide)

end Converse

/-- For which arguments `sbrkx` reads the memory of its process only. -/
theorem sbrkx_private_iff {sz : Nat} (hsz : sz < kernbase) (val n : Word) :
    Private sz val n ↔ sbrkxSafe sz val n :=
  ⟨safe_of_private hsz, private_of_safe⟩

/-- A process of one page copies its first eight bytes. -/
theorem sbrkx_private_iff_page : 4096 < kernbase ∧ Private 4096 0 8 :=
  ⟨by decide, (sbrkx_private_iff (by decide) 0 8).2 (Or.inr (Or.inr ⟨by decide, by decide⟩))⟩

/-- The first process asks for four bytes of the kernel's memory, and gets
them. -/
theorem sbrkx_reads_kernel : ∃ s s', Reach vmStep Booted s ∧
    (s.proc 0).map (fun t => t.space.sz) = some 4096 ∧ s.kmem.mem 0 0 = 0x42 ∧
    s.after ⟨0, 1000, .makex 0x80000000 4⟩ = some (0, s') ∧
    (s'.proc 0).map (fun t => (t.space.sz, s'.kmem.load t.space.pgdir 4096))
      = some (8192, some 0x42) := by
  have hboot : ∀ s, boot 1 16 80 130 (fun k _ => if k = 0 then 0x42 else 0) [] = .ok s → Booted s :=
    fun s h => ⟨1, 16, 80, 130, _, [], h⟩
  obtain ⟨s, hs, hobs⟩ := Reach.eval_from hboot vmStep []
    (fun s => (s.after ⟨0, 1000, .makex 0x80000000 4⟩).map fun (r : Int × Machine) =>
      (r.1, decide ((s.proc 0).map (fun t => t.space.sz) = some 4096 ∧ s.kmem.mem 0 0 = 0x42 ∧
        (r.2.proc 0).map (fun t => (t.space.sz, r.2.kmem.load t.space.pgdir 4096))
          = some (8192, some 0x42))))
    (some (0, true)) (by decide +kernel)
  obtain ⟨⟨v, s'⟩, hr, hval⟩ := Option.map_eq_some_iff.1 hobs
  obtain ⟨rfl, hrest⟩ := Prod.mk.inj hval
  obtain ⟨hsz, hmem, hnew⟩ := of_decide_eq_true hrest
  exact ⟨s, s', hs, hsz, hmem, hr, hnew⟩

end Xv6Sume32.Vm
