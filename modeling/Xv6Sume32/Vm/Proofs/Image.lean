/-
New address spaces: `copyuvm` and `exec`.

# A copy

`copyuvm` maps a page for each page of the parent, with the same flags and
the same bytes (`Copied`). It panics where the parent has no page
(`Missing`).

# An image

`Img` is what `exec` keeps from its first segment on: the pages are those
below the size, which is at most `KERNBASE`, and all of them can be written
to. The bytes go to pages of the new image, since there is a page for each
address that `loaduvm` comes to, and `copyout` checks.

# The stack

`copyout` goes page by page and stops at the first that is not the user's.
The page below the stack is such a page, so arguments that are too long
for the stack are refused there. An argument longer than everything below
it wraps around; short of 2^25 bytes it ends up above `DEVSPACE`, where
there are page tables but no page of the user. A longer one may come to an
address without a page table.
-/
import Xv6Sume32.Vm.Proofs.Frames
import Xv6Sume32.Vm.Machine

namespace Xv6Sume32.Vm

open Lib

variable {pd' : Pgdir} {u sp : Nat} {arg : List Byte}

-- ======== a copy

/-- The first `n` pages of `src`, which holds them in `m₀`. -/
structure Copied (src : Pgdir) (m₀ : Kmem) (n : Nat) (m : Kmem) (d : Pgdir) : Prop where
  same : ∀ u, u < n → ∃ e e', src.ptes u = some e ∧ d.ptes u = some e' ∧ e'.w = e.w ∧ e'.u = e.u ∧
    m.mem e'.frame = m₀.mem e.frame
  rest : ∀ u, n ≤ u → d.ptes u = none

/-- Where `copyuvm` panics, the parent has no page. -/
def Missing (src : Pgdir) (n : Nat) (e : VmPanic) : Prop :=
  (e = .noPte ∨ e = .notPresent) ∧ ∃ u, u < n ∧ src.ptes u = none

section Copy

variable {R : Nat → Prop} {src d d' : Pgdir} {m₀ m m1 m2 : Kmem} {v n f : Nat} {e : Pte}

theorem Copied.snoc (h : Copied src m₀ v m d) (hd : Held R m d) (he : src.ptes v = some e)
    (hext : m.Extends m2) (hpage : m2.mem f = m₀.mem e.frame)
    (hptes : d'.ptes = Function.update d.ptes v (some { e with frame := f })) :
    Copied src m₀ (v + 1) m2 d' := by
  refine ⟨fun u hu => ?_, fun u hu => ?_⟩
  · by_cases huv : u = v
    · subst huv
      exact ⟨e, { e with frame := f }, he, by rw [hptes, Function.update_self], rfl, rfl, hpage⟩
    · obtain ⟨e1, e2, h1, h₂, hw, hu', hmem⟩ := h.same u (by omega)
      refine ⟨e1, e2, h1, by rw [hptes, Function.update_of_ne huv]; exact h₂, hw, hu', ?_⟩
      rw [(hext _ (hd.used (l := .page u) ⟨e2, h₂, rfl⟩)).2]
      exact hmem
  · rw [hptes, Function.update_of_ne (by omega)]
    exact h.rest u (by omega)

section Round

variable (ht : (src.tables (v / npt)).isSome) (he : src.ptes v = some e)

include ht he

theorem copyLoop_full (hk : m.kalloc = none) :
    copyLoop src (n + 1) v m d = (do let m ← freevm m d; .ok (m, none)) := by
  obtain ⟨t, ht⟩ := Option.isSome_iff_exists.1 ht
  unfold copyLoop
  rw [ht, he, hk]

variable (hk : m.kalloc = some (f, m1))

include hk

theorem copyLoop_unmapped (hm : mappages (m1.write f (m1.mem e.frame)) d v { e with frame := f }
      = .ok none) :
    copyLoop src (n + 1) v m d
      = (do let m ← freevm (m1.write f (m1.mem e.frame)) d; .ok (m, none)) := by
  obtain ⟨t, ht⟩ := Option.isSome_iff_exists.1 ht
  unfold copyLoop
  rw [ht, he, hk]
  exact bind_of_ok hm rfl

theorem copyLoop_next (hm : mappages (m1.write f (m1.mem e.frame)) d v { e with frame := f }
      = .ok (some (m2, d'))) :
    copyLoop src (n + 1) v m d = copyLoop src n (v + 1) m2 d' := by
  obtain ⟨t, ht⟩ := Option.isSome_iff_exists.1 ht
  conv_lhs => unfold copyLoop
  rw [ht, he, hk]
  exact bind_of_ok hm rfl

end Round

theorem copyLoop_spec (n : Nat) {v : Nat} (hsrc : ∀ u e, src.ptes u = some e → R e.frame)
    (hmap : src.Mapped) (h : Held R m d) (hk : Keeps R m₀ m) (hc : Copied src m₀ v m d) :
    Built R (Missing src (v + n)) (Copied src m₀ (v + n)) m₀ (copyLoop src n v m d) := by
  induction n generalizing v m d with
  | zero => exact ⟨h, hk, hc⟩
  | succ n ih =>
    cases he : src.ptes v with
    | none =>
      have hmiss : ∃ u, u < v + (n + 1) ∧ src.ptes u = none := ⟨v, by omega, he⟩
      unfold copyLoop
      rw [he]
      cases src.tables (v / npt) with
      | none => exact ⟨Or.inl rfl, hmiss⟩
      | some t => exact ⟨Or.inr rfl, hmiss⟩
    | some e =>
      have ht : (src.tables (v / npt)).isSome := by
        by_contra hno
        rw [hmap v (Option.not_isSome_iff_eq_none.1 hno)] at he
        cases he
      cases hkal : m.kalloc with
      | none =>
        rw [copyLoop_full ht he hkal]
        exact .give_up h hk
      | some r =>
        obtain ⟨f, m1⟩ := r
        obtain ⟨-, hf, hu, hmem, -⟩ := Kmem.kalloc_spec hkal h.good
        have hfR : ¬ R f := fun hR => hf (h.safe.rest f hR)
        have hext := Kmem.Extends.kalloc h.good hkal (m1.mem e.frame)
        have htake := (h.kalloc hkal).write ((hu f).2 (Or.inr rfl)) (m1.mem e.frame)
        have hk1 := hk.trans (hext.keeps h.safe)
        rcases mappages_spec (v := v) (e := { e with frame := f }) htake hfR with
          hm | ⟨-, hsome⟩ | ⟨m2, d2, hm, h₂, hext2, -, hptes⟩
        · -- the page is not freed
          rw [copyLoop_unmapped ht he hkal hm]
          exact .give_up (htake.weaken fun _ => Or.inl) hk1
        · rw [hc.rest v (Nat.le_refl _)] at hsome
          cases hsome
        · rw [copyLoop_next ht he hkal hm, show v + (n + 1) = v + 1 + n by omega]
          refine ih h₂ (hk1.trans ?_) (hc.snoc h he (hext.trans hext2) ?_ hptes)
          · exact (hext2.keeps htake.safe).mono fun _ => Or.inl
          · have hfu := htake.safe.rest f (Or.inr rfl)
            rw [(hext2 f hfu).2, Kmem.write_mem, hmem]
            exact hk _ (hsrc v e he)

theorem copyuvm_spec (h : Safe R m) (hsrc : ∀ u e, src.ptes u = some e → R e.frame)
    (hmap : src.Mapped) (sz : Nat) :
    Built R (Missing src (npages sz)) (Copied src m (npages sz)) m (copyuvm m src sz) := by
  have hset := setupkvm_spec h
  unfold copyuvm
  match hr : setupkvm m, hset with
  | .ok (m', none), hs => exact hs
  | .ok (m', some d), ⟨hd, hk, hptes, _⟩ =>
    have hc : Copied src m 0 m' d := ⟨nofun, fun u _ => by rw [hptes]⟩
    have hloop := copyLoop_spec (npages sz) hsrc hmap hd hk hc
    rw [Nat.zero_add] at hloop
    exact hloop

end Copy

-- ======== an image

/-- The pages are those below the size. -/
def Present (pd : Pgdir) (sz : Nat) : Prop := ∀ u, (pd.ptes u).isSome ↔ u < npages sz

def Writable (pd : Pgdir) : Prop := ∀ u e, pd.ptes u = some e → e.w = true

theorem Present.absent {pd : Pgdir} {sz : Nat} (h : Present pd sz) (last : Nat) :
    Absent pd (npages sz) last := by
  intro u hu _
  by_contra hne
  exact Nat.not_lt.2 hu ((h u).1 (Option.isSome_iff_ne_none.2 hne))

theorem Present.congr {pd : Pgdir} {sz : Nat} (h : Present pd sz) (hp : pd'.ptes = pd.ptes) :
    Present pd' sz := by
  unfold Present
  rw [hp]
  exact h

section Grown

variable {R : Nat → Prop} {C : Nat → Page → Prop} {w : Bool} {oldsz newsz : Nat} {m₀ m : Kmem}
  {pd0 pd : Pgdir}

theorem Grown.present (h : Grown R C w (npages oldsz) (npages newsz - npages oldsz) m₀ pd0 m pd)
    (hp : Present pd0 oldsz) (hle : oldsz ≤ newsz) : Present pd newsz := by
  intro u
  have hmono := npages_mono hle
  by_cases hu : npages oldsz ≤ u ∧ u < npages oldsz + (npages newsz - npages oldsz)
  · obtain ⟨e, he, -⟩ := h.new (u - npages oldsz) (by omega)
    rw [Nat.add_sub_cancel' hu.1] at he
    rw [he]
    exact iff_of_true rfl (by omega)
  · rw [h.old u hu, hp u]
    omega

theorem Grown.writable (h : Grown R C true (npages oldsz) (npages newsz - npages oldsz) m₀ pd0 m pd)
    (hw : Writable pd0) : Writable pd := by
  intro u e he
  by_cases hu : npages oldsz ≤ u ∧ u < npages oldsz + (npages newsz - npages oldsz)
  · obtain ⟨e', he', hw', -⟩ := h.new (u - npages oldsz) (by omega)
    rw [Nat.add_sub_cancel' hu.1, he] at he'
    cases he'
    exact hw'
  · rw [h.old u hu] at he
    exact hw u e he

end Grown

/-- An image under way. -/
structure Img (R : Nat → Prop) (m : Kmem) (pd : Pgdir) (sz : Nat) : Prop where
  held : Held R m pd
  present : Present pd sz
  writable : Writable pd
  le : sz ≤ kernbase
  kernel : ∀ d ∈ kmapDirs, (pd.tables d).isSome

/-- The bytes of an image by their addresses; there are none above its
pages. -/
structure HasBytes (m : Kmem) (pd : Pgdir) (sz : Nat) (img : Nat → Byte) : Prop where
  page : ∀ u e, pd.ptes u = some e → ∀ o, o < pgsize → m.mem e.frame o = img (u * pgsize + o)
  above : ∀ va, npages sz * pgsize ≤ va → img va = 0

/-- A segment is put over an image. A page of it is read at an offset that
wraps around. -/
def segBytes (file : List Byte) (addr offset filesz : Nat) (img : Nat → Byte) (va : Nat) : Byte :=
  if addr ≤ va ∧ va < addr + filesz then
    file.getD ((offset + (va - addr) / pgsize * pgsize) % 2 ^ 32 + (va - addr) % pgsize) 0
  else img va

/-- All segments are, in the order of their headers. -/
def fileBytes (file : List Byte) : Nat → Nat → (Nat → Byte) → Nat → Byte
  | 0, _, img => img
  | n + 1, off, img =>
      match readi file off Proghdr.size with
      | none => img
      | some bytes =>
          let ph := Proghdr.ofBytes bytes
          fileBytes file n ((off + Proghdr.size) % 2 ^ 32)
            (if ph.type ≠ 1 then img else segBytes file ph.vaddr ph.off ph.filesz img)

section Img

variable {R : Nat → Prop} {m m' : Kmem} {pd : Pgdir} {sz : Nat}

/-- New pages are empty. -/
theorem Grown.hasBytes {newsz : Nat} {img : Nat → Byte}
    (h : Grown R (fun _ page => page = fun _ => 0) true (npages sz) (npages newsz - npages sz)
      m pd m' pd')
    (hd : Held R m pd) (hle : sz ≤ newsz) (hf : HasBytes m pd sz img) : HasBytes m' pd' newsz img := by
  have hmono := Nat.mul_le_mul_right pgsize (npages_mono hle)
  refine ⟨fun u e he o ho => ?_, fun va hva => hf.above va (hmono.trans hva)⟩
  by_cases hu : npages sz ≤ u ∧ u < npages sz + (npages newsz - npages sz)
  · obtain ⟨e', he', -, -, -, hpage⟩ := h.new (u - npages sz) (by omega)
    rw [Nat.add_sub_cancel' hu.1, he] at he'
    cases he'
    rw [hpage, hf.above _ (Nat.le_add_right_of_le (Nat.mul_le_mul_right pgsize hu.1))]
  · rw [h.old u hu] at he
    rw [(h.keep _ (hd.used (l := .page u) ⟨e, he, rfl⟩)).2]
    exact hf.page u e he o ho

theorem Img.page (h : Img R m pd sz) (hu : u < npages sz) :
    ∃ e, pd.ptes u = some e ∧ (pd.tables (u / npt)).isSome := by
  obtain ⟨e, he⟩ := Option.isSome_iff_exists.1 ((h.present u).2 hu)
  refine ⟨e, he, ?_⟩
  by_contra hno
  rw [h.held.mapped u (Option.not_isSome_iff_eq_none.1 hno)] at he
  cases he

/-- The bytes of one of its pages change. -/
theorem Img.write (h : Img R m pd sz) {e : Pte} (he : pd.ptes u = some e) (page : Page) :
    Img R (m.write e.frame page) pd sz ∧ Keeps R m (m.write e.frame page) := by
  have hold : pd.holds (.page u) e.frame := ⟨e, he, rfl⟩
  exact ⟨{ h with held := h.held.write (h.held.used hold) page }, h.held.keeps_write hold page⟩

theorem Img.allocuvm (h : Img R m pd sz) (newsz : Nat) :
    ∃ r m' pd', allocuvm m pd sz newsz = .ok (r, m', pd') ∧ Held R m' pd' ∧ Keeps R m m' ∧
      (r ≠ 0 → (Img R m' pd' r ∧ ∀ img, HasBytes m pd sz img → HasBytes m' pd' r img) ∧
        ((r = newsz ∧ newsz < kernbase) ∨ (r = sz ∧ newsz < sz))) := by
  have hspec : Resized R (fun _ => False) (fun _ page => page = fun _ => 0) true sz newsz m pd
      (grow true (fun _ _ _ _ => .ok fun _ => 0) m pd sz newsz) :=
    grow_spec sz newsz h.held nofun fun _ _ _ _ _ _ _ _ he => (Except.ok.inj he).symm
  have habs := h.present.absent (npages newsz)
  unfold Vm.allocuvm
  generalize grow true (fun _ _ _ _ => .ok fun _ => 0) m pd sz newsz = x at hspec
  cases hspec with
  | fault _ he => exact he.elim
  | remap hno => exact absurd habs hno
  | refused _ => exact ⟨_, _, _, rfl, h.held, .refl R m, fun h0 => absurd rfl h0⟩
  | same hlt =>
    exact ⟨_, _, _, rfl, h.held, .refl R m, fun _ => ⟨⟨h, fun _ => id⟩, Or.inr ⟨rfl, hlt⟩⟩⟩
  | full _ _ h' hk _ _ => exact ⟨_, _, _, rfl, h', hk, fun h0 => absurd rfl h0⟩
  | grown hlt hle hg =>
    refine ⟨_, _, _, rfl, hg.held, hg.keep.keeps h.held.safe, fun _ => ⟨⟨?_, fun img hf => ?_⟩,
      Or.inl ⟨rfl, hlt⟩⟩⟩
    · exact ⟨hg.held, hg.present h.present hle, hg.writable h.writable, Nat.le_of_lt hlt,
        fun d hd => hg.under d (h.kernel d hd)⟩
    · exact hg.hasBytes h.held hle hf

section Load

variable {file bytes : List Byte} {addr offset filesz i : Nat} {img : Nat → Byte} {e : Pte}

theorem segBytes_congr {k l va : Nat} (h : addr ≤ va → (va < addr + k ↔ va < addr + l)) :
    segBytes file addr offset k img va = segBytes file addr offset l img va := by
  unfold segBytes
  rw [if_congr (and_congr_right h) rfl rfl]

/-- One page of a segment. -/
theorem Img.hasBytes_load (h : Img R m pd sz) (hal : addr % pgsize = 0) (hi : i % pgsize = 0)
    (he : pd.ptes ((addr + i) / pgsize) = some e)
    (hr : readi file ((offset + i) % 2 ^ 32) (min pgsize (filesz - i)) = some bytes)
    (hf : HasBytes m pd sz (segBytes file addr offset (min i filesz) img)) :
    HasBytes (m.write e.frame (overwrite (m.mem e.frame) 0 bytes)) pd sz
      (segBytes file addr offset (min (i + pgsize) filesz) img) := by
  have hp : pgsize = 4096 := rfl
  have hin := (h.present _).1 (Option.isSome_of_eq_some he)
  rw [readi, Option.ite_none_right_eq_some] at hr
  obtain ⟨hle, hbytes⟩ := hr
  have hlen : bytes.length = min pgsize (filesz - i) := by
    rw [← Option.some.inj hbytes, List.length_take, List.length_drop]
    omega
  rw [hp] at hal hi hin hlen
  refine ⟨fun u e' he' o ho => ?_, fun va hva => ?_⟩
  swap
  · refine (segBytes_congr fun _ => ?_).trans (hf.above va hva)
    rw [hp] at hva ⊢
    omega
  by_cases hu : u = (addr + i) / pgsize
  swap
  · have hne : e'.frame ≠ e.frame := by
      intro heq
      have := h.held.apart.one (a := some (.page u)) (b := some (.page ((addr + i) / pgsize)))
        ⟨e', he', heq⟩ ⟨e, he, rfl⟩
      cases this
      exact hu rfl
    rw [Kmem.write_mem_of_ne _ hne, hf.page u e' he' o ho]
    refine segBytes_congr fun _ => ?_
    rw [hp] at hu ho ⊢
    omega
  subst hu
  cases he'.symm.trans he
  rw [Kmem.write_mem]
  by_cases hlt : o < bytes.length
  · have hva : (addr + i) / pgsize * pgsize + o = addr + (i + o) := by
      rw [hp]
      omega
    have hpage : (i + o) / pgsize * pgsize = i ∧ (i + o) % pgsize = o := by
      rw [hp] at ho ⊢
      omega
    rw [hva, segBytes, if_pos (by omega), Nat.add_sub_cancel_left, hpage.1, hpage.2, overwrite,
      if_pos (Nat.zero_le o), Nat.sub_zero, List.getElem?_eq_getElem hlt, Option.getD_some,
      List.getD_eq_getElem?_getD, List.getElem?_eq_getElem (by omega), Option.getD_some]
    cases hbytes
    rw [List.getElem_take, List.getElem_drop]
  · rw [overwrite_after _ _ _ (by omega), hf.page _ _ he o ho]
    refine segBytes_congr fun _ => ?_
    rw [hp] at ho ⊢
    omega

end Load

/-- `loaduvm` of pages that are there. -/
theorem Img.loadLoop (h : Img R m pd sz) (file : List Byte) {addr : Nat} (offset filesz n : Nat)
    {i : Nat} (hal : addr % pgsize = 0) (hi : i % pgsize = 0) (hn : filesz ≤ i + pgsize * n)
    (hin : ∀ j, j < n → (addr + (i + pgsize * j)) / pgsize < npages sz) :
    ∃ m' done, loadLoop file pd addr offset filesz n i m = .ok (m', done) ∧ Img R m' pd sz ∧
      Keeps R m m' ∧ (done = true → ∀ img,
        HasBytes m pd sz (segBytes file addr offset (min i filesz) img) →
          HasBytes m' pd sz (segBytes file addr offset filesz img)) := by
  induction n generalizing m i with
  | zero =>
    refine ⟨m, true, rfl, h, .refl R m, fun _ img hf => ?_⟩
    rw [Nat.min_eq_right (show filesz ≤ i from hn)] at hf
    exact hf
  | succ n ih =>
    obtain ⟨e, he, htable⟩ := h.page (hin 0 (Nat.succ_pos n))
    rw [Nat.mul_zero, Nat.add_zero] at he htable
    obtain ⟨t, ht⟩ := Option.isSome_iff_exists.1 htable
    unfold Vm.loadLoop
    rw [ht, he]
    dsimp only [Option.map_some, Option.getD_some]
    cases hread : readi file ((offset + i) % 2 ^ 32) (min pgsize (filesz - i)) with
    | none => exact ⟨m, false, rfl, h, .refl R m, nofun⟩
    | some bytes =>
      have hshift : ∀ j, i + pgsize + pgsize * j = i + pgsize * (j + 1) := by
        intro j
        rw [Nat.mul_succ]
        omega
      obtain ⟨h1, hk1⟩ := h.write he (overwrite (m.mem e.frame) 0 bytes)
      obtain ⟨m', done, hr, h', hk', hfill⟩ := ih (i := i + pgsize) h1
        ((Nat.add_mod_right i pgsize).trans hi) (hn.trans_eq (hshift n).symm) fun j hj => by
          rw [hshift]
          exact hin (j + 1) (Nat.succ_lt_succ hj)
      exact ⟨m', done, hr, h', hk1.trans hk', fun hdone img hf =>
        hfill hdone img (h.hasBytes_load hal hi he hread hf)⟩

theorem Img.loaduvm (h : Img R m pd sz) (file : List Byte) {addr : Nat} (offset filesz : Nat)
    (hal : addr % pgsize = 0) (hle : addr + filesz ≤ sz) :
    ∃ m' done, loaduvm m pd addr file offset filesz = .ok (m', done) ∧ Img R m' pd sz ∧
      Keeps R m m' ∧ (done = true → ∀ img, HasBytes m pd sz img →
        HasBytes m' pd sz (segBytes file addr offset filesz img)) := by
  have hp : pgsize = 4096 := rfl
  unfold Vm.loaduvm
  rw [if_neg (not_not.2 hal)]
  obtain ⟨m', done, hr, h', hk, hfill⟩ := h.loadLoop (i := 0) file offset filesz (npages filesz) hal
    (Nat.zero_mod _) (by unfold npages; rw [hp]; omega) fun j hj => by
      unfold npages at hj ⊢
      rw [hp] at hal hj ⊢
      omega
  refine ⟨m', done, hr, h', hk, fun hdone img hf => hfill hdone img ?_⟩
  -- nothing of the segment is there yet
  have hzero : segBytes file addr offset (min 0 filesz) img = img := by
    funext va
    exact if_neg (by omega)
  rw [hzero]
  exact hf

/-- The segments. -/
theorem Img.segLoop (file : List Byte) (n off : Nat) (h : Img R m pd sz) :
    ∃ m' pd' r, segLoop file n off sz m pd = .ok (m', pd', r) ∧ Held R m' pd' ∧ Keeps R m m' ∧
      ∀ sz', r = some sz' → Img R m' pd' sz' ∧
        ∀ img, HasBytes m pd sz img → HasBytes m' pd' sz' (fileBytes file n off img) := by
  induction n generalizing off sz m pd with
  | zero =>
    refine ⟨m, pd, some sz, rfl, h.held, .refl R m, fun _ he => ?_⟩
    cases he
    exact ⟨h, fun _ => id⟩
  | succ n ih =>
    unfold Vm.segLoop fileBytes
    cases readi file off Proghdr.size with
    | none => exact ⟨m, pd, none, rfl, h.held, .refl R m, nofun⟩
    | some bytes =>
      dsimp only
      generalize Proghdr.ofBytes bytes = ph
      generalize (off + Proghdr.size) % 2 ^ 32 = next
      by_cases htype : ph.type ≠ 1
      · simp only [if_pos htype]
        exact ih next h
      simp only [if_neg htype]
      split
      · exact ⟨m, pd, none, rfl, h.held, .refl R m, nofun⟩
      split
      · exact ⟨m, pd, none, rfl, h.held, .refl R m, nofun⟩
      next hfile _ =>
      obtain ⟨r, m1, pd1, hr1, hd1, hk1, himg⟩ := h.allocuvm (ph.vaddr + ph.memsz)
      by_cases h0 : r = 0
      · exact ⟨m1, pd1, none, bind_of_ok hr1 (if_pos h0), hd1, hk1, nofun⟩
      obtain ⟨⟨himg1, hfill1⟩, hsz⟩ := himg h0
      by_cases hal : ph.vaddr % pgsize = 0
      swap
      · refine ⟨m1, pd1, none, bind_of_ok hr1 ?_, hd1, hk1, nofun⟩
        dsimp only
        rw [if_neg h0, if_pos hal]
      obtain ⟨m2, done, hr2, himg2, hk2, hfill2⟩ :=
        himg1.loaduvm file ph.off ph.filesz hal (by omega)
      cases done with
      | false =>
        refine ⟨m2, pd1, none, bind_of_ok hr1 ?_, himg2.held, hk1.trans hk2, nofun⟩
        dsimp only
        rw [if_neg h0, if_neg (not_not.2 hal)]
        exact bind_of_ok hr2 rfl
      | true =>
        obtain ⟨m', pd', r', hr', hd', hk', himg'⟩ := ih next himg2
        refine ⟨m', pd', r', bind_of_ok hr1 ?_, hd', (hk1.trans hk2).trans hk', fun sz' hsz' =>
          ⟨(himg' sz' hsz').1, fun img hf =>
            (himg' sz' hsz').2 _ (hfill2 rfl img (hfill1 img hf))⟩⟩
        dsimp only
        rw [if_neg h0, if_neg (not_not.2 hal)]
        exact bind_of_ok hr2 hr'

end Img

-- ======== the stack

/-- What writing to an image comes to; `N` is when a null pointer is
followed. -/
def Wrote {α : Type} (R : Nat → Prop) (N : Prop) (Q : α → Prop) (m : Kmem) (pd : Pgdir) (sz : Nat) :
    Except VmPanic (Kmem × α) → Prop
  | .error e => e = .nullPte ∧ N
  | .ok (m', a) => Img R m' pd sz ∧ Keeps R m m' ∧ Q a

section Stack

variable {R : Nat → Prop} {N N' : Prop} {m m1 : Kmem} {pd : Pgdir} {sz fuel va : Nat}
  {buf : List Byte}

theorem Wrote.after {α : Type} {Q : α → Prop} {x : Except VmPanic (Kmem × α)}
    (h : Wrote R N Q m1 pd sz x) (hk : Keeps R m m1) (hN : N → N') : Wrote R N' Q m pd sz x :=
  match x, h with
  | .error _, ⟨he, hn⟩ => ⟨he, hN hn⟩
  | .ok _, ⟨himg, hk', hq⟩ => ⟨himg, hk.trans hk', hq⟩

theorem Wrote.bind {α β : Type} {Q : α → Prop} {Q' : β → Prop} {x : Except VmPanic (Kmem × α)}
    {f : Kmem × α → Except VmPanic (Kmem × β)} (h : Wrote R N Q m pd sz x)
    (hf : ∀ m' a, Img R m' pd sz → Q a → Wrote R N Q' m' pd sz (f (m', a))) :
    Wrote R N Q' m pd sz (x >>= f) :=
  match x, h with
  | .error _, h => h
  | .ok (m', a), ⟨himg, hk, hq⟩ => (hf m' a himg hq).after hk id

section Round

variable (hbuf : buf ≠ [])

include hbuf

theorem copyout_null (ht : pd.tables (va / pgsize / npt) = none) :
    copyout pd (fuel + 1) va buf m = .error .nullPte := by
  unfold copyout uva2ka
  rw [if_neg hbuf, ht]
  rfl

variable (ht : (pd.tables (va / pgsize / npt)).isSome)

include ht

theorem copyout_stop (he : ∀ e, pd.ptes (va / pgsize) = some e → e.u = false) :
    copyout pd (fuel + 1) va buf m = .ok (m, false) := by
  obtain ⟨t, ht⟩ := Option.isSome_iff_exists.1 ht
  unfold copyout uva2ka
  rw [if_neg hbuf, ht]
  cases hpte : pd.ptes (va / pgsize) with
  | none => rfl
  | some e =>
    dsimp only
    rw [he e hpte]
    rfl

theorem copyout_next {e : Pte} (he : pd.ptes (va / pgsize) = some e) (hu : e.u = true) :
    copyout pd (fuel + 1) va buf m = copyout pd fuel ((va / pgsize + 1) * pgsize % 2 ^ 32)
          (buf.drop (min buf.length (pgsize - va % pgsize)))
          (m.write e.frame (overwrite (m.mem e.frame) (va % pgsize)
            (buf.take (min buf.length (pgsize - va % pgsize))))) := by
  obtain ⟨t, ht⟩ := Option.isSome_iff_exists.1 ht
  conv_lhs => unfold copyout uva2ka
  rw [if_neg hbuf, ht, he]
  dsimp only
  rw [hu]
  rfl

end Round

/-- Where `copyout` finds page tables all the way. -/
def Within (sz va len : Nat) : Prop := len = 0 ∨ va + len ≤ sz ∨ (devspace ≤ va ∧ va < 2 ^ 32)

theorem Img.table (h : Img R m pd sz) {len : Nat} (hpos : len ≠ 0) (hin : Within sz va len) :
    (pd.tables (va / pgsize / npt)).isSome := by
  rcases hin with h0 | hle | ⟨hdev, hlt⟩
  · exact absurd h0 hpos
  · obtain ⟨-, -, ht⟩ := h.page (u := va / pgsize) (by
      have hp : pgsize = 4096 := rfl
      unfold npages
      rw [hp]
      omega)
    exact ht
  · refine h.kernel _ (List.mem_append_right _ (List.mem_range'_1.2 ?_))
    have hp : pgsize = 4096 := rfl
    have hn : npt = 1024 := rfl
    have hd : devspace = 0xFE000000 := rfl
    rw [hd] at hdev
    rw [hp, hn]
    omega

/-- `copyout` stays among the pages of the image. -/
theorem Img.copyout (fuel : Nat) {va : Nat} {buf : List Byte} (h : Img R m pd sz) :
    Wrote R (¬ Within sz va buf.length) (fun _ => True) m pd sz (copyout pd fuel va buf m) := by
  induction fuel generalizing va buf m with
  | zero => exact ⟨h, .refl R m, trivial⟩
  | succ fuel ih =>
    by_cases hbuf : buf = []
    · unfold Vm.copyout
      rw [if_pos hbuf]
      exact ⟨h, .refl R m, trivial⟩
    have hpos : buf.length ≠ 0 := fun h0 => hbuf (List.length_eq_zero_iff.1 h0)
    by_cases ht : (pd.tables (va / pgsize / npt)).isSome
    swap
    · rw [copyout_null hbuf (Option.not_isSome_iff_eq_none.1 ht)]
      exact ⟨rfl, fun hin => ht (h.table hpos hin)⟩
    by_cases hstop : ∀ e, pd.ptes (va / pgsize) = some e → e.u = false
    · rw [copyout_stop hbuf ht hstop]
      exact ⟨h, .refl R m, trivial⟩
    · push Not at hstop
      obtain ⟨e, he, hu⟩ := hstop
      rw [copyout_next hbuf ht he (Bool.eq_true_of_not_eq_false hu)]
      obtain ⟨h1, hk1⟩ := h.write he (overwrite (m.mem e.frame) (va % pgsize)
        (buf.take (min buf.length (pgsize - va % pgsize))))
      refine (ih h1).after hk1 fun hout hin => hout ?_
      -- the page is one of the image, so the addresses do not wrap
      have hpage := (h.present (va / pgsize)).1 (by rw [he]; rfl)
      have hle := h.le
      have hp : pgsize = 4096 := rfl
      have hd : devspace = 0xFE000000 := rfl
      have hb : kernbase = 0x80000000 := rfl
      unfold npages at hpage
      unfold Within at hin ⊢
      rw [List.length_drop]
      rw [hp] at hpage ⊢
      rw [hd] at hin ⊢
      rw [hb] at hle
      omega

/-- What is left of a call that has not ended at the first page. -/
theorem copyout_ok {m' : Kmem} {b : Bool} (hbuf : buf ≠ [])
    (h : copyout pd (fuel + 1) va buf m = .ok (m', b)) :
    (b = false ∧ m' = m) ∨ ∃ e, pd.ptes (va / pgsize) = some e ∧ e.u = true ∧
      copyout pd fuel ((va / pgsize + 1) * pgsize % 2 ^ 32)
        (buf.drop (min buf.length (pgsize - va % pgsize)))
        (m.write e.frame (overwrite (m.mem e.frame) (va % pgsize)
          (buf.take (min buf.length (pgsize - va % pgsize))))) = .ok (m', b) := by
  by_cases ht : (pd.tables (va / pgsize / npt)).isSome
  swap
  · rw [copyout_null hbuf (Option.not_isSome_iff_eq_none.1 ht)] at h
    cases h
  by_cases hstop : ∀ e, pd.ptes (va / pgsize) = some e → e.u = false
  · rw [copyout_stop hbuf ht hstop] at h
    cases h
    exact Or.inl ⟨rfl, rfl⟩
  · push Not at hstop
    obtain ⟨e, he, hu⟩ := hstop
    have hu := Bool.eq_true_of_not_eq_false hu
    rw [copyout_next hbuf ht he hu] at h
    exact Or.inr ⟨e, he, hu, h⟩

/-- Where `copyout` succeeds, the pages are the user's. -/
theorem copyout_true {m' : Kmem} (fuel : Nat) {va : Nat} {buf : List Byte}
    (h : copyout pd fuel va buf m = .ok (m', true)) (hbuf : buf ≠ []) (hfuel : buf.length ≤ fuel) (hlo : va / pgsize ≤ u) (hhi : u * pgsize < va + buf.length) (hu : u < 2 ^ 20) :
    ∃ e, pd.ptes u = some e ∧ e.u = true := by
  induction fuel generalizing va buf m with
  | zero => exact absurd (List.length_eq_zero_iff.1 (Nat.le_zero.1 hfuel)) hbuf
  | succ fuel ih =>
    rcases copyout_ok hbuf h with ⟨hb, -⟩ | ⟨e, he, heu, h⟩
    · cases hb
    by_cases hfirst : u = va / pgsize
    · rw [hfirst]
      exact ⟨e, he, heu⟩
    -- a later page
    have hp : pgsize = 4096 := rfl
    have hlen := List.length_drop (i := min buf.length (pgsize - va % pgsize)) (l := buf)
    have hpos := List.length_pos_iff.2 hbuf
    rw [hp] at hhi hlo hlen hfirst
    refine ih h (List.length_pos_iff.1 ?_) ?_ ?_ ?_
    all_goals rw [hp]; omega

/-- The arguments are shorter than the addresses from `DEVSPACE` on. -/
def Short (argv : List (List Byte)) : Prop := ∀ arg ∈ argv, arg.length < 2 ^ 25

/-- The page below the stack is not the user's. -/
def Guarded (pd : Pgdir) (sz : Nat) : Prop := ∀ e, pd.ptes (sz / pgsize - 2) = some e → e.u = false

/-- The stack pointer is in the page of the stack, and there are few
arguments. -/
def Pushed (sz : Nat) (sp : Nat) (ptrs : List Nat) : Prop :=
  sz ≤ sp + pgsize ∧ sp ≤ sz ∧ ptrs.length ≤ maxarg

/-- A string goes below the stack pointer. -/
def below (sp : Nat) (arg : List Byte) : Nat := (sp + 2 ^ 32 - (arg.length + 1)) % 2 ^ 32 / 4 * 4

theorem length_ustack (sp : Nat) (ptrs : List Nat) :
    ((ustack sp ptrs).flatMap leBytes).length = 4 * (ptrs.length + 4) := by
  have hconst : (ustack sp ptrs).map (fun w => (leBytes w).length)
      = List.replicate (ptrs.length + 4) 4 := by
    refine List.eq_replicate_iff.2 ⟨?_, fun n hn => ?_⟩
    · simp [ustack]
    · obtain ⟨w, -, rfl⟩ := List.mem_map.1 hn
      rfl
  rw [List.length_flatMap, hconst, List.sum_replicate, smul_eq_mul, Nat.mul_comm]

section Guarded

variable (hsz : sz < kernbase) (h2 : 2 * pgsize ≤ sz) (hal : sz % pgsize = 0)

include hsz h2

theorem within_below (hsp : sz ≤ sp + pgsize ∧ sp ≤ sz)
    (hshort : arg.length < 2 ^ 25) : Within sz (below sp arg) (arg ++ [(0 : Byte)]).length := by
  have hlen : (arg ++ [(0 : Byte)]).length = arg.length + 1 := List.length_append
  have hp : pgsize = 4096 := rfl
  have hb : kernbase = 0x80000000 := rfl
  have hd : devspace = 0xFE000000 := rfl
  unfold Within below
  rw [hlen, hd]
  rw [hp] at hsp h2
  rw [hb] at hsz
  omega

include hal

/-- An argument that has been copied is in the page of the stack: it does
not go over the page below. -/
theorem Img.below_of_copyout (h : Img R m pd sz)
    (hguard : Guarded pd sz) (hsp : sz ≤ sp + pgsize ∧ sp ≤ sz)
    (hr : Vm.copyout pd (arg.length + 1) (below sp arg) (arg ++ [0]) m = .ok (m1, true)) :
    sz ≤ below sp arg + pgsize ∧ below sp arg ≤ sz := by
  have hlen : (arg ++ [(0 : Byte)]).length = arg.length + 1 := List.length_append
  have hp : pgsize = 4096 := rfl
  have hb : kernbase = 0x80000000 := rfl
  have hcover {u : Nat} := copyout_true (u := u) _ hr (by simp) (Nat.le_of_eq hlen)
  unfold below at hcover ⊢
  rw [hlen] at hcover
  rw [hp] at hcover hsp h2 hal ⊢
  rw [hb] at hsz
  by_cases hwrap : arg.length + 1 ≤ sp
  · refine ⟨?_, by omega⟩
    by_contra hlow
    obtain ⟨e, he, hu⟩ := hcover (u := sz / 4096 - 2) (by omega) (by omega) (by omega)
    rw [hguard e he] at hu
    cases hu
  · -- it goes over the last page of all
    obtain ⟨e, he, -⟩ := hcover (u := 2 ^ 20 - 1) (by omega) (by omega) (by omega)
    have hin := (h.present (2 ^ 20 - 1)).1 (by rw [he]; rfl)
    unfold npages at hin
    rw [hp] at hin
    omega

/-- One argument. -/
theorem Img.pushArg (h : Img R m pd sz) (hguard : Guarded pd sz)
    (hsp : sz ≤ sp + pgsize ∧ sp ≤ sz) (arg : List Byte) :
    Wrote R (¬ arg.length < 2 ^ 25)
      (fun done => done = true → sz ≤ below sp arg + pgsize ∧ below sp arg ≤ sz) m pd sz
      (Vm.copyout pd (arg.length + 1) (below sp arg) (arg ++ [0]) m) := by
  have hout : Wrote R (¬ Within sz (below sp arg) (arg ++ [(0 : Byte)]).length) (fun _ => True) m pd
      sz (Vm.copyout pd (arg.length + 1) (below sp arg) (arg ++ [0]) m) := h.copyout _
  match hr : Vm.copyout pd (arg.length + 1) (below sp arg) (arg ++ [0]) m, hout with
  | .error e, ⟨he, hn⟩ => exact ⟨he, fun hshort => hn (within_below hsz h2 hsp hshort)⟩
  | .ok (m', done), ⟨himg, hk, _⟩ =>
    refine ⟨himg, hk, fun hd => ?_⟩
    rw [hd] at hr
    exact h.below_of_copyout hsz h2 hal hguard hsp hr

theorem Img.pushArgs (argv : List (List Byte)) {ptrs : List Nat} (h : Img R m pd sz)
    (hguard : Guarded pd sz) (hp : Pushed sz sp ptrs) :
    Wrote R (¬ Short argv) (fun r => ∀ sp' ptrs', r = some (sp', ptrs') → Pushed sz sp' ptrs') m pd sz
      (pushArgs pd argv sp ptrs m) := by
  induction argv generalizing sp ptrs m with
  | nil =>
    refine ⟨h, .refl R m, fun sp' ptrs' he => ?_⟩
    cases he
    exact hp
  | cons arg argv ih =>
    unfold Vm.pushArgs
    split
    · exact ⟨h, .refl R m, nofun⟩
    next hmax =>
    have harg := (h.pushArg hsz h2 hal hguard ⟨hp.1, hp.2.1⟩ arg).after (.refl R m)
      fun hlong => (show ¬ Short (arg :: argv) from fun hs => hlong (hs arg List.mem_cons_self))
    refine harg.bind fun m' done h' hdone => ?_
    cases done with
    | false => exact ⟨h', .refl R m', nofun⟩
    | true =>
      obtain ⟨hlo, hhi⟩ := hdone rfl
      refine (ih h' ⟨hlo, hhi, ?_⟩).after (.refl R m')
        fun hlong hs => hlong fun a ha => hs a (List.mem_cons_of_mem _ ha)
      rw [List.length_append]
      exact Nat.not_le.1 hmax

theorem Img.pushStack (argv : List (List Byte)) (h : Img R m pd sz) (hguard : Guarded pd sz) :
    Wrote R (¬ Short argv) (fun _ => True) m pd sz (pushStack m pd sz argv) := by
  have hp : Pushed sz sz [] := ⟨Nat.le_add_right _ _, Nat.le_refl _, Nat.zero_le _⟩
  unfold Vm.pushStack
  refine (h.pushArgs hsz h2 hal argv hguard hp).bind fun m' r h' hr => ?_
  cases r with
  | none => exact ⟨h', .refl R m', trivial⟩
  | some r =>
    obtain ⟨sp, ptrs⟩ := r
    obtain ⟨hlo, hhi, hlen⟩ := hr sp ptrs rfl
    refine (h'.copyout _).after (.refl R m') fun hout => absurd (Or.inr (Or.inl ?_)) hout
    have hp : pgsize = 4096 := rfl
    have hmax : maxarg = 32 := rfl
    rw [length_ustack]
    rw [hp] at hlo h2
    omega

end Guarded

end Stack

-- ======== exec

section Exec

variable {R : Nat → Prop} {m : Kmem} {pd : Pgdir} {sz : Nat}

theorem clearpteu_ok {v : Nat} {e : Pte} (ht : (pd.tables (v / npt)).isSome)
    (he : pd.ptes v = some e) :
    ∃ pd', clearpteu pd v = .ok pd' ∧ pd'.frame = pd.frame ∧ pd'.tables = pd.tables ∧
      ∀ u, pd'.ptes u = if u = v then some { e with u := false } else pd.ptes u := by
  obtain ⟨t, ht⟩ := Option.isSome_iff_exists.1 ht
  refine ⟨{ pd with ptes := Function.update pd.ptes v (some { e with u := false }) }, ?_, rfl, rfl,
    fun u => Function.update_apply ..⟩
  unfold clearpteu
  rw [ht, he]
  rfl

/-- `clearpteu` of a page of the image. -/
theorem Img.clearpteu (h : Img R m pd sz) {v : Nat} (hv : v < npages sz) :
    ∃ pd', clearpteu pd v = .ok pd' ∧ Img R m pd' sz ∧ ∀ e, pd'.ptes v = some e → e.u = false := by
  obtain ⟨e, he, ht⟩ := h.page hv
  obtain ⟨pd', hr, hframe, htables, hptes⟩ := clearpteu_ok ht he
  refine ⟨pd', hr, ⟨⟨h.held.good, ?_, fun u hu => ?_⟩, fun u => ?_, fun u e' he' => ?_, h.le, ?_⟩,
    fun e' he' => ?_⟩
  · refine h.held.apart.mono (fun b k hk => ?_) fun _ _ _ => id
    match b with
    | none => exact hk
    | some .dir => exact hframe.symm.trans hk
    | some (.table d) => exact (congrFun htables d).symm.trans hk
    | some (.page u) =>
      obtain ⟨e', he', hk⟩ := hk
      rw [hptes] at he'
      split at he'
      · next huv =>
        cases he'
        exact ⟨e, by rw [huv]; exact he, hk⟩
      · exact ⟨e', he', hk⟩
  · rw [htables] at hu
    have hnone := h.held.mapped u hu
    have hne : u ≠ v := by
      rintro rfl
      rw [hnone] at he
      cases he
    rw [hptes, if_neg hne]
    exact hnone
  · rw [hptes, ← h.present u]
    split
    · next huv =>
      rw [huv, he]
      rfl
    · rfl
  · rw [hptes] at he'
    split at he'
    · cases he'
      exact h.writable v e he
    · exact h.writable u e' he'
  · rw [htables]
    exact h.kernel
  · rw [hptes, if_pos rfl] at he'
    cases he'
    rfl

/-- A size that is rounded up, which brings no page. -/
theorem pgroundup_le (h : sz ≤ kernbase) :
    npages (pgroundup sz) = npages sz ∧ pgroundup sz ≤ kernbase := by
  have hp : pgsize = 4096 := rfl
  have hb : kernbase = 0x80000000 := rfl
  unfold npages pgroundup
  rw [hp]
  omega

theorem Img.pgroundup (h : Img R m pd sz) :
    Img R m pd (pgroundup sz) ∧ Vm.pgroundup sz % pgsize = 0 := by
  obtain ⟨hsame, hle⟩ := pgroundup_le h.le
  refine ⟨{ h with present := fun u => ?_, le := hle }, Nat.mul_mod_left _ _⟩
  rw [hsame]
  exact h.present u

section Rounds

variable {file : List Byte} {elf : Elfhdr} {argv : List (List Byte)} {m1 m2 : Kmem}
  {pd1 pd2 pd3 : Pgdir} {sz' : Nat}
  (hseg : segLoop file elf.phnum elf.phoff 0 m pd = .ok (m1, pd1, some sz))
  (halloc : allocuvm m1 pd1 (pgroundup sz) (pgroundup sz + 2 * pgsize) = .ok (sz', m2, pd2))

include hseg halloc

theorem loadImage_full (h0 : sz' = 0) : loadImage file elf argv m pd = .ok (m2, pd2, none) := by
  unfold loadImage
  exact bind_of_ok hseg (bind_of_ok halloc (if_pos h0))

theorem loadImage_stack (h0 : sz' ≠ 0) (hclear : clearpteu pd2 (sz' / pgsize - 2) = .ok pd3) :
    loadImage file elf argv m pd = (do
      let (m, done) ← pushStack m2 pd3 sz' argv
      .ok (m, pd3, if done then some sz' else none)) := by
  unfold loadImage
  exact bind_of_ok hseg (bind_of_ok halloc ((if_neg h0).trans (bind_of_ok hclear rfl)))

end Rounds

/-- What making an image comes to. -/
def Loaded (R : Nat → Prop) (argv : List (List Byte)) (m : Kmem) :
    Except VmPanic (Kmem × Pgdir × Option Nat) → Prop
  | .error e => e = .nullPte ∧ ¬ Short argv
  | .ok (m', pd, r) => Held R m' pd ∧ Keeps R m m' ∧
      ∀ sz, r = some sz → Img R m' pd sz ∧ sz < kernbase

theorem Img.loadImage (h : Img R m pd 0) (file : List Byte) (elf : Elfhdr)
    (argv : List (List Byte)) : Loaded R argv m (loadImage file elf argv m pd) := by
  obtain ⟨m1, pd1, r, hr1, hd1, hk1, himg1⟩ := h.segLoop file elf.phnum elf.phoff
  cases r with
  | none =>
    unfold Vm.loadImage
    rw [hr1]
    exact ⟨hd1, hk1, nofun⟩
  | some sz =>
    obtain ⟨hround, hal⟩ := (himg1 sz rfl).1.pgroundup
    obtain ⟨sz', m2, pd2, hr2, hd2, hk2, himg2⟩ :=
      hround.allocuvm (Vm.pgroundup sz + 2 * pgsize)
    by_cases h0 : sz' = 0
    · rw [loadImage_full hr1 hr2 h0]
      exact ⟨hd2, hk1.trans hk2, nofun⟩
    have hp : pgsize = 4096 := rfl
    obtain ⟨⟨himg2, -⟩, hor⟩ := himg2 h0
    obtain ⟨hsz', hlt⟩ : sz' = Vm.pgroundup sz + 2 * pgsize ∧ sz' < kernbase := by omega
    -- the first of the two pages is cleared
    obtain ⟨pd3, hr3, himg3, hu⟩ := himg2.clearpteu (v := sz' / pgsize - 2) (by
      unfold npages
      rw [hp] at hsz' ⊢
      omega)
    have hstack := himg3.pushStack hlt (by omega) (by rw [hp] at hal hsz' ⊢; omega) argv hu
    rw [loadImage_stack hr1 hr2 h0 hr3]
    match Vm.pushStack m2 pd3 sz' argv, hstack with
    | .error _, hnull => exact hnull
    | .ok (m3, done), ⟨himg, hk, _⟩ =>
      refine ⟨himg.held, (hk1.trans hk2).trans hk, fun sz'' he => ?_⟩
      cases done with
      | false => cases he
      | true =>
        cases he
        exact ⟨himg, hlt⟩

/-- What `exec` comes to before it frees the old address space. -/
def Execed (R : Nat → Prop) (argv : List (List Byte)) (m : Kmem) :
    Except VmPanic (Kmem × Option Space) → Prop
  | .error e => e = .nullPte ∧ ¬ Short argv
  | .ok (m', none) => Safe R m' ∧ Keeps R m m'
  | .ok (m', some a) => Img R m' a.pgdir a.sz ∧ a.sz < kernbase ∧ Keeps R m m'

section Rounds

variable {file bytes : List Byte} {argv : List (List Byte)} {m1 m2 m3 : Kmem} {pd2 : Pgdir}
  (hread : readi file 0 Elfhdr.size = some bytes)
  (hmagic : (Elfhdr.ofBytes bytes).magic = elfMagic) (hset : setupkvm m = .ok (m1, some pd))

include hread hmagic hset

theorem execImage_error {e : VmPanic}
    (hload : loadImage file (.ofBytes bytes) argv m1 pd = .error e) :
    execImage m (some file) argv = .error e := by
  unfold execImage
  dsimp only
  rw [hread]
  exact (if_neg (not_not.2 hmagic)).trans (bind_of_ok hset (bind_of_error hload))

theorem execImage_bad (hload : loadImage file (.ofBytes bytes) argv m1 pd = .ok (m2, pd2, none))
    (hfree : freevm m2 pd2 = .ok m3) : execImage m (some file) argv = .ok (m3, none) := by
  unfold execImage
  dsimp only
  rw [hread]
  exact (if_neg (not_not.2 hmagic)).trans
    (bind_of_ok hset (bind_of_ok hload (bind_of_ok hfree rfl)))

theorem execImage_ok (hload : loadImage file (.ofBytes bytes) argv m1 pd = .ok (m2, pd2, some sz)) :
    execImage m (some file) argv = .ok (m2, some ⟨pd2, sz⟩) := by
  unfold execImage
  dsimp only
  rw [hread]
  exact (if_neg (not_not.2 hmagic)).trans (bind_of_ok hset (bind_of_ok hload rfl))

end Rounds

/-- The image before its first segment. -/
theorem Img.start {m1 : Kmem} (h : Safe R m) (hset : setupkvm m = .ok (m1, some pd)) :
    Img R m1 pd 0 ∧ Keeps R m m1 ∧ HasBytes m1 pd 0 fun _ => 0 := by
  have hs := setupkvm_spec h
  rw [hset] at hs
  obtain ⟨hd, hk, hptes, hkernel⟩ := hs
  have hno : ∀ u e, pd.ptes u ≠ some e := by
    intro u e he
    rw [hptes] at he
    cases he
  refine ⟨⟨hd, fun u => ?_, fun u e he => absurd he (hno u e), Nat.zero_le _, hkernel⟩, hk,
    fun u e he => absurd he (hno u e), fun _ _ => rfl⟩
  rw [hptes]
  exact iff_of_false nofun (Nat.not_lt_zero u)

theorem execImage_spec (h : Safe R m) (file : Option (List Byte)) (argv : List (List Byte)) :
    Execed R argv m (execImage m file argv) := by
  have hstop : Execed R argv m (.ok (m, none)) := ⟨h, .refl R m⟩
  cases file with
  | none => exact hstop
  | some file =>
    cases hread : readi file 0 Elfhdr.size with
    | none =>
      unfold execImage
      dsimp only
      rw [hread]
      exact hstop
    | some bytes =>
      by_cases hmagic : (Elfhdr.ofBytes bytes).magic = elfMagic
      swap
      · unfold execImage
        dsimp only
        rw [hread]
        dsimp only
        rw [if_pos hmagic]
        exact hstop
      match hset : setupkvm m, setupkvm_spec h with
      | .ok (m1, none), hs =>
        unfold execImage
        dsimp only
        rw [hread]
        dsimp only
        rw [if_neg (not_not.2 hmagic), hset]
        exact hs
      | .ok (m1, some pd), _ =>
        obtain ⟨himg, hk, -⟩ := Img.start h hset
        match hload : Vm.loadImage file (.ofBytes bytes) argv m1 pd,
          himg.loadImage file (.ofBytes bytes) argv with
        | .error e, hnull =>
          rw [execImage_error hread hmagic hset hload]
          exact hnull
        | .ok (m2, pd2, none), ⟨hd2, hk2, _⟩ =>
          obtain ⟨m3, hr3, hs3, hk3⟩ := freevm_spec hd2
          rw [execImage_bad hread hmagic hset hload hr3]
          exact ⟨hs3, (hk.trans hk2).trans hk3⟩
        | .ok (m2, pd2, some sz), ⟨_, hk2, himg2⟩ =>
          obtain ⟨himg, hlt⟩ := himg2 sz rfl
          rw [execImage_ok hread hmagic hset hload]
          exact ⟨himg, hlt, hk.trans hk2⟩

end Exec

end Xv6Sume32.Vm
