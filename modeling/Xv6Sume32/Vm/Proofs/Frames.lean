/-
Who holds the pages: the functions of `kalloc.c` and `vm.c`.

# The rule

A page directory holds its own page, those of its page tables and those it
maps (`Spot`). `Held R m pd` says that these are different pages, none of
them free and none in `R`, and that no page of `R` is free. `R` stands for
the rest of the system. A function keeps `Held R` for every `R`, so what it
does stays among its own pages and those that were free, and with
`R` left as it was in memory (`Keeps`) nobody else notices.

A page that has been allocated and not yet been mapped is part of the
rest for that time.
-/
import Xv6Sume32.Vm.Pages
import Xv6Sume32.Lib.Own

namespace Xv6Sume32.Vm

open Lib
open Function (update update_of_ne update_self)

-- ======== free pages

namespace Kmem

/-- A page of the allocator's that is not free. -/
def used (m : Kmem) (k : Nat) : Prop := k ∉ m.free ∧ m.first ≤ k ∧ k < m.top

/-- The pages of the list, each with the address of the next. -/
def Linked (mem : Nat → Page) : List Nat → Prop
  | [] => True
  | f :: fs => mem f = linkPage fs.head? ∧ Linked mem fs

structure Good (m : Kmem) : Prop where
  nodup : m.free.Nodup
  range : ∀ k ∈ m.free, m.first ≤ k ∧ k < m.top
  linked : Linked m.mem m.free

variable {m m' : Kmem} {f k : Nat}

theorem Linked.congr {mem mem' : Nat → Page} {l : List Nat} (h : Linked mem l)
    (hm : ∀ k ∈ l, mem' k = mem k) : Linked mem' l := by
  induction l with
  | nil => trivial
  | cons f l ih =>
    refine ⟨?_, ih h.2 fun k hk => hm k (List.mem_cons_of_mem _ hk)⟩
    rw [hm f List.mem_cons_self]
    exact h.1

theorem write_mem_of_ne (page : Page) (h : k ≠ f) : (m.write f page).mem k = m.mem k :=
  update_of_ne h _ _

theorem write_mem (m : Kmem) (f : Nat) (page : Page) : (m.write f page).mem f = page :=
  update_self ..

theorem Good.write (h : m.Good) (hf : f ∉ m.free) (page : Page) : (m.write f page).Good :=
  ⟨h.nodup, h.range, h.linked.congr fun _ hk => write_mem_of_ne page fun he => hf (he ▸ hk)⟩

/-- `kalloc` takes a page off the list. -/
theorem kalloc_spec (h : m.kalloc = some (f, m')) (hg : m.Good) :
    m'.Good ∧ ¬ m.used f ∧ (∀ k, m'.used k ↔ m.used k ∨ k = f) ∧ m'.mem = m.mem ∧
      m.mem f = linkPage m'.free.head? := by
  unfold kalloc at h
  split at h
  · next limit f' free hlimit hfree =>
    cases h
    obtain ⟨hnd, hrange, hlink⟩ := hg
    rw [hfree] at hnd hlink
    obtain ⟨hf, hnd⟩ := List.nodup_cons.1 hnd
    have hr : m.first ≤ f ∧ f < m.top := hrange f (by rw [hfree]; exact List.mem_cons_self)
    refine ⟨⟨hnd, fun k hk => hrange k (by rw [hfree]; exact List.mem_cons_of_mem _ hk), hlink.2⟩,
      fun hu => hu.1 (by rw [hfree]; exact List.mem_cons_self), fun k => ?_, rfl, hlink.1⟩
    unfold used
    rw [hfree, List.mem_cons]
    constructor
    · rintro ⟨hk, hkr⟩
      by_cases he : k = f
      · exact Or.inr he
      · exact Or.inl ⟨fun hor => hor.elim he hk, hkr⟩
    · rintro (⟨hk, hkr⟩ | rfl)
      · exact ⟨fun hmem => hk (Or.inr hmem), hkr⟩
      · exact ⟨hf, hr⟩
  · cases h

/-- `kfree` of a page that is in use puts it back. -/
theorem kfree_spec (hg : m.Good) (hu : m.used f) :
    ∃ m', m.kfree f = .ok m' ∧ m'.Good ∧ (∀ k, m'.used k ↔ m.used k ∧ k ≠ f) ∧
      ∀ k, k ≠ f → m'.mem k = m.mem k := by
  obtain ⟨hf, hlo, hhi⟩ := hu
  have hneg : ¬ (f < m.first ∨ m.top ≤ f) := by omega
  have hr : m.kfree f = .ok { m.write f (linkPage m.free.head?) with free := f :: m.free } := by
    unfold kfree
    rw [if_neg hneg, if_neg hf]
  refine ⟨_, hr, ⟨?_, fun k hk => ?_, ?_, ?_⟩, fun k => ?_, fun k hk => write_mem_of_ne _ hk⟩
  · exact List.nodup_cons.2 ⟨hf, hg.nodup⟩
  · rcases List.mem_cons.1 hk with rfl | hk
    · exact ⟨hlo, hhi⟩
    · exact hg.range k hk
  · exact write_mem m f _
  · exact hg.linked.congr fun k hk => write_mem_of_ne _ fun he => hf (he ▸ hk)
  · show k ∉ f :: m.free ∧ _ ↔ (k ∉ m.free ∧ _) ∧ k ≠ f
    rw [List.mem_cons]
    exact ⟨fun h => ⟨⟨fun hk => h.1 (Or.inr hk), h.2⟩, fun he => h.1 (Or.inl he)⟩,
      fun h => ⟨fun hor => hor.elim h.2 h.1.1, h.1.2⟩⟩

end Kmem

-- ======== holders

/-- What a page directory holds a page for. -/
inductive Spot
  | dir
  | table (d : Nat)
  | page (v : Nat)
deriving DecidableEq

namespace Pgdir

def holds (pd : Pgdir) : Spot → Nat → Prop
  | .dir, k => pd.frame = k
  | .table d, k => pd.tables d = some k
  | .page v, k => ∃ e, pd.ptes v = some e ∧ e.frame = k

/-- The holders of pages, the rest of the system as one. -/
def among (pd : Pgdir) (R : Nat → Prop) : Option Spot → Nat → Prop
  | some l, k => pd.holds l k
  | none, k => R k

/-- The page tables are still there. -/
def Under (pd pd' : Pgdir) : Prop := ∀ d, (pd.tables d).isSome → (pd'.tables d).isSome

theorem Under.refl (pd : Pgdir) : pd.Under pd := fun _ => id

theorem Under.trans {pd1 pd2 pd3 : Pgdir} (h : pd1.Under pd2) (h' : pd2.Under pd3) :
    pd1.Under pd3 := fun d hd => h' d (h d hd)

/-- An entry needs a page table. -/
def Mapped (pd : Pgdir) : Prop := ∀ v, pd.tables (v / npt) = none → pd.ptes v = none

end Pgdir

/-- The rest of the system has no page that is free. -/
structure Safe (R : Nat → Prop) (m : Kmem) : Prop where
  good : m.Good
  rest : ∀ k, R k → m.used k

structure Held (R : Nat → Prop) (m : Kmem) (pd : Pgdir) : Prop where
  good : m.Good
  apart : Exclusive (pd.among R) m.used
  mapped : pd.Mapped

/-- The rest of the system finds its memory as it was. -/
def Keeps (R : Nat → Prop) (m m' : Kmem) : Prop := ∀ k, R k → m'.mem k = m.mem k

section Held

variable {R : Nat → Prop} {m m' m1 m2 m3 : Kmem} {pd pd' : Pgdir} {f k v : Nat} {l : Spot}

theorem Keeps.refl (R : Nat → Prop) (m : Kmem) : Keeps R m m := fun _ _ => rfl

theorem Keeps.trans (h : Keeps R m1 m2) (h' : Keeps R m2 m3) : Keeps R m1 m3 :=
  fun k hk => (h' k hk).trans (h k hk)

theorem Keeps.mono {R' : Nat → Prop} (h : Keeps R m m') (hR : ∀ k, R' k → R k) : Keeps R' m m' :=
  fun k hk => h k (hR k hk)

theorem Held.safe (h : Held R m pd) : Safe R m := ⟨h.good, fun _ hk => h.apart.used (a := none) hk⟩

theorem Held.weaken {R' : Nat → Prop} (h : Held R m pd) (hR : ∀ k, R' k → R k) : Held R' m pd :=
  ⟨h.good, h.apart.mono (fun b j hj => match b with
    | none => hR j hj
    | some _ => hj) fun _ _ _ => id, h.mapped⟩

theorem Held.used (h : Held R m pd) (hl : pd.holds l k) : m.used k := h.apart.used (a := some l) hl

theorem Held.not_rest (h : Held R m pd) (hl : pd.holds l k) : ¬ R k := fun hR => by
  have := h.apart.one (a := some l) (b := none) hl hR
  cases this

theorem Held.keeps_write (h : Held R m pd) (hl : pd.holds l k) (page : Page) :
    Keeps R m (m.write k page) := fun _ hj =>
  Kmem.write_mem_of_ne page fun he => h.not_rest hl (he ▸ hj)

theorem Held.write (h : Held R m pd) (hf : m.used f) (page : Page) : Held R (m.write f page) pd :=
  ⟨h.good.write hf.1 page, h.apart.mono (fun _ _ => id) fun _ _ _ => id, h.mapped⟩

/-- A page is allocated. -/
theorem Held.kalloc (h : Held R m pd) (hk : m.kalloc = some (f, m')) :
    Held (fun k => R k ∨ k = f) m' pd := by
  obtain ⟨hg, hf, hu, -, -⟩ := Kmem.kalloc_spec hk h.good
  refine ⟨hg, h.apart.take (a := none) hf (fun b j hj => ?_) ((hu f).2 (Or.inr rfl))
    fun j hj => (hu j).2 (Or.inl hj), h.mapped⟩
  cases b with
  | some l => exact Or.inl hj
  | none => exact hj.elim Or.inl fun he => Or.inr ⟨rfl, he⟩

/-- A page of the rest is freed. -/
theorem Held.kfree_rest (h : Held (fun k => R k ∨ k = f) m pd) (hf : ¬ R f) :
    ∃ m', m.kfree f = .ok m' ∧ Held R m' pd ∧
      ∀ k, k ≠ f → (m.used k → m'.used k) ∧ m'.mem k = m.mem k := by
  have hrest : pd.among (fun k => R k ∨ k = f) none f := Or.inr rfl
  obtain ⟨m', hr, hg, hu, hmem⟩ := Kmem.kfree_spec h.good (h.apart.used hrest)
  refine ⟨m', hr, ⟨hg, h.apart.mono (fun b j hj => ?_) fun b j hj hused => ?_, h.mapped⟩,
    fun k hk => ⟨fun hused => (hu k).2 ⟨hused, hk⟩, hmem k hk⟩⟩
  · cases b with
    | some l => exact hj
    | none => exact Or.inl hj
  · refine (hu j).2 ⟨hused, ?_⟩
    rintro rfl
    cases b with
    | some l => cases h.apart.one (a := some l) hj hrest
    | none => exact hf hj

/-- A page of the page directory is freed, and what mentioned it is
gone. -/
theorem Held.kfree (h : Held R m pd) (hl : pd.holds l f)
    (hd : ∀ b k, pd'.holds b k → pd.holds b k ∧ b ≠ l) (hm : pd'.Mapped) :
    ∃ m', m.kfree f = .ok m' ∧ Held R m' pd' ∧ (∀ k, m'.used k ↔ m.used k ∧ k ≠ f) ∧
      ∀ k, k ≠ f → m'.mem k = m.mem k := by
  obtain ⟨m', hr, hg, hu, hmem⟩ := Kmem.kfree_spec h.good (h.used hl)
  refine ⟨m', hr, ⟨hg, h.apart.drop (a := some l) hl (fun b j hj => ?_)
    fun j hj hused => (hu j).2 ⟨hused, hj⟩, hm⟩, hu, hmem⟩
  cases b with
  | some b => exact ⟨(hd b j hj).1, fun he => (hd b j hj).2 (Option.some.inj he)⟩
  | none => exact ⟨hj, nofun⟩

end Held

-- ======== page tables

/-- What an operation on a page table leaves as it is: everything the
allocator had handed out. -/
def Kmem.Extends (m m' : Kmem) : Prop := ∀ k, m.used k → m'.used k ∧ m'.mem k = m.mem k

section Walk

variable {R : Nat → Prop} {m m' m1 m2 m3 : Kmem} {pd pd' : Pgdir} {f k v : Nat}

theorem Kmem.Extends.refl (m : Kmem) : m.Extends m := fun _ hk => ⟨hk, rfl⟩

theorem Kmem.Extends.trans (h : m1.Extends m2) (h' : m2.Extends m3) : m1.Extends m3 :=
  fun k hk => ⟨(h' k (h k hk).1).1, (h' k (h k hk).1).2.trans (h k hk).2⟩

theorem Kmem.Extends.keeps (h : m.Extends m') (hR : Safe R m) : Keeps R m m' :=
  fun k hk => (h k (hR.rest k hk)).2

/-- A page is taken and filled. -/
theorem Kmem.Extends.kalloc (hg : m.Good) (hk : m.kalloc = some (f, m')) (page : Page) :
    m.Extends (m'.write f page) := by
  obtain ⟨-, hf, hu, hmem, -⟩ := Kmem.kalloc_spec hk hg
  intro k hused
  have hne : k ≠ f := fun he => hf (he ▸ hused)
  refine ⟨(hu k).2 (Or.inl hused), ?_⟩
  rw [Kmem.write_mem_of_ne page hne, hmem]

/-- `walkpgdir` with `alloc`. -/
theorem walkpgdir_spec (h : Held R m pd) (hw : walkpgdir m pd v = some (m', pd')) :
    Held R m' pd' ∧ m.Extends m' ∧ pd'.ptes = pd.ptes ∧ pd.Under pd' ∧
      (pd'.tables (v / npt)).isSome := by
  unfold walkpgdir at hw
  split at hw
  · next t ht =>
    cases hw
    exact ⟨h, .refl _, rfl, .refl _, by rw [ht]; rfl⟩
  · next hnone =>
    split at hw
    · cases hw
    · next f m1 hk =>
      cases hw
      have hptes : (fun u => if u / npt = v / npt then none else pd.ptes u) = pd.ptes := by
        funext u
        split
        · next he => exact (h.mapped u (by rw [he]; exact hnone)).symm
        · rfl
      obtain ⟨hg, hf, hu, hmem, -⟩ := Kmem.kalloc_spec hk h.good
      have hfu : m1.used f := (hu f).2 (Or.inr rfl)
      refine ⟨⟨hg.write hfu.1 _, ?_, ?_⟩, .kalloc h.good hk _, hptes, fun d hd => ?_, ?_⟩
      · refine h.apart.take (a := some (.table (v / npt))) hf (fun b j hj => ?_) hfu
          fun j hj => (hu j).2 (Or.inl hj)
        cases b with
        | none => exact Or.inl hj
        | some l =>
          cases l with
          | dir => exact Or.inl hj
          | page u =>
            obtain ⟨e, he, hej⟩ := hj
            refine Or.inl ⟨e, ?_, hej⟩
            rw [← hptes]
            exact he
          | table d =>
            by_cases hd : d = v / npt
            · subst hd
              have hj' : update pd.tables (v / npt) (some f) (v / npt) = some j := hj
              rw [update_self] at hj'
              exact Or.inr ⟨rfl, (Option.some.inj hj').symm⟩
            · have hj' : update pd.tables (v / npt) (some f) d = some j := hj
              rw [update_of_ne hd] at hj'
              exact Or.inl hj'
      · intro u hu
        have hu' : update pd.tables (v / npt) (some f) (u / npt) = none := hu
        by_cases hd : u / npt = v / npt
        · exact if_pos hd
        · rw [update_of_ne hd] at hu'
          show (if u / npt = v / npt then none else pd.ptes u) = none
          rw [if_neg hd]
          exact h.mapped u hu'
      · show (update pd.tables (v / npt) (some f) d).isSome
        by_cases he : d = v / npt
        · rw [he, update_self]
          rfl
        · rw [update_of_ne he]
          exact hd
      · show (update pd.tables (v / npt) (some f) (v / npt)).isSome
        rw [update_self]
        rfl

/-- A page of the rest is mapped. -/
theorem mappages_spec {e : Pte} (h : Held (fun k => R k ∨ k = e.frame) m pd) (hf : ¬ R e.frame) :
    (mappages m pd v e = .ok none) ∨ (mappages m pd v e = .error .remap ∧ (pd.ptes v).isSome) ∨
      ∃ m' pd', mappages m pd v e = .ok (some (m', pd')) ∧ Held R m' pd' ∧ m.Extends m' ∧
        pd.Under pd' ∧ pd'.ptes = update pd.ptes v (some e) := by
  unfold mappages
  cases hw : walkpgdir m pd v with
  | none => exact Or.inl rfl
  | some r =>
    obtain ⟨m1, pd1⟩ := r
    obtain ⟨h₁, hext, hptes, hunder, htable⟩ := walkpgdir_spec h hw
    dsimp only
    rw [hptes]
    by_cases hv : (pd.ptes v).isSome
    · rw [if_pos hv]
      exact Or.inr (Or.inl ⟨rfl, hv⟩)
    · rw [if_neg hv]
      have hrest : pd1.among (fun k => R k ∨ k = e.frame) none e.frame := Or.inr rfl
      refine Or.inr (Or.inr ⟨m1, _, rfl, ⟨h₁.good, ?_, ?_⟩, hext, hunder, rfl⟩)
      · refine h₁.apart.move (a := some (.page v)) (h₁.apart.used hrest) fun b j hj => ?_
        -- nobody but the rest has the page so far
        have hother : ∀ l, pd1.holds l j → j ≠ e.frame := by
          rintro l hl rfl
          cases h₁.apart.one (a := some l) hl hrest
        cases b with
        | none => exact Or.inl ⟨Or.inl hj, fun he => hf (he ▸ hj)⟩
        | some l =>
          cases l with
          | dir => exact Or.inl ⟨hj, hother .dir hj⟩
          | table d => exact Or.inl ⟨hj, hother (.table d) hj⟩
          | page u =>
            obtain ⟨e', he', hej⟩ := hj
            change update pd.ptes v (some e) u = some e' at he'
            by_cases hu : u = v
            · subst hu
              rw [update_self] at he'
              cases he'
              exact Or.inr ⟨rfl, hej.symm⟩
            · rw [update_of_ne hu, ← hptes] at he'
              exact Or.inl ⟨⟨e', he', hej⟩, hother (.page u) ⟨e', he', hej⟩⟩
      · intro u hu
        show update pd.ptes v (some e) u = none
        have hu' : pd1.tables (u / npt) = none := hu
        by_cases huv : u = v
        · subst huv
          rw [hu'] at htable
          cases htable
        · rw [update_of_ne huv, ← hptes]
          exact h₁.mapped u hu'

end Walk

-- ======== unmapping

section Dealloc

variable {R : Nat → Prop} {m m' : Kmem} {pd : Pgdir}

/-- The page directory without the pages from `v` to `last`. -/
def Pgdir.without (pd : Pgdir) (v last : Nat) : Pgdir :=
  { pd with ptes := fun u => if v ≤ u ∧ u < last then none else pd.ptes u }

/-- The pages from `v` to `last` are freed, and no others change. -/
structure Dropped (pd : Pgdir) (v last : Nat) (m m' : Kmem) : Prop where
  used : ∀ k, m'.used k ↔ m.used k ∧ ∀ u, v ≤ u → u < last → ¬ pd.holds (.page u) k
  mem : ∀ k, (∀ u, v ≤ u → u < last → ¬ pd.holds (.page u) k) → m'.mem k = m.mem k

theorem Pgdir.without_skip {v v' last : Nat} (hv : v ≤ v')
    (hnone : ∀ u, v ≤ u → u < v' → u < last → pd.ptes u = none) :
    pd.without v' last = pd.without v last := by
  have hptes : (fun u => if v' ≤ u ∧ u < last then none else pd.ptes u)
      = fun u => if v ≤ u ∧ u < last then none else pd.ptes u := by
    funext u
    by_cases hu : v' ≤ u
    · simp only [hu, Nat.le_trans hv hu]
    · rw [if_neg fun h => hu h.1]
      split
      · next h => exact hnone u h.1 (Nat.not_le.1 hu) h.2
      · rfl
  unfold Pgdir.without
  rw [hptes]

theorem Dropped.skip {v v' last : Nat} (h : Dropped pd v' last m m') (hv : v ≤ v')
    (hnone : ∀ u, v ≤ u → u < v' → u < last → pd.ptes u = none) : Dropped pd v last m m' := by
  have hiff : ∀ k, (∀ u, v' ≤ u → u < last → ¬ pd.holds (.page u) k)
      ↔ ∀ u, v ≤ u → u < last → ¬ pd.holds (.page u) k := by
    intro k
    refine ⟨fun hk u hvu hul hold => ?_, fun hk u hvu => hk u (Nat.le_trans hv hvu)⟩
    by_cases hu : v' ≤ u
    · exact hk u hu hul hold
    · obtain ⟨e, he, -⟩ := hold
      rw [hnone u hvu (Nat.not_le.1 hu) hul] at he
      cases he
  exact ⟨fun k => (h.used k).trans (and_congr_right fun _ => hiff k),
    fun k hk => h.mem k ((hiff k).2 hk)⟩

theorem Dropped.refl {v last : Nat} (h : last ≤ v) (pd : Pgdir) (m : Kmem) :
    Dropped pd v last m m :=
  ⟨fun _ => ⟨fun hk => ⟨hk, fun _ hv hl => absurd hl (by omega)⟩, fun hk => hk.1⟩, fun _ _ => rfl⟩

theorem Pgdir.without_empty {v last : Nat} (h : last ≤ v) (pd : Pgdir) :
    pd.without v last = pd := by
  unfold Pgdir.without
  have : (fun u => if v ≤ u ∧ u < last then none else pd.ptes u) = pd.ptes :=
    funext fun u => if_neg (by omega)
  rw [this]

/-- One page is freed, then those behind it. -/
theorem Dropped.cons {v last : Nat} {m1 : Kmem} {e : Pte} (hv : v < last) (he : pd.ptes v = some e)
    (hu : ∀ k, m1.used k ↔ m.used k ∧ k ≠ e.frame) (hmem : ∀ k, k ≠ e.frame → m1.mem k = m.mem k)
    (h : Dropped { pd with ptes := update pd.ptes v none } (v + 1) last m1 m') :
    Dropped pd v last m m' := by
  have hrest : ∀ k u, v + 1 ≤ u →
      (Pgdir.holds { pd with ptes := update pd.ptes v none } (.page u) k
        ↔ pd.holds (.page u) k) := by
    intro k u hle
    have hne : u ≠ v := by omega
    show (∃ e, update pd.ptes v none u = some e ∧ _) ↔ _
    rw [update_of_ne hne]
    rfl
  have hiff : ∀ k, (k ≠ e.frame ∧ ∀ u, v + 1 ≤ u → u < last → ¬ Pgdir.holds
      { pd with ptes := update pd.ptes v none } (.page u) k)
      ↔ ∀ u, v ≤ u → u < last → ¬ pd.holds (.page u) k := by
    intro k
    constructor
    · rintro ⟨hk, hall⟩ u hvu hul hold
      by_cases hne : u = v
      · subst hne
        obtain ⟨e', he', rfl⟩ := hold
        rw [he] at he'
        cases he'
        exact hk rfl
      · exact hall u (by omega) hul ((hrest k u (by omega)).2 hold)
    · intro hall
      refine ⟨fun hk => hall v (Nat.le_refl _) hv ⟨e, he, hk.symm⟩, fun u hvu hul hold => ?_⟩
      exact hall u (by omega) hul ((hrest k u hvu).1 hold)
  refine ⟨fun k => ?_, fun k hk => ?_⟩
  · rw [h.used k, hu k, and_assoc, hiff k]
  · obtain ⟨hne, hall⟩ := (hiff k).2 hk
    rw [h.mem k hall, hmem k hne]

theorem Pgdir.holds_unmap {v k : Nat} {b : Spot}
    (hb : Pgdir.holds { pd with ptes := update pd.ptes v none } b k) :
    pd.holds b k ∧ b ≠ .page v := by
  cases b with
  | dir => exact ⟨hb, nofun⟩
  | table d => exact ⟨hb, nofun⟩
  | page u =>
    obtain ⟨e, he, hk⟩ := hb
    change update pd.ptes v none u = some e at he
    by_cases hu : u = v
    · rw [hu, update_self] at he
      cases he
    · rw [update_of_ne hu] at he
      exact ⟨⟨e, he, hk⟩, fun heq => hu (Spot.page.inj heq)⟩

theorem Pgdir.Mapped.unmap {v : Nat} (h : pd.Mapped) :
    Pgdir.Mapped { pd with ptes := update pd.ptes v none } := by
  intro u hu
  show update pd.ptes v none u = none
  by_cases huv : u = v
  · rw [huv, update_self]
  · rw [update_of_ne huv]
    exact h u hu

theorem Pgdir.without_unmap {v last : Nat} (hv : v < last) :
    Pgdir.without { pd with ptes := update pd.ptes v none } (v + 1) last
      = pd.without v last := by
  have hptes : (fun u => if v + 1 ≤ u ∧ u < last then none else update pd.ptes v none u)
      = fun u => if v ≤ u ∧ u < last then none else pd.ptes u := by
    funext u
    by_cases huv : u = v
    · rw [huv, update_self, ite_self, if_pos ⟨Nat.le_refl v, hv⟩]
    · rw [update_of_ne huv]
      have : v + 1 ≤ u ↔ v ≤ u := by omega
      simp only [this]
  unfold Pgdir.without
  dsimp only
  rw [hptes]

theorem deallocLoop_spec (last : Nat) (fuel : Nat) {v : Nat} (h : Held R m pd)
    (hfuel : last ≤ v + fuel) : ∃ m', deallocLoop last fuel v m pd = .ok (m', pd.without v last) ∧
      Held R m' (pd.without v last) ∧ Dropped pd v last m m' := by
  induction fuel generalizing v m pd with
  | zero =>
    rw [Nat.add_zero] at hfuel
    rw [Pgdir.without_empty hfuel]
    exact ⟨m, rfl, h, .refl hfuel pd m⟩
  | succ fuel ih =>
    unfold deallocLoop
    by_cases hlt : v < last
    swap
    · rw [if_neg hlt, Pgdir.without_empty (Nat.not_lt.1 hlt)]
      exact ⟨m, rfl, h, .refl (Nat.not_lt.1 hlt) pd m⟩
    rw [if_pos hlt]
    cases htable : pd.tables (v / npt) with
    | none =>
      -- the rest of the missing page table is skipped
      dsimp only
      have hle : v < (v / npt + 1) * npt := Nat.lt_mul_of_div_lt (Nat.lt_succ_self _) (by decide)
      have hnone : ∀ u, v ≤ u → u < (v / npt + 1) * npt → u < last → pd.ptes u = none := by
        intro u hvu hu _
        refine h.mapped u ?_
        have h1 : u / npt < v / npt + 1 := Nat.div_lt_of_lt_mul (by rw [Nat.mul_comm]; exact hu)
        have h2 : v / npt ≤ u / npt := Nat.div_le_div_right hvu
        rw [show u / npt = v / npt by omega]
        exact htable
      obtain ⟨m', hr, h', hd⟩ := ih h (by omega : last ≤ (v / npt + 1) * npt + fuel)
      rw [Pgdir.without_skip (Nat.le_of_lt hle) hnone] at hr h'
      exact ⟨m', hr, h', hd.skip (Nat.le_of_lt hle) hnone⟩
    | some t =>
      dsimp only
      cases hpte : pd.ptes v with
      | none =>
        dsimp only
        have hnone : ∀ u, v ≤ u → u < v + 1 → u < last → pd.ptes u = none := by
          intro u hvu hu _
          rw [show u = v by omega]
          exact hpte
        obtain ⟨m', hr, h', hd⟩ := ih h (by omega : last ≤ v + 1 + fuel)
        rw [Pgdir.without_skip (Nat.le_succ v) hnone] at hr h'
        exact ⟨m', hr, h', hd.skip (Nat.le_succ v) hnone⟩
      | some e =>
        dsimp only
        obtain ⟨m1, hr1, h₁, hu1, hmem1⟩ := h.kfree (l := .page v) ⟨e, hpte, rfl⟩
          (fun _ _ => Pgdir.holds_unmap) h.mapped.unmap
        obtain ⟨m', hr, h', hd⟩ := ih h₁ (by omega : last ≤ v + 1 + fuel)
        rw [Pgdir.without_unmap hlt] at hr h'
        exact ⟨m', bind_of_ok hr1 hr, h', hd.cons hlt hpte hu1 hmem1⟩

theorem deallocuvm_spec (h : Held R m pd) {oldsz newsz : Nat} (hlt : newsz < oldsz) :
    ∃ m', deallocuvm m pd oldsz newsz = .ok (newsz, m', pd.without (npages newsz) (npages oldsz)) ∧
      Held R m' (pd.without (npages newsz) (npages oldsz)) ∧
      Dropped pd (npages newsz) (npages oldsz) m m' := by
  obtain ⟨m', hr, h', hd⟩ := deallocLoop_spec (npages oldsz) (npages oldsz) (v := npages newsz) h
    (Nat.le_add_left _ _)
  refine ⟨m', ?_, h', hd⟩
  unfold deallocuvm
  rw [if_neg (Nat.not_le.2 hlt)]
  exact bind_of_ok hr rfl

/-- The rest keeps its pages when those of the page directory go. -/
theorem Dropped.keeps {v last : Nat} (hd : Dropped pd v last m m') (h : Held R m pd) :
    Keeps R m m' := fun k hk => hd.mem k fun _ _ _ hold => h.not_rest hold hk

/-- The pages of the page tables are freed. -/
theorem freeTables_spec {ds : List Nat} (hnd : ds.Nodup) {tables : Nat → Option Nat}
    (hg : m.Good) (hx : Exclusive (pd.among R) m.used) (hsame : ∀ d ∈ ds, pd.tables d = tables d) :
    ∃ m', ds.foldlM (fun m d =>
        match tables d with
        | some f => m.kfree f
        | none => .ok m) m = .ok m' ∧ m'.Good ∧ m'.used pd.frame ∧ ¬ R pd.frame ∧
      (∀ k, R k → m'.used k) ∧ Keeps R m m' := by
  induction ds generalizing m pd with
  | nil =>
    have hdir : pd.among R (some .dir) pd.frame := rfl
    refine ⟨m, rfl, hg, hx.used hdir, fun hR => ?_, fun k hk => hx.used (a := none) hk, .refl R m⟩
    cases hx.one (b := none) hdir hR
  | cons d ds ih =>
    obtain ⟨hd, hnd⟩ := List.nodup_cons.1 hnd
    have hd' := hsame d List.mem_cons_self
    have hsame' := fun d' hd' => hsame d' (List.mem_cons_of_mem d hd')
    rw [List.foldlM_cons]
    cases ht : tables d with
    | none => exact ih hnd hg hx hsame'
    | some f =>
      dsimp only
      have hold : pd.among R (some (.table d)) f := hd'.trans ht
      obtain ⟨m1, hr1, hg1, hu1, hmem1⟩ := Kmem.kfree_spec hg (hx.used hold)
      rw [hr1]
      have hx1 : Exclusive (Pgdir.among { pd with tables := update pd.tables d none } R)
          m1.used := by
        refine hx.drop hold (fun b j hj => ?_) fun j hj hused => (hu1 j).2 ⟨hused, hj⟩
        match b with
        | none => exact ⟨hj, nofun⟩
        | some .dir => exact ⟨hj, nofun⟩
        | some (.page u) => exact ⟨hj, nofun⟩
        | some (.table d') =>
          change update pd.tables d none d' = some j at hj
          by_cases he : d' = d
          · rw [he, update_self] at hj
            cases hj
          · rw [update_of_ne he] at hj
            exact ⟨hj, fun heq => he (Spot.table.inj (Option.some.inj heq))⟩
      have hsame1 : ∀ d' ∈ ds, update pd.tables d none d' = tables d' := by
        intro d' hmem
        have hne : d' ≠ d := fun he => hd (he ▸ hmem)
        rw [update_of_ne hne]
        exact hsame' d' hmem
      obtain ⟨m', hr', hg', hfu, hfR, hrest, hkeep⟩ := ih hnd hg1 hx1 hsame1
      refine ⟨m', hr', hg', hfu, hfR, hrest, fun k hk => (hkeep k hk).trans (hmem1 k ?_)⟩
      rintro rfl
      cases hx.one (b := none) hold hk

/-- `freevm` frees what the page directory holds. -/
theorem freevm_spec (h : Held R m pd) : ∃ m', freevm m pd = .ok m' ∧ Safe R m' ∧ Keeps R m m' := by
  obtain ⟨m1, hr1, h₁, hd1⟩ := deallocuvm_spec h (by decide : 0 < kernbase)
  obtain ⟨m2, hr2, hg2, hu2, hR2, hrest2, hkeep2⟩ :=
    freeTables_spec (List.nodup_range (n := npt)) h₁.good h₁.apart fun _ _ => rfl
  obtain ⟨m3, hr3, hg3, hu3, hmem3⟩ := Kmem.kfree_spec hg2 hu2
  have hne : ∀ k, R k → k ≠ pd.frame := fun k hk he => hR2 (he ▸ hk)
  refine ⟨m3, ?_, ⟨hg3, fun k hk => (hu3 k).2 ⟨hrest2 k hk, hne k hk⟩⟩, ?_⟩
  · exact bind_of_ok hr1 (bind_of_ok hr2 hr3)
  · exact ((hd1.keeps h).trans hkeep2).trans fun k hk => hmem3 k (hne k hk)

end Dealloc

-- ======== setting up

section Setup

variable {R : Nat → Prop} {m : Kmem} {pd : Pgdir}

/-- What comes of making a page directory: a panic of `E`, nothing, or one
with `P`. -/
def Built (R : Nat → Prop) (E : VmPanic → Prop) (P : Kmem → Pgdir → Prop) (m : Kmem) :
    Except VmPanic (Kmem × Option Pgdir) → Prop
  | .error e => E e
  | .ok (m', none) => Safe R m' ∧ Keeps R m m'
  | .ok (m', some pd) => Held R m' pd ∧ Keeps R m m' ∧ P m' pd

/-- It is given up. -/
theorem Built.give_up {E : VmPanic → Prop} {P : Kmem → Pgdir → Prop} {m₀ : Kmem}
    (h : Held R m pd) (hk : Keeps R m₀ m) : Built R E P m₀ (do let m ← freevm m pd; .ok (m, none)) := by
  obtain ⟨m', hr, hs, hk'⟩ := freevm_spec h
  rw [hr]
  exact ⟨hs, hk.trans hk'⟩

theorem Built.imp {E : VmPanic → Prop} {P Q : Kmem → Pgdir → Prop}
    {x : Except VmPanic (Kmem × Option Pgdir)} (h : Built R E P m x)
    (hPQ : ∀ m pd, P m pd → Q m pd) : Built R E Q m x :=
  match x, h with
  | .error _, h => h
  | .ok (_, none), h => h
  | .ok (_, some _), h => ⟨h.1, h.2.1, hPQ _ _ h.2.2⟩

theorem kmapLoop_spec (ds : List Nat) {m₀ : Kmem} (h : Held R m pd) (hk : Keeps R m₀ m) :
    Built R (fun _ => False) (fun _ pd' => pd'.ptes = pd.ptes ∧ pd.Under pd' ∧
      ∀ d ∈ ds, (pd'.tables d).isSome) m₀ (kmapLoop ds m pd) := by
  induction ds generalizing m pd with
  | nil => exact ⟨h, hk, rfl, .refl pd, nofun⟩
  | cons d ds ih =>
    unfold kmapLoop
    cases hw : walkpgdir m pd (npt * d) with
    | none => exact .give_up h hk
    | some r =>
      obtain ⟨m1, pd1⟩ := r
      obtain ⟨h₁, hext, hptes, hunder, htable⟩ := walkpgdir_spec h hw
      rw [Nat.mul_div_cancel_left d (by decide : 0 < npt)] at htable
      refine (ih h₁ (hk.trans (hext.keeps h.safe))).imp ?_
      rintro m' pd' ⟨hptes', hunder', hall⟩
      refine ⟨hptes'.trans hptes, hunder.trans hunder', fun d' hd' => ?_⟩
      rcases List.mem_cons.1 hd' with rfl | hd'
      · exact hunder' _ htable
      · exact hall d' hd'

theorem setupkvm_spec (h : Safe R m) :
    Built R (fun _ => False) (fun _ pd => (pd.ptes = fun _ => none) ∧
      ∀ d ∈ kmapDirs, (pd.tables d).isSome) m (setupkvm m) := by
  unfold setupkvm
  cases hk : m.kalloc with
  | none => exact ⟨h, .refl R m⟩
  | some r =>
    obtain ⟨f, m1⟩ := r
    obtain ⟨hg, hf, hu, hmem, -⟩ := Kmem.kalloc_spec hk h.good
    have hfu : m1.used f := (hu f).2 (Or.inr rfl)
    have halone : Exclusive (fun (b : Option Spot) k => b = none ∧ R k) m.used :=
      ⟨fun ha hb => ha.1.trans hb.1.symm, fun ha => h.rest _ ha.2⟩
    have hx : Exclusive (Pgdir.among ⟨f, fun _ => none, fun _ => none⟩ R) m1.used := by
      refine halone.take (a := some .dir) hf (fun b j hj => ?_) hfu fun j hj => (hu j).2 (Or.inl hj)
      match b with
      | none => exact Or.inl ⟨rfl, hj⟩
      | some .dir => exact Or.inr ⟨rfl, hj.symm⟩
      | some (.table d) => cases hj
      | some (.page v) =>
        obtain ⟨e, he, -⟩ := hj
        cases he
    exact (kmapLoop_spec kmapDirs ⟨hg.write hfu.1 _, hx, fun _ _ => rfl⟩
      ((Kmem.Extends.kalloc h.good hk _).keeps h)).imp fun _ _ hP => ⟨hP.1, hP.2.2⟩

end Setup

-- ======== growing

/-- Since `m₀` and `pd₀`, `i` pages have been added from page `a` on; `C`
says what they hold. -/
structure Grown (R : Nat → Prop) (C : Nat → Page → Prop) (w : Bool) (a i : Nat) (m₀ : Kmem)
    (pd₀ : Pgdir) (m : Kmem) (pd : Pgdir) : Prop where
  held : Held R m pd
  keep : m₀.Extends m
  under : pd₀.Under pd
  old : ∀ u, ¬ (a ≤ u ∧ u < a + i) → pd.ptes u = pd₀.ptes u
  new : ∀ j, j < i → ∃ e, pd.ptes (a + j) = some e ∧ e.w = w ∧ e.u = true ∧
    ¬ m₀.used e.frame ∧ C j (m.mem e.frame)

section Grow

variable {R : Nat → Prop} {C : Nat → Page → Prop} {w : Bool} {a i : Nat} {m₀ m m1 : Kmem}
  {pd₀ pd : Pgdir} {f : Nat}

theorem Grown.start (h : Held R m pd) : Grown R C w a 0 m pd m pd :=
  ⟨h, .refl m, .refl pd, fun _ _ => rfl, nofun⟩

/-- What is in use goes on. -/
theorem Grown.extend {R' : Nat → Prop} (h : Grown R C w a i m₀ pd₀ m pd) (hext : m.Extends m1)
    (h₁ : Held R' m1 pd) : Grown R' C w a i m₀ pd₀ m1 pd := by
  refine ⟨h₁, h.keep.trans hext, h.under, h.old, fun j hj => ?_⟩
  obtain ⟨e, he, hw, hu, hnew, hC⟩ := h.new j hj
  have hused : m.used e.frame := h.held.used (l := .page (a + j)) ⟨e, he, rfl⟩
  refine ⟨e, he, hw, hu, hnew, ?_⟩
  rw [(hext _ hused).2]
  exact hC

/-- A page has been allocated and filled. -/
theorem Grown.take (h : Grown R C w a i m₀ pd₀ m pd) (hk : m.kalloc = some (f, m1)) (page : Page) :
    Grown (fun k => R k ∨ k = f) C w a i m₀ pd₀ (m1.write f page) pd ∧ ¬ R f ∧ ¬ m₀.used f := by
  obtain ⟨-, hf, hu, -, -⟩ := Kmem.kalloc_spec hk h.held.good
  refine ⟨h.extend (.kalloc h.held.good hk page) ?_, fun hR => hf (h.held.safe.rest f hR),
    fun h0 => hf (h.keep f h0).1⟩
  exact (h.held.kalloc hk).write ((hu f).2 (Or.inr rfl)) page

/-- It has been mapped. -/
theorem Grown.map {m' : Kmem} {pd' : Pgdir}
    (h : Grown (fun k => R k ∨ k = f) C w a i m₀ pd₀ m pd) (hf : ¬ m₀.used f) (hC : C i (m.mem f))
    (h' : Held R m' pd') (hext : m.Extends m') (hunder : pd.Under pd')
    (hptes : pd'.ptes = update pd.ptes (a + i) (some ⟨f, w, true⟩)) :
    Grown R C w a (i + 1) m₀ pd₀ m' pd' := by
  refine ⟨h', h.keep.trans hext, h.under.trans hunder, fun u hu => ?_, fun j hj => ?_⟩
  · rw [hptes, update_of_ne (by omega)]
    exact h.old u (by omega)
  · by_cases hji : j = i
    · subst hji
      refine ⟨⟨f, w, true⟩, by rw [hptes, update_self], rfl, rfl, hf, ?_⟩
      rw [(hext f (h.held.safe.rest f (Or.inr rfl))).2]
      exact hC
    · obtain ⟨e, he, hw, hu, hnew, hCj⟩ := h.new j (by omega)
      have hused : m.used e.frame := h.held.used (l := .page (a + j)) ⟨e, he, rfl⟩
      refine ⟨e, by rw [hptes, update_of_ne (by omega)]; exact he, hw, hu, hnew, ?_⟩
      rw [(hext _ hused).2]
      exact hCj

/-- There was nothing where the pages go. -/
def Absent (pd : Pgdir) (a last : Nat) : Prop := ∀ u, a ≤ u → u < last → pd.ptes u = none

/-- Growing is undone. -/
theorem Grown.undo {oldsz newsz : Nat} (h : Grown R C w (npages oldsz) i m₀ pd₀ m pd)
    (hlt : oldsz < newsz) (hi : npages oldsz + i ≤ npages newsz) :
    ∃ m' pd', deallocuvm m pd newsz oldsz = .ok (oldsz, m', pd') ∧ Held R m' pd' ∧ Keeps R m m' ∧
      pd₀.Under pd' ∧
      (Absent pd₀ (npages oldsz) (npages newsz) → pd'.ptes = pd₀.ptes ∧ m₀.Extends m') := by
  obtain ⟨m', hr, h', hd⟩ := deallocuvm_spec h.held hlt
  refine ⟨m', _, hr, h', hd.keeps h.held, h.under, fun habs => ⟨?_, fun k hk => ?_⟩⟩
  · funext u
    show (if _ then none else pd.ptes u) = _
    split
    · next hu => exact (habs u hu.1 hu.2).symm
    · next hu => exact h.old u (by omega)
  · -- the pages that go have been added since
    have hnone : ∀ u, npages oldsz ≤ u → u < npages newsz → ¬ pd.holds (.page u) k := by
      rintro u hu hlast ⟨e, he, rfl⟩
      by_cases hui : u < npages oldsz + i
      · obtain ⟨e', he', -, -, hnew, -⟩ := h.new (u - npages oldsz) (by omega)
        rw [Nat.add_sub_cancel' hu, he] at he'
        cases he'
        exact hnew hk
      · rw [h.old u (by omega), habs u hu hlast] at he
        cases he
    exact ⟨(hd.used k).2 ⟨(h.keep k hk).1, hnone⟩, (hd.mem k hnone).trans (h.keep k hk).2⟩

/-- What growing by some pages from page `a` to page `last` comes to. -/
def GrowSpec (R : Nat → Prop) (F : VmPanic → Prop) (C : Nat → Page → Prop) (w : Bool)
    (a last : Nat) (m₀ : Kmem) (pd₀ : Pgdir) : Except VmPanic (Bool × Kmem × Pgdir) → Prop
  | .error e => F e ∨ (e = .remap ∧ ¬ Absent pd₀ a last)
  | .ok (true, m, pd) => Grown R C w a (last - a) m₀ pd₀ m pd
  | .ok (false, m, pd) => Held R m pd ∧ Keeps R m₀ m ∧ pd₀.Under pd ∧
      (Absent pd₀ a last → pd.ptes = pd₀.ptes ∧ m₀.Extends m)

section Round

variable {fill : Nat → Nat → Kmem → Pgdir → Except VmPanic Page} {oldsz newsz n x : Nat}
  {m2 m3 : Kmem} {pd' : Pgdir} {page : Page}

theorem growLoop_full (hk : m.kalloc = none) (hr : deallocuvm m pd newsz oldsz = .ok (x, m2, pd')) :
    growLoop w fill oldsz newsz (n + 1) i m pd = .ok (false, m2, pd') := by
  unfold growLoop
  rw [hk]
  exact bind_of_ok hr rfl

theorem growLoop_fault {e : VmPanic} (hk : m.kalloc = some (f, m1))
    (hr : fill i f m1 pd = .error e) : growLoop w fill oldsz newsz (n + 1) i m pd = .error e := by
  unfold growLoop
  rw [hk]
  exact bind_of_error hr

variable (hk : m.kalloc = some (f, m1)) (hp : fill i f m1 pd = .ok page)

include hk hp

theorem growLoop_unmapped
    (hm : mappages (m1.write f page) pd (npages oldsz + i) ⟨f, w, true⟩ = .ok none)
    (hr : deallocuvm (m1.write f page) pd newsz oldsz = .ok (x, m2, pd'))
    (hf : m2.kfree f = .ok m3) :
    growLoop w fill oldsz newsz (n + 1) i m pd = .ok (false, m3, pd') := by
  unfold growLoop
  rw [hk]
  exact bind_of_ok hp (bind_of_ok hm (bind_of_ok hr (bind_of_ok hf rfl)))

theorem growLoop_remap {e : VmPanic}
    (hm : mappages (m1.write f page) pd (npages oldsz + i) ⟨f, w, true⟩ = .error e) :
    growLoop w fill oldsz newsz (n + 1) i m pd = .error e := by
  unfold growLoop
  rw [hk]
  exact bind_of_ok hp (bind_of_error hm)

theorem growLoop_next
    (hm : mappages (m1.write f page) pd (npages oldsz + i) ⟨f, w, true⟩ = .ok (some (m2, pd'))) :
    growLoop w fill oldsz newsz (n + 1) i m pd = growLoop w fill oldsz newsz n (i + 1) m2 pd' := by
  conv_lhs => unfold growLoop
  rw [hk]
  exact bind_of_ok hp (bind_of_ok hm rfl)

end Round

theorem growLoop_spec {F : VmPanic → Prop} {fill : Nat → Nat → Kmem → Pgdir → Except VmPanic Page}
    {oldsz newsz : Nat}
    (hle : oldsz ≤ newsz) (hR : Safe R m₀) (hfault : ∀ i f m pd e, fill i f m pd = .error e → F e)
    (hfill : ∀ i f m m1 pd page, Grown R C w (npages oldsz) i m₀ pd₀ m pd →
      m.kalloc = some (f, m1) → fill i f m1 pd = .ok page → C i page)
    (n : Nat) {i : Nat} (hn : npages oldsz + i + n = npages newsz)
    (h : Grown R C w (npages oldsz) i m₀ pd₀ m pd) :
    GrowSpec R F C w (npages oldsz) (npages newsz) m₀ pd₀
      (growLoop w fill oldsz newsz n i m pd) := by
  induction n generalizing i m pd with
  | zero =>
    have : npages newsz - npages oldsz = i := by omega
    show Grown R C w (npages oldsz) (npages newsz - npages oldsz) m₀ pd₀ m pd
    rw [this]
    exact h
  | succ n ih =>
    have hsz : oldsz < newsz := by
      refine Nat.lt_of_le_of_ne hle fun he => ?_
      rw [he] at hn
      omega
    cases hk : m.kalloc with
    | none =>
      obtain ⟨m', pd', hr, h', hkeep, hunder, hundo⟩ := h.undo hsz (by omega)
      rw [growLoop_full hk hr]
      exact ⟨h', (h.keep.keeps hR).trans hkeep, hunder, hundo⟩
    | some r =>
      obtain ⟨f, m1⟩ := r
      cases hpage : fill i f m1 pd with
      | error e =>
        rw [growLoop_fault hk hpage]
        exact Or.inl (hfault _ _ _ _ _ hpage)
      | ok page =>
        obtain ⟨htake, hfR, hf0⟩ := h.take hk page
        rcases mappages_spec (v := npages oldsz + i) (e := ⟨f, w, true⟩) htake.held hfR with
          hr | ⟨hr, hsome⟩ | ⟨m2, pd2, hr, h₂, hext, hunder, hptes⟩
        · -- no page for the page table
          obtain ⟨m2, pd2, hr2, h₂, hkeep2, hunder, hundo⟩ := htake.undo hsz (by omega)
          obtain ⟨m3, hr3, h3, hmem3⟩ := h₂.kfree_rest hfR
          rw [growLoop_unmapped hk hpage hr hr2 hr3]
          have hne : ∀ k, R k → k ≠ f := fun k hk he => hfR (he ▸ hk)
          refine ⟨h3, ((htake.keep.keeps hR).trans (hkeep2.mono fun _ => Or.inl)).trans
            fun k hk => (hmem3 k (hne k hk)).2, hunder, fun habs => ?_⟩
          obtain ⟨hptes, hext⟩ := hundo habs
          refine ⟨hptes, fun k hused => ?_⟩
          have hkf : k ≠ f := fun he => hf0 (he ▸ hused)
          obtain ⟨hu, hm⟩ := hext k hused
          exact ⟨(hmem3 k hkf).1 hu, (hmem3 k hkf).2.trans hm⟩
        · rw [growLoop_remap hk hpage hr]
          refine Or.inr ⟨rfl, fun habs => ?_⟩
          rw [h.old _ (by omega), habs _ (by omega) (by omega)] at hsome
          cases hsome
        · rw [growLoop_next hk hpage hr]
          refine ih (by omega) (htake.map hf0 ?_ h₂ hext hunder hptes)
          rw [Kmem.write_mem]
          exact hfill i f m m1 pd page h hk hpage

/-- What `allocuvm` and `allocxuvm` come to. -/
inductive Resized (R : Nat → Prop) (F : VmPanic → Prop) (C : Nat → Page → Prop) (w : Bool)
    (oldsz newsz : Nat) (m₀ : Kmem) (pd₀ : Pgdir) : Except VmPanic (Nat × Kmem × Pgdir) → Prop
  | fault {e : VmPanic} (hlt : newsz < kernbase) (he : F e) :
      Resized R F C w oldsz newsz m₀ pd₀ (.error e)
  | remap (hpd : ¬ Absent pd₀ (npages oldsz) (npages newsz)) :
      Resized R F C w oldsz newsz m₀ pd₀ (.error .remap)
  | refused (hbig : kernbase ≤ newsz) : Resized R F C w oldsz newsz m₀ pd₀ (.ok (0, m₀, pd₀))
  | same (hlt : newsz < oldsz) : Resized R F C w oldsz newsz m₀ pd₀ (.ok (oldsz, m₀, pd₀))
  | full {m : Kmem} {pd : Pgdir} (hlt : newsz < kernbase) (hle : oldsz ≤ newsz) (h : Held R m pd)
      (hkeep : Keeps R m₀ m) (hunder : pd₀.Under pd) (hundo : Absent pd₀ (npages oldsz) (npages newsz) →
        pd.ptes = pd₀.ptes ∧ m₀.Extends m) : Resized R F C w oldsz newsz m₀ pd₀ (.ok (0, m, pd))
  | grown {m : Kmem} {pd : Pgdir} (hlt : newsz < kernbase) (hle : oldsz ≤ newsz)
      (h : Grown R C w (npages oldsz) (npages newsz - npages oldsz) m₀ pd₀ m pd) :
      Resized R F C w oldsz newsz m₀ pd₀ (.ok (newsz, m, pd))

theorem npages_mono {a b : Nat} (h : a ≤ b) : npages a ≤ npages b :=
  Nat.div_le_div_right (Nat.add_le_add_right h _)

theorem grow_spec {F : VmPanic → Prop} {fill : Nat → Nat → Kmem → Pgdir → Except VmPanic Page}
    (oldsz newsz : Nat)
    (h : Held R m pd) (hfault : ∀ i f m pd e, fill i f m pd = .error e → F e)
    (hfill : ∀ i f m' m1 pd' page, Grown R C w (npages oldsz) i m pd m' pd' →
      m'.kalloc = some (f, m1) → fill i f m1 pd' = .ok page → C i page) :
    Resized R F C w oldsz newsz m pd (grow w fill m pd oldsz newsz) := by
  unfold grow
  by_cases hbig : kernbase ≤ newsz
  · rw [if_pos hbig]
    exact .refused hbig
  rw [if_neg hbig]
  by_cases hlt : newsz < oldsz
  · rw [if_pos hlt]
    exact .same hlt
  rw [if_neg hlt]
  have hbig' := Nat.not_le.1 hbig
  have hle := Nat.not_lt.1 hlt
  have hn : npages oldsz + 0 + (npages newsz - npages oldsz) = npages newsz := by
    have := npages_mono hle
    omega
  have hloop := growLoop_spec hle h.safe hfault hfill _ hn (.start h)
  generalize growLoop w fill oldsz newsz (npages newsz - npages oldsz) 0 m pd = r at hloop
  match r, hloop with
  | .error e, Or.inl he => exact .fault hbig' he
  | .error e, Or.inr ⟨he, habs⟩ =>
    subst he
    exact .remap habs
  | .ok (true, m', pd'), hg => exact .grown hbig' hle hg
  | .ok (false, m', pd'), hg => exact .full hbig' hle hg.1 hg.2.1 hg.2.2.1 hg.2.2.2

end Grow

end Xv6Sume32.Vm
