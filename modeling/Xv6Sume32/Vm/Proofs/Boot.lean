/-
From `main` on: the pages before and after the first process.

# Boot

`kinit1` frees the pages below 4 MB only, and the kernel takes its own
from them. The pages behind are not free yet; they are part of the rest of
the system until `kinit2` frees them, so none of them is the kernel's.

# Runs

`vmStep_good` is one step, for any set of `Rules`. What is true of the
machine after `main` and kept by a step is true in every state that is
reached. For pages alone there is nothing to know of an address space.
-/
import Xv6Sume32.Vm.Proofs.Isolation

namespace Xv6Sume32.Vm

open Lib
open Proc (Slot initproc nproc)

-- ======== boot

section Boot

variable {R : Nat → Prop} {m m' : Kmem} {pd : Pgdir} {f n : Nat}

/-- `kfree` that does not panic. -/
theorem kfree_ok (hg : m.Good) (h : m.kfree f = .ok m') :
    m'.Good ∧ ∀ k, m'.used k ↔ m.used k ∧ k ≠ f := by
  have hused : m.used f := by
    unfold Kmem.kfree at h
    split at h
    · cases h
    · next hrange =>
      split at h
      · cases h
      · next hf => exact ⟨hf, by omega⟩
  obtain ⟨m1, hr, hg1, hu1, -⟩ := Kmem.kfree_spec hg hused
  cases hr.symm.trans h
  exact ⟨hg1, hu1⟩

theorem freerange_ok (hg : m.Good) (h : m.freerange f n = .ok m') :
    m'.Good ∧ ∀ k, m'.used k ↔ m.used k ∧ ¬ (f ≤ k ∧ k < f + n) := by
  unfold Kmem.freerange at h
  induction n generalizing f m with
  | zero =>
    cases h
    refine ⟨hg, fun k => ⟨fun hk => ⟨hk, by omega⟩, fun hk => hk.1⟩⟩
  | succ n ih =>
    rw [List.range'_succ, List.foldlM_cons] at h
    obtain ⟨m1, hr, h⟩ := bind_eq_ok.1 h
    obtain ⟨hg1, hu1⟩ := kfree_ok hg hr
    obtain ⟨hg', hu'⟩ := ih hg1 h
    refine ⟨hg', fun k => ?_⟩
    rw [hu' k, hu1 k, and_assoc]
    refine and_congr_right fun _ => ?_
    omega

theorem startothers_spec (h : Held R m pd) {ks : List Nat} (hs : startothers n m = .ok (ks, m')) :
    Held (fun k => R k ∨ k ∈ ks) m' pd ∧ ks.Nodup ∧ ∀ k ∈ ks, ¬ R k := by
  induction n generalizing R m ks with
  | zero =>
    cases hs
    exact ⟨h.weaken fun k hk => hk.resolve_right List.not_mem_nil, List.nodup_nil, nofun⟩
  | succ n ih =>
    unfold startothers at hs
    cases hk : m.kalloc with
    | none =>
      rw [hk] at hs
      cases hs
    | some r =>
      obtain ⟨k, m1⟩ := r
      rw [hk] at hs
      obtain ⟨⟨ks', m2⟩, hr, hs⟩ := bind_eq_ok.1 hs
      cases hs
      obtain ⟨h', hnd, hout⟩ := ih (h.kalloc hk) hr
      obtain ⟨-, hf, -⟩ := Kmem.kalloc_spec hk h.good
      refine ⟨h'.weaken fun j hj => ?_, List.nodup_cons.2 ⟨fun hmem => ?_, hnd⟩, fun j hj => ?_⟩
      · rcases hj with hj | hj
        · exact Or.inl (Or.inl hj)
        · rcases List.mem_cons.1 hj with rfl | hj
          · exact Or.inl (Or.inr rfl)
          · exact Or.inr hj
      · exact hout k hmem (Or.inr rfl)
      · rcases List.mem_cons.1 hj with rfl | hj
        · exact fun hR => hf (h.safe.rest _ hR)
        · exact fun hR => hout j hj (Or.inl hR)

/-- The machine without a process. -/
def idle (kern : Kern) (m : Kmem) : Machine :=
  ⟨kern, m, fun _ => none, fun _ => ⟨0, none⟩, fun _ => none⟩

theorem idle_has {kern : Kern} {b : Holder} {k : Nat} (h : (idle kern m).has b k) :
    ∃ i, b = .kernel i ∧ kern.holds i k := by
  cases b with
  | stack p =>
    obtain ⟨t, ht, -⟩ := h
    cases ht
  | spot p l =>
    obtain ⟨t, ht, -⟩ := h
    cases ht
  | pipe k' => cases h.2
  | kernel i => exact ⟨i, rfl, h⟩

theorem idle_good {S : Space → Prop} {kern : Kern} (h : Held (· ∈ kern.cpus) m kern.kpgdir)
    (hnd : kern.cpus.Nodup) : (idle kern m).Good S := by
  have hmem : ∀ {i k}, kern.cpus[i]? = some k → k ∈ kern.cpus := fun hi => List.mem_of_getElem? hi
  refine ⟨h.good, ⟨fun {b c k} hb hc => ?_, fun {b k} hb => ?_⟩, nofun, nofun, ⟨nofun, nofun⟩⟩
  · obtain ⟨i, rfl, hi⟩ := idle_has hb
    obtain ⟨j, rfl, hj⟩ := idle_has hc
    match i, j, hi, hj with
    | .inl l, .inl l', hi, hj =>
      have := h.apart.one (a := some l) (b := some l') hi hj
      cases this
      rfl
    | .inl l, .inr j, hi, hj => exact absurd (hmem hj) (h.not_rest hi)
    | .inr i, .inl l, hi, hj => exact absurd (hmem hi) (h.not_rest hj)
    | .inr i, .inr j, hi, hj =>
      have hi' : kern.cpus[i]? = some k := hi
      have hlt : i < kern.cpus.length := lt_length hi'
      rw [(List.getElem?_inj hlt hnd).1 (hi'.trans hj.symm)]
  · obtain ⟨i, rfl, hi⟩ := idle_has hb
    match i, hi with
    | .inl l, hi => exact h.used hi
    | .inr i, hi => exact h.safe.rest k (hmem hi)

theorem userinit_good {S : Space → Prop} {kern : Kern} {init : List Byte} {s : Machine}
    (himage : ∀ a : Space, Shaped a → Writable a.pgdir → S a) (h : (idle kern m).Good S)
    (hs : userinit kern m init = .ok s) : s.Good S := by
  unfold userinit at hs
  split at hs
  · cases hs
  next k m1 hk =>
  obtain ⟨hg, hf, hu, -, -⟩ := Kmem.kalloc_spec hk h.kmem
  have hsafe : Safe (fun j => (∃ b, (idle kern m).has b j) ∨ j = k) m1 :=
    ⟨hg, fun j hj => (hu j).2 (hj.imp (fun ⟨_, hb⟩ => h.apart.used hb) id)⟩
  obtain ⟨⟨m2, r⟩, hset, hs⟩ := bind_eq_ok.1 hs
  have hspec := setupkvm_spec hsafe
  rw [hset] at hspec
  cases r with
  | none => cases hs
  | some pd =>
    obtain ⟨hd, -, hptes, -⟩ := hspec
    dsimp only at hs
    split at hs
    · cases hs
    next f m3 hk3 =>
    obtain ⟨-, hf3, hu3, -, -⟩ := Kmem.kalloc_spec hk3 hd.good
    have hheld := (hd.kalloc hk3).write ((hu3 f).2 (Or.inr rfl)) (overwrite (fun _ => 0) 0 init)
    have hmap := mappages_spec (v := 0) (e := ⟨f, true, true⟩) hheld
      fun hR => hf3 (hd.safe.rest f hR)
    obtain ⟨r, hr, hs⟩ := bind_eq_ok.1 hs
    rcases hmap with hnone | ⟨herr, -⟩ | ⟨m4, pd', hok, hd', -, -, hptes'⟩
    · cases hr.symm.trans hnone
      cases hs
    · cases hr.symm.trans herr
    · cases hr.symm.trans hok
      cases hs
      have hpte : ∀ u, pd'.ptes u = if u = 0 then some ⟨f, true, true⟩ else none := by
        intro u
        rw [hptes', hptes]
        exact Function.update_apply ..
      have hlt : pgsize < kernbase := by decide
      have hone : npages pgsize = 1 := by decide
      refine h.put (p := initproc) (t := ⟨k, ⟨pd', pgsize⟩, none, false, fun _ => none⟩)
        (fun b _ hb => hf (h.apart.used hb)) (hd'.weaken ?_) (himage _ ⟨fun u => ?_, hlt⟩ ?_)
      · rintro j (⟨b, -, hb⟩ | hj)
        · exact Or.inl ⟨b, hb⟩
        · exact Or.inr hj
      · show (pd'.ptes u).isSome ↔ u < npages pgsize
        rw [hpte, hone]
        split
        · next hu => exact iff_of_true rfl (by omega)
        · next hu => exact iff_of_false nofun (by omega)
      · intro u e he
        change pd'.ptes u = some e at he
        rw [hpte] at he
        split at he
        · cases he
          rfl
        · cases he

end Boot

/-- The machine after `main`, for any number of processors and any
memory. -/
def Booted (s : Machine) : Prop :=
  ∃ ncpu first low high mem init, boot ncpu first low high mem init = .ok s

section Runs

variable {S : Space → Prop} {E : VmPanic → Prop} {guard : Space → Machine.Call → Prop}
  {s t : Machine} {e : Event}

theorem Booted.good (himage : ∀ a : Space, Shaped a → Writable a.pgdir → S a) (h : Booted s) :
    s.Good S := by
  obtain ⟨ncpu, first, low, high, mem, init, hs⟩ := h
  unfold boot at hs
  obtain ⟨m1, hr1, hs⟩ := bind_eq_ok.1 hs
  have hg0 : Kmem.Good ⟨first, first + low + high, [], mem, first + low + high⟩ :=
    ⟨List.nodup_nil, nofun, trivial⟩
  obtain ⟨hg1, hu1⟩ := freerange_ok hg0 hr1
  -- the pages that `kinit2` will free
  have hsafe : Safe (fun k => first + low ≤ k ∧ k < first + low + high) m1 := by
    refine ⟨hg1, fun k hk => (hu1 k).2 ⟨⟨List.not_mem_nil, ?_, hk.2⟩, ?_⟩⟩
    · show first ≤ k
      omega
    · omega
  obtain ⟨⟨m2, r⟩, hset, hs⟩ := bind_eq_ok.1 hs
  have hspec := setupkvm_spec hsafe
  rw [hset] at hspec
  cases r with
  | none => cases hs
  | some kpgdir =>
    obtain ⟨hd, -⟩ := hspec
    obtain ⟨⟨cpus, m3⟩, hr3, hs⟩ := bind_eq_ok.1 hs
    obtain ⟨hd3, hnd, hout⟩ := startothers_spec hd hr3
    obtain ⟨m4, hr4, hs⟩ := bind_eq_ok.1 hs
    obtain ⟨hg4, hu4⟩ := freerange_ok hd3.good hr4
    refine userinit_good himage (idle_good ⟨hg4, hd3.apart.mono (fun b k hb => ?_)
      fun b k hb hused => (hu4 k).2 ⟨hused, ?_⟩, hd3.mapped⟩ hnd) hs
    · match b, hb with
      | some l, hl => exact hl
      | none, hmem => exact Or.inr hmem
    · match b, hb with
      | some l, hl => exact fun hR => hd3.not_rest hl (Or.inl hR)
      | none, hmem => exact hout k hmem

theorem vmStep_good (D : Rules S E guard) (h : s.Good S)
    (hc : ∀ a, s.proc e.proc = some a → guard a.space e.call) (hs : vmStep e s = some t) :
    t.Good S := by
  unfold vmStep at hs
  cases hx : s.run e with
  | none =>
    rw [hx] at hs
    cases hs
  | some x =>
    have hspec := Machine.run_spec D h hc hx
    rw [hx] at hs
    match x, hs, hspec with
    | .ok (_, t), rfl, hspec => exact hspec

end Runs

-- ======== isolation

/-- What a page can be: on the free list, by its place there, or somebody's. -/
inductive Role
  | free (i : Nat)
  | held (b : Holder)

def Machine.role (s : Machine) : Role → Nat → Prop
  | .free i, k => s.kmem.free[i]? = some k
  | .held b, k => s.has b k

theorem Machine.Good.one_role {S : Space → Prop} {s : Machine} (h : s.Good S) {r r' : Role}
    {k : Nat}
    (hr : s.role r k) (hr' : s.role r' k) : r = r' := by
  have hout : ∀ {i b}, s.kmem.free[i]? = some k → ¬ s.has b k := fun hi hb =>
    (h.apart.used hb).1 (List.mem_of_getElem? hi)
  match r, r', hr, hr' with
  | .free i, .free j, hi, hj =>
    have hi' : s.kmem.free[i]? = some k := hi
    have hlt : i < s.kmem.free.length := lt_length hi'
    rw [(List.getElem?_inj hlt h.kmem.nodup).1 (hi'.trans hj.symm)]
  | .free i, .held b, hi, hb => exact absurd hb (hout hi)
  | .held b, .free i, hb, hi => exact absurd hb (hout hi)
  | .held b, .held c, hb, hc => rw [h.apart.one hb hc]

/-- Pages alone. -/
theorem pageRules : Rules (fun _ => True) (fun e => e ≠ .kfree ∧ e ≠ .doubleFree)
    (fun _ _ => True) where
  image := fun _ _ => trivial
  growproc := fun hd _ _ => (growproc_stays hd _).imp
    (by rintro _ rfl; exact ⟨nofun, nofun⟩) fun _ hr => ⟨hr, trivial⟩
  makex := fun hd _ _ => (makex_stays hd _ _).imp
    (by rintro _ (rfl | rfl) <;> exact ⟨nofun, nofun⟩) fun _ hr => ⟨hr, trivial⟩
  exec := fun _ _ => ⟨nofun, nofun⟩
  copy := fun _ _ => trivial
  missing := by
    rintro src sz e - ⟨rfl | rfl, -⟩ <;> exact ⟨nofun, nofun⟩
  fault := fun _ _ _ => ⟨nofun, nofun⟩
  files := ⟨⟨nofun, nofun⟩, ⟨nofun, nofun⟩, ⟨nofun, nofun⟩⟩

/-- In every state that is reached a page has at most one role, so that a
page that a process maps is nobody else's, and no call frees a page that
is free or not the allocator's. -/
theorem pages_are_isolated {s : Machine} (h : Reach vmStep Booted s) :
    (∀ r r' k, s.role r k → s.role r' k → r = r') ∧
      (∀ p t v e r, s.proc p = some t → t.space.pgdir.ptes v = some e → s.role r e.frame →
        r = .held (.spot p (.page v))) ∧
      (∀ b k, s.has b k → s.kmem.first ≤ k ∧ k < s.kmem.top) ∧
      ∀ e x, s.run e = some (.error x) → x ≠ .kfree ∧ x ≠ .doubleFree := by
  have hgood : s.Good (fun _ => True) :=
    h.invariant (fun _ h0 => h0.good fun _ _ _ => trivial)
      fun _ _ _ hs hstep => vmStep_good pageRules hs (fun _ _ => trivial) hstep
  refine ⟨fun r r' k => hgood.one_role, fun p t v e r ht he hr => ?_,
    fun b k hb => (hgood.apart.used hb).2,
    fun e x hx => Machine.run_spec pageRules hgood (fun _ _ => trivial) hx⟩
  exact hgood.one_role hr (show s.role (.held (.spot p (.page v))) e.frame from ⟨t, ht, e, he, rfl⟩)

/-- Two processors and 210 pages, 80 of them below 4 MB. -/
def smallBoot : Except VmPanic Machine := boot 2 16 80 130 (fun _ _ => 0) []

theorem smallBoot_booted (s : Machine) (h : smallBoot = .ok s) : Booted s :=
  ⟨2, 16, 80, 130, fun _ _ => 0, [], h⟩

/-- A child and its parent after `fork`, and `sbrk` in the child. -/
theorem pages_are_isolated_fork : ∃ s, Reach vmStep Booted s ∧
    (s.proc 0).map (fun t => (t.space.pgdir.ptes 0).map (·.frame)) = some (some 159) ∧
    (s.proc 1).map (fun t => (t.space.pgdir.ptes 1).map (·.frame)) = some (some 23) ∧
    ∀ r r' k, s.role r k → s.role r' k → r = r' := by
  obtain ⟨s, hs, hobs⟩ := Reach.eval_from smallBoot_booted vmStep
    [⟨0, 1000, .fork⟩, ⟨1, 1000, .growproc 4096⟩]
    (fun s => ((s.proc 0).map fun t => (t.space.pgdir.ptes 0).map (·.frame),
      (s.proc 1).map fun t => (t.space.pgdir.ptes 1).map (·.frame)))
    (some (some 159), some (some 23)) (by decide +kernel)
  exact ⟨s, hs, congrArg Prod.fst hobs, congrArg Prod.snd hobs, (pages_are_isolated hs).1⟩

end Xv6Sume32.Vm
