/-
Where `sbrkx` puts the code.

The address it returns is the size of the process before the call. The
pages are added behind the last page of the process, from the next
multiple of `PGSIZE` on, so the two agree only when the size is such a
multiple. `sbrkx_places_iff` says for which sizes and lengths the address
is right: otherwise it points into the old last page, where the code is
not, or to a page that is not there.

A length that rounds up to 2^31 counts as negative. No page is added for
it and the call succeeds; a process with so much memory has a size that is
no multiple of `PGSIZE`.
-/
import Xv6Sume32.Vm.Proofs.Sbrkx

namespace Xv6Sume32.Vm

open Lib
open Proc (Slot initproc nproc)

/-- The `n` addresses from `start` on are the user's, who cannot write to
them, and hold `bytes`. -/
structure Placed (m : Kmem) (pd : Pgdir) (start n : Nat) (bytes : Nat → Option Byte) : Prop where
  page : ∀ j, j < n →
    ∃ e, pd.ptes ((start + j) / pgsize) = some e ∧ e.u = true ∧ e.w = false
  byte : ∀ j, j < n → m.load pd (start + j) = bytes j

/-- A process of size `sz` that calls `sbrkx` finds the bytes at the address
it gets. -/
def Places (sz : Nat) (val n : Word) : Prop :=
  ∀ s p t limit addr m a, Runs s p t → t.space.sz = sz →
    sysSbrkx (s.kmemFor limit) t.space val n = .ok (addr, m, a) → addr ≠ -1 →
    Placed m a.pgdir addr.toNat n.toNat fun j => s.kmem.load t.space.pgdir (val.toNat + j)

section Call

variable {R : Nat → Prop} {m m' : Kmem} {a a' : Space} {val n : Word} {v addr : Int}

theorem makex_value (h : makex m a val n = .ok (v, m', a')) : v = 0 ∨ v = -1 := by
  by_cases hk : 0 < pgroundup n.toNat ∧ pgroundup n.toNat < 2 ^ 31
  · rw [makex_grow hk] at h
    obtain ⟨⟨sz, m1, pd⟩, -, h⟩ := bind_eq_ok.1 h
    dsimp only at h
    split at h
    · cases h
      exact Or.inr rfl
    · cases h
      exact Or.inl rfl
  · rw [makex_zero hk] at h
    cases h
    exact Or.inl rfl

/-- A call that does not fail returns the old size. -/
theorem sysSbrkx_ok (h : sysSbrkx m a val n = .ok (addr, m', a')) (hne : addr ≠ -1) :
    addr = a.sz ∧ makex m a val n = .ok (0, m', a') := by
  obtain ⟨⟨v, m1, a1⟩, hm, h⟩ := bind_eq_ok.1 h
  rcases makex_value hm with rfl | rfl
  · cases h
    exact ⟨rfl, hm⟩
  · cases h
    exact absurd rfl hne

theorem sysSbrkx_of_makex (h : makex m a val n = .ok (0, m', a')) :
    sysSbrkx m a val n = .ok ((a.sz : Int), m', a') :=
  bind_of_ok h rfl

/-- The bytes in the new pages, of a range below the size. -/
theorem allocxuvm_moved (hd : Held R m a.pgdir) (hs : Shaped a) {val n : Nat}
    (hin : val + n ≤ a.sz) (newsz : Nat) : Resized R (fun e => e = .fault)
      (fun i page => ∀ o, o < pgsize → pgsize * i + o < n →
        some (page o) = m.load a.pgdir (val + (pgsize * i + o)))
      false a.sz newsz m a.pgdir (allocxuvm m a.pgdir a.sz newsz val n) :=
  grow_spec a.sz newsz hd (fun _ _ _ _ _ => movein_fault)
    fun _ _ _ _ _ _ hg hk hp _ ho hlo => moved_of_movein hd hs hin hg hk hp ho hlo

/-- A size that is a multiple of `PGSIZE`: the new pages start there. -/
theorem placed_of_aligned (hd : Held R m a.pgdir) (hs : Shaped a) (hn : 0 < n.toInt)
    (hin : val.toNat + n.toNat ≤ a.sz) (hal : a.sz % pgsize = 0)
    (h : makex m a val n = .ok (0, m', a')) :
    Placed m' a'.pgdir a.sz n.toNat fun j => m.load a.pgdir (val.toNat + j) := by
  have hps : pgsize = 4096 := rfl
  have hb : kernbase = 0x80000000 := rfl
  have hlt := hs.lt
  have hround := pgroundup_of_pos hn
  have hk : 0 < pgroundup n.toNat ∧ pgroundup n.toNat < 2 ^ 31 := by
    refine ⟨adds_of_pos hn, ?_⟩
    rw [hround]
    unfold npages
    rw [hps] at hal ⊢
    omega
  obtain ⟨hless, -, hg⟩ := makex_grown hs hn hk (allocxuvm_moved hd hs hin _) h
  -- byte `j` is in new page `j / pgsize`
  have hnew : ∀ j, j < n.toNat → ∃ e, a'.pgdir.ptes ((a.sz + j) / pgsize) = some e
      ∧ e.w = false ∧ e.u = true
      ∧ some (m'.mem e.frame (j % pgsize)) = m.load a.pgdir (val.toNat + j) := by
    intro j hj
    have hplace : pgsize * (j / pgsize) + j % pgsize = j := Nat.div_add_mod ..
    obtain ⟨e, he, hw, hu, -, hbytes⟩ := hg.new (j / pgsize) (by
      unfold npages
      rw [hps]
      omega)
    have hbyte := hbytes (j % pgsize) (Nat.mod_lt _ (by decide)) (by omega)
    rw [hplace] at hbyte
    refine ⟨e, ?_, hw, hu, hbyte⟩
    rw [← he]
    congr 1
    unfold npages
    rw [hps] at hal ⊢
    omega
  refine ⟨fun j hj => ?_, fun j hj => ?_⟩
  · obtain ⟨e, he, hw, hu, -⟩ := hnew j hj
    exact ⟨e, he, hu, hw⟩
  · obtain ⟨e, he, -, -, hbyte⟩ := hnew j hj
    have hva : a.sz + j < kernbase := by
      have hle : n.toNat ≤ pgroundup n.toNat := by
        rw [hround]
        unfold npages
        rw [hps]
        omega
      omega
    have hmod : (a.sz + j) % pgsize = j % pgsize := by
      rw [hps] at hal ⊢
      omega
    rw [load_below hva, he, ← hbyte, hmod]
    rfl

end Call

section Places

variable {sz : Nat} {val n : Word}

theorem toNat_eq_zero_of (hn : 0 ≤ n.toInt) (hpos : ¬ 0 < n.toInt) : n.toNat = 0 := by
  have h := BitVec.toInt_eq_toNat_cond n
  have hlt := n.isLt
  split at h <;> omega

/-- The old pages keep their entries. -/
theorem makex_old {R : Nat → Prop} {m m' : Kmem} {a a' : Space} (hd : Held R m a.pgdir)
    (hs : Shaped a) (h : makex m a val n = .ok (0, m', a')) {u : Nat} (hu : u < npages a.sz) :
    a'.pgdir.ptes u = a.pgdir.ptes u := by
  by_cases hn : 0 < n.toInt
  swap
  · rw [makex_zero (not_adds_of_nonpos (by omega))] at h
    cases h
    rfl
  by_cases hk : 0 < pgroundup n.toNat ∧ pgroundup n.toNat < 2 ^ 31
  · obtain ⟨-, -, hg⟩ := makex_grown hs hn hk (allocxuvm_spec hd _ _ _) h
    exact hg.old u (by omega)
  · rw [makex_zero hk] at h
    cases h
    rfl

/-- In a machine with pages enough a call with an unaligned size returns an
address in a page that the process can write to. -/
theorem not_places (hsz : sz < kernbase) (hn : 0 < n.toInt) (hin : val.toNat + n.toNat ≤ sz)
    (hal : sz % pgsize ≠ 0)
    (hfit : pgroundup n.toNat < 2 ^ 31 → sz + pgroundup n.toNat < kernbase) :
    ¬ Places sz val n := by
  intro hp
  have hps : pgsize = 4096 := rfl
  have hpos := (toInt_of_pos hn).1
  obtain ⟨c, m, a, hruns, hm⟩ : ∃ c m a, Runs (bare sz c []) initproc (bareTask sz) ∧
      makex ((bare sz c []).kmemFor c) (bareTask sz).space val n = .ok (0, m, a) := by
    by_cases hk : pgroundup n.toNat < 2 ^ 31
    · obtain ⟨hruns, hcases⟩ := bare_makex val [] hsz hn hk (hfit hk) (by simp) List.nodup_nil
      rcases hcases with ⟨e, -, hout⟩ | ⟨m, a, e, hr, -⟩
      · exact absurd hin hout
      · exact ⟨_, m, a, hruns, hr⟩
    · exact ⟨0, _, _, ⟨bare_good hsz (Nat.zero_le _) (by simp) List.nodup_nil, bare_init, rfl⟩,
        makex_zero fun h => hk h.2⟩
  have hplaced := hp _ _ _ _ _ _ _ hruns rfl (sysSbrkx_of_makex hm) (by
    show ((sz : Nat) : Int) ≠ -1
    omega)
  obtain ⟨e, he, -, hw⟩ := hplaced.page 0 (by omega)
  obtain ⟨R, hd, hs⟩ := hruns.held c
  have hlast : sz / pgsize < npages sz := by
    unfold npages
    rw [hps] at hal ⊢
    omega
  change a.pgdir.ptes ((sz + 0) / pgsize) = some e at he
  rw [Nat.add_zero, makex_old hd hs hm hlast] at he
  change (if sz / pgsize < npages sz then some ⟨npt * 4 + sz / pgsize, true, true⟩ else none)
    = some e at he
  rw [if_pos hlast] at he
  cases he
  cases hw

/-- Of a range that the process has, `sbrkx` puts the bytes where it says
for every machine exactly when there are none, the size is a multiple of
`PGSIZE`, or the call fails because the new size is too large. -/
theorem sbrkx_places_iff (hsz : sz < kernbase) (hn : 0 ≤ n.toInt)
    (hin : ∀ j, j < n.toNat → val.toNat + j < sz) :
    Places sz val n ↔ n.toNat = 0 ∨ sz % pgsize = 0 ∨
      (pgroundup n.toNat < 2 ^ 31 ∧ kernbase ≤ sz + pgroundup n.toNat) := by
  by_cases hpos : 0 < n.toInt
  swap
  · have hzero := toNat_eq_zero_of hn hpos
    refine iff_of_true (fun s p t limit addr m a _ _ _ _ => ?_) (Or.inl hzero)
    exact ⟨fun j hj => by omega, fun j hj => by omega⟩
  have hne : n.toNat ≠ 0 := by
    have := (toInt_of_pos hpos).1
    omega
  have hle : val.toNat + n.toNat ≤ sz := by
    have := hin (n.toNat - 1) (by omega)
    omega
  constructor
  · intro hp
    by_contra hno
    push Not at hno
    exact not_places hsz hpos hle hno.2.1 hno.2.2 hp
  · rintro (hzero | hal | ⟨hk, hbig⟩)
    · exact absurd hzero hne
    · intro s p t limit addr m a hruns ht h hA
      obtain ⟨R, hd, hs⟩ := hruns.held limit
      obtain ⟨rfl, hm⟩ := sysSbrkx_ok h hA
      rw [← ht] at hal hle
      have hplaced := placed_of_aligned hd hs hpos hle hal hm
      exact hplaced
    · -- the new size is refused
      intro s p t limit addr m a hruns ht h hA
      obtain ⟨R, hd, hs⟩ := hruns.held limit
      obtain ⟨-, hm⟩ := sysSbrkx_ok h hA
      have hless := (makex_grown hs hpos ⟨adds_of_pos hpos, hk⟩ (allocxuvm_spec hd _ _ _) hm).1
      rw [ht] at hless
      omega

/-- A process of one page copies its first eight bytes. -/
theorem sbrkx_places_iff_page : Places 4096 0 8 :=
  (sbrkx_places_iff (by decide) (by decide) (by decide)).2 (Or.inr (Or.inl rfl))

/-- The first process grows by one byte and makes code of its first four.
It is told 4097, where there is a zero; the code is at 8192. -/
theorem sbrkx_returns_old_page : ∃ s t m a, Reach vmStep Booted s ∧ s.proc 0 = some t ∧
    t.zombie = false ∧ t.space.sz = 4097 ∧
    sysSbrkx (s.kmemFor 1000) t.space 0 4 = .ok (4097, m, a) ∧
    s.kmem.load t.space.pgdir 0 = some 0x42 ∧ m.load a.pgdir 4097 = some 0 ∧
    m.load a.pgdir 8192 = some 0x42 := by
  have hboot : ∀ s, boot 1 16 80 130 (fun _ _ => 0) [0x42] = .ok s → Booted s :=
    fun s h => ⟨1, 16, 80, 130, _, [0x42], h⟩
  obtain ⟨s, hs, hobs⟩ := Reach.eval_from hboot vmStep [⟨0, 1000, .growproc 1⟩]
    (fun s => (s.proc 0).map fun (t : Task) =>
      (sysSbrkx (s.kmemFor 1000) t.space 0 4).toOption.map fun (r : Int × Kmem × Space) =>
        decide (t.zombie = false ∧ t.space.sz = 4097 ∧ r.1 = 4097 ∧
          s.kmem.load t.space.pgdir 0 = some 0x42 ∧ r.2.1.load r.2.2.pgdir 4097 = some 0 ∧
          r.2.1.load r.2.2.pgdir 8192 = some 0x42))
    (some (some true)) (by decide +kernel)
  obtain ⟨t, ht, hcall⟩ := Option.map_eq_some_iff.1 hobs
  obtain ⟨⟨v, m, a⟩, hr, hval⟩ := Option.map_eq_some_iff.1 hcall
  obtain ⟨halive, hsz, rfl, hbyte, hold, hnew⟩ := of_decide_eq_true hval
  refine ⟨s, t, m, a, hs, ht, halive, hsz, ?_, hbyte, hold, hnew⟩
  cases hx : sysSbrkx (s.kmemFor 1000) t.space 0 4 with
  | error e =>
      rw [hx] at hr
      cases hr
  | ok r =>
      rw [hx] at hr
      cases hr
      rfl

end Places

end Xv6Sume32.Vm
