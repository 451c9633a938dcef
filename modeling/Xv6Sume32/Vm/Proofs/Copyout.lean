/-
What `copyout` writes, and where it follows a null pointer.

# What it writes

`copyout` goes page by page. It writes to the pages that `pgdir` has for
the user and returns -1 at the first page that it does not have for the
user (`keeps_of_copyout`, `exactly_of_copyout`). That `exec` gives no page
out twice is what makes the bytes stay.

# Where it goes wrong

`uva2ka` uses the entry that `walkpgdir` finds, without looking whether
there is a page table at all. In an image from `exec` (`Image`) there are
the kernel's page tables, and one for every 1024 pages of which the image
has some. `copyout` comes to a page without one when it is given such an
address, or when it runs over the end of the stack and the stack is the
last page of its page table: the pages of the image are all the user's but
the one below the stack, and the walk up ends there (`copyout_fails_iff`).
-/
import Xv6Sume32.Vm.Proofs.Sbrkx

namespace Xv6Sume32.Vm

open Lib

variable {va v : Nat} {buf : List Byte} {e : Pte} {argv : List (List Byte)}

-- ======== the property

/-- The address `j` bytes behind `va`. -/
def addrAt (va j : Nat) : Nat := (va + j) % 2 ^ 32

/-- The user's address `x` is byte `o` of page `f`. -/
def UserByte (pd : Pgdir) (x f o : Nat) : Prop :=
  ∃ e, pd.ptes (x / pgsize) = some e ∧ e.u = true ∧ e.frame = f ∧ x % pgsize = o

/-- Page `f` is one of the user's. -/
def UserPage (pd : Pgdir) (f : Nat) : Prop :=
  ∃ u e, pd.ptes u = some e ∧ e.u = true ∧ e.frame = f

/-- What `copyout` may come to. Where it succeeds, the bytes are at the
user's addresses from `va` on and nothing else has changed; where it fails,
only pages of the user have. -/
def Confined (pd : Pgdir) (va : Nat) (buf : List Byte) (m : Kmem) :
    Except VmPanic (Kmem × Bool) → Prop
  | .error _ => False
  | .ok (m', true) =>
      (∀ j b, buf[j]? = some b → ∃ f o, UserByte pd (addrAt va j) f o ∧ m'.mem f o = b) ∧
      ∀ f o, (∀ j, j < buf.length → ¬ UserByte pd (addrAt va j) f o) → m'.mem f o = m.mem f o
  | .ok (m', false) => ∀ f, ¬ UserPage pd f → m'.mem f = m.mem f

/-- In an image of size `sz` there is a page table for page `u`. -/
def HasTable (sz u : Nat) : Prop := u / npt ∈ kmapDirs ∨ npt * (u / npt) < npages sz

instance (sz u : Nat) : Decidable (HasTable sz u) := inferInstanceAs (Decidable (_ ∨ _))

/-- The ranges for which `copyout` finds a page table at every page that it
looks at: it starts below the last page of the image; or there, and ends
there or finds a page table behind; or above, where there is a page table. -/
def copyoutSafe (sz va len : Nat) : Prop :=
  len = 0 ∨ va / pgsize + 1 < npages sz ∨
    (va / pgsize + 1 = npages sz ∧ (va + len ≤ sz ∨ HasTable sz (npages sz))) ∨
    (npages sz ≤ va / pgsize ∧ HasTable sz (va / pgsize))

instance (sz va len : Nat) : Decidable (copyoutSafe sz va len) :=
  inferInstanceAs (Decidable (_ ∨ _))

-- ======== the writes

section Writes

variable {pd : Pgdir} {m m' : Kmem} {b : Bool}

theorem copyout_nil (fuel va : Nat) : copyout pd fuel va [] m = .ok (m, true) := by
  cases fuel <;> rfl

/-- Pages that are not the user's stay as they are. -/
theorem keeps_of_copyout (fuel : Nat)
    (h : copyout pd fuel va buf m = .ok (m', b)) {f : Nat} (hf : ¬ UserPage pd f) :
    m'.mem f = m.mem f := by
  induction fuel generalizing va buf m with
  | zero =>
    cases h
    rfl
  | succ fuel ih =>
    by_cases hbuf : buf = []
    · rw [hbuf, copyout_nil] at h
      cases h
      rfl
    rcases copyout_ok hbuf h with ⟨-, rfl⟩ | ⟨e, he, hu, h⟩
    · rfl
    · rw [ih h]
      exact Function.update_of_ne (fun hfe => hf ⟨_, e, he, hu, hfe.symm⟩) ..

/-- The bytes are at the user's addresses from `va` on, and nothing else
has changed. -/
structure Exactly (pd : Pgdir) (va : Nat) (buf : List Byte) (m m' : Kmem) : Prop where
  bytes : ∀ j b, buf[j]? = some b → ∃ f o, UserByte pd (va + j) f o ∧ m'.mem f o = b
  rest : ∀ f o, (∀ j, j < buf.length → ¬ UserByte pd (va + j) f o) → m'.mem f o = m.mem f o

/-- No page is there twice. -/
def Distinct (pd : Pgdir) : Prop :=
  ∀ u v e e', pd.ptes u = some e → pd.ptes v = some e' → e.frame = e'.frame → u = v

/-- The first page, and what comes behind it. -/
theorem Exactly.cons {va' n : Nat} (hd : Distinct pd)
    (he : pd.ptes (va / pgsize) = some e) (hu : e.u = true)
    (hn : n = min buf.length (pgsize - va % pgsize)) (hva : n < buf.length → va' = va + n)
    (h : Exactly pd va' (buf.drop n)
      (m.write e.frame (overwrite (m.mem e.frame) (va % pgsize) (buf.take n))) m') :
    Exactly pd va buf m m' := by
  have hp : pgsize = 4096 := rfl
  have hlen : (buf.drop n).length = buf.length - n := List.length_drop
  have htake : (buf.take n).length = n := by
    rw [List.length_take]
    omega
  have hbound : n ≤ pgsize - va % pgsize := by omega
  have hfirst : ∀ j, j < n → (va + j) / pgsize = va / pgsize ∧
      (va + j) % pgsize = va % pgsize + j := by
    intro j hj
    rw [hp] at hbound ⊢
    omega
  -- the bytes behind go to other pages
  have hother : ∀ j, j < (buf.drop n).length → ∀ o, ¬ UserByte pd (va' + j) e.frame o := by
    rintro j hj o ⟨e', he', -, hframe, -⟩
    have hsame := hd _ _ _ _ he' he hframe
    rw [hva (by omega)] at hsame
    rw [hp] at hsame hn
    omega
  refine ⟨fun j b hj => ?_, fun f o hout => ?_⟩
  · have hjlen : j < buf.length := lt_length hj
    by_cases hjn : j < n
    · obtain ⟨hpage, hoff⟩ := hfirst j hjn
      refine ⟨e.frame, va % pgsize + j, ⟨e, by rw [hpage]; exact he, hu, rfl, hoff⟩, ?_⟩
      rw [h.rest _ _ fun i hi => hother i hi _, Kmem.write_mem]
      unfold overwrite
      rw [if_pos (Nat.le_add_right _ _), Nat.add_sub_cancel_left, List.getElem?_take, if_pos hjn,
        hj]
      rfl
    · have hget : (buf.drop n)[j - n]? = some b := by
        rw [List.getElem?_drop, Nat.add_sub_cancel' (by omega)]
        exact hj
      obtain ⟨f, o, hbyte, hmem⟩ := h.bytes _ b hget
      rw [hva (by omega), Nat.add_assoc, Nat.add_sub_cancel' (by omega)] at hbyte
      exact ⟨f, o, hbyte, hmem⟩
  · have hstep : m'.mem f o
        = (m.write e.frame (overwrite (m.mem e.frame) (va % pgsize) (buf.take n))).mem f o := by
      refine h.rest f o fun j hj hbyte => hout (n + j) (by omega) ?_
      rw [hva (by omega), Nat.add_assoc] at hbyte
      exact hbyte
    rw [hstep]
    by_cases hf : f = e.frame
    swap
    · exact congrFun (Function.update_of_ne hf ..) o
    subst hf
    rw [Kmem.write_mem]
    by_cases hlo : o < va % pgsize
    · exact overwrite_before _ _ _ hlo
    by_cases hhi : va % pgsize + n ≤ o
    · exact overwrite_after _ _ _ (by rw [htake]; exact hhi)
    · -- a byte that is written to
      obtain ⟨hpage, hoff⟩ := hfirst (o - va % pgsize) (by omega)
      refine absurd ⟨e, ?_, hu, rfl, ?_⟩ (hout (o - va % pgsize) (by omega))
      · rw [hpage]
        exact he
      · rw [hoff]
        omega

theorem exactly_of_copyout (hd : Distinct pd) (fuel : Nat)
    (h : copyout pd fuel va buf m = .ok (m', true)) (hfuel : buf.length ≤ fuel)
    (hlt : va + buf.length < 2 ^ 32) : Exactly pd va buf m m' := by
  have hnil : Exactly pd va [] m m := ⟨nofun, fun _ _ _ => rfl⟩
  induction fuel generalizing va buf m with
  | zero =>
    obtain rfl := List.length_eq_zero_iff.1 (Nat.le_zero.1 hfuel)
    cases h
    exact hnil
  | succ fuel ih =>
    by_cases hbuf : buf = []
    · subst hbuf
      rw [copyout_nil] at h
      cases h
      exact hnil
    rcases copyout_ok hbuf h with ⟨hb, -⟩ | ⟨e, he, hu, h⟩
    · cases hb
    have hp : pgsize = 4096 := rfl
    have hpos := List.length_pos_iff.2 hbuf
    have hlen := List.length_drop (i := min buf.length (pgsize - va % pgsize)) (l := buf)
    refine .cons hd he hu rfl (fun hmore => ?_) (ih h ?_ ?_ ⟨nofun, fun _ _ _ => rfl⟩)
    · rw [hp] at hmore ⊢
      omega
    · rw [hp] at hlen ⊢
      omega
    · rw [hp] at hlen ⊢
      omega

end Writes

-- ======== the faults

/-- A page directory as `exec` leaves it, for a process of size `sz`. -/
structure Image (pd : Pgdir) (sz : Nat) : Prop where
  distinct : Distinct pd
  present : Present pd sz
  user : ∀ u e, pd.ptes u = some e → (e.u = true ↔ u + 2 ≠ npages sz)
  tables : ∀ d, (pd.tables d).isSome ↔ d ∈ kmapDirs ∨ npt * d < npages sz
  aligned : sz = pgsize * npages sz
  two : 2 ≤ npages sz
  lt : sz < kernbase

section Faults

variable {pd : Pgdir} {sz : Nat} {m : Kmem}

theorem Image.npages_lt (h : Image pd sz) : npages sz < 2 ^ 19 := by
  have hlt := h.lt
  have hal := h.aligned
  have hp : pgsize = 4096 := rfl
  have hb : kernbase = 0x80000000 := rfl
  rw [hp] at hal
  rw [hb] at hlt
  omega

theorem Image.table_iff (h : Image pd sz) (u : Nat) :
    (pd.tables (u / npt)).isSome ↔ HasTable sz u := h.tables _

theorem hasTable_of_lt {u : Nat} (hu : u < npages sz) : HasTable sz u :=
  Or.inr (Nat.lt_of_le_of_lt (Nat.mul_div_le u npt) hu)

/-- The user's pages. -/
theorem Image.user_iff (h : Image pd sz) (u : Nat) :
    (∃ e, pd.ptes u = some e ∧ e.u = true) ↔ u < npages sz ∧ u + 2 ≠ npages sz := by
  constructor
  · rintro ⟨e, he, hu⟩
    exact ⟨(h.present u).1 (by rw [he]; rfl), (h.user u e he).1 hu⟩
  · rintro ⟨hlt, hne⟩
    obtain ⟨e, he⟩ := Option.isSome_iff_exists.1 ((h.present u).2 hlt)
    exact ⟨e, he, (h.user u e he).2 hne⟩

/-- From a page of the user to the next one. -/
theorem Image.safe_next (h : Image pd sz) {len : Nat} (hlen : len ≠ 0)
    (hu : va / pgsize < npages sz ∧ va / pgsize + 2 ≠ npages sz) :
    copyoutSafe sz ((va / pgsize + 1) * pgsize % 2 ^ 32)
        (len - min len (pgsize - va % pgsize)) ↔ copyoutSafe sz va len := by
  have hp : pgsize = 4096 := rfl
  have hpages := h.npages_lt
  have hal := h.aligned
  have hnext : (va / pgsize + 1) * pgsize % 2 ^ 32 / pgsize = va / pgsize + 1 := by
    rw [hp] at hu ⊢
    omega
  unfold copyoutSafe
  rw [hnext]
  by_cases hlast : va / pgsize + 1 = npages sz
  · have hzero : len - min len (pgsize - va % pgsize) = 0 ↔ va + len ≤ sz := by
      rw [hp] at hlast hal ⊢
      omega
    rw [hzero, hlast]
    simp only [hlen, Nat.lt_irrefl, Nat.le_refl, false_or, true_and]
    have hne : ¬ npages sz + 1 < npages sz ∧ ¬ npages sz + 1 = npages sz
        ∧ ¬ npages sz ≤ va / pgsize := by omega
    simp only [hne, false_and, false_or, or_false]
  · exact iff_of_true (Or.inr (by omega)) (Or.inr (Or.inl (by omega)))

/-- `copyout` follows a null pointer exactly for the ranges that are not
safe. -/
theorem copyout_fails_iff (h : Image pd sz) (fuel : Nat) (hfuel : buf.length ≤ fuel) :
    (∃ e, copyout pd fuel va buf m = .error e) ↔ ¬ copyoutSafe sz va buf.length := by
  induction fuel generalizing va buf m with
  | zero =>
    have hlen := Nat.le_zero.1 hfuel
    refine iff_of_false ?_ (not_not.2 (Or.inl hlen))
    rintro ⟨e, he⟩
    cases he
  | succ fuel ih =>
    by_cases hbuf : buf = []
    · subst hbuf
      refine iff_of_false ?_ (not_not.2 (Or.inl rfl))
      rintro ⟨e, he⟩
      cases he
    have hlen : buf.length ≠ 0 := fun h0 => hbuf (List.length_eq_zero_iff.1 h0)
    by_cases ht : (pd.tables (va / pgsize / npt)).isSome
    swap
    · -- no page table
      have hno : ¬ HasTable sz (va / pgsize) := fun hh => ht ((h.table_iff _).2 hh)
      have hout : ¬ va / pgsize < npages sz := fun hlt => hno (hasTable_of_lt hlt)
      refine iff_of_true ⟨_, copyout_null hbuf (Option.not_isSome_iff_eq_none.1 ht)⟩ ?_
      unfold copyoutSafe
      simp only [hno, and_false, or_false]
      omega
    by_cases huser : va / pgsize < npages sz ∧ va / pgsize + 2 ≠ npages sz
    · obtain ⟨e, he, hu⟩ := (h.user_iff _).2 huser
      rw [copyout_next hbuf ht he hu, ih ?_, List.length_drop, h.safe_next hlen huser]
      have hp : pgsize = 4096 := rfl
      rw [List.length_drop, hp]
      omega
    · -- a page that is not the user's
      have hstop : ∀ e, pd.ptes (va / pgsize) = some e → e.u = false := by
        intro e he
        by_contra hne
        exact huser ((h.user_iff _).1 ⟨e, he, Bool.eq_true_of_not_eq_false hne⟩)
      rw [copyout_stop hbuf ht hstop]
      refine iff_of_false ?_ (not_not.2 ?_)
      · rintro ⟨e, he⟩
        cases he
      · have htable := (h.table_iff _).1 ht
        unfold copyoutSafe
        simp only [htable, and_true]
        omega

/-- A copy that succeeds ends below the size. -/
theorem Image.below_of_copyout (h : Image pd sz) {m' : Kmem} (hva : va < 2 ^ 32) (hbuf : buf ≠ [])
    (hr : copyout pd buf.length va buf m = .ok (m', true)) : va + buf.length ≤ sz := by
  have hp : pgsize = 4096 := rfl
  have hpos := List.length_pos_iff.2 hbuf
  have hpages := h.npages_lt
  have hal := h.aligned
  have hcover : ∀ u, va / pgsize ≤ u → u * pgsize < va + buf.length → u < 2 ^ 20 →
      u < npages sz := fun u hlo hhi hu =>
    ((h.user_iff u).1 (copyout_true _ hr hbuf (Nat.le_refl _) hlo hhi hu)).1
  by_contra hno
  rw [hp] at hcover hal
  have hfirst := hcover (va / 4096) (Nat.le_refl _) (by omega) (by omega)
  exact Nat.lt_irrefl _ (hcover (npages sz) (by omega) (by omega) (by omega))

/-- In an image, `copyout` is confined for the safe ranges and for no
others. -/
theorem Image.confined_iff (h : Image pd sz) (hva : va < 2 ^ 32) (buf : List Byte) :
    Confined pd va buf m (copyout pd buf.length va buf m) ↔ copyoutSafe sz va buf.length := by
  have hfail : (∃ e, copyout pd buf.length va buf m = .error e) ↔ ¬ copyoutSafe sz va buf.length :=
    copyout_fails_iff h _ (Nat.le_refl _)
  cases hr : copyout pd buf.length va buf m with
  | error e => exact iff_of_false id (hfail.1 ⟨e, hr⟩)
  | ok r =>
    obtain ⟨m', done⟩ := r
    have hsafe : copyoutSafe sz va buf.length := by
      by_contra hno
      obtain ⟨e, he⟩ := hfail.2 hno
      rw [hr] at he
      cases he
    refine iff_of_true ?_ hsafe
    cases done with
    | false => exact fun f hf => keeps_of_copyout _ hr hf
    | true =>
      by_cases hbuf : buf = []
      · subst hbuf
        cases hr
        exact ⟨nofun, fun _ _ _ => rfl⟩
      have hbelow := h.below_of_copyout hva hbuf hr
      have hlt := h.lt
      have hb : kernbase = 0x80000000 := rfl
      have hexact := exactly_of_copyout h.distinct _ hr (Nat.le_refl _) (by omega)
      have haddr : ∀ j, j < buf.length → addrAt va j = va + j := by
        intro j hj
        unfold addrAt
        omega
      refine ⟨fun j b hj => ?_, fun f o hout => hexact.rest f o fun j hj => ?_⟩
      · rw [haddr j (lt_length hj)]
        exact hexact.bytes j b hj
      · rw [← haddr j hj]
        exact hout j hj

end Faults

-- ======== images

/-- An image under way: all pages are the user's, and there are no page
tables but the kernel's and those of its pages. -/
structure Plain (pd : Pgdir) (sz : Nat) : Prop where
  user : ∀ u e, pd.ptes u = some e → e.u = true
  tables : ∀ d, (pd.tables d).isSome → d ∈ kmapDirs ∨ npt * d < npages sz
  le : sz ≤ kernbase

section Build

variable {pd pd' : Pgdir} {sz newsz : Nat} {m m' : Kmem}

theorem walkpgdir_some (h : walkpgdir m pd v = some (m', pd')) :
    (∀ d, (pd'.tables d).isSome → (pd.tables d).isSome ∨ d = v / npt) ∧
      ∀ u e, pd'.ptes u = some e → pd.ptes u = some e := by
  unfold walkpgdir at h
  split at h
  · cases h
    exact ⟨fun _ => Or.inl, fun _ _ => id⟩
  · split at h
    · cases h
    · cases h
      refine ⟨fun d hd => ?_, fun u e he => ?_⟩
      · dsimp only at hd
        by_cases hdv : d = v / npt
        · exact Or.inr hdv
        · rw [Function.update_of_ne hdv] at hd
          exact Or.inl hd
      · dsimp only at he
        split at he
        · cases he
        · exact he

theorem mappages_some (h : mappages m pd v e = .ok (some (m', pd'))) :
    (∀ d, (pd'.tables d).isSome → (pd.tables d).isSome ∨ d = v / npt) ∧
      ∀ u e', pd'.ptes u = some e' → pd.ptes u = some e' ∨ e' = e := by
  unfold mappages at h
  split at h
  · cases h
  · next m₁ pd1 hw =>
    obtain ⟨htab, hptes⟩ := walkpgdir_some hw
    split at h
    · cases h
    · cases h
      refine ⟨htab, fun u e' he => ?_⟩
      dsimp only at he
      by_cases huv : u = v
      · rw [huv, Function.update_self] at he
        exact Or.inr (Option.some.inj he).symm
      · rw [Function.update_of_ne huv] at he
        exact Or.inl (hptes u e' he)

/-- Pages that have been added. -/
theorem growLoop_plain {w : Bool} {fill : Nat → Nat → Kmem → Pgdir → Except VmPanic Page}
    (n : Nat) {i : Nat} (h : growLoop w fill sz newsz n i m pd = .ok (true, m', pd'))
    (hend : npages sz + i + n ≤ npages newsz) (hpd : Plain pd newsz) : Plain pd' newsz := by
  induction n generalizing i m pd with
  | zero =>
    cases h
    exact hpd
  | succ n ih =>
    unfold growLoop at h
    split at h
    · obtain ⟨r, -, h⟩ := bind_eq_ok.1 h
      cases h
    · next f m₁ hk =>
      obtain ⟨page, -, h⟩ := bind_eq_ok.1 h
      obtain ⟨r, hmap, h⟩ := bind_eq_ok.1 h
      match r, hmap, h with
      | none, _, h =>
        obtain ⟨r, -, h⟩ := bind_eq_ok.1 h
        obtain ⟨m2, -, h⟩ := bind_eq_ok.1 h
        cases h
      | some (m2, pd2), hmap, h =>
        obtain ⟨htab, hptes⟩ := mappages_some hmap
        refine ih h (by omega) ⟨fun u e he => ?_, fun d hd => ?_, hpd.le⟩
        · rcases hptes u e he with hold | rfl
          · exact hpd.user u e hold
          · rfl
        · rcases htab d hd with hold | rfl
          · exact hpd.tables d hold
          · exact Or.inr (Nat.lt_of_le_of_lt (Nat.mul_div_le _ npt) (by omega))

theorem Plain.mono (h : Plain pd sz) (hle : npages sz ≤ npages newsz) (hnew : newsz ≤ kernbase) :
    Plain pd newsz :=
  ⟨h.user, fun d hd => (h.tables d hd).imp_right fun hlt => Nat.lt_of_lt_of_le hlt hle, hnew⟩

theorem Plain.allocuvm {r : Nat} (h : Plain pd sz)
    (hr : allocuvm m pd sz newsz = .ok (r, m', pd')) (h0 : r ≠ 0) :
    Plain pd' r ∧ (r = newsz ∨ newsz < sz) := by
  unfold Vm.allocuvm grow at hr
  split at hr
  · cases hr
    exact absurd rfl h0
  · next hbig =>
    split at hr
    · next hlt =>
      cases hr
      exact ⟨h, Or.inr hlt⟩
    · next hle =>
      obtain ⟨⟨done, m₁, pd1⟩, hloop, hr⟩ := bind_eq_ok.1 hr
      cases done with
      | false =>
        cases hr
        exact absurd rfl h0
      | true =>
        dsimp only at hr
        rw [if_pos rfl] at hr
        cases hr
        have hmono := npages_mono (Nat.not_lt.1 hle)
        exact ⟨growLoop_plain _ hloop (by omega) (h.mono hmono (by omega)), Or.inl rfl⟩

theorem Plain.segLoop (file : List Byte) (n : Nat) {off sz' : Nat} (h : Plain pd sz)
    (hr : segLoop file n off sz m pd = .ok (m', pd', some sz')) : Plain pd' sz' := by
  induction n generalizing off sz m pd with
  | zero =>
    cases hr
    exact h
  | succ n ih =>
    unfold Vm.segLoop at hr
    split at hr
    · cases hr
    · dsimp only at hr
      split at hr
      · exact ih h hr
      split at hr
      · cases hr
      split at hr
      · cases hr
      obtain ⟨⟨r, m₁, pd1⟩, halloc, hr⟩ := bind_eq_ok.1 hr
      dsimp only at hr
      split at hr
      · cases hr
      next h0 =>
      split at hr
      · cases hr
      obtain ⟨⟨m2, done⟩, -, hr⟩ := bind_eq_ok.1 hr
      cases done with
      | false => cases hr
      | true => exact ih (h.allocuvm halloc h0).1 hr

theorem kmapLoop_plain (ds : List Nat) (hds : ∀ d ∈ ds, d ∈ kmapDirs)
    (h : kmapLoop ds m pd = .ok (m', some pd')) (hpd : Plain pd 0) : Plain pd' 0 := by
  induction ds generalizing m pd with
  | nil =>
    cases h
    exact hpd
  | cons d ds ih =>
    unfold kmapLoop at h
    split at h
    · obtain ⟨m₁, -, h⟩ := bind_eq_ok.1 h
      cases h
    · next m₁ pd1 hw =>
      obtain ⟨htab, hptes⟩ := walkpgdir_some hw
      refine ih (fun d' hd' => hds d' (List.mem_cons_of_mem _ hd')) h
        ⟨fun u e he => hpd.user u e (hptes u e he), fun d' hd' => ?_, hpd.le⟩
      rcases htab d' hd' with hold | rfl
      · exact hpd.tables d' hold
      · rw [Nat.mul_div_cancel_left d (by decide)]
        exact Or.inl (hds d List.mem_cons_self)

theorem setupkvm_plain (h : setupkvm m = .ok (m', some pd)) : Plain pd 0 := by
  unfold setupkvm at h
  split at h
  · cases h
  · exact kmapLoop_plain kmapDirs (fun _ => id) h ⟨nofun, nofun, Nat.zero_le _⟩

/-- Before the stack is filled: the size, and the page that is taken from
the user. -/
theorem Plain.loadImage {file : List Byte} {elf : Elfhdr}
    (h : Plain pd 0) (hr : loadImage file elf argv m pd = .ok (m', pd', some sz)) :
    ∃ pd2, Plain pd2 sz ∧ clearpteu pd2 (sz / pgsize - 2) = .ok pd' ∧
      ∃ sz0, sz = pgroundup sz0 + 2 * pgsize := by
  obtain ⟨⟨m₁, pd1, r⟩, hseg, hr⟩ := bind_eq_ok.1 hr
  cases r with
  | none => cases hr
  | some sz0 =>
    obtain ⟨⟨sz1, m2, pd2⟩, halloc, hr⟩ := bind_eq_ok.1 hr
    dsimp only at hr
    split at hr
    · cases hr
    next h0 =>
    obtain ⟨pd3, hclear, hr⟩ := bind_eq_ok.1 hr
    obtain ⟨⟨m3, done⟩, -, hr⟩ := bind_eq_ok.1 hr
    cases done with
    | false => cases hr
    | true =>
      cases hr
      obtain ⟨hsame, hle⟩ := pgroundup_le (h.segLoop file _ hseg).le
      obtain ⟨hpd2, hor⟩ := ((h.segLoop file _ hseg).mono (Nat.le_of_eq hsame.symm) hle).allocuvm
        halloc h0
      exact ⟨pd2, hpd2, hclear, sz0, by omega⟩

theorem clearpteu_inv (h : clearpteu pd v = .ok pd') : pd'.tables = pd.tables ∧ ∀ u, pd'.ptes u
      = if u = v then (pd.ptes v).map fun e => { e with u := false } else pd.ptes u := by
  unfold clearpteu at h
  split at h
  · cases h
  · cases h
    exact ⟨rfl, fun u => Function.update_apply ..⟩

/-- The image that `exec` hands over. -/
theorem execImage_image {m₀ m₁ : Kmem} {file : Option (List Byte)}
    (hgood : m₀.Good) (h : execImage m₀ file argv = .ok (m₁, some ⟨pd, sz⟩)) : Image pd sz := by
  have hspec := execImage_spec ⟨hgood, fun _ (hf : False) => hf.elim⟩ file argv
  rw [h] at hspec
  obtain ⟨himg, hlt, -⟩ := hspec
  -- the page directory before the arguments
  obtain ⟨pd2, hplain, hclear, sz0, hsz⟩ : ∃ pd2, Plain pd2 sz ∧
      clearpteu pd2 (sz / pgsize - 2) = .ok pd ∧ ∃ sz0, sz = pgroundup sz0 + 2 * pgsize := by
    unfold execImage at h
    split at h
    · cases h
    split at h
    · cases h
    split at h
    · cases h
    obtain ⟨⟨m, r⟩, hset, h⟩ := bind_eq_ok.1 h
    cases r with
    | none => cases h
    | some pd0 =>
      obtain ⟨⟨m, pd', r⟩, hload, h⟩ := bind_eq_ok.1 h
      cases r with
      | none =>
        obtain ⟨m, -, h⟩ := bind_eq_ok.1 h
        cases h
      | some sz' =>
        cases h
        exact (setupkvm_plain hset).loadImage hload
  obtain ⟨htables, hptes⟩ := clearpteu_inv hclear
  have hp : pgsize = 4096 := rfl
  obtain ⟨hal, htwo⟩ : sz = pgsize * npages sz ∧ 2 ≤ npages sz := by
    unfold npages
    unfold pgroundup at hsz
    rw [hp] at hsz ⊢
    omega
  have hguard : sz / pgsize - 2 = npages sz - 2 := by
    rw [hp] at hal ⊢
    omega
  refine ⟨fun u v e e' he he' hframe => ?_, himg.present, fun u e he => ?_, fun d => ⟨fun hd => ?_,
    fun hd => ?_⟩, hal, htwo, hlt⟩
  · have hu : pd.among (fun _ => False) (some (.page u)) e.frame := ⟨e, he, rfl⟩
    have hv : pd.among (fun _ => False) (some (.page v)) e.frame := ⟨e', he', hframe.symm⟩
    have hspot := himg.held.apart.one hu hv
    cases hspot
    rfl
  · rw [hptes, hguard] at he
    split at he
    · next hu =>
      obtain ⟨e2, -, rfl⟩ := Option.map_eq_some_iff.1 he
      exact iff_of_false nofun (by omega)
    · next hu => exact iff_of_true (hplain.user u e he) (by omega)
  · rw [htables] at hd
    exact hplain.tables d hd
  · rcases hd with hd | hd
    · exact himg.kernel d hd
    · obtain ⟨-, -, ht⟩ := himg.page hd
      rwa [Nat.mul_div_cancel_left d (by decide)] at ht

end Build

-- ======== the result

/-- For every page directory built by `exec`, whatever memory holds, every
address and every string: `copyout` is confined exactly when the range is
safe. -/
theorem copyout_confined_iff {m₀ m₁ : Kmem} {file : Option (List Byte)}
    {argv : List (List Byte)} {pd : Pgdir} {sz : Nat} (hgood : m₀.Good)
    (hexec : execImage m₀ file argv = .ok (m₁, some ⟨pd, sz⟩)) (m : Kmem) (va : Word)
    (buf : List Byte) :
    Confined pd va.toNat buf m (copyout pd buf.length va.toNat buf m)
      ↔ copyoutSafe sz va.toNat buf.length :=
  (execImage_image hgood hexec).confined_iff va.isLt buf

/-- A program without segments. -/
def emptyElf : List Byte := [0x7F, 0x45, 0x4C, 0x46] ++ List.replicate 48 0

/-- Memory with 128 free pages. -/
def emptyMem : Kmem := (bare 0 128 []).kmemFor 128

theorem emptyMem_good : emptyMem.Good :=
  ((bare_good (by decide) (by decide) (by simp) List.nodup_nil).withLimit 128).kmem

/-- Its image has two pages. -/
theorem execImage_empty : ∃ m₁ pd,
    execImage emptyMem (some emptyElf) [] = .ok (m₁, some ⟨pd, 8192⟩) ∧ pd.tables 256 = none := by
  have hval : (execImage emptyMem (some emptyElf) []).toOption.bind
      (fun r => r.2.map fun a => (a.sz, a.pgdir.tables 256)) = some (8192, none) := by
    decide +kernel
  cases hr : execImage emptyMem (some emptyElf) [] with
  | error e =>
    rw [hr] at hval
    cases hval
  | ok r =>
    rw [hr] at hval
    obtain ⟨m₁, a⟩ := r
    cases a with
    | none => cases hval
    | some a =>
      obtain ⟨pd, sz⟩ := a
      obtain ⟨rfl, htab⟩ := Prod.mk.inj (Option.some.inj hval)
      exact ⟨m₁, pd, rfl, htab⟩

/-- Four bytes at the top of the stack. -/
theorem copyout_confined_iff_stack : ∃ m₁ pd,
    execImage emptyMem (some emptyElf) [] = .ok (m₁, some ⟨pd, 8192⟩) ∧
      (Confined pd (8188 : Word).toNat [1, 2, 3, 4] m₁
          (copyout pd 4 (8188 : Word).toNat [1, 2, 3, 4] m₁)
        ↔ copyoutSafe 8192 (8188 : Word).toNat 4) := by
  obtain ⟨m₁, pd, h, -⟩ := execImage_empty
  exact ⟨m₁, pd, h, copyout_confined_iff emptyMem_good h m₁ 8188 [1, 2, 3, 4]⟩

/-- A byte at 1 GB, between the size and `KERNBASE`: there is no page
table, and the entry at address 0 is used. -/
theorem copyout_follows_null : ∃ m₁ pd,
    execImage emptyMem (some emptyElf) [] = .ok (m₁, some ⟨pd, 8192⟩) ∧
      copyout pd 1 0x40000000 [1] m₁ = .error .nullPte ∧
      ¬ Confined pd 0x40000000 [1] m₁ (copyout pd 1 0x40000000 [1] m₁) := by
  obtain ⟨m₁, pd, h, htab⟩ := execImage_empty
  have hnull : copyout pd 1 0x40000000 [1] m₁ = .error .nullPte :=
    copyout_null nofun htab
  refine ⟨m₁, pd, h, hnull, ?_⟩
  rw [hnull]
  exact id

end Xv6Sume32.Vm
